import Sequencer.Decimal.Numeral
import Sequencer.Text.Casing
import Sequencer.Text.Split

/-!
# Decorated names

The names under which values are saved, read and deleted. In front of a colon a name may say which
level it belongs to, a bucket of that level, that it takes no path (`~`) and that failures of its
store are tolerated (`?`); behind its first point it may carry a path into the value:
`[~][level][_bucket][?]:name[.path]`. Three forms are not written to: an expression `$:…`, a literal
document `_:…` and a quoted text.
-/

namespace Sequencer

/-- Which of its stores a level keeps values in. -/
inductive Provider where
  | session
  | map
  | global
  | request
  | log
  | error
  deriving Repr, DecidableEq

namespace Provider

/-- The word that selects a store. -/
def keyword : Provider → String
  | .session => "session"
  | .map => "map"
  | .global => "global"
  | .request => "request"
  | .log => "log"
  | .error => "error"

/-- All stores, sorted by keyword. -/
def all : List Provider := [.error, .global, .log, .map, .request, .session]

def ofKeyword? (word : String) : Option Provider := all.find? fun p => p.keyword = word

/-- Whether names of this store carry paths. The two sinks take any text as a name. -/
def hasPaths : Provider → Bool
  | .log | .error => false
  | _ => true

end Provider

/-- Where an address points. -/
inductive Level where
  /-- The scope that is active. -/
  | current
  /-- The scope this many links up the chain. -/
  | ancestor (n : Nat)
  /-- The value of an expression. -/
  | expression
  /-- The value of a document. -/
  | literal
  /-- A text. -/
  | quoted
  | provider (p : Provider)
  deriving Repr, DecidableEq

/-- Whether names of a level carry paths. -/
def Level.hasPaths : Level → Bool
  | .provider p => p.hasPaths
  | _ => true

/-- A decorated name, taken apart. -/
structure Address where
  level : Level
  /-- The bucket inside a store. -/
  bucket : String
  /-- The name of the variable, or the text of an address that is not written to. -/
  name : String
  /-- Where in the value the address points, if not at all of it. -/
  path : Option String
  /-- Whether a failing store aborts the request. -/
  fatal : Bool
  deriving Repr, DecidableEq

/-- Why a text is no decorated name. -/
inductive AddressError where
  | empty
  | unknownLevel (word : String)
  /-- A number of links that no chain can have. -/
  | badAncestor (word : String)
  deriving Repr, DecidableEq

def AddressError.message : AddressError → String
  | .empty => "empty variable name"
  | .unknownLevel word => s!"unknown level '{word}'"
  | .badAncestor word => s!"ancestor level '{word}' is out of range"

namespace Address

open Text

/-- The same address without its path: the whole variable. -/
def container (a : Address) : Address := { a with path := none }

/-- Whether values cannot be saved there. -/
def readOnly (a : Address) : Bool :=
  match a.level with
  | .expression | .literal | .quoted => true
  | _ => false

/-- The text between single quotes, for a text of at least two characters that begins and ends with
one. -/
def unquote? : List Char → Option (List Char)
  | '\'' :: r => dropTail? ['\''] r
  | _ => none

/-- A selector, taken apart: the level word, the bucket, and whether the two marks stand on it. -/
structure Selector where
  word : List Char
  bucket : List Char
  plain : Bool
  tolerant : Bool
  deriving Repr

/-- Takes the mark of tolerance off the end of a word. -/
def dropTolerance (s : List Char) : List Char × Bool :=
  match dropTail? ['?'] s with
  | some s => (trimEnd s, true)
  | none => (s, false)

/-- Splits a word at its first underscore, unless it begins with it. -/
def splitBucket? (s : List Char) : Option (List Char × List Char) :=
  match splitFirst '_' s with
  | some ([], _) => none
  | other => other

/-- Takes the selector in front of the colon apart. -/
def Selector.read (s : List Char) : Selector :=
  let s := trim s
  let (s, plain) := match s with
    | '~' :: r => (r, true)
    | _ => (s, false)
  let (word, bucket, tolerant) := match splitBucket? s with
    | some (word, bucket) =>
      let (bucket, tolerant) := dropTolerance (trim bucket)
      (trim word, bucket, tolerant)
    | none => (s, [], false)
  let (word, tolerant') := dropTolerance word
  ⟨word, bucket, plain, tolerant || tolerant'⟩

/-- The level that a word in small letters selects. -/
def level? (word : List Char) : Except AddressError Level :=
  if word = [] then .ok .current
  else if word = ['$'] then .ok .expression
  else if word = ['_'] then .ok .literal
  else if word.all Char.isDigit then
    match Decimal.natural? word with
    | some n => .ok (.ancestor n)
    | none => .error (.badAncestor (String.ofList word))
  else
    match Provider.ofKeyword? (String.ofList word) with
    | some p => .ok (.provider p)
    | none => .error (.unknownLevel (String.ofList word))

/-- The name and path in a text, where it may hold a path. -/
def splitPath (paths : Bool) (s : List Char) : List Char × Option (List Char) :=
  match (if paths then splitFirst '.' s else none) with
  | some (name, path) =>
    let path := trim path
    (trim name, if path.isEmpty then none else some path)
  | none => (trim s, none)

/-- The address of a level, given the text behind the colon. -/
def ofParts (level : Level) (bucket : List Char) (plain fatal : Bool) (rest : List Char) :
    Except AddressError Address :=
  if level = .expression ∨ level = .literal then
    .ok ⟨level, String.ofList bucket, String.ofList (trim rest), none, fatal⟩
  else
    let (name, path) := splitPath (!plain && level.hasPaths) rest
    if name.isEmpty then .error .empty
    else .ok ⟨level, String.ofList bucket, String.ofList name, path.map String.ofList, fatal⟩

/-- Reads a decorated name. -/
def parse (text : List Char) : Except AddressError Address :=
  let text := trim text
  if text.isEmpty then .error .empty
  else
    match unquote? text with
    | some inner => .ok ⟨.quoted, "", String.ofList inner, none, true⟩
    | none =>
      match splitFirst ':' text with
      | some (selector, rest) =>
        let s := Selector.read selector
        match level? (lower s.word) with
        | .ok level => ofParts level s.bucket s.plain (!s.tolerant) rest
        | .error e => .error e
      | none => ofParts .current [] false true text

end Address
end Sequencer
