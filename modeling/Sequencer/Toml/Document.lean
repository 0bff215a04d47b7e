import Sequencer.Toml.Tree

/-!
# TOML: documents

Reading a document line by line: a key with a value adds to the table at hand, and a header begins the next
table. Lists and tables in braces nest less than eighty deep, and a dotted key has less than eighty
parts.
-/

namespace Sequencer.Toml

/-- How many containers may not nest, and how many parts a key may not have. -/
def depthLimit : Nat := 80

/-! ## Keys -/

def isBareKey (c : Char) : Bool := c.isAlphanum || c = '_' || c = '-'

/-- One part of a key: a bare word, or a text in quotes on one line. -/
def readKeyPart (s : List Char) : Option (String × List Char) :=
  match s with
  | '"' :: r => readBasic (r.length + 1) [] r
  | '\'' :: r => readLiteral r
  | _ =>
    let (word, r) := s.span isBareKey
    if word.isEmpty then none else some (String.ofList word, r)

/-- The parts of a dotted key, with blanks around each. -/
def readKeyParts : Nat → List Char → Option (List String × List Char)
  | 0, _ => none
  | fuel + 1, s =>
    (readKeyPart (skipSpace s)).bind fun (part, r) =>
      match skipSpace r with
      | '.' :: r => (readKeyParts fuel r).map fun (parts, r) => (part :: parts, r)
      | r => some ([part], r)

/-- A dotted key: the parts in front and the last one. -/
def readKey (s : List Char) : Option ((List String × String) × List Char) :=
  (readKeyParts (s.length + 1) s).bind fun (parts, r) =>
    if parts.length < depthLimit then
      parts.getLast?.map fun key => ((parts.dropLast, key), r)
    else none

/-! ## Values -/

mutual

/-- A value, in which containers nest less than `depth` deep. -/
def readValue : Nat → Nat → List Char → Option (Node × List Char)
  | 0, _, _ => none
  | fuel + 1, depth, s =>
    match s with
    | '[' :: r =>
      if depth ≤ 1 then none
      else
        let r := skipLines r.length r
        match r with
        | ']' :: r => some (.list [], r)
        | _ => (readItems fuel (depth - 1) r).map fun (items, r) => (.list items, r)
    | '{' :: r =>
      if depth ≤ 1 then none
      else
        let r := skipSpace r
        match r with
        | '}' :: r => some (.table .inline [], r)
        | _ => (readFields fuel (depth - 1) [] r).map fun (es, r) => (.table .inline es, r)
    | _ => (readScalar s).map fun (v, r) => (.scalar v, r)

/-- The elements of a list and its closing bracket. A comma may follow the last element. -/
def readItems : Nat → Nat → List Char → Option (List Node × List Char)
  | 0, _, _ => none
  | fuel + 1, depth, s =>
    (readValue fuel depth s).bind fun (item, r) =>
      match skipLines r.length r with
      | ']' :: r => some ([item], r)
      | ',' :: r =>
        let r := skipLines r.length r
        match r with
        | ']' :: r => some ([item], r)
        | _ => (readItems fuel depth r).map fun (items, r) => (item :: items, r)
      | _ => none

/-- The entries of a table in braces and its closing brace, added to some entries. -/
def readFields : Nat → Nat → Entries → List Char → Option (Entries × List Char)
  | 0, _, _, _ => none
  | fuel + 1, depth, es, s =>
    (readKey s).bind fun ((path, key), r) =>
      match r with
      | '=' :: r =>
        (readValue fuel depth (skipSpace r)).bind fun (v, r) =>
          (Entries.putKey key v path es).bind fun es =>
            match skipSpace r with
            | '}' :: r => some (es, r)
            | ',' :: r => readFields fuel depth es r
            | _ => none
      | _ => none

end

/-! ## Lines -/

/-- What follows a line, after its blanks, its comment and its break. -/
def endLine? (s : List Char) : Option (List Char) :=
  match skipComment (skipSpace s) with
  | [] => some []
  | r => newline? r

/-- Reads a header and begins its table. -/
def readHeader (d : Draft) (s : List Char) : Option (Draft × List Char) :=
  match s with
  | '[' :: '[' :: r =>
    (readKey r).bind fun ((path, name), r) =>
      match r with
      | ']' :: ']' :: r => (endLine? r).bind fun r => (d.openRepeated? path name).map fun d => (d, r)
      | _ => none
  | '[' :: r =>
    (readKey r).bind fun ((path, name), r) =>
      match r with
      | ']' :: r => (endLine? r).bind fun r => (d.open? path name).map fun d => (d, r)
      | _ => none
  | _ => none

/-- Reads a key with its value. -/
def readEntry (d : Draft) (s : List Char) : Option (Draft × List Char) :=
  (readKey s).bind fun ((path, key), r) =>
    match r with
    | '=' :: r =>
      (readValue (2 * r.length + 2) depthLimit (skipSpace r)).bind fun (v, r) =>
        (endLine? r).bind fun r => (d.putKey path key v).map fun d => (d, r)
    | _ => none

/-- Reads lines up to the end of a text. -/
def readLines : Nat → Draft → List Char → Option Draft
  | 0, _, _ => none
  | fuel + 1, d, s =>
    match skipSpace s with
    | [] => some d
    | '#' :: r => (endLine? ('#' :: r)).bind (readLines fuel d)
    | '[' :: r => (readHeader d ('[' :: r)).bind fun (d, r) => readLines fuel d r
    | '\n' :: r => readLines fuel d r
    | '\r' :: r => (newline? ('\r' :: r)).bind (readLines fuel d)
    | s => (readEntry d s).bind fun (d, r) => readLines fuel d r

/-- A text without the mark of byte order that may stand in front. -/
def dropMark : List Char → List Char
  | c :: r => if c = Char.ofNat 0xFEFF then r else c :: r
  | [] => []

/-- The entries of the document that a text is, as it is written. -/
def document? (s : List Char) : Option Entries :=
  let s := dropMark s
  (readLines (s.length + 1) .new s).bind Draft.close

end Sequencer.Toml
