import Sequencer.Table
import Sequencer.Text.Blank
import Sequencer.Text.Letters
import Sequencer.Text.Split

/-!
# Environment files

A file of lines `NAME=value` that adds to the variables of the environment. Values may stand in quotes, hold
escapes, and refer to other variables. A value in quotes may go over several lines. The file counts up to its
first bad line, and never changes a variable that is already set.
-/

namespace Sequencer.Dotenv

open Text

/-! ## Lines -/

/-- Where in a line the reading is, as far as it decides where the line ends. -/
inductive LineState where
  | complete
  | escape
  | strong
  | strongEscape
  | weak
  | weakEscape
  | blank
  deriving Repr, DecidableEq

/-- The state after a character outside of quotes. -/
def LineState.outside (c : Char) (other : LineState) : LineState :=
  if c = '\\' then .escape else if c = '"' then .weak else if c = '\'' then .strong else other

/-- The state after one more character. -/
def LineState.next (c : Char) : LineState → LineState
  | .blank => LineState.outside c .complete
  | .escape => .complete
  | .complete =>
    if isBlank c && c != '\n' && c != '\r' then .blank else LineState.outside c .complete
  | .weak => if c = '\\' then .weakEscape else if c = '"' then .complete else .weak
  | .weakEscape => .weak
  | .strong => if c = '\\' then .strongEscape else if c = '\'' then .complete else .strong
  | .strongEscape => .strong

/-- The characters of a line in front of a comment, and the state after the line unless there is one. -/
def scanLine : LineState → List Char → List Char × Option LineState
  | state, [] => ([], some state)
  | state, c :: r =>
    if state = .blank && c = '#' then ([], none)
    else
      let (before, end?) := scanLine (state.next c) r
      (c :: before, end?)

/-- The first line of a text with its break, and what follows. -/
def cutLine (s : List Char) : List Char × List Char :=
  match s.span (· != '\n') with
  | (line, '\n' :: r) => (line ++ ['\n'], r)
  | (line, r) => (line, r)

/-- A line without its break. -/
def dropBreak (s : List Char) : List Char :=
  match s.reverse with
  | '\n' :: '\r' :: r => r.reverse
  | '\n' :: r => r.reverse
  | _ => s

/-- Takes one line of settings off a text, which may be several lines of the file. Nothing if the file
ends inside of it. -/
def readLine : Nat → LineState → List Char → List Char → Option (List Char × List Char)
  | 0, _, _, _ => none
  | fuel + 1, state, got, s =>
    if s.isEmpty then (if state = .complete then some (got, []) else none)
    else
      let (line, rest) := cutLine s
      if (trimStart (got ++ line)).head? = some '#' then some ([], rest)
      else
        match scanLine state line with
        | (before, none) => some (got ++ before, rest)
        | (_, some .complete) => some (dropBreak (got ++ line), rest)
        | (_, some state) => readLine fuel state (got ++ line) rest

/-! ## Values -/

/-- Where in a value the reading is. `weak` says whether it is inside of double quotes. -/
inductive ValueState where
  | outside (weak : Bool)
  | strong
  | escaped (weak : Bool)
  /-- After a dollar sign, with the name so far in reverse. -/
  | reference (weak : Bool) (name : List Char)
  /-- After a dollar sign and a brace. -/
  | block (weak : Bool) (name : List Char)
  /-- Behind the value: only blanks may follow, or a comment. -/
  | ending
  deriving Repr, DecidableEq

/-- What an escaped character denotes. -/
def escape? (c : Char) : Option Char :=
  if c = 'n' then some '\n'
  else if c = '\\' || c = '\'' || c = '"' || c = '$' || c = ' ' then some c
  else none

/-- Reads a value. `got` holds its characters so far in reverse; `resolve` gives the text of a variable. -/
def readValue (resolve : List Char → List Char) : ValueState → List Char → List Char →
    Option (List Char)
  | state, got, [] =>
    match state with
    | .strong | .block _ _ => none
    | .outside weak | .escaped weak => if weak then none else some got.reverse
    | .reference weak name =>
      if weak then none else some (got.reverse ++ resolve name.reverse)
    | .ending => some got.reverse
  | state, got, c :: r =>
    match state with
    | .ending =>
      if c = ' ' || c = '\t' then readValue resolve .ending got r
      else if c = '#' then some got.reverse
      else none
    | .escaped weak => (escape? c).bind fun e => readValue resolve (.outside weak) (e :: got) r
    | .strong =>
      if c = '\'' then readValue resolve (.outside false) got r
      else readValue resolve .strong (c :: got) r
    | .reference weak name =>
      if isLetterOrNumber c then readValue resolve (.reference weak (c :: name)) got r
      else if c = '{' && name.isEmpty then readValue resolve (.block weak []) got r
      else
        let got := (resolve name.reverse).reverse ++ got
        if c = '$' then readValue resolve (.reference weak []) got r
        else readValue resolve (.outside weak) (c :: got) r
    | .block weak name =>
      if c = '}' then
        readValue resolve (.outside weak) ((resolve name.reverse).reverse ++ got) r
      else readValue resolve (.block weak (c :: name)) got r
    | .outside weak =>
      if c = '$' then readValue resolve (.reference weak []) got r
      else if c = '\\' then readValue resolve (.escaped weak) got r
      else if c = '"' then readValue resolve (.outside (!weak)) got r
      else if weak then readValue resolve (.outside true) (c :: got) r
      else if c = '\'' then readValue resolve .strong got r
      else if c = ' ' || c = '\t' then readValue resolve .ending got r
      else readValue resolve (.outside false) (c :: got) r

/-! ## Settings -/

/-- A name at the front of a text. -/
def readName (s : List Char) : Option (List Char × List Char) :=
  match s with
  | c :: _ =>
    if c.isAlpha || c = '_' then some (s.span fun c => c.isAlphanum || c = '_' || c = '.') else none
  | [] => none

/-- The text after an equals sign. -/
def afterEquals? : List Char → Option (List Char)
  | '=' :: r => some r
  | _ => none

/-- A name and what follows its equals sign. The word `export` may stand in front, and may also be the
name. -/
def readTarget (s : List Char) : Option (List Char × List Char) :=
  (readName s).bind fun (name, r) =>
    let r := trimStart r
    match afterEquals? r with
    | some r => some (name, r)
    | none =>
      if name = "export".toList then
        (readName r).bind fun (name, r) => (afterEquals? (trimStart r)).map fun r => (name, r)
      else none

/-- The settings of earlier lines. Where one had no value, its variable has none. -/
abbrev Earlier := Table String

/-- The text of a variable in the environment, which is a list of texts `NAME=value`: what follows the name
and an equals sign in the first of them that begins so. -/
def inherited? (env : Table String) (name : List Char) : Option (List Char) :=
  env.findSome? fun (key, value) => dropLead? (name ++ ['=']) (key.toList ++ '=' :: value.toList)

/-- The text of a variable: from the environment, or else from an earlier line, or else empty. -/
def resolve (env : Table String) (earlier : Earlier) (name : List Char) : List Char :=
  match inherited? env name with
  | some v => v
  | none => ((Table.get? earlier (String.ofList name)).getD "").toList

/-- The setting of a line. The outer option is for bad lines, the inner one for lines without a setting. -/
def readSetting (env : Table String) (earlier : Earlier) (line : List Char) :
    Option (Option (String × String)) :=
  let s := trim line
  match s with
  | [] | '#' :: _ => some none
  | _ =>
    (readTarget s).bind fun (name, r) =>
      let name := String.ofList name
      match trimStart r with
      | [] | '#' :: _ => some (some (name, ""))
      | r =>
        (readValue (resolve env earlier) (.outside false) [] r).map fun v =>
          some (name, String.ofList v)

/-- The environment with the settings of a text, up to its first bad line. -/
def applyLines : Nat → Table String → Earlier → List Char → Table String
  | 0, env, _, _ => env
  | fuel + 1, env, earlier, s =>
    if s.isEmpty then env
    else
      match readLine (s.length + 1) .complete [] s with
      | none => env
      | some (line, rest) =>
        match readSetting env earlier line with
        | none => env
        | some none => applyLines fuel env earlier rest
        | some (some (name, value)) =>
          let env := if Table.has env name then env else env ++ [(name, value)]
          applyLines fuel env (Table.put earlier name value) rest

/-- The environment with the settings of a file. -/
def apply (env : Table String) (text : String) : Table String :=
  let s := match text.toList with
    | c :: r => if c = Char.ofNat 0xFEFF then r else c :: r
    | [] => []
  applyLines (s.length + 1) env [] s

end Sequencer.Dotenv
