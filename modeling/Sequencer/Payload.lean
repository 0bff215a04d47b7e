import Sequencer.Files
import Sequencer.Json.Decode

/-!
# Payloads

What stands behind the colon of an instruction: the parameters of its command, as an object of a
document, or `@path` for a file that holds one. Each command has a record of its own. A field that is
absent takes its default.
-/

namespace Sequencer

/-- Why a command cannot be prepared. -/
inductive CommandError where
  | emptyPayload (command : String)
  | notAnObject (command : String)
  | parameterFile (path : String) (reason : FileError)
  /-- The payload is no document, or not one of the right form. -/
  | invalidJson (command : String)
  | missingField (command field : String)
  | invalid (reason : String)
  deriving Repr, DecidableEq

def CommandError.message : CommandError → String
  | .emptyPayload command => s!"empty parameters in {command}"
  | .notAnObject command => s!"parameters of {command} must be a JSON object"
  | .parameterFile path reason => s!"cannot read parameter file {path}: {reason.message}"
  | .invalidJson command => s!"invalid parameters for {command}"
  | .missingField command field => s!"{field} must be specified in {command}"
  | .invalid reason => reason

namespace Payload

open Text Json

/-! ## The text of an object -/

/-- Whether a text begins and ends like an object. -/
def looksLikeObject (s : List Char) : Bool := s.head? = some '{' && s.getLast? = some '}'

/-- The file that a trimmed payload names. -/
def fileName? (s : List Char) : Option String :=
  if looksLikeObject s then none
  else
    match s with
    | '@' :: c :: r => some (String.ofList (c :: r))
    | _ => none

/-- The text of the object that a payload holds or names. -/
def objectText (files : FileReader) (command : String) (payload : String) :
    Except CommandError (List Char) :=
  let s := trim payload.toList
  if s.isEmpty then .error (.emptyPayload command)
  else if looksLikeObject s then .ok s
  else
    match fileName? s with
    | none => .error (.notAnObject command)
    | some path =>
      match files path with
      | .error e => .error (.parameterFile path e)
      | .ok text =>
        let s := trim text.toList
        if looksLikeObject s then .ok s else .error (.notAnObject command)

/-- The record that a payload holds. -/
def read {α : Type} (decode : Document → Option α) (files : FileReader) (command payload : String) :
    Except CommandError α :=
  match objectText files command payload with
  | .error e => .error e
  | .ok s =>
    match (document? s).bind decode with
    | some config => .ok config
    | none => .error (.invalidJson command)

/-! ## Fields -/

/-- A text field. -/
def text (d : Option Document) : Option String := field Document.string? "" d

/-- A field that holds an object, in a record that itself lies inside `outer` others. -/
def table (outer : Nat) (d : Option Document) : Option (Table Value) :=
  field (Document.table? (maxDepth - outer - 1)) [] d

end Payload

/-! ## Records -/

/-- What to call: an action, its parameters and the names for its results. -/
structure CallSpec where
  action : String
  params : Table Value
  result : String
  deriving Repr

/-- A call inside of `outer` other records. -/
def CallSpec.decode? (outer : Nat) (d : Json.Document) : Option CallSpec :=
  match d.record? ["action", "params", "result"] with
  | some [action, params, result] =>
    match Payload.text action, Payload.table outer params, Payload.text result with
    | some action, some params, some result => some ⟨action, params, result⟩
    | _, _, _ => none
  | _ => none

/-- A condition, with a call for each outcome. -/
structure BranchSpec where
  condition : String
  whenTrue : Option CallSpec
  whenFalse : Option CallSpec
  deriving Repr

def BranchSpec.decode? (d : Json.Document) : Option BranchSpec :=
  match d.record? ["condition", "then", "else"] with
  | some [condition, yes, no] =>
    match Payload.text condition, Json.optional (CallSpec.decode? 1) yes,
      Json.optional (CallSpec.decode? 1) no with
    | some condition, some yes, some no => some ⟨condition, yes, no⟩
    | _, _, _ => none
  | _ => none

/-- Conditions, each with an action, in the order in which they are tried. -/
structure SwitchSpec where
  cases : Table Value
  defaultAction : String
  params : Table Value
  result : String
  deriving Repr

def SwitchSpec.decode? (d : Json.Document) : Option SwitchSpec :=
  match d.record? ["cases", "defaultAction", "params", "result"] with
  | some [cases, action, params, result] =>
    match Payload.table 0 cases, Payload.text action, Payload.table 0 params, Payload.text result with
    | some cases, some action, some params, some result => some ⟨cases, action, params, result⟩
    | _, _, _, _ => none
  | _ => none

/-- A loop with a condition: its first assignments, and those after each pass. -/
structure ForSpec where
  initial : Table Value
  condition : String
  next : Table Value
  body : String
  result : String
  deriving Repr

def ForSpec.decode? (d : Json.Document) : Option ForSpec :=
  match d.record? ["initial", "condition", "next", "body", "result"] with
  | some [initial, condition, next, body, result] =>
    match Payload.table 0 initial, Payload.text condition, Payload.table 0 next, Payload.text body,
      Payload.text result with
    | some initial, some condition, some next, some body, some result =>
      some ⟨initial, condition, next, body, result⟩
    | _, _, _, _, _ => none
  | _ => none

/-- A loop over a collection, with the names for the key and the value of each element. -/
structure RangeSpec where
  range : String
  params : Table Value
  body : String
  result : String
  key : Option String
  value : Option String
  deriving Repr

def RangeSpec.decode? (d : Json.Document) : Option RangeSpec :=
  match d.record? ["range", "params", "body", "result", "key", "value"] with
  | some [range, params, body, result, key, value] =>
    match Payload.text range, Payload.table 0 params, Payload.text body, Payload.text result,
      Json.optional Json.Document.string? key, Json.optional Json.Document.string? value with
    | some range, some params, some body, some result, some key, some value =>
      some ⟨range, params, body, result, key, value⟩
    | _, _, _, _, _, _ => none
  | _ => none

/-- Variables to assign, each an expression or a value, and then variables to delete. -/
structure VarSpec where
  assign : Table Value
  remove : List String
  deriving Repr

def VarSpec.decode? (d : Json.Document) : Option VarSpec :=
  match d.record? ["assign", "remove"] with
  | some [assign, remove] =>
    match Payload.table 0 assign, Json.field Json.Document.strings? [] remove with
    | some assign, some remove => some ⟨assign, remove⟩
    | _, _ => none
  | _ => none

/-- The names of a return as an object. -/
def returnNames? (d : Json.Document) : Option String :=
  match d.record? ["result"] with
  | some [result] => Payload.text result
  | _ => none

end Sequencer
