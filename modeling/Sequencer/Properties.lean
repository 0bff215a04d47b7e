import Sequencer.Files
import Sequencer.Toml.Item
import Sequencer.Value.Printer

/-!
# Properties

The flat store of instructions and settings. The instructions of an action `NAME` are the properties
`NAME_1`, `NAME_2`, and so on up to the first that is missing or blank. A TOML document adds a property for
each of its leaves, under the keys on the way to it joined by underscores.
-/

namespace Sequencer

/-- The properties by name. -/
abbrev Properties := Table Value

namespace Properties

/-- The text of a property, empty if there is none. -/
def text (p : Properties) (name : String) : String :=
  match Table.get? p name with
  | some v => v.text
  | none => ""

/-- The name of an instruction of an action. -/
def instructionKey (action : String) (number : Nat) : String := s!"{action}_{number}"

/-- Whether an action has a first instruction. -/
def hasAction (p : Properties) (action : String) : Bool :=
  !Text.isAllBlank (p.text (instructionKey action 1)).toList

/-- The action whose first instruction a property is. -/
def actionOf? (name : String) : Option String :=
  match Text.dropTail? ['_', '1'] name.toList with
  | some (c :: r) => some (String.ofList (c :: r))
  | _ => none

/-- The names of all actions, sorted. -/
def actionNames (p : Properties) : List String :=
  ((Table.keys p).filterMap actionOf?).mergeSort fun a b => decide (a ≤ b)

end Properties

/-! ## TOML documents -/

namespace Toml

/-- The value of a value without parts. A float that is no number has none; a moment is an object with its
text under the reserved key. -/
def Scalar.value : Scalar → Value
  | .text s => .str s
  | .int n => .num (.int n)
  | .float f => if f.isFinite then .num (.float f) else .null
  | .bool b => .bool b
  | .moment s => .obj [(momentKey, .str s)]

/-- The pass in which a value of a table is written: lists with tables among their elements come behind all other
values, and tables last. -/
def Item.pass : Item → Nat
  | .scalar _ => 0
  | .list items => if items.any (· matches .table _) then 1 else 0
  | .table _ => 2

/-- Whether a field is written before another one, or is the same: in an earlier pass, or in the same one under an
earlier name. -/
def writtenBefore {α : Type} (a b : String × Nat × α) : Bool :=
  a.2.1 < b.2.1 || (a.2.1 = b.2.1 && a.1 ≤ b.1)

mutual

/-- The value of an item. The fields of an object are in the order in which tables are written. -/
def Item.value : Item → Value
  | .scalar v => v.value
  | .list items => .arr (itemValues items)
  | .table entries => .obj (((entryValues entries).mergeSort writtenBefore).map fun (key, _, v) => (key, v))

def itemValues : List Item → List Value
  | [] => []
  | item :: rest => item.value :: itemValues rest

/-- The values of entries, each with its pass. -/
def entryValues : List (String × Item) → List (String × Nat × Value)
  | [] => []
  | (key, item) :: rest => (key, item.pass, item.value) :: entryValues rest

end

/-- A document as properties see it: tables with leaves of any value, each table sorted by key. -/
inductive Branch where
  | leaf (v : Value)
  | table (entries : List (String × Branch))

mutual

/-- An item as a branch. -/
def Item.branch : Item → Branch
  | .scalar v => .leaf v.value
  | .list items => .leaf (.arr (itemValues items))
  | .table entries => .table (Table.sorted (entryBranches entries))

def entryBranches : List (String × Item) → List (String × Branch)
  | [] => []
  | (key, item) :: rest => (key, item.branch) :: entryBranches rest

end

end Toml

namespace Properties

open Toml

/-- The name of a key in a table with the given name. -/
def joinKey (outer key : String) : String := if outer.isEmpty then key else s!"{outer}_{key}"

mutual

/-- The leaves of a branch under a name. -/
def leaves (name : String) : Branch → List (String × Value)
  | .leaf v => [(name, v)]
  | .table entries => tableLeaves name entries

/-- The leaves of a table under a name, depth first. -/
def tableLeaves (name : String) : List (String × Branch) → List (String × Value)
  | [] => []
  | (key, b) :: rest => leaves (joinKey name key) b ++ tableLeaves name rest

end

/-- The leaves of a TOML document. -/
def documentLeaves (entries : Table Item) : List (String × Value) :=
  tableLeaves "" (Table.sorted (entryBranches entries))

/-- Adds the leaves of a text, as some reader understands it. Returns how many there were, or nothing if the text is no
document. -/
def loadBy? (read : List Char → Option (Table Item)) (p : Properties) (source : List Char) : Option (Properties × Nat) :=
  (read source).map fun entries =>
    let flat := documentLeaves entries
    (Table.putAll p flat, flat.length)

/-- Adds the leaves of a TOML text. -/
def load? : Properties → List Char → Option (Properties × Nat) := loadBy? Toml.read?

end Properties

/-- Why properties cannot be loaded from a file. -/
inductive PropertiesError where
  | unreadable (path : String) (reason : FileError)
  /-- The file is no TOML document. -/
  | malformed (path : String)
  deriving Repr, DecidableEq

def PropertiesError.message : PropertiesError → String
  | .unreadable path reason => s!"cannot read {path}: {reason.message}"
  | .malformed path => s!"cannot parse {path}"

/-- Adds the leaves of a TOML file. -/
def Properties.loadFile (files : FileReader) (p : Properties) (path : String) :
    Except PropertiesError (Properties × Nat) :=
  match files path with
  | .error e => .error (.unreadable path e)
  | .ok source =>
    match p.load? source.toList with
    | some result => .ok result
    | none => .error (.malformed path)

end Sequencer
