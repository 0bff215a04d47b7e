import Sequencer.Table
import Sequencer.Toml.Scalar

/-!
# TOML: trees

The tree that the lines of a TOML document build up. A table remembers how it came about, because that
decides how it may grow: one that a header or braces define is complete, one that only lies on the way
to another may still get a header of its own, and one made by dotted keys grows by dotted keys alone.
-/

namespace Sequencer.Toml

/-- How a table came about. -/
inductive Origin where
  /-- By a header of its own. -/
  | header
  /-- On the way to a table with a header. -/
  | implied
  /-- By dotted keys. -/
  | dotted
  /-- In braces. -/
  | inline
  deriving Repr, DecidableEq

/-- A value or a table. -/
inductive Node where
  | scalar (v : Scalar)
  | list (items : List Node)
  /-- Tables that share a header in double brackets, with their entries. -/
  | tables (items : List (List (String × Node)))
  | table (origin : Origin) (entries : List (String × Node))
  deriving Repr

/-- The entries of a table. -/
abbrev Entries := Table Node

/-! ## Growing -/

/-- Changes the last element of a list, if there is one. -/
def modifyLast? {α : Type} (f : α → Option α) : List α → Option (List α)
  | [] => none
  | [x] => (f x).map fun y => [y]
  | x :: xs => (modifyLast? f xs).map (x :: ·)

/-- Puts a value under a dotted key: the names `path` and then `key`. The table that gets the value has to
be the one at hand or one that dotted keys made. -/
def Entries.putKey (key : String) (v : Node) : List String → Entries → Option Entries
  | [], es => if Table.has es key then none else some (es ++ [(key, v)])
  | name :: path, es =>
    let grown : Option Node := match Table.get? es name with
      | none => (Entries.putKey key v path []).map (.table .dotted)
      | some (.table .dotted inner) => (Entries.putKey key v path inner).map (.table .dotted)
      | some (.table .implied inner) =>
        if path.isEmpty then none else (Entries.putKey key v path inner).map (.table .implied)
      | some (.tables items) =>
        if path.isEmpty then none else (modifyLast? (Entries.putKey key v path) items).map .tables
      | _ => none
    grown.map fun node => Table.put es name node

/-- Changes the table that the names of a header lead to, making those that are missing. -/
def Entries.under (f : Entries → Option Entries) : List String → Entries → Option Entries
  | [], es => f es
  | name :: path, es =>
    let grown : Option Node := match Table.get? es name with
      | none => (Entries.under f path []).map (.table .implied)
      | some (.table .inline _) => none
      | some (.table origin inner) => (Entries.under f path inner).map (.table origin)
      | some (.tables items) => (modifyLast? (Entries.under f path) items).map .tables
      | some _ => none
    grown.map fun node => Table.put es name node

/-! ## Headers -/

/-- A document up to some line: all tables but the last, and the last, which keys are added to. -/
structure Draft where
  root : Entries
  /-- The header of the last table: the names in front and the last name. None before the first header. -/
  header : Option (List String × String)
  /-- Whether that header is in double brackets. -/
  repeated : Bool
  last : Entries
  deriving Repr

namespace Draft

def new : Draft := ⟨[], none, false, []⟩

/-- The document with its last table in place. -/
def close (d : Draft) : Option Entries :=
  match d.header with
  | none => some d.last
  | some (path, name) =>
    let place (es : Entries) : Option Entries :=
      if d.repeated then
        match Table.get? es name with
        | none => some (es ++ [(name, .tables [d.last])])
        | some (.tables items) => some (Table.put es name (.tables (items ++ [d.last])))
        | some _ => none
      else if Table.has es name then none
      else some (es ++ [(name, .table .header d.last)])
    Entries.under place path d.root

/-- Puts a value under a dotted key of the last table. -/
def putKey (d : Draft) (path : List String) (key : String) (v : Node) : Option Draft :=
  (Entries.putKey key v path d.last).map fun last => { d with last }

/-- The entries of the implied table of a name: the start of the table that its header defines. Nothing
if the name is in use otherwise. -/
def claim? (es : Entries) (name : String) : Option Entries :=
  match Table.get? es name with
  | none => some []
  | some (.table .implied entries) => some entries
  | some _ => none

/-- The table under a header, before the header comes. -/
def find? : List String → Entries → Option Entries
  | [], es => some es
  | name :: path, es =>
    match Table.get? es name with
    | none => find? path []
    | some (.table _ inner) => find? path inner
    | some (.tables items) => items.getLast?.bind (find? path)
    | some _ => none

/-- Begins the table of a header in single brackets. -/
def open? (d : Draft) (path : List String) (name : String) : Option Draft := do
  let root ← d.close
  let parent ← find? path root
  let last ← claim? parent name
  let root ← Entries.under (fun es => some (Table.erase es name)) path root
  return ⟨root, some (path, name), false, last⟩

/-- Begins a table of a header in double brackets. -/
def openRepeated? (d : Draft) (path : List String) (name : String) : Option Draft := do
  let root ← d.close
  let place (es : Entries) : Option Entries := match Table.get? es name with
    | none => some (es ++ [(name, .tables [])])
    | some (.tables _) => some es
    | some _ => none
  let root ← Entries.under place path root
  return ⟨root, some (path, name), true, []⟩

end Draft
end Sequencer.Toml
