import Sequencer.Toml.Document

/-!
# TOML: items

What a document says, without the marks of how it was written. A table whose first key is a reserved word
stands for a moment, which its value writes as a text. All other entries of such a table are ignored.
Only the outermost table of a document is always a table.
-/

namespace Sequencer.Toml

/-- A value of a document. -/
inductive Item where
  | scalar (v : Scalar)
  | list (items : List Item)
  | table (entries : List (String × Item))
  deriving Repr

/-- The first key of a table that stands for a moment. -/
def momentKey : String := "$__toml_private_datetime"

/-- The moment that the value of the reserved key writes. -/
def Node.moment? : Node → Option Scalar
  | .scalar (.text s) => (momentOfText? s.toList).map .moment
  | _ => none

mutual

/-- The item of a node. Nothing if it holds a table that stands for a moment but writes none. -/
def Node.item? : Node → Option Item
  | .scalar v => some (.scalar v)
  | .list nodes => (listItems? nodes).map .list
  | .tables tables => (tableItems? tables).map .list
  | .table _ entries => tableItem? entries

def listItems? : List Node → Option (List Item)
  | [] => some []
  | n :: ns => n.item?.bind fun item => (listItems? ns).map (item :: ·)

def tableItems? : List (List (String × Node)) → Option (List Item)
  | [] => some []
  | es :: rest => (tableItem? es).bind fun item => (tableItems? rest).map (item :: ·)

/-- The item of a table with the given entries. -/
def tableItem? : List (String × Node) → Option Item
  | [] => some (.table [])
  | (key, n) :: rest =>
    if key = momentKey then n.moment?.map .scalar
    else n.item?.bind fun item => (entryItems? rest).map fun items => .table ((key, item) :: items)

def entryItems? : List (String × Node) → Option (List (String × Item))
  | [] => some []
  | (key, n) :: rest => n.item?.bind fun item => (entryItems? rest).map ((key, item) :: ·)

end

/-- The entries of the document that a text is. -/
def read? (s : List Char) : Option (Table Item) := (document? s).bind entryItems?

/-- Whether a table with the given entries stands for a moment. -/
def isMoment : Table Item → Bool
  | (key, _) :: _ => key = momentKey
  | [] => false

end Sequencer.Toml
