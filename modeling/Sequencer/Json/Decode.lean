import Sequencer.Json.Syntax

/-!
# Decoding documents

A document is decoded into a value, or into the fields of a record. Lists and objects nest at most
127 deep where they are decoded. A record takes each of its fields at most once, gives absent ones
a default, and passes over fields that it does not have; it may also be written as a list of its
fields in order.
-/

namespace Sequencer.Json

/-- How deep lists and objects may nest. -/
def maxDepth : Nat := 127

/-! ## Values -/

mutual

/-- The value of a document in which at most `depth` containers nest. -/
def Document.value? (depth : Nat) : Document → Option Value
  | .null => some .null
  | .bool b => some (.bool b)
  | .num n => n.map .num
  | .str s => s.map .str
  | .arr items =>
    if depth = 0 then none else (itemValues? (depth - 1) items).map .arr
  | .obj fields =>
    if depth = 0 then none else (fieldValues? (depth - 1) fields).map fun fs => .obj (Table.ofEntries fs)

/-- The values of the elements of a list. -/
def itemValues? (depth : Nat) : List Document → Option (List Value)
  | [] => some []
  | d :: ds =>
    match d.value? depth, itemValues? depth ds with
    | some v, some vs => some (v :: vs)
    | _, _ => none

/-- The values of the fields of an object. -/
def fieldValues? (depth : Nat) : List (Option String × Document) → Option (List (String × Value))
  | [] => some []
  | (key, d) :: ds =>
    match key, d.value? depth, fieldValues? depth ds with
    | some k, some v, some vs => some ((k, v) :: vs)
    | _, _, _ => none

end

/-- The value of a text that is a document. -/
def value? (s : List Char) : Option Value := (document? s).bind (Document.value? maxDepth)

/-! ## Records -/

/-- What a document holds for each of the named fields: nothing where one is absent. Fails if it is
neither an object nor a list, names a field twice, or is a list that is too long. -/
def Document.record? (names : List String) : Document → Option (List (Option Document))
  | .obj fields =>
    if fields.all fun (key, _) => key.isSome then
      let known := fields.filterMap fun (key, d) => key.map fun k => (k, d)
      names.mapM fun name =>
        match known.filter fun (k, _) => k == name with
        | [] => some none
        | [(_, d)] => some (some d)
        | _ => none
    else none
  | .arr items =>
    if items.length ≤ names.length then
      some (items.map some ++ List.replicate (names.length - items.length) none)
    else none
  | _ => none

/-- Decodes a field, with a default for an absent one. -/
def field {α : Type} (read : Document → Option α) (default : α) : Option Document → Option α
  | none => some default
  | some d => read d

/-- Decodes a field that may also be given as nothing. -/
def optional {α : Type} (read : Document → Option α) : Option Document → Option (Option α)
  | none => some none
  | some .null => some none
  | some d => (read d).map some

def Document.string? : Document → Option String
  | .str s => s
  | _ => none

/-- The fields of an object in which at most `depth` containers nest, itself included. -/
def Document.table? (depth : Nat) : Document → Option (Table Value)
  | .obj fields =>
    if depth = 0 then none else (fieldValues? (depth - 1) fields).map Table.ofEntries
  | _ => none

def Document.strings? : Document → Option (List String)
  | .arr items => items.mapM Document.string?
  | _ => none

end Sequencer.Json
