import Sequencer.Config.Setting

/-!
# Locations of settings

The key under which a value is given may lead into a setting: `a.b` is the entry `b` of the table `a`, and
`a[2]` is the third element of the list `a`. A key that is not built that way is a name as it is. Putting a
value at a location makes the tables and lists on the way, which replace any other value that is there, and
fills a list with nothing up to the element.
-/

namespace Sequencer.Setting

/-- A step from a setting to a part of it. -/
inductive Step where
  /-- The entry of a table. -/
  | entry (name : String)
  /-- The element of a list. A negative position counts from the end. -/
  | element (position : Int)
  deriving Repr, DecidableEq

/-- Where a value is put: the name of a setting, and the steps from there. -/
structure Location where
  name : String
  steps : List Step
  deriving Repr, DecidableEq

namespace Location

/-! ## Reading -/

/-- The characters of a name that is one step. -/
def isNameChar (c : Char) : Bool := c.isAlphanum || c = ' ' || c = '_' || c = '-'

/-- A name at the front of a text, in small letters. -/
def readName (s : List Char) : Option (String × List Char) :=
  let (name, r) := s.span isNameChar
  if name.isEmpty then none else some (String.ofList (Text.lower name), r)

/-- A position in brackets, after the opening one. It fits a signed word of 64 bits. -/
def readPosition (s : List Char) : Option (Int × List Char) :=
  let (inside, r) := s.span (· != ']')
  let digits := ((Toml.skipSpace inside).reverse.dropWhile Toml.isSpace).reverse
  match r with
  | ']' :: r =>
    if digits.head? = some '+' then none else (Decimal.integer? digits).map fun n => (n, r)
  | _ => none

/-- Steps up to the end of a text. -/
def readSteps : Nat → List Char → Option (List Step)
  | _, [] => some []
  | fuel + 1, '.' :: r =>
    (readName r).bind fun (name, r) => (readSteps fuel r).map (.entry name :: ·)
  | fuel + 1, '[' :: r =>
    (readPosition r).bind fun (n, r) => (readSteps fuel r).map (.element n :: ·)
  | _, _ => none

/-- The location that a text leads to. -/
def read? (s : List Char) : Option Location :=
  (readName s).bind fun (name, r) => (readSteps r.length r).map (Location.mk name)

/-- The location that a key of a source leads to. -/
def ofKey (key : String) : Location := (read? key.toList).getD ⟨Text.lowered key, []⟩

end Location

/-! ## Putting -/

/-- The entries of a table, none for any other setting. -/
def entries : Option Setting → Table Setting
  | some (.table es) => es
  | _ => []

/-- The elements of a list, none for any other setting. -/
def elements : Option Setting → List Setting
  | some (.list items) => items
  | _ => []

mutual

/-- What becomes of an old setting, if there is one, when a setting is put in its place. The entries of a
table are merged into it, so that an empty table leaves it as it is. -/
def inPlaceOf (old : Option Setting) : Setting → Setting
  | .table [] => old.getD (.table [])
  | .table (e :: es) => .table (merge (entries old) (e :: es))
  | v => v

/-- The table after putting some entries. -/
def merge (es : Table Setting) : List (String × Setting) → Table Setting
  | [] => es
  | (name, v) :: rest =>
    let name := Text.lowered name
    merge (Table.put es name (v.inPlaceOf (Table.get? es name))) rest

end

/-- A list that has the element of a position, with nothing in its new elements, and where that element is
counted from the front. A position in front of the list becomes its first. -/
def reach (position : Int) (items : List Setting) : List Setting × Nat :=
  if position < 0 then
    let missing := (-position - items.length).toNat
    (List.replicate missing .nothing ++ items, (position + items.length).toNat)
  else
    let n := position.toNat
    (items ++ List.replicate (n + 1 - items.length) .nothing, n)

/-- What becomes of an old setting, if there is one, when a setting is put at the end of some steps. -/
def putAt (v : Setting) : List Step → Option Setting → Setting
  | [], old => v.inPlaceOf old
  | .entry name :: steps, old =>
    let es := entries old
    .table (Table.put es name (putAt v steps (Table.get? es name)))
  | .element position :: steps, old =>
    let (items, n) := reach position (elements old)
    .list (items.modify n fun item => putAt v steps (some item))

end Sequencer.Setting

namespace Sequencer

/-- Settings by name. Names are in small letters. -/
abbrev Settings := Table Setting

namespace Settings

/-- Puts a value at the location that a key leads to. -/
def set (s : Settings) (key : String) (v : Setting) : Settings :=
  let location := Setting.Location.ofKey key
  Table.put s location.name (v.putAt location.steps (Table.get? s location.name))

/-- Puts values in order. -/
def setAll (s : Settings) (values : List (String × Setting)) : Settings :=
  values.foldl (fun s (key, v) => s.set key v) s

/-- What stands in front of the name of a setting in the environment. -/
def variablePrefix : List Char := "relay_".toList

/-- The settings in the environment. -/
def ofEnvironment (env : Table String) : List (String × Setting) :=
  env.filterMap fun (name, value) =>
    (Text.dropLead? variablePrefix (Text.lower name.toList)).map fun key =>
      (String.ofList key, .ofVariable (String.ofList key) value)

end Settings
end Sequencer
