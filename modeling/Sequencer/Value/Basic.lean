import Sequencer.Decimal.Numeral
import Sequencer.Table
import Sequencer.Text.Blank

/-!
# Values

What variables hold: nothing, a truth value, a number, a text, a list or an object. Numbers come in
two kinds that are told apart when lists and objects are compared: whole numbers of up to 64 bits,
and doubles.
-/

namespace Sequencer

/-- A number: whole, or a double that is neither infinite nor undefined. -/
inductive Number where
  | int (n : Int)
  | float (f : Float)
  deriving Repr

/-- A runtime value. Objects keep the order in which their fields were first put. -/
inductive Value where
  | null
  | bool (b : Bool)
  | num (n : Number)
  | str (s : String)
  | arr (items : List Value)
  | obj (fields : List (String × Value))
  deriving Repr, Inhabited

namespace Number

def toFloat : Number → Float
  | .int n => Binary64.nearest (n < 0) n.natAbs 1
  | .float f => f

/-- Equality as data: a whole number never equals a double. -/
def same : Number → Number → Bool
  | .int a, .int b => a == b
  | .float a, .float b => a == b
  | _, _ => false

end Number

namespace Value

/-- A text of characters. -/
def ofChars (s : List Char) : Value := .str (String.ofList s)

/-- The bound below which a whole double is kept as a whole number. -/
def wholeBound : Nat := 9 * Nat.pow 10 15

/-- The value of a computed double: a whole number where that is exact, nothing where no number can
stand for the result. -/
def ofFloat (f : Float) : Value :=
  match Binary64.ofFloat f with
  | .finite negative mantissa exponent =>
    match Binary64.toInt? (.finite negative mantissa exponent) with
    | some n => if n.natAbs < wholeBound then .num (.int n) else .num (.float f)
    | none => .num (.float f)
  | _ => .null

/-- The number a value stands for in arithmetic. A text counts if it is a numeral between blanks. -/
def toFloat? : Value → Option Float
  | .null => some 0.0
  | .bool b => some (if b then 1.0 else 0.0)
  | .num n => some n.toFloat
  | .str s => Decimal.float? (Text.trim s.toList)
  | .arr _ => none
  | .obj _ => none

/-- Whether a value counts as true in a condition. -/
def truthy : Value → Bool
  | .null => false
  | .bool b => b
  | .num n => n.toFloat != 0.0
  | .str s => !s.isEmpty
  | .arr _ => true
  | .obj _ => true

/-- Nothing, the empty text, the empty list and the empty object are empty. -/
def empty : Value → Bool
  | .null => true
  | .str s => s.isEmpty
  | .arr items => items.isEmpty
  | .obj fields => fields.isEmpty
  | _ => false

def isArray : Value → Bool
  | .arr _ => true
  | _ => false

def isContainer : Value → Bool
  | .arr _ => true
  | .obj _ => true
  | _ => false

def str? : Value → Option String
  | .str s => some s
  | _ => none

/-! ## Equality as data

Lists are equal element by element, objects when they hold equal values under the same names in any
order. -/

mutual

/-- Equality as data. -/
def same : Value → Value → Bool
  | .null, .null => true
  | .bool a, .bool b => a == b
  | .num a, .num b => a.same b
  | .str a, .str b => a == b
  | .arr a, .arr b => sameItems a b
  | .obj a, .obj b => a.length == b.length && sameFields a b
  | _, _ => false

/-- Lists that are equal element by element. -/
def sameItems : List Value → List Value → Bool
  | [], [] => true
  | a :: as, b :: bs => same a b && sameItems as bs
  | _, _ => false

/-- Whether every field is present with an equal value in the other object. -/
def sameFields : List (String × Value) → List (String × Value) → Bool
  | [], _ => true
  | (k, v) :: fields, other =>
    (match Table.get? other k with
      | some w => same v w
      | none => false) && sameFields fields other

end

/-! ## Elements -/

/-- The elements of a list under their positions, or the fields of an object under their names. -/
def elements : Value → List (String × Value)
  | .arr items => items.zipIdx.map fun (v, i) => (toString i, v)
  | .obj fields => fields
  | _ => []

/-- Visits the elements in order, each with its key and position, until the visitor says to stop.
Returns what the visitor made of them and how many it saw. -/
def iterate {σ : Type} (v : Value) (visit : σ → String → Value → Nat → σ × Bool) (start : σ) :
    σ × Nat :=
  go (elements v) start 0
where
  go : List (String × Value) → σ → Nat → σ × Nat
    | [], s, seen => (s, seen)
    | (key, item) :: rest, s, seen =>
      match visit s key item seen with
      | (s, true) => (s, seen + 1)
      | (s, false) => go rest s (seen + 1)

end Value
end Sequencer
