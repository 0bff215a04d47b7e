import Sequencer.Decimal.Binary64

/-!
# Numerals

Reading numbers from text: whole numbers within the bounds of a machine word, and decimal numerals
with point and exponent, which are rounded to the nearest double.
-/

namespace Sequencer.Decimal

/-- The digits at the front of a text and what follows them. -/
def spanDigits (s : List Char) : List Char × List Char := s.span Char.isDigit

/-- The number that a run of digits stands for. -/
def digitsValue (s : List Char) : Nat := s.foldl (fun n c => 10 * n + (c.toNat - '0'.toNat)) 0

/-- The number that a text of digits stands for. -/
def digits? (s : List Char) : Option Nat :=
  if !s.isEmpty && s.all Char.isDigit then some (digitsValue s) else none

/-! ## Whole numbers -/

/-- A number below `2 ^ 64`; a plus sign may stand before it. -/
def natural? (s : List Char) : Option Nat :=
  let n := match s with
    | '+' :: r => digits? r
    | _ => digits? s
  n.filter (· < Nat.pow 2 64)

/-- A number that fits a signed word of 64 bits; either sign may stand before it. -/
def integer? (s : List Char) : Option Int :=
  let n : Option Int := match s with
    | '+' :: r => (digits? r).map Int.ofNat
    | '-' :: r => (digits? r).map fun n => -(n : Int)
    | _ => (digits? s).map Int.ofNat
  n.filter fun n => -Int.pow 2 63 ≤ n && n < Int.pow 2 63

/-! ## Decimal numerals -/

/-- A decimal numeral without its sign: the number `digits * 10 ^ exponent`. -/
structure Numeral where
  digits : Nat
  exponent : Int
  deriving Repr, DecidableEq

/-- The numeral with the given digits before and after the point. -/
def Numeral.ofParts (whole fraction : List Char) (exponent : Int) : Numeral :=
  ⟨digitsValue (whole ++ fraction), exponent - fraction.length⟩

/-- An exponent: a sign or none, then digits. -/
def exponent? : List Char → Option Int
  | '+' :: r => (digits? r).map Int.ofNat
  | '-' :: r => (digits? r).map fun n => -(n : Int)
  | s => (digits? s).map Int.ofNat

/-- A numeral that takes up a whole text: digits with at most one point among or around them, and
after the letter `e` an exponent. -/
def Numeral.read? (s : List Char) : Option Numeral :=
  let (whole, r) := spanDigits s
  let (fraction, r) := match r with
    | '.' :: r => spanDigits r
    | r => ([], r)
  if whole.isEmpty && fraction.isEmpty then none
  else
    match r with
    | [] => some (.ofParts whole fraction 0)
    | c :: r =>
      if c = 'e' ∨ c = 'E' then (exponent? r).map (Numeral.ofParts whole fraction) else none

def Numeral.toFloat (n : Numeral) (negative : Bool) : Float :=
  Binary64.ofDecimal negative n.digits n.exponent

/-- The sign of a text, and the text after it. -/
def splitSign : List Char → Bool × List Char
  | '+' :: r => (false, r)
  | '-' :: r => (true, r)
  | s => (false, s)

/-- The double that a text stands for: a signed numeral, or one of the words for infinity and for
what is not a number, in any case. -/
def float? (s : List Char) : Option Float :=
  let (negative, r) := splitSign s
  match Numeral.read? r with
  | some n => some (n.toFloat negative)
  | none =>
    let word := String.ofList (r.map Char.toLower)
    if word = "inf" ∨ word = "infinity" then some (Binary64.infinity negative)
    else if word = "nan" then some Binary64.notANumber
    else none

end Sequencer.Decimal
