import Sequencer.Decimal.Binary64

/-!
# Shortest digits

The fewest decimal digits that read back as a given double, and among those the nearest to it. The
double stands for every real number that rounds to it, an interval whose ends belong to it exactly
when its mantissa is even. For one, two, … digits the two neighbours of the value on that decimal
grid are tested against the interval; seventeen digits always suffice.
-/

namespace Sequencer.Decimal

/-- A positive double and the interval of numbers that round to it, over a common denominator. -/
structure Rounding where
  low : Nat
  value : Nat
  high : Nat
  den : Nat
  /-- Whether the ends of the interval round to the double too. -/
  closed : Bool
  deriving Repr

/-- The interval around `mantissa * 2 ^ exponent`. Below a power of two the grid of doubles is twice
as fine, so that there the lower end is only a quarter of a unit away. -/
def Rounding.of (mantissa : Nat) (exponent : Int) : Rounding :=
  let below := if mantissa = Nat.pow 2 52 && exponent > -1074 then 1 else 2
  let unit := exponent - 2
  let scale := if unit ≥ 0 then Nat.pow 2 unit.toNat else 1
  { low := (4 * mantissa - below) * scale
    value := 4 * mantissa * scale
    high := (4 * mantissa + 2) * scale
    den := if unit ≥ 0 then 1 else Nat.pow 2 (-unit).toNat
    closed := mantissa % 2 = 0 }

/-- Whether `num / den` rounds to the double. -/
def Rounding.contains (r : Rounding) (num den : Nat) : Bool :=
  if r.closed then r.low * den ≤ num * r.den && num * r.den ≤ r.high * den
  else r.low * den < num * r.den && num * r.den < r.high * den

/-- The decimal exponent of the first digit of `num / den`. -/
def leadingExponent (num den : Nat) : Int :=
  if den ≤ num then (Nat.toDigits 10 (num / den)).length - 1
  else
    let n := (Nat.toDigits 10 (den / num)).length
    if den ≤ num * Nat.pow 10 (n - 1) then -(n - 1 : Nat) else -n

/-- Decimal digits with a decimal exponent: the number `digits * 10 ^ exponent`. -/
structure Digits where
  digits : Nat
  exponent : Int
  deriving Repr, DecidableEq

/-- Which of two neighbours is taken where both are equally near. -/
inductive Tie where
  /-- The even one. -/
  | even
  /-- The one farther from zero. -/
  | away
  deriving Repr, DecidableEq

/-- Whether the upper neighbour of a tie above `below` is taken. -/
def Tie.up (below : Nat) : Tie → Bool
  | .even => below % 2 == 1
  | .away => true

/-- The nearest number on the grid of multiples of `10 ^ exponent` that rounds to the double. -/
def Rounding.onGrid? (r : Rounding) (tie : Tie) (exponent : Int) : Option Digits :=
  let num := if exponent ≥ 0 then r.value else r.value * Nat.pow 10 (-exponent).toNat
  let den := if exponent ≥ 0 then r.den * Nat.pow 10 exponent.toNat else r.den
  let below := num / den
  let scaled (n : Nat) := if exponent ≥ 0 then (n * Nat.pow 10 exponent.toNat, 1) else (n, Nat.pow 10 (-exponent).toNat)
  let fits (n : Nat) := r.contains (scaled n).1 (scaled n).2
  let rest := num % den
  match fits below, fits (below + 1) with
  | true, true =>
    let up := 2 * rest > den || (2 * rest == den && tie.up below)
    some ⟨if up then below + 1 else below, exponent⟩
  | true, false => some ⟨below, exponent⟩
  | false, true => some ⟨below + 1, exponent⟩
  | false, false => none

/-- The first grid, from coarse to fine, that holds a number rounding to the double. -/
def Rounding.shortestFrom (r : Rounding) (tie : Tie) (exponent : Int) : Nat → Digits
  | 0 => (r.onGrid? tie exponent).getD ⟨0, 0⟩
  | n + 1 =>
    match r.onGrid? tie exponent with
    | some d => d
    | none => shortestFrom r tie (exponent - 1) n

/-- Drops trailing zeros. -/
def Digits.reduce (d : Digits) : Nat → Digits
  | 0 => d
  | n + 1 =>
    if d.digits % 10 = 0 && d.digits ≠ 0 then reduce ⟨d.digits / 10, d.exponent + 1⟩ n else d

/-- The shortest digits of the positive number `mantissa * 2 ^ exponent`. -/
def shortest (tie : Tie) (mantissa : Nat) (exponent : Int) : Digits :=
  let r := Rounding.of mantissa exponent
  (r.shortestFrom tie (leadingExponent r.value r.den) 17).reduce 20

/-! ## Layout -/

/-- Where positional notation begins and ends, how whole numbers are written, and which way a tie goes. -/
structure Layout where
  /-- Least decimal exponent of the first digit that is written positionally. -/
  least : Int
  /-- First decimal exponent that is written with an exponent again. -/
  limit : Int
  /-- Whether a whole number keeps a point and a zero. -/
  point : Bool
  /-- Which digits are written where two texts are equally short and near. -/
  tie : Tie
  deriving Repr

/-- `n` zeros. -/
def zeros (n : Nat) : List Char := List.replicate n '0'

/-- The text of a positive number in the given layout. -/
def Layout.write (l : Layout) (d : Digits) : List Char :=
  let text := Nat.toDigits 10 d.digits
  let lead := d.exponent + (text.length - 1 : Nat)
  if l.least ≤ lead && lead < l.limit then
    if d.exponent ≥ 0 then
      text ++ zeros d.exponent.toNat ++ (if l.point then ['.', '0'] else [])
    else if lead ≥ 0 then
      text.take (lead.toNat + 1) ++ '.' :: text.drop (lead.toNat + 1)
    else '0' :: '.' :: zeros ((-lead).toNat - 1) ++ text
  else
    let tail := match text with
      | [] | [_] => text
      | c :: r => c :: '.' :: r
    let sign := if lead < 0 then '-' else '+'
    tail ++ 'e' :: sign :: Nat.toDigits 10 lead.natAbs

/-- The text of a double; `special` writes infinities (with their sign) and what is not a number. -/
def Layout.writeFloat (l : Layout) (f : Float) (special : Option Bool → List Char) : List Char :=
  match Binary64.ofFloat f with
  | .nan => special none
  | .infinite negative => special (some negative)
  | .finite negative mantissa exponent =>
    let magnitude :=
      if mantissa = 0 then (if l.point then ['0', '.', '0'] else ['0'])
      else l.write (shortest l.tie mantissa exponent)
    if negative then '-' :: magnitude else magnitude

/-- Documents write numbers positionally from a hundred-thousandth to below ten quadrillion, and
every float keeps a point; the last digit of a tie is even. -/
def Layout.document : Layout := ⟨-5, 16, true, .even⟩

/-- Settings write every number positionally, without a point when it is whole; a tie goes away from zero. -/
def Layout.setting : Layout := ⟨-400, 400, false, .away⟩

end Sequencer.Decimal
