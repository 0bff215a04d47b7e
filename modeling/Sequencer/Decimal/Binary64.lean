/-!
# Doubles as exact numbers

A double is read into a sign, a mantissa and a power of two, so that questions about it (is it a
whole number, what does a division leave, which double lies nearest to a ratio) are answered in
exact arithmetic on natural numbers.
-/

namespace Sequencer

/-- The value of a double. -/
inductive Binary64 where
  | nan
  | infinite (negative : Bool)
  /-- The number `mantissa * 2 ^ exponent`, with its sign. -/
  | finite (negative : Bool) (mantissa : Nat) (exponent : Int)
  deriving Repr, DecidableEq

namespace Binary64

/-! ## Reading and writing the bits -/

/-- The number that 64 bits stand for: one sign bit, eleven exponent bits, 52 mantissa bits. -/
def ofBits (bits : Nat) : Binary64 :=
  let negative := Nat.pow 2 63 ≤ bits
  let biased : Nat := bits / Nat.pow 2 52 % Nat.pow 2 11
  let fraction := bits % Nat.pow 2 52
  if biased = 2047 then
    if fraction = 0 then .infinite negative else .nan
  else if biased = 0 then .finite negative fraction (-1074)
  else .finite negative (Nat.pow 2 52 + fraction) ((biased : Int) - 1075)

def ofFloat (f : Float) : Binary64 := ofBits f.toBits.toNat

/-- The double of the given sign and magnitude bits. -/
def pack (negative : Bool) (magnitude : Nat) : Float :=
  Float.ofBits (UInt64.ofNat (if negative then Nat.pow 2 63 + magnitude else magnitude))

/-- The magnitude bits of infinity. -/
def infinityBits : Nat := 2047 * Nat.pow 2 52

def infinity (negative : Bool) : Float := pack negative infinityBits

def notANumber : Float := pack false (infinityBits + Nat.pow 2 51)

/-! ## Rounding -/

/-- The exponent of the last mantissa bit of the double nearest to `num / den`, before a carry. -/
def unitExponent (num den : Nat) : Int :=
  let guess : Int := (num.log2 : Int) - den.log2 - 53
  let wide := if guess ≥ 0 then num / (den * Nat.pow 2 guess.toNat) else num * Nat.pow 2 (-guess).toNat / den
  max (if Nat.pow 2 53 ≤ wide then guess + 1 else guess) (-1074)

/-- The quotient rounded to the nearest whole number, halves to the even neighbour. -/
def roundHalfEven (num den : Nat) : Nat :=
  let whole := num / den
  let rest := num % den
  if 2 * rest > den || (2 * rest == den && whole % 2 == 1) then whole + 1 else whole

/-- The magnitude bits of the double nearest to `num / den`, halves to the even mantissa. A carry
out of the mantissa lands in the exponent bits, which is where it belongs. -/
def nearestBits (num den : Nat) : Nat :=
  if num = 0 then 0
  else
    let unit := unitExponent num den
    let mantissa :=
      if unit ≥ 0 then roundHalfEven num (den * Nat.pow 2 unit.toNat)
      else roundHalfEven (num * Nat.pow 2 (-unit).toNat) den
    if mantissa < Nat.pow 2 52 then mantissa
    else min infinityBits ((unit + 1075).toNat * Nat.pow 2 52 + (mantissa - Nat.pow 2 52))

/-- The double nearest to `num / den`. -/
def nearest (negative : Bool) (num den : Nat) : Float := pack negative (nearestBits num den)

/-- The double nearest to `digits * 10 ^ exponent`. Powers of ten that no double reaches are not
computed: the result is infinite or zero. -/
def ofDecimal (negative : Bool) (digits : Nat) (exponent : Int) : Float :=
  let size : Int := (Nat.toDigits 10 digits).length + exponent
  if digits = 0 || size < -330 then pack negative 0
  else if size > 330 then infinity negative
  else if exponent ≥ 0 then nearest negative (digits * Nat.pow 10 exponent.toNat) 1
  else nearest negative digits (Nat.pow 10 (-exponent).toNat)

/-! ## Whole numbers and remainders -/

/-- The value, if it is a whole number. -/
def toInt? : Binary64 → Option Int
  | .finite negative mantissa exponent =>
    let sign (n : Nat) : Int := if negative then -(n : Int) else n
    if exponent ≥ 0 then some (sign (mantissa * Nat.pow 2 exponent.toNat))
    else if mantissa % Nat.pow 2 (-exponent).toNat = 0 then some (sign (mantissa / Nat.pow 2 (-exponent).toNat))
    else none
  | _ => none

/-- What the division of two doubles leaves, with the sign of the dividend. The result is exact. -/
def remainder (a b : Float) : Float :=
  match ofFloat a, ofFloat b with
  | .finite negative m p, .finite _ n q =>
    if n = 0 then notANumber
    else
      let unit := min p q
      let rest := m * Nat.pow 2 (p - unit).toNat % (n * Nat.pow 2 (q - unit).toNat)
      if unit ≥ 0 then nearest negative (rest * Nat.pow 2 unit.toNat) 1
      else nearest negative rest (Nat.pow 2 (-unit).toNat)
  | .finite .., .infinite _ => a
  | _, _ => notANumber

end Binary64
end Sequencer
