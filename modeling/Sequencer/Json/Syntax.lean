import Sequencer.Value.Basic

/-!
# Documents

The syntax of a document, before it is asked what it denotes. A well-formed text or number may denote
nothing: a text with half of a surrogate pair in it, or a number beyond the doubles. Where a document
is only passed over that does no harm, so that the tree keeps such leaves and leaves the complaint to
whoever decodes them.
-/

namespace Sequencer.Json

/-- A well-formed document. -/
inductive Document where
  | null
  | bool (b : Bool)
  /-- A number; `none` if it lies beyond the doubles. -/
  | num (value : Option Number)
  /-- A text; `none` if its escapes form no characters. -/
  | str (content : Option String)
  | arr (items : List Document)
  | obj (fields : List (Option String × Document))
  deriving Repr, Inhabited

/-- The characters that may stand between tokens. -/
def isSpace (c : Char) : Bool := c = ' ' || c = '\n' || c = '\t' || c = '\r'

def skipSpace (s : List Char) : List Char := s.dropWhile isSpace

/-! ## Texts -/

/-- The value of a digit in base sixteen. -/
def hexValue? (c : Char) : Option Nat :=
  if c.isDigit then some (c.toNat - '0'.toNat)
  else if 'a' ≤ c ∧ c ≤ 'f' then some (c.toNat - 'a'.toNat + 10)
  else if 'A' ≤ c ∧ c ≤ 'F' then some (c.toNat - 'A'.toNat + 10)
  else none

/-- The number of four digits in base sixteen at the front of a text. -/
def hexWord? : List Char → Option (Nat × List Char)
  | a :: b :: c :: d :: r =>
    match hexValue? a, hexValue? b, hexValue? c, hexValue? d with
    | some a, some b, some c, some d => some (((a * 16 + b) * 16 + c) * 16 + d, r)
    | _, _, _, _ => none
  | _ => none

/-- What an escaped word denotes, given what follows: a character outside the surrogates, a character
made of two surrogates in a row, or nothing. -/
def unitChar (unit : Nat) (rest : List Char) : Option Char × List Char :=
  if unit < 0xD800 ∨ 0xDFFF < unit then (some (Char.ofNat unit), rest)
  else if unit < 0xDC00 then
    match rest with
    | '\\' :: 'u' :: r =>
      match hexWord? r with
      | some (low, r) =>
        if 0xDC00 ≤ low ∧ low ≤ 0xDFFF then
          (some (Char.ofNat (0x10000 + (unit - 0xD800) * 0x400 + (low - 0xDC00))), r)
        else (none, rest)
      | none => (none, rest)
    | _ => (none, rest)
  else (none, rest)

/-- The character of a one-letter escape. -/
def letterEscape? : Char → Option Char
  | '"' => some '"'
  | '\\' => some '\\'
  | '/' => some '/'
  | 'b' => some (Char.ofNat 8)
  | 'f' => some (Char.ofNat 12)
  | 'n' => some '\n'
  | 'r' => some '\r'
  | 't' => some '\t'
  | _ => none

/-- Reads a text up to its closing quote. `got` holds the characters so far in reverse, or nothing
once an escape has denoted none. -/
def readText : Nat → Option (List Char) → List Char → Option (Option String × List Char)
  | 0, _, _ => none
  | _ + 1, _, [] => none
  | fuel + 1, got, c :: r =>
    if c = '"' then some (got.map fun cs => String.ofList cs.reverse, r)
    else if c = '\\' then
      match r with
      | 'u' :: r =>
        match hexWord? r with
        | some (unit, r) =>
          let (ch, r) := unitChar unit r
          readText fuel (match got, ch with | some cs, some ch => some (ch :: cs) | _, _ => none) r
        | none => none
      | e :: r =>
        match letterEscape? e with
        | some ch => readText fuel (got.map (ch :: ·)) r
        | none => none
      | [] => none
    else if c.toNat < 0x20 then none
    else readText fuel (got.map (c :: ·)) r

/-! ## Numbers

A number with a point, an exponent or too many digits is read as the digits that fit a word of 64
bits, times or divided by a power of ten in double arithmetic. -/

/-- Appends digits to a word while they fit, and counts those that are left over. -/
def wordDigits : Nat → List Char → Nat × Nat
  | word, [] => (word, 0)
  | word, c :: r =>
    let next := 10 * word + (c.toNat - '0'.toNat)
    if next < Nat.pow 2 64 then wordDigits next r else (word, r.length + 1)

/-- The double `word * 10 ^ exponent`, computed with at most one division by `10 ^ 308` and one more
operation; `none` if it is infinite. -/
def scaled? (negative : Bool) (word : Nat) (exponent : Int) : Option Float :=
  let f := Binary64.nearest false word 1
  let power (n : Nat) := Binary64.nearest false (Nat.pow 10 n) 1
  let magnitude : Option Float :=
    if exponent > 308 then
      if word = 0 then some f else none
    else if exponent ≥ 0 then
      let g := f * power exponent.toNat
      if g == Binary64.infinity false then none else some g
    else if exponent ≥ -308 then some (f / power (-exponent).toNat)
    else if exponent ≥ -616 then some (f / power 308 / power (-exponent - 308).toNat)
    else some 0.0
  magnitude.map fun g => if negative then -g else g

/-- The number with the given digits before the point, after it, and exponent. -/
def numberOf (negative : Bool) (whole : List Char) (fraction : Option (List Char))
    (exponent : Option Int) : Option Number :=
  let (word, dropped) := wordDigits 0 whole
  match fraction, exponent with
  | none, none =>
    if dropped = 0 then
      if !negative then some (.int word)
      else if 0 < word ∧ word ≤ Nat.pow 2 63 then some (.int (-(word : Int)))
      else (scaled? true word 0).map .float
    else (scaled? negative word dropped).map .float
  | _, _ =>
    let digits := fraction.getD []
    let (word, left) := wordDigits word digits
    let shift : Int := dropped - (digits.length - left : Nat)
    (scaled? negative word (shift + exponent.getD 0)).map .float

/-- The exponent at the front of a text, if the letter `e` stands there. -/
def readExponent (s : List Char) : Option (Option Int × List Char) :=
  match s with
  | c :: r =>
    if c = 'e' ∨ c = 'E' then
      let (negative, r) := Decimal.splitSign r
      let (digits, r) := Decimal.spanDigits r
      if digits.isEmpty then none
      else
        let n : Int := Decimal.digitsValue digits
        some (some (if negative then -n else n), r)
    else some (none, s)
  | [] => some (none, s)

/-- Reads a number after its sign. Only a lone zero starts with a zero. -/
def readNumber (negative : Bool) (s : List Char) : Option (Option Number × List Char) :=
  let (whole, r) := Decimal.spanDigits s
  if whole.isEmpty || (whole.head? = some '0' && whole.length > 1) then none
  else
    match r with
    | '.' :: r =>
      let (fraction, r) := Decimal.spanDigits r
      if fraction.isEmpty then none
      else
        (readExponent r).map fun (exponent, r) =>
          (numberOf negative whole (some fraction) exponent, r)
    | _ => (readExponent r).map fun (exponent, r) => (numberOf negative whole none exponent, r)

/-! ## Documents -/

mutual

/-- Reads a document at the front of a text. -/
def readDocument : Nat → List Char → Option (Document × List Char)
  | 0, _ => none
  | fuel + 1, s =>
    match skipSpace s with
    | 'n' :: 'u' :: 'l' :: 'l' :: r => some (.null, r)
    | 't' :: 'r' :: 'u' :: 'e' :: r => some (.bool true, r)
    | 'f' :: 'a' :: 'l' :: 's' :: 'e' :: r => some (.bool false, r)
    | '"' :: r => (readText (r.length + 1) (some []) r).map fun (text, r) => (.str text, r)
    | '-' :: r => (readNumber true r).map fun (n, r) => (.num n, r)
    | '[' :: r =>
      match skipSpace r with
      | ']' :: r => some (.arr [], r)
      | r => (readItems fuel r).map fun (items, r) => (.arr items, r)
    | '{' :: r =>
      match skipSpace r with
      | '}' :: r => some (.obj [], r)
      | r => (readFields fuel r).map fun (fields, r) => (.obj fields, r)
    | c :: r => if c.isDigit then (readNumber false (c :: r)).map fun (n, r) => (.num n, r) else none
    | [] => none

/-- Reads the elements of a list and its closing bracket. -/
def readItems : Nat → List Char → Option (List Document × List Char)
  | 0, _ => none
  | fuel + 1, s =>
    match readDocument fuel s with
    | some (item, r) =>
      match skipSpace r with
      | ',' :: r => (readItems fuel r).map fun (items, r) => (item :: items, r)
      | ']' :: r => some ([item], r)
      | _ => none
    | none => none

/-- Reads the fields of an object and its closing brace. -/
def readFields : Nat → List Char → Option (List (Option String × Document) × List Char)
  | 0, _ => none
  | fuel + 1, s =>
    match skipSpace s with
    | '"' :: r =>
      match readText (r.length + 1) (some []) r with
      | some (key, r) =>
        match skipSpace r with
        | ':' :: r =>
          match readDocument fuel r with
          | some (v, r) =>
            match skipSpace r with
            | ',' :: r => (readFields fuel r).map fun (fields, r) => ((key, v) :: fields, r)
            | '}' :: r => some ([(key, v)], r)
            | _ => none
          | none => none
        | _ => none
      | none => none
    | _ => none

end

/-- The document that takes up a whole text. Every step of the reader consumes a character or opens a
list or object that the next step looks into, so that twice the length bounds their number. -/
def document? (s : List Char) : Option Document :=
  match readDocument (2 * s.length + 2) s with
  | some (d, r) => if (skipSpace r).isEmpty then some d else none
  | none => none

end Sequencer.Json
