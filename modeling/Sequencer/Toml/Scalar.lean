import Sequencer.Decimal.Numeral
import Sequencer.Json.Syntax
import Sequencer.Toml.Moment

/-!
# TOML: texts and numbers

The values of a TOML document that have no parts. A reader takes such a value off the front of a text and
returns it with what follows, or nothing where the text begins otherwise.
-/

namespace Sequencer.Toml

/-- A value without parts. -/
inductive Scalar where
  | text (s : String)
  | int (n : Int)
  | float (f : Float)
  | bool (b : Bool)
  /-- A date, a time of day or both, as it is written canonically. -/
  | moment (s : String)
  deriving Repr

/-! ## Blanks -/

/-- Blanks within a line. -/
def isSpace (c : Char) : Bool := c = ' ' || c = '\t'

def skipSpace (s : List Char) : List Char := s.dropWhile isSpace

/-- The text after a line break at its front. -/
def newline? : List Char → Option (List Char)
  | '\n' :: r => some r
  | '\r' :: '\n' :: r => some r
  | _ => none

/-- Characters other than control characters; a tab counts. -/
def isPlain (c : Char) : Bool := c = '\t' || (0x20 ≤ c.toNat && c.toNat != 0x7F)

/-- The text after a comment, if one is at its front. -/
def skipComment : List Char → List Char
  | '#' :: r => r.dropWhile isPlain
  | s => s

/-- Blanks, line breaks and comments, each of which ends its line. -/
def skipLines : Nat → List Char → List Char
  | 0, s => s
  | fuel + 1, s =>
    let s := skipSpace s
    match newline? s with
    | some r => skipLines fuel r
    | none =>
      match s with
      | '#' :: _ =>
        match newline? (skipComment s) with
        | some r => skipLines fuel r
        | none => s
      | _ => s

/-! ## Texts -/

/-- The number of `n` digits in base sixteen at the front of a text. -/
def hexDigits? : Nat → Nat → List Char → Option (Nat × List Char)
  | 0, got, s => some (got, s)
  | n + 1, got, c :: r => (Json.hexValue? c).bind fun d => hexDigits? n (got * 16 + d) r
  | _ + 1, _, [] => none

/-- The character of a code point, if it has one. -/
def scalarChar? (n : Nat) : Option Char :=
  if n < 0xD800 ∨ (0xDFFF < n ∧ n < 0x110000) then some (Char.ofNat n) else none

/-- What an escape denotes, after its backslash. -/
def escape? : List Char → Option (Char × List Char)
  | 'b' :: r => some (Char.ofNat 8, r)
  | 'f' :: r => some (Char.ofNat 12, r)
  | 'n' :: r => some ('\n', r)
  | 'r' :: r => some ('\r', r)
  | 't' :: r => some ('\t', r)
  | '"' :: r => some ('"', r)
  | '\\' :: r => some ('\\', r)
  | 'u' :: r => (hexDigits? 4 0 r).bind fun (n, r) => (scalarChar? n).map fun c => (c, r)
  | 'U' :: r => (hexDigits? 8 0 r).bind fun (n, r) => (scalarChar? n).map fun c => (c, r)
  | _ => none

/-- A text in double quotes on one line, after its opening quote. `got` holds its characters so far in
reverse. -/
def readBasic : Nat → List Char → List Char → Option (String × List Char)
  | 0, _, _ => none
  | _ + 1, _, [] => none
  | fuel + 1, got, c :: r =>
    if c = '"' then some (String.ofList got.reverse, r)
    else if c = '\\' then (escape? r).bind fun (e, r) => readBasic fuel (e :: got) r
    else if isPlain c then readBasic fuel (c :: got) r
    else none

/-- A text in single quotes on one line, after its opening quote. -/
def readLiteral (s : List Char) : Option (String × List Char) :=
  match s.span fun c => isPlain c && c != '\'' with
  | (inside, '\'' :: r) => some (String.ofList inside, r)
  | _ => none

/-- Quotes at the front of a text over several lines: one or two of them, or up to five of which
the last three close it. -/
inductive Quotes where
  | inside (n : Nat) (rest : List Char)
  | closing (n : Nat) (rest : List Char)

/-- The quotes at the front of a text. -/
def readQuotes? (quote : Char) (s : List Char) : Option Quotes :=
  let (run, rest) := s.span (· = quote)
  if run.isEmpty then none
  else if run.length < 3 then some (.inside run.length rest)
  else if run.length ≤ 5 then some (.closing (run.length - 3) rest)
  else none

/-- The text after a backslash at the end of a line: the blanks and line breaks that follow it go too. -/
def lineEnd? (fuel : Nat) (s : List Char) : Option (List Char) :=
  (newline? (skipSpace s)).map (skipBreaks fuel)
where
  skipBreaks : Nat → List Char → List Char
    | 0, s => s
    | fuel + 1, s =>
      let s := skipSpace s
      match newline? s with
      | some r => skipBreaks fuel r
      | none => s

/-- A text in three quotes, after the opening ones. Only with double quotes has it escapes. -/
def readLong (quote : Char) : Nat → List Char → List Char → Option (String × List Char)
  | 0, _, _ => none
  | _ + 1, _, [] => none
  | fuel + 1, got, c :: r =>
    if c = quote then
      match readQuotes? quote (c :: r) with
      | some (.inside n rest) => readLong quote fuel (List.replicate n quote ++ got) rest
      | some (.closing n rest) =>
        some (String.ofList (List.replicate n quote ++ got).reverse, rest)
      | none => none
    else if c = '\\' && quote = '"' then
      match lineEnd? fuel r with
      | some r => readLong quote fuel got r
      | none => (escape? r).bind fun (e, r) => readLong quote fuel (e :: got) r
    else if isPlain c then readLong quote fuel (c :: got) r
    else (newline? (c :: r)).bind fun r => readLong quote fuel ('\n' :: got) r

/-- A line break right after the opening quotes is dropped. -/
def dropBreak (s : List Char) : List Char := (newline? s).getD s

/-- A text in quotes of any kind. -/
def readText (s : List Char) : Option (String × List Char) :=
  match s with
  | '"' :: '"' :: '"' :: r => readLong '"' (r.length + 1) [] (dropBreak r)
  | '\'' :: '\'' :: '\'' :: r => readLong '\'' (r.length + 1) [] (dropBreak r)
  | '"' :: r => readBasic (r.length + 1) [] r
  | '\'' :: r => readLiteral r
  | _ => none

/-! ## Numbers -/

/-- Digits with single underscores between them, from the first on. -/
def readDigits (isDigit : Char → Bool) : List Char → Option (List Char × List Char)
  | [] => none
  | c :: r => if isDigit c then go (r.length + 1) [c] r else none
where
  go : Nat → List Char → List Char → Option (List Char × List Char)
    | 0, _, _ => none
    | fuel + 1, got, s =>
      match s with
      | '_' :: d :: r => if isDigit d then go fuel (d :: got) r else none
      | ['_'] => none
      | d :: r => if isDigit d then go fuel (d :: got) r else some (got.reverse, s)
      | [] => some (got.reverse, [])

/-- A decimal number without leading zeros, with its sign. -/
def readWhole (s : List Char) : Option ((Bool × List Char) × List Char) :=
  let (negative, r) := Decimal.splitSign s
  match r with
  | '0' :: r => some ((negative, ['0']), r)
  | _ => (readDigits Char.isDigit r).map fun (digits, r) => ((negative, digits), r)

/-- The exponent of a float. -/
def readExponent? : List Char → Option (Int × List Char)
  | c :: r =>
    if c = 'e' ∨ c = 'E' then
      let (negative, r) := Decimal.splitSign r
      (readDigits Char.isDigit r).map fun (digits, r) =>
        let n : Int := Decimal.digitsValue digits
        (if negative then -n else n, r)
    else none
  | [] => none

/-- A number with a point or an exponent. What is too large has no value unless it is negative. -/
def readFloat (s : List Char) : Option (Scalar × List Char) :=
  (readWhole s).bind fun ((negative, whole), r) =>
    let result (fraction : List Char) (exponent : Int) (r : List Char) :=
      let f := (Decimal.Numeral.ofParts whole fraction exponent).toFloat negative
      if f == Binary64.infinity false then none else some (Scalar.float f, r)
    match r with
    | '.' :: r =>
      (readDigits Char.isDigit r).bind fun (fraction, r) =>
        match r with
        | 'e' :: _ | 'E' :: _ => (readExponent? r).bind fun (e, r) => result fraction e r
        | _ => result fraction 0 r
    | _ => (readExponent? r).bind fun (e, r) => result [] e r

/-- The words for infinity and for what is not a number, with a sign or without. -/
def readSpecial (s : List Char) : Option (Scalar × List Char) :=
  match Decimal.splitSign s with
  | (negative, 'i' :: 'n' :: 'f' :: r) => some (.float (Binary64.infinity negative), r)
  | (_, 'n' :: 'a' :: 'n' :: r) => some (.float Binary64.notANumber, r)
  | _ => none

/-- The number that digits stand for in a base. -/
def baseValue (base : Nat) (digits : List Char) : Nat :=
  digits.foldl (fun n c => n * base + (Json.hexValue? c).getD 0) 0

/-- A whole number in another base, after its marker. -/
def readBase (base : Nat) (s : List Char) : Option (Int × List Char) :=
  (readDigits (fun c => (Json.hexValue? c).any (· < base)) s).map fun (digits, r) =>
    (baseValue base digits, r)

/-- A whole number that fits a signed word of 64 bits. -/
def readInteger (s : List Char) : Option (Scalar × List Char) :=
  let number : Option (Int × List Char) := match s with
    | '0' :: 'x' :: r => readBase 16 r
    | '0' :: 'o' :: r => readBase 8 r
    | '0' :: 'b' :: r => readBase 2 r
    | _ => (readWhole s).map fun (((negative : Bool), digits), r) =>
      let n : Int := Decimal.digitsValue digits
      (if negative then -n else n, r)
  number.bind fun (n, r) => if -Int.pow 2 63 ≤ n ∧ n < Int.pow 2 63 then some (.int n, r) else none

/-! ## Values -/

/-- A value without parts. -/
def readScalar (s : List Char) : Option (Scalar × List Char) :=
  match s with
  | '"' :: _ | '\'' :: _ => (readText s).map fun (t, r) => (.text t, r)
  | 't' :: 'r' :: 'u' :: 'e' :: r => some (.bool true, r)
  | 'f' :: 'a' :: 'l' :: 's' :: 'e' :: r => some (.bool false, r)
  | _ =>
    match readMoment s with
    | some (t, r) => some (.moment t, r)
    | none =>
      match readFloat s with
      | some result => some result
      | none =>
        match readSpecial s with
        | some result => some result
        | none => readInteger s

end Sequencer.Toml
