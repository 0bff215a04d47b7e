import Sequencer.Decimal.Numeral

/-!
# TOML: moments

A moment is a date, a time of day, or a date with a time, which may say how far it is from universal time.
It is kept as the text that writes it canonically: the letter `T` between date and time, a fraction of a
second without zeros at its end, no distance as a plus sign and zeros. `readMoment` takes a moment off the
front of a document, and `momentOfText?` reads a text that is one; the latter allows the hour that ends a
day, and minutes of any two digits in a distance of at most a day.
-/

namespace Sequencer.Toml

/-! ## Dates -/

/-- Exactly `n` digits. -/
def fixedDigits? (n : Nat) (s : List Char) : Option (Nat × List Char) :=
  let digits := s.take n
  if digits.length = n && digits.all Char.isDigit then some (Decimal.digitsValue digits, s.drop n)
  else none

/-- The text after a character. -/
def after? (c : Char) : List Char → Option (List Char)
  | d :: r => if d = c then some r else none
  | [] => none

/-- How many days a month has. -/
def monthDays (year month : Nat) : Nat :=
  if month = 2 then
    if year % 4 = 0 ∧ (year % 100 ≠ 0 ∨ year % 400 = 0) then 29 else 28
  else if month = 4 ∨ month = 6 ∨ month = 9 ∨ month = 11 then 30
  else 31

/-- The two digits of a number below a hundred. -/
def twoDigits (n : Nat) : List Char := [Nat.digitChar (n / 10 % 10), Nat.digitChar (n % 10)]

/-- A date. Returns its text. -/
def readDate (s : List Char) : Option (List Char × List Char) := do
  let (year, r) ← fixedDigits? 4 s
  let (month, r) ← fixedDigits? 2 (← after? '-' r)
  let (day, r) ← fixedDigits? 2 (← after? '-' r)
  if 1 ≤ month ∧ month ≤ 12 ∧ 1 ≤ day ∧ day ≤ monthDays year month then
    some (twoDigits (year / 100) ++ twoDigits year ++ '-' :: twoDigits month ++ '-' :: twoDigits day, r)
  else none

/-- Whether a time may follow a character that stands behind a date. -/
def isTimeMark (c : Char) : Bool := c = 'T' || c = 't' || c = ' '

/-! ## Times -/

/-- A text without the zeros at its end. -/
def dropZeros (s : List Char) : List Char := (s.reverse.dropWhile (· = '0')).reverse

/-- The fraction of a second, cut after nine places and written without zeros at its end. -/
def readFraction (s : List Char) : List Char × List Char :=
  match s with
  | '.' :: r =>
    let (digits, rest) := Decimal.spanDigits r
    if digits.isEmpty then ([], s)
    else
      let places := dropZeros (digits.take 9)
      (if places.isEmpty then [] else '.' :: places, rest)
  | _ => ([], s)

/-- A time of day with an hour up to `last`. The last second of a day may be its sixty-first. -/
def readTime (last : Nat) (s : List Char) : Option (List Char × List Char) := do
  let (hour, r) ← fixedDigits? 2 s
  let (minute, r) ← fixedDigits? 2 (← after? ':' r)
  let (second, r) ← fixedDigits? 2 (← after? ':' r)
  if hour ≤ last ∧ minute ≤ 59 ∧ second ≤ 60 then
    let (fraction, r) := readFraction r
    some (twoDigits hour ++ ':' :: twoDigits minute ++ ':' :: twoDigits second ++ fraction, r)
  else none

/-! ## Distances from universal time -/

/-- The text of a distance of so many minutes. No distance has a plus sign. -/
def offsetText (sign : Char) (minutes : Nat) : List Char :=
  (if minutes = 0 then '+' else sign) :: twoDigits (minutes / 60) ++ ':' :: twoDigits (minutes % 60)

/-- How far a time is from universal time, if `fits` takes the hours and minutes of the distance. -/
def readOffset (fits : Nat → Nat → Bool) (s : List Char) : Option (List Char × List Char) :=
  match s with
  | 'Z' :: r | 'z' :: r => some (['Z'], r)
  | sign :: r =>
    if sign = '+' ∨ sign = '-' then do
      let (hours, r) ← fixedDigits? 2 r
      let (minutes, r) ← fixedDigits? 2 (← after? ':' r)
      if fits hours minutes then some (offsetText sign (60 * hours + minutes), r) else none
    else none
  | [] => none

/-- The distances in a document are times of day. -/
def fitsDocument (hours minutes : Nat) : Bool := hours ≤ 23 && minutes ≤ 59

/-- The distances in a text of its own are up to one day. -/
def fitsText (hours minutes : Nat) : Bool := 60 * hours + minutes ≤ 24 * 60

/-! ## Moments -/

/-- A moment in a document: a date, a date with a time, or a time. -/
def readMoment (s : List Char) : Option (String × List Char) :=
  match readDate s with
  | some (date, r) =>
    let time := match r with
      | c :: r => if isTimeMark c then readTime 23 r else none
      | [] => none
    match time with
    | none => some (String.ofList date, r)
    | some (time, r) =>
      let (offset, r) := (readOffset fitsDocument r).getD ([], r)
      some (String.ofList (date ++ 'T' :: time ++ offset), r)
  | none => (readTime 23 s).map fun (time, r) => (String.ofList time, r)

/-- A time of day with a distance or without one, up to the end of a text. -/
def readLastTime? (s : List Char) : Option (List Char) :=
  (readTime 24 s).bind fun (time, r) =>
    match r with
    | [] => some time
    | r =>
      match readOffset fitsText r with
      | some (offset, []) => some (time ++ offset)
      | _ => none

/-- The moment that a text is. -/
def momentOfText? (s : List Char) : Option String :=
  match readDate s with
  | some (date, []) => some (String.ofList date)
  | some (date, c :: r) =>
    if isTimeMark c then (readLastTime? r).map fun time => String.ofList (date ++ 'T' :: time) else none
  | none =>
    match readTime 24 s with
    | some (time, []) => some (String.ofList time)
    | _ => none

end Sequencer.Toml
