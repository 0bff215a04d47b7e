import Sequencer.Decimal.Numeral
import Sequencer.Decimal.Shortest
import Sequencer.Text.Casing
import Sequencer.Text.Split
import Sequencer.Toml.Item

/-!
# Settings

The values from which a configuration is made. A value of the wrong kind is converted where that makes
sense: a number or a truth value is also a text, and a text may write a number or a truth value.
-/

namespace Sequencer

/-- The value of a setting. -/
inductive Setting where
  /-- What stands in a list in front of an element that was set. -/
  | nothing
  | scalar (v : Toml.Scalar)
  | list (items : List Setting)
  | table (entries : List (String × Setting))
  deriving Repr

namespace Setting

open Decimal Toml

/-! ## Conversions -/

/-- The text of a float. -/
def floatText (f : Float) : String :=
  String.ofList <| Layout.setting.writeFloat f fun
    | none => "NaN".toList
    | some negative => (if negative then "-inf" else "inf").toList

/-- A setting as a text. Only values without parts are texts. -/
def text? : Setting → Option String
  | .scalar (.text s) => some s
  | .scalar (.int n) => some (toString n)
  | .scalar (.float f) => some (floatText f)
  | .scalar (.bool b) => some (if b then "true" else "false")
  | .scalar (.moment s) => some s
  | _ => none

/-- The greatest number of a word of 64 bits. -/
def maxWord : Nat := Nat.pow 2 64 - 1

/-- A float rounded to a whole number, halves up, and kept within a word. -/
def roundToWord (f : Float) : Nat :=
  match Binary64.ofFloat f with
  | .nan => 0
  | .infinite negative => if negative then 0 else maxWord
  | .finite negative mantissa exponent =>
    if negative then 0
    else if exponent ≥ 0 then min (mantissa * Nat.pow 2 exponent.toNat) maxWord
    else
      let unit := Nat.pow 2 (-exponent).toNat
      min ((2 * mantissa + unit) / (2 * unit)) maxWord

/-- A text as a number that fits a word. Words for yes and no count as one and zero. -/
def wordOfText? (s : String) : Option Nat :=
  let small := Text.lowered s
  if small = "true" ∨ small = "on" ∨ small = "yes" then some 1
  else if small = "false" ∨ small = "off" ∨ small = "no" then some 0
  else natural? s.toList

/-- A setting as a number that fits a word. -/
def word? : Setting → Option Nat
  | .scalar (.text s) => wordOfText? s
  | .scalar (.moment s) => wordOfText? s
  | .scalar (.int n) => if n < 0 then none else some n.toNat
  | .scalar (.float f) => some (roundToWord f)
  | .scalar (.bool b) => some (if b then 1 else 0)
  | _ => none

/-- A setting as a list of texts. -/
def texts? : Setting → Option (List String)
  | .list items => items.mapM text?
  | _ => none

/-! ## Sources -/

mutual

/-- The setting that an item of a document is. -/
def ofItem : Item → Setting
  | .scalar v => .scalar v
  | .list items => .list (ofItems items)
  | .table entries => .table (ofEntries entries)

def ofItems : List Item → List Setting
  | [] => []
  | item :: rest => ofItem item :: ofItems rest

/-- The settings that the entries of a document are. -/
def ofEntries : List (String × Item) → List (String × Setting)
  | [] => []
  | (key, item) :: rest => (key, ofItem item) :: ofEntries rest

end

/-- The setting that the value of an environment variable is. Values that look like a truth value or a
number are one; the list of property files is cut at its commas. -/
def ofVariable (key value : String) : Setting :=
  let small := Text.lowered value
  if small = "true" then .scalar (.bool true)
  else if small = "false" then .scalar (.bool false)
  else
    match integer? value.toList with
    | some n => .scalar (.int n)
    | none =>
      match float? value.toList with
      | some f => .scalar (.float f)
      | none =>
        if key = "properties" then
          .list ((Text.splitAll ',' value.toList).map fun part => .scalar (.text (String.ofList part)))
        else .scalar (.text value)

end Setting
end Sequencer
