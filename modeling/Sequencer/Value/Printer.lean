import Sequencer.Decimal.Shortest
import Sequencer.Value.Basic

/-!
# The text of values

A value is written as a compact document without spaces, or spread over lines. Texts escape only
what a document must: the quote, the backslash and the control characters. As the result of an
expression a text stands for itself and nothing for the empty text.
-/

namespace Sequencer

/-- The text of a number in a document. -/
def Number.write : Number → List Char
  | .int n => if n < 0 then '-' :: Nat.toDigits 10 n.natAbs else Nat.toDigits 10 n.natAbs
  | .float f => Decimal.Layout.document.writeFloat f fun _ => ['n', 'u', 'l', 'l']

namespace Value

/-- A digit in base sixteen, small letters. -/
def hexDigit (n : Nat) : Char := Nat.digitChar (n % 16)

/-- One character inside quotes. -/
def escapeChar (c : Char) : List Char :=
  if c = '"' then ['\\', '"']
  else if c = '\\' then ['\\', '\\']
  else if c.toNat < 0x20 then
    match c.toNat with
    | 0x08 => ['\\', 'b']
    | 0x09 => ['\\', 't']
    | 0x0A => ['\\', 'n']
    | 0x0C => ['\\', 'f']
    | 0x0D => ['\\', 'r']
    | n => ['\\', 'u', '0', '0', hexDigit (n / 16), hexDigit n]
  else [c]

/-- A quoted text. -/
def quote (s : String) : List Char := '"' :: (s.toList.flatMap escapeChar ++ ['"'])

/-! ## Compact form -/

mutual

/-- The compact document of a value. -/
def write : Value → List Char
  | .null => ['n', 'u', 'l', 'l']
  | .bool true => ['t', 'r', 'u', 'e']
  | .bool false => ['f', 'a', 'l', 's', 'e']
  | .num n => n.write
  | .str s => quote s
  | .arr items => '[' :: (writeItems items ++ [']'])
  | .obj fields => '{' :: (writeFields fields ++ ['}'])

/-- Elements with commas between them. -/
def writeItems : List Value → List Char
  | [] => []
  | v :: items => write v ++ (if items.isEmpty then [] else ',' :: writeItems items)

/-- Fields with commas between them. -/
def writeFields : List (String × Value) → List Char
  | [] => []
  | (k, v) :: fields =>
    quote k ++ ':' :: write v ++ (if fields.isEmpty then [] else ',' :: writeFields fields)

end

/-- The compact document of a value as a string. -/
def json (v : Value) : String := String.ofList (write v)

/-- The text of a value: a text is itself, nothing is empty, all else is a document. -/
def chars : Value → List Char
  | .null => []
  | .str s => s.toList
  | v => write v

def text (v : Value) : String := String.ofList v.chars

/-! ## Spread over lines -/

/-- A new line, indented by two blanks a level. -/
def newline (level : Nat) : List Char := '\n' :: List.replicate (2 * level) ' '

mutual

/-- The document of a value over several lines; empty lists and objects stay on one. -/
def spread (level : Nat) : Value → List Char
  | .arr [] => ['[', ']']
  | .obj [] => ['{', '}']
  | .arr items => '[' :: (spreadItems (level + 1) items ++ newline level ++ [']'])
  | .obj fields => '{' :: (spreadFields (level + 1) fields ++ newline level ++ ['}'])
  | .null => ['n', 'u', 'l', 'l']
  | .bool true => ['t', 'r', 'u', 'e']
  | .bool false => ['f', 'a', 'l', 's', 'e']
  | .num n => n.write
  | .str s => quote s

/-- Elements, each on lines of its own. -/
def spreadItems (level : Nat) : List Value → List Char
  | [] => []
  | v :: items =>
    newline level ++ spread level v ++
      (if items.isEmpty then [] else ',' :: spreadItems level items)

/-- Fields, each on lines of its own. -/
def spreadFields (level : Nat) : List (String × Value) → List Char
  | [] => []
  | (k, v) :: fields =>
    newline level ++ quote k ++ ':' :: ' ' :: spread level v ++
      (if fields.isEmpty then [] else ',' :: spreadFields level fields)

end

/-- The document of a value over several lines. -/
def pretty (v : Value) : String := String.ofList (spread 0 v)

end Value
end Sequencer
