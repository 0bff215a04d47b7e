import Sequencer.Expr.Parser
import Sequencer.Value.Path

/-!
# Evaluating expressions

The value of an expression, given what names stand for. A name that stands for nothing has no value
but nothing. Texts that are numerals count as numbers in arithmetic and comparison; addition joins
the texts of operands that are not both numbers.
-/

namespace Sequencer

/-- What names stand for. -/
abbrev Lookup := String → Option Value

namespace Expr

/-! ## Parts of values -/

/-- The part of a value under a name: the length of a list or text, or what a dotted path leads to. -/
def part (v : Value) (name : String) : Value :=
  match v, name with
  | .arr items, "length" => .num (.int items.length)
  | .str s, "length" => .num (.int s.length)
  | _, _ => (v.readPath name).getD .null

/-! ## Operators -/

/-- Both operands as numbers; lists and objects never are. -/
def numbers? (l r : Value) : Option (Float × Float) :=
  if l.isContainer || r.isContainer then none
  else
    match l.toFloat?, r.toFloat? with
    | some a, some b => some (a, b)
    | _, _ => none

/-- Arithmetic on two numbers. -/
def arithmetic (f : Float → Float → Float) (l r : Value) : Except EvalError Value :=
  match numbers? l r with
  | some (a, b) => .ok (Value.ofFloat (f a b))
  | none => .error (.notNumbers l r)

/-- Division and remainder, which zero has none of. -/
def division (f : Float → Float → Float) (l r : Value) : Except EvalError Value :=
  match numbers? l r with
  | some (a, b) => if b == 0.0 then .error .divisionByZero else .ok (Value.ofFloat (f a b))
  | none => .error (.notNumbers l r)

/-- The sum of two numbers, or the texts of the operands joined. -/
def sum (l r : Value) : Value :=
  match numbers? l r with
  | some (a, b) => Value.ofFloat (a + b)
  | none => Value.ofChars (l.chars ++ r.chars)

/-- Equality that takes numerals for numbers. Nothing equals only itself, and two texts are compared
as texts. -/
def looseEq (l r : Value) : Bool :=
  match l, r with
  | .null, .null => true
  | .null, _ => false
  | _, .null => false
  | .str a, .str b => a == b
  | _, _ =>
    match numbers? l r with
    | some (a, b) => a == b
    | none => l.same r

/-- Equality of kind and value; all numbers are of one kind. -/
def strictEq (l r : Value) : Bool :=
  match l, r with
  | .num a, .num b => a.toFloat == b.toFloat
  | _, _ => l.same r

/-- Compares as numbers if both operands are, and by their texts if not. -/
def compare (onNumbers : Float → Float → Bool) (onTexts : Ordering → Bool) (l r : Value) : Value :=
  .bool <|
    match numbers? l r with
    | some (a, b) => onNumbers a b
    | none => onTexts (Ord.compare l.text r.text)

/-- An operator whose operands are both evaluated. -/
def apply : BinaryOp → Value → Value → Except EvalError Value
  | .add, l, r => .ok (sum l r)
  | .sub, l, r => arithmetic (· - ·) l r
  | .mul, l, r => arithmetic (· * ·) l r
  | .div, l, r => division (· / ·) l r
  | .mod, l, r => division Binary64.remainder l r
  | .eq, l, r => .ok (.bool (looseEq l r))
  | .ne, l, r => .ok (.bool (!looseEq l r))
  | .strictEq, l, r => .ok (.bool (strictEq l r))
  | .strictNe, l, r => .ok (.bool (!strictEq l r))
  | .lt, l, r => .ok (compare (· < ·) (·.isLT) l r)
  | .le, l, r => .ok (compare (· ≤ ·) (·.isLE) l r)
  | .gt, l, r => .ok (compare (· > ·) (·.isGT) l r)
  | .ge, l, r => .ok (compare (· ≥ ·) (·.isGE) l r)
  | .and, l, r => .ok (if l.truthy then r else l)
  | .or, l, r => .ok (if l.truthy then l else r)

/-- An operator in front of its operand. -/
def applyPrefix : PrefixOp → Value → Except EvalError Value
  | .not, v => .ok (.bool (!v.truthy))
  | .neg, v =>
    match v.toFloat? with
    | some f => .ok (Value.ofFloat (-f))
    | none => .error (.notNegatable v)

/-! ## Evaluation -/

mutual

/-- The value of an expression. `and` and `or` evaluate their second operand only if the first does
not decide. -/
def eval (vars : Lookup) : Expr → Except EvalError Value
  | .lit v => .ok v
  | .name x => .ok ((vars x).getD .null)
  | .member e field =>
    match eval vars e with
    | .ok v => .ok (part v field)
    | .error err => .error err
  | .index e i =>
    match eval vars e with
    | .ok v =>
      match eval vars i with
      | .ok k => .ok (part v k.text)
      | .error err => .error err
    | .error err => .error err
  | .list items =>
    match evalItems vars items with
    | .ok vs => .ok (.arr vs)
    | .error err => .error err
  | .record fields =>
    match evalFields vars fields with
    | .ok fs => .ok (.obj (Table.ofEntries fs))
    | .error err => .error err
  | .prefixed op e =>
    match eval vars e with
    | .ok v => applyPrefix op v
    | .error err => .error err
  | .binary op l r =>
    match eval vars l with
    | .ok a =>
      if (op = .and && !a.truthy) || (op = .or && a.truthy) then .ok a
      else
        match eval vars r with
        | .ok b => apply op a b
        | .error err => .error err
    | .error err => .error err
  | .cond c a b =>
    match eval vars c with
    | .ok v => if v.truthy then eval vars a else eval vars b
    | .error err => .error err

/-- The values of expressions in order. -/
def evalItems (vars : Lookup) : List Expr → Except EvalError (List Value)
  | [] => .ok []
  | e :: es =>
    match eval vars e with
    | .ok v =>
      match evalItems vars es with
      | .ok vs => .ok (v :: vs)
      | .error err => .error err
    | .error err => .error err

/-- The values of the entries of an object literal in order. -/
def evalFields (vars : Lookup) : List (String × Expr) → Except EvalError (List (String × Value))
  | [] => .ok []
  | (key, e) :: es =>
    match eval vars e with
    | .ok v =>
      match evalFields vars es with
      | .ok vs => .ok ((key, v) :: vs)
      | .error err => .error err
    | .error err => .error err

end

/-- The value of the expression that a text is. -/
def evalText (vars : Lookup) (text : List Char) : Except EvalError Value :=
  match parse text with
  | .ok e => eval vars e
  | .error err => .error err

/-- The truth of the expression that a text is. -/
def testText (vars : Lookup) (text : List Char) : Except EvalError Bool :=
  match evalText vars text with
  | .ok v => .ok v.truthy
  | .error err => .error err

end Expr
end Sequencer
