import Sequencer.Value.Printer

/-!
# Expressions

The trees of the expression language used in conditions, assignments and placeholders: literals,
names, access to parts of a value, list and object literals, operators and a conditional.
-/

namespace Sequencer

/-- Operators in front of their operand. -/
inductive PrefixOp where
  | not
  | neg
  deriving Repr, DecidableEq

/-- Operators between their operands. -/
inductive BinaryOp where
  | or
  | and
  | eq
  | ne
  | strictEq
  | strictNe
  | lt
  | le
  | gt
  | ge
  | add
  | sub
  | mul
  | div
  | mod
  deriving Repr, DecidableEq

/-- An expression. -/
inductive Expr where
  | lit (v : Value)
  | name (x : String)
  | member (e : Expr) (field : String)
  | index (e i : Expr)
  | list (items : List Expr)
  | record (fields : List (String × Expr))
  | prefixed (op : PrefixOp) (e : Expr)
  | binary (op : BinaryOp) (l r : Expr)
  | cond (c a b : Expr)
  deriving Repr, Inhabited

/-- Why an expression or a text with placeholders has no value. -/
inductive EvalError where
  /-- The text is no expression. -/
  | syntaxError
  /-- A placeholder is opened and never closed. -/
  | unterminatedPlaceholder (text : String)
  | divisionByZero
  /-- An arithmetic operand is no number. -/
  | notNumbers (l r : Value)
  /-- The operand of a minus sign is no number. -/
  | notNegatable (v : Value)
  deriving Repr

def EvalError.message : EvalError → String
  | .syntaxError => "syntax error in expression"
  | .unterminatedPlaceholder text => s!"unterminated placeholder in {text}"
  | .divisionByZero => "division by zero"
  | .notNumbers l r => s!"{l.json} and {r.json} are not numbers"
  | .notNegatable v => s!"cannot negate {v.json}"

/-! ## Precedence

Six levels of operators between operands, the loosest first. All of them group to the left. -/

/-- The level of an operator, from zero for the loosest. -/
def BinaryOp.level : BinaryOp → Nat
  | .or => 0
  | .and => 1
  | .eq | .ne | .strictEq | .strictNe => 2
  | .lt | .le | .gt | .ge => 3
  | .add | .sub => 4
  | .mul | .div | .mod => 5

/-- The number of operator levels. -/
def operatorLevels : Nat := 6

/-- How an operator is written. -/
def BinaryOp.symbol : BinaryOp → List Char
  | .or => ['|', '|']
  | .and => ['&', '&']
  | .eq => ['=', '=']
  | .ne => ['!', '=']
  | .strictEq => ['=', '=', '=']
  | .strictNe => ['!', '=', '=']
  | .lt => ['<']
  | .le => ['<', '=']
  | .gt => ['>']
  | .ge => ['>', '=']
  | .add => ['+']
  | .sub => ['-']
  | .mul => ['*']
  | .div => ['/']
  | .mod => ['%']

/-- The operators of a level in the order in which they are tried: one that begins with another
comes before it. -/
def operatorsAt : Nat → List BinaryOp
  | 0 => [.or]
  | 1 => [.and]
  | 2 => [.strictEq, .strictNe, .eq, .ne]
  | 3 => [.le, .ge, .lt, .gt]
  | 4 => [.add, .sub]
  | 5 => [.mul, .div, .mod]
  | _ => []

end Sequencer
