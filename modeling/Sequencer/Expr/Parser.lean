import Sequencer.Expr.Basic
import Sequencer.Text.Split

/-!
# Reading expressions

A reader with one function a level of the grammar. Blanks, tabs and line ends may stand between any
two tokens. No choice is ever taken back: the first character of what follows, or for operators of
one level the longest symbol, decides what is read, and a failure after that is a failure of the
whole.
-/

namespace Sequencer.Expr

/-! ## Tokens -/

/-- The characters that may stand between tokens. -/
def isSpace (c : Char) : Bool := c = ' ' || c = '\t' || c = '\r' || c = '\n'

def skipSpace (s : List Char) : List Char := s.dropWhile isSpace

/-- The characters that a name may begin with. -/
def isNameStart (c : Char) : Bool := c.isAlpha || c = '_' || c = '$'

/-- The characters of a name. -/
def isNameChar (c : Char) : Bool := c.isAlphanum || c = '_' || c = '$'

/-- The name at the front of a text. -/
def readName : List Char → Option (String × List Char)
  | c :: r =>
    if isNameStart c then
      let (rest, r) := r.span isNameChar
      some (String.ofList (c :: rest), r)
    else none
  | [] => none

/-- The character that stands for an escaped one. -/
def escaped : Char → Char
  | 'n' => '\n'
  | 't' => '\t'
  | 'r' => '\r'
  | c => c

/-- The characters up to the closing quote. A backslash takes the next character with it. -/
def readQuoted (quote : Char) : List Char → Option (List Char × List Char)
  | [] => none
  | '\\' :: c :: r => (readQuoted quote r).map fun (cs, r) => (escaped c :: cs, r)
  | c :: r => if c = quote then some ([], r) else (readQuoted quote r).map fun (cs, r) => (c :: cs, r)

/-- The fraction at the front of a text: a point with a digit after it. -/
def readFraction : List Char → List Char × List Char
  | '.' :: c :: r => if c.isDigit then Decimal.spanDigits (c :: r) else ([], '.' :: c :: r)
  | s => ([], s)

/-- The exponent at the front of a text, zero if none stands there. -/
def readExponent (s : List Char) : Int × List Char :=
  match s with
  | c :: r =>
    if c = 'e' ∨ c = 'E' then
      let (negative, t) := Decimal.splitSign r
      let (digits, t) := Decimal.spanDigits t
      if digits.isEmpty then (0, s)
      else
        let n : Int := Decimal.digitsValue digits
        (if negative then -n else n, t)
    else (0, s)
  | [] => (0, s)

/-- The value of a number literal. Digits alone are that whole number, as far as whole numbers are
kept; anything else is computed as a double. -/
def numeralValue (n : Decimal.Numeral) : Value :=
  if n.exponent = 0 ∧ n.digits < Value.wholeBound then .num (.int n.digits)
  else Value.ofFloat (n.toFloat false)

/-- The number at the front of a text. -/
def readNumber (s : List Char) : Value × List Char :=
  let (whole, r) := Decimal.spanDigits s
  let (fraction, r) := readFraction r
  let (exponent, r) := readExponent r
  (numeralValue (.ofParts whole fraction exponent), r)

/-- The expression a word stands for: some words are literals. -/
def ofWord (word : String) : Expr :=
  if word = "true" then .lit (.bool true)
  else if word = "false" then .lit (.bool false)
  else if word = "null" ∨ word = "undefined" then .lit .null
  else .name word

/-- The key of an entry: a quoted text or a name. -/
def readKey : List Char → Option (String × List Char)
  | '"' :: r => (readQuoted '"' r).map fun (cs, r) => (String.ofList cs, r)
  | '\'' :: r => (readQuoted '\'' r).map fun (cs, r) => (String.ofList cs, r)
  | s => readName s

/-- The operator of a level at the front of a text. -/
def readOperator (level : Nat) (s : List Char) : Option (BinaryOp × List Char) :=
  (operatorsAt level).findSome? fun op => (Text.dropLead? op.symbol s).map fun r => (op, r)

/-! ## The grammar -/

mutual

/-- A conditional, or what binds tighter. -/
def readCond : Nat → List Char → Option (Expr × List Char)
  | 0, _ => none
  | fuel + 1, s =>
    match readBinary fuel 0 s with
    | some (c, r) =>
      match skipSpace r with
      | '?' :: t =>
        match readCond fuel t with
        | some (a, t) =>
          match skipSpace t with
          | ':' :: t => (readCond fuel t).map fun (b, t) => (.cond c a b, t)
          | _ => none
        | none => none
      | _ => some (c, r)
    | none => none

/-- Operands of one level with operators between them. -/
def readBinary : Nat → Nat → List Char → Option (Expr × List Char)
  | 0, _, _ => none
  | fuel + 1, level, s =>
    if level < operatorLevels then
      match readBinary fuel (level + 1) s with
      | some (l, r) => readBinaryRest fuel level l r
      | none => none
    else readPrefixed fuel s

/-- The operators and operands after the first operand. -/
def readBinaryRest : Nat → Nat → Expr → List Char → Option (Expr × List Char)
  | 0, _, _, _ => none
  | fuel + 1, level, l, s =>
    match readOperator level (skipSpace s) with
    | some (op, r) =>
      match readBinary fuel (level + 1) r with
      | some (e, r) => readBinaryRest fuel level (.binary op l e) r
      | none => none
    | none => some (l, s)

/-- Operators in front of an operand. -/
def readPrefixed : Nat → List Char → Option (Expr × List Char)
  | 0, _ => none
  | fuel + 1, s =>
    match skipSpace s with
    | '!' :: r => (readPrefixed fuel r).map fun (e, r) => (.prefixed .not e, r)
    | '-' :: r => (readPrefixed fuel r).map fun (e, r) => (.prefixed .neg e, r)
    | r =>
      match readPrimary fuel r with
      | some (e, r) => readAccess fuel e r
      | none => none

/-- Accesses to parts of a value, after the expression for it. -/
def readAccess : Nat → Expr → List Char → Option (Expr × List Char)
  | 0, _, _ => none
  | fuel + 1, e, s =>
    match skipSpace s with
    | '.' :: r =>
      match readName (skipSpace r) with
      | some (field, r) => readAccess fuel (.member e field) r
      | none => none
    | '[' :: r =>
      match readCond fuel r with
      | some (i, r) =>
        match skipSpace r with
        | ']' :: r => readAccess fuel (.index e i) r
        | _ => none
      | none => none
    | _ => some (e, s)

/-- A literal, a name, or an expression in brackets. -/
def readPrimary : Nat → List Char → Option (Expr × List Char)
  | 0, _ => none
  | fuel + 1, s =>
    match s with
    | '"' :: r => (readQuoted '"' r).map fun (cs, r) => (.lit (Value.ofChars cs), r)
    | '\'' :: r => (readQuoted '\'' r).map fun (cs, r) => (.lit (Value.ofChars cs), r)
    | '(' :: r =>
      match readCond fuel r with
      | some (e, r) =>
        match skipSpace r with
        | ')' :: r => some (e, r)
        | _ => none
      | none => none
    | '[' :: r =>
      match skipSpace r with
      | ']' :: r => some (.list [], r)
      | r => (readItems fuel r).map fun (items, r) => (.list items, r)
    | '{' :: r =>
      match skipSpace r with
      | '}' :: r => some (.record [], r)
      | r => (readEntries fuel r).map fun (entries, r) => (.record entries, r)
    | c :: r =>
      if c.isDigit then
        let (v, r) := readNumber (c :: r)
        some (.lit v, r)
      else (readName (c :: r)).map fun (word, r) => (ofWord word, r)
    | [] => none

/-- The elements of a list literal and its closing bracket. -/
def readItems : Nat → List Char → Option (List Expr × List Char)
  | 0, _ => none
  | fuel + 1, s =>
    match readCond fuel s with
    | some (e, r) =>
      match skipSpace r with
      | ',' :: r => (readItems fuel r).map fun (es, r) => (e :: es, r)
      | ']' :: r => some ([e], r)
      | _ => none
    | none => none

/-- The entries of an object literal and its closing brace. -/
def readEntries : Nat → List Char → Option (List (String × Expr) × List Char)
  | 0, _ => none
  | fuel + 1, s =>
    match readKey (skipSpace s) with
    | some (key, r) =>
      match skipSpace r with
      | ':' :: r =>
        match readCond fuel r with
        | some (e, r) =>
          match skipSpace r with
          | ',' :: r => (readEntries fuel r).map fun (es, r) => ((key, e) :: es, r)
          | '}' :: r => some ([(key, e)], r)
          | _ => none
        | none => none
      | _ => none
    | none => none

end

/-- Steps that suffice for a text: between two characters that are consumed lie at most a dozen
levels of the grammar. -/
def readFuel (s : List Char) : Nat := 12 * (s.length + 2)

/-- The expression that takes up a whole text. -/
def parse (s : List Char) : Except EvalError Expr :=
  match readCond (readFuel s) s with
  | some (e, r) => if (skipSpace r).isEmpty then .ok e else .error .syntaxError
  | none => .error .syntaxError

end Sequencer.Expr
