import Mathlib.Data.List.TakeDrop
import Mathlib.Tactic.IntervalCases
import Mathlib.Tactic.SplitIfs
import Sequencer.Expr.Parser

/-!
# Writing expressions

An expression is written as tokens with a space between any two. Brackets stand only around a part that binds
looser than its place asks for. The grammar reads back what was written: no literal, name or operator is taken
for another one, and every tree comes out of its own text.

The reader goes down one level of the grammar at a time, and each level returns as soon as a token comes that
belongs further out. So what is shown for a tree is shown for any tokens behind it that may follow at its level,
and with the fuel that the tokens of the tree pay for.
-/

namespace Sequencer

/-- How an operator in front of its operand is written. -/
def PrefixOp.symbol : PrefixOp → List Char
  | .not => ['!']
  | .neg => ['-']

namespace Expr

/-! ## Tokens of a tree

The tokens of a tree in a place, with brackets around what binds looser than the place allows. -/

abbrev Token := List Char

/-- How tightly a tree is bound: a conditional the least, then operators between operands by their levels,
then operators in front. All else holds together by itself. -/
def binding : Expr → Nat
  | .cond _ _ _ => 0
  | .binary op _ _ => op.level + 1
  | .prefixed _ _ => operatorLevels + 1
  | _ => operatorLevels + 2

/-- Tokens in brackets, if these are needed. -/
def enclose (needed : Bool) (ts : List Token) : List Token :=
  if needed then ['('] :: (ts ++ [[')']]) else ts

/-- One character inside of quotes. -/
def quoteChar (c : Char) : List Char := if c = '"' ∨ c = '\\' then ['\\', c] else [c]

/-- A text in quotes. -/
def quoteToken (s : String) : Token := '"' :: (s.toList.flatMap quoteChar ++ ['"'])

/-- A literal. -/
def literalToken : Value → Token
  | .str s => quoteToken s
  | v => v.write

mutual

/-- The tokens of a tree, with brackets only where a part is bound looser than its place asks for. -/
def tokens : Expr → List Token
  | .lit v => [literalToken v]
  | .name x => [x.toList]
  | .member e field => enclose (e.binding < 8) (tokens e) ++ [['.'], field.toList]
  | .index e i => enclose (e.binding < 8) (tokens e) ++ ['['] :: (tokens i ++ [[']']])
  | .list items => ['['] :: (itemTokens items ++ [[']']])
  | .record fields => ['{'] :: (fieldTokens fields ++ [['}']])
  | .prefixed op e => op.symbol :: enclose (e.binding < 7) (tokens e)
  | .binary op l r =>
    enclose (l.binding < op.level + 1) (tokens l) ++ op.symbol :: enclose (r.binding < op.level + 2) (tokens r)
  | .cond c a b => enclose (c.binding < 1) (tokens c) ++ ['?'] :: (tokens a ++ [':'] :: tokens b)

/-- The tokens of elements, with commas between them. -/
def itemTokens : List Expr → List Token
  | [] => []
  | e :: items => tokens e ++ (if items.isEmpty then [] else [','] :: itemTokens items)

/-- The tokens of entries, with commas between them. -/
def fieldTokens : List (String × Expr) → List Token
  | [] => []
  | (key, e) :: fields =>
    quoteToken key :: [':'] :: (tokens e ++ (if fields.isEmpty then [] else [','] :: fieldTokens fields))

end

/-- The tokens of a tree in a place that asks for some binding. -/
def tokensAt (p : Nat) (e : Expr) : List Token := enclose (e.binding < p) e.tokens

/-- The text of a tree: its tokens with a space between any two. -/
def print (e : Expr) : List Char := [' '].intercalate e.tokens

/-! ## Trees that can be written

A reader has to be able to tell names from other words, and the text of a number has to be a numeral. -/

/-- A name as the grammar has it. -/
def IsName : List Char → Prop
  | [] => False
  | c :: r => isNameStart c ∧ ∀ d ∈ r, isNameChar d

/-- The words that are literals and not names. -/
def reserved : List String := ["true", "false", "null", "undefined"]

/-- The trees that have a text: the literals are nothing, truth values, texts and the whole numbers that a
numeral stands for, and names are names of the grammar. -/
inductive Printable : Expr → Prop
  | null : Printable (.lit .null)
  | bool (b : Bool) : Printable (.lit (.bool b))
  | str (s : String) : Printable (.lit (.str s))
  | int {n : Nat} (h : n < Value.wholeBound) : Printable (.lit (.num (.int n)))
  | name {x : String} (h : IsName x.toList) (hx : x ∉ reserved) : Printable (.name x)
  | member {e : Expr} {field : String} (h : Printable e) (hf : IsName field.toList) : Printable (.member e field)
  | index {e i : Expr} (h : Printable e) (hi : Printable i) : Printable (.index e i)
  | list {items : List Expr} (h : ∀ e ∈ items, Printable e) : Printable (.list items)
  | record {fields : List (String × Expr)} (h : ∀ f ∈ fields, Printable f.2) : Printable (.record fields)
  | prefixed (op : PrefixOp) {e : Expr} (h : Printable e) : Printable (.prefixed op e)
  | binary (op : BinaryOp) {l r : Expr} (hl : Printable l) (hr : Printable r) : Printable (.binary op l r)
  | cond {c a b : Expr} (hc : Printable c) (ha : Printable a) (hb : Printable b) : Printable (.cond c a b)

/-! ## Tokens behind spaces

One space is written between two tokens, so that no token runs into the next one. -/

/-- Tokens with a space in front of each. -/
def spaced (ts : List Token) : List Char := ts.flatMap fun t => ' ' :: t

@[simp] theorem spaced_nil : spaced [] = [] := rfl

@[simp] theorem spaced_cons (t : Token) (ts : List Token) : spaced (t :: ts) = ' ' :: (t ++ spaced ts) := rfl

/-- Only the first space makes the difference to the text of a tree. -/
theorem spaced_eq_intercalate (t : Token) (ts : List Token) :
    spaced (t :: ts) = ' ' :: [' '].intercalate (t :: ts) := by
  induction ts generalizing t with
  | nil => simp [List.intercalate]
  | cons u ts ih =>
    rw [spaced_cons, ih u]
    simp [List.intercalate]

/-- Whether a token begins with something else than a space. -/
def solid : Token → Bool
  | [] => false
  | c :: _ => !isSpace c

theorem skipSpace_spaced {t : Token} (h : solid t) (ts : List Token) :
    skipSpace (spaced (t :: ts)) = t ++ spaced ts := by
  cases t with
  | nil => cases h
  | cons c r =>
    have hc : isSpace c = false := by simpa [solid] using h
    simp [skipSpace, show isSpace ' ' = true from rfl, hc]

/-- Reading a run of characters stops at the next token. -/
theorem span_spaced {p : Char → Bool} {t : Token} (ht : ∀ c ∈ t, p c) (hp : p ' ' = false) (ts : List Token) :
    (t ++ spaced ts).span p = (t, spaced ts) := by
  have hstop : (spaced ts).takeWhile p = [] ∧ (spaced ts).dropWhile p = spaced ts := by
    cases ts with
    | nil => exact ⟨rfl, rfl⟩
    | cons u us => simp [hp]
  rw [List.span_eq_takeWhile_dropWhile, List.takeWhile_append_of_pos ht, List.dropWhile_append_of_pos ht,
    hstop.1, hstop.2, List.append_nil]

/-! ## Single tokens

Each kind of token is read back with what follows it. -/

theorem readName_spaced {w : List Char} (h : IsName w) (ts : List Token) :
    readName (w ++ spaced ts) = some (String.ofList w, spaced ts) := by
  cases w with
  | nil => cases h
  | cons c r =>
    show readName (c :: (r ++ spaced ts)) = _
    unfold readName
    simp only
    rw [if_pos h.1, span_spaced h.2 rfl]

theorem readQuoted_quoteChar (s r : List Char) :
    readQuoted '"' (s.flatMap quoteChar ++ '"' :: r) = some (s, r) := by
  induction s with
  | nil => simp [readQuoted]
  | cons c s ih =>
    rw [List.flatMap_cons, List.append_assoc]
    by_cases hc : c = '"' ∨ c = '\\'
    · -- Only the quote and the backslash are escaped, and they stand for themselves.
      have hesc : escaped c = c := by rcases hc with rfl | rfl <;> rfl
      have hq : quoteChar c = ['\\', c] := if_pos hc
      rw [hq, List.cons_append, List.singleton_append, readQuoted, ih, Option.map_some, hesc]
    · have hquote : c ≠ '"' := fun he => hc (.inl he)
      have hslash : c ≠ '\\' := fun he => hc (.inr he)
      have hq : quoteChar c = [c] := if_neg hc
      rw [hq, List.singleton_append, readQuoted]
      · rw [if_neg hquote, ih, Option.map_some]
      · intro d t he
        exact absurd he hslash

theorem digitsValue_toDigits (n : Nat) : Decimal.digitsValue (Nat.toDigits 10 n) = n :=
  Nat.ofDigitChars_ten_toDigits

theorem readNumber_spaced {n : Nat} (h : n < Value.wholeBound) (ts : List Token) :
    readNumber (Nat.toDigits 10 n ++ spaced ts) = (.num (.int n), spaced ts) := by
  -- The digits end at the space, so that there is no fraction and no exponent.
  have hspan : Decimal.spanDigits (Nat.toDigits 10 n ++ spaced ts) = (Nat.toDigits 10 n, spaced ts) :=
    span_spaced (fun c hc => Nat.isDigit_of_mem_toDigits (by decide) (by decide) hc) rfl ts
  have hfraction : readFraction (spaced ts) = ([], spaced ts) := by
    cases ts <;> simp [readFraction]
  have hexponent : readExponent (spaced ts) = (0, spaced ts) := by
    cases ts <;> simp [readExponent]
  have hvalue : Decimal.Numeral.ofParts (Nat.toDigits 10 n) [] 0 = ⟨n, 0⟩ := by
    unfold Decimal.Numeral.ofParts
    rw [List.append_nil, digitsValue_toDigits]
    rfl
  unfold readNumber
  rw [hspan]
  simp only
  rw [hfraction]
  simp only
  rw [hexponent]
  simp only
  rw [hvalue]
  unfold numeralValue
  rw [if_pos ⟨rfl, h⟩]

/-! ### Operators

Of two operators that begin in the same way the longer one is read first. The space behind keeps them apart. -/

theorem dropLead?_spaced {lead : List Char} (h : ' ' ∉ lead) (t : Token) (ts : List Token) :
    Text.dropLead? lead (t ++ spaced ts) = (Text.dropLead? lead t).map (· ++ spaced ts) := by
  induction lead generalizing t with
  | nil => rfl
  | cons c lead ih =>
    cases t with
    | nil =>
      -- The token is used up, and a symbol has no space in it.
      have hc : c ≠ ' ' := fun he => h (he ▸ List.mem_cons_self)
      cases ts with
      | nil => rfl
      | cons u us => simp [Text.dropLead?, hc]
    | cons d t =>
      show (if c = d then Text.dropLead? lead (t ++ spaced ts) else none) =
        (if c = d then Text.dropLead? lead t else none).map _
      split_ifs
      · exact ih (fun hm => h (List.mem_cons_of_mem c hm)) t
      · rfl

theorem space_notMem_symbol (op : BinaryOp) : ' ' ∉ op.symbol := by
  cases op <;> decide

/-- An operator is read off a token, whatever tokens come behind. -/
theorem readOperator_spaced (level : Nat) (t : Token) (ts : List Token) :
    readOperator level (t ++ spaced ts) =
      (readOperator level t).map fun (op, r) => (op, r ++ spaced ts) := by
  unfold readOperator
  induction operatorsAt level with
  | nil => rfl
  | cons op ops ih =>
    rw [List.findSome?_cons, List.findSome?_cons, dropLead?_spaced (space_notMem_symbol op)]
    cases Text.dropLead? op.symbol t with
    | none => exact ih
    | some r => rfl

theorem readOperator_symbol (op : BinaryOp) : readOperator op.level op.symbol = some (op, []) := by
  cases op <;> rfl

/-- Tighter levels do not take a looser operator for one of theirs. -/
theorem readOperator_of_lt {op : BinaryOp} {level : Nat} (h : op.level < level) :
    readOperator level op.symbol = none := by
  rcases Nat.lt_or_ge level 6 with hlt | hge
  · interval_cases level <;> cases op <;> first | rfl | exact absurd h (by decide)
  · have hnone : operatorsAt level = [] := by
      unfold operatorsAt
      split <;> first | omega | rfl
    unfold readOperator
    rw [hnone]
    rfl

/-! ## What may follow

Behind an operand of some level there is an operator of a looser one, a closing mark, or nothing. -/

/-- The tokens behind which a bracket or an element ends. -/
def closers : List Token := [[')'], [']'], ['}'], [','], [':']]

/-- Whether tokens may follow a tree in a place that asks for some binding: the next one ends something around
the tree, or is an operator that binds looser. -/
def Follows (p : Nat) (ts : List Token) : Prop :=
  ∀ t ∈ ts.head?, t ∈ closers ∨ (0 < p ∧ t = ['?']) ∨ ∃ op : BinaryOp, op.level < p ∧ t = op.symbol

namespace Follows

variable {p q : Nat} {t : Token} {ts : List Token}

theorem nil (p : Nat) : Follows p [] := by
  intro t ht
  cases ht

theorem closer (h : t ∈ closers) (p : Nat) (ts : List Token) : Follows p (t :: ts) := by
  intro u hu
  cases hu
  exact .inl h

theorem question (h : 0 < p) (ts : List Token) : Follows p (['?'] :: ts) := by
  intro u hu
  cases hu
  exact .inr (.inl ⟨h, rfl⟩)

theorem operator {op : BinaryOp} (h : op.level < p) (ts : List Token) : Follows p (op.symbol :: ts) := by
  intro u hu
  cases hu
  exact .inr (.inr ⟨op, h, rfl⟩)

theorem mono (h : Follows p ts) (hpq : p ≤ q) : Follows q ts := by
  intro t ht
  rcases h t ht with hc | ⟨hp, he⟩ | ⟨op, hop, he⟩
  · exact .inl hc
  · exact .inr (.inl ⟨Nat.lt_of_lt_of_le hp hpq, he⟩)
  · exact .inr (.inr ⟨op, Nat.lt_of_lt_of_le hop hpq, he⟩)

theorem solid (h : Follows p (t :: ts)) : solid t := by
  rcases h t rfl with hc | ⟨-, rfl⟩ | ⟨op, -, rfl⟩
  · have hall : ∀ u ∈ closers, Expr.solid u := by decide
    exact hall t hc
  · rfl
  · cases op <;> rfl

/-- No operator of the place or a tighter one comes next. -/
theorem readOperator_eq_none (h : Follows p ts) {level : Nat} (hl : p ≤ level) :
    readOperator level (skipSpace (spaced ts)) = none := by
  have hnone : ∀ u : Token, (∀ op : BinaryOp, Text.dropLead? op.symbol u = none) → readOperator level u = none := by
    intro u hu
    unfold readOperator
    rw [List.findSome?_eq_none_iff]
    intro op _
    rw [hu op]
    rfl
  cases ts with
  | nil =>
    apply hnone
    intro op
    cases op <;> rfl
  | cons t ts =>
    rw [skipSpace_spaced h.solid, readOperator_spaced, Option.map_eq_none_iff]
    -- What follows closes something, asks a question, or is an operator that binds less tightly.
    rcases h t rfl with hc | ⟨-, rfl⟩ | ⟨op, hop, rfl⟩
    · apply hnone
      intro op
      have hall : ∀ u ∈ closers, Text.dropLead? op.symbol u = none := by cases op <;> decide
      exact hall t hc
    · apply hnone
      intro op
      cases op <;> rfl
    · exact readOperator_of_lt (Nat.lt_of_lt_of_le hop hl)

/-- Nothing that comes next goes on with an access, or with a conditional inside of a place for one. -/
theorem head (h : Follows p ts) {c : Char} {r : List Char} (hc : skipSpace (spaced ts) = c :: r) :
    c ≠ '.' ∧ c ≠ '[' ∧ (p = 0 → c ≠ '?') := by
  cases ts with
  | nil => cases hc
  | cons t ts =>
    rw [skipSpace_spaced h.solid] at hc
    rcases h t rfl with hm | ⟨hp, rfl⟩ | ⟨op, hop, rfl⟩
    · have hall : ∀ u ∈ closers, u.head? ≠ some '.' ∧ u.head? ≠ some '[' ∧ u.head? ≠ some '?' ∧ u ≠ [] := by
        decide
      obtain ⟨hdot, hbracket, hquestion, hne⟩ := hall t hm
      obtain ⟨d, u, rfl⟩ := List.exists_cons_of_ne_nil hne
      cases hc
      simp only [List.head?_cons, ne_eq, Option.some.injEq] at hdot hbracket hquestion
      exact ⟨hdot, hbracket, fun _ => hquestion⟩
    · cases hc
      exact ⟨by decide, by decide, fun h0 => absurd h0 (Nat.ne_of_gt hp)⟩
    · cases op <;> cases hc <;> exact ⟨by decide, by decide, fun _ => by decide⟩

end Follows

end Expr
end Sequencer
