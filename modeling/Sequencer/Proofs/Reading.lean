import Mathlib.Data.List.DropRight
import Sequencer.Proofs.Printing

/-!
# Reading what was written

The grammar has a place for each level of binding, and a tree that is read in a place either belongs there, or
is bound tighter and comes from the place below, or stands in brackets. So it is enough to show, for each kind of
tree, that it is read in its own place once its parts are read in theirs; all other places follow at once.

A place for operators or accesses goes on after the first operand. What is shown there is therefore that the
reader gets as far as the loop behind that operand, with the tree in hand.
-/

namespace Sequencer.Expr

/-! ## Places

Where a tree stands decides whether it needs brackets. -/

variable {e : Expr} {p : Nat}

/-- In a place that is wide enough no brackets are needed. -/
theorem tokensAt_of_le (h : p ≤ e.binding) : e.tokensAt p = e.tokens := by
  unfold tokensAt enclose
  rw [if_neg (by simpa using h)]

theorem tokensAt_binding (e : Expr) : e.tokensAt e.binding = e.tokens := tokensAt_of_le le_rfl

/-- In a narrower one the expression is enclosed. -/
theorem tokensAt_of_lt (h : e.binding < p) : e.tokensAt p = ['('] :: (e.tokens ++ [[')']]) := by
  unfold tokensAt enclose
  rw [if_pos (by simpa using h)]

/-- Only at its own binding a tree is written in another way in the next place. -/
theorem tokensAt_succ (h : e.binding ≠ p) : e.tokensAt (p + 1) = e.tokensAt p := by
  rcases Nat.lt_or_gt_of_ne h with hlt | hgt
  · rw [tokensAt_of_lt hlt, tokensAt_of_lt (Nat.lt_succ_of_lt hlt)]
  · rw [tokensAt_of_le hgt, tokensAt_of_le (Nat.le_of_lt hgt)]

/-- There are nine places, from the whole expression to a single token. -/
theorem binding_le (e : Expr) : e.binding ≤ 8 := by
  cases e <;> simp [binding, operatorLevels]
  case binary op l r => cases op <;> decide

theorem level_lt (op : BinaryOp) : op.level < operatorLevels := by
  cases op <;> decide

/-- Brackets only add tokens. -/
theorem enclose_ne_nil {b : Bool} {ts : List Token} (h : ts ≠ []) : enclose b ts ≠ [] := by
  unfold enclose
  split
  · exact List.cons_ne_nil _ _
  · exact h

/-- No expression is printed as nothing. -/
theorem tokens_ne_nil (e : Expr) : e.tokens ≠ [] := by
  cases e <;> simp [tokens]

theorem one_le_length_tokens (e : Expr) : 1 ≤ e.tokens.length := List.length_pos_iff.2 e.tokens_ne_nil

theorem one_le_length_tokensAt (p : Nat) (e : Expr) : 1 ≤ (e.tokensAt p).length :=
  List.length_pos_iff.2 (enclose_ne_nil e.tokens_ne_nil)

/-! ## What reading means in a place

The fuel for a place pays a dozen steps for each token. What was used up on the way down to the place is
forgiven: one step for each level, and one more for the operators in front. -/

/-- The fuel is enough for some tokens in a place. -/
def Affords (fuel p : Nat) (ts : List Token) : Prop := 12 * ts.length ≤ fuel + p + p / 7

/-- A tree is read in a place for conditionals. -/
def ReadsWhole (e : Expr) : Prop :=
  ∀ fuel ts, Affords fuel 0 e.tokens → Follows 0 ts →
    readCond fuel (spaced (e.tokens ++ ts)) = some (e, spaced ts)

/-- A tree is read as the first operand in a place for operators of a level. -/
def ReadsOperand (level : Nat) (e : Expr) : Prop :=
  ∀ fuel ts, Affords fuel (level + 1) (e.tokensAt (level + 1)) → Follows (level + 1) ts →
    ∃ fuel', fuel ≤ fuel' + (e.tokensAt (level + 1)).length ∧
      readBinary fuel level (spaced (e.tokensAt (level + 1) ++ ts)) = readBinaryRest fuel' level e (spaced ts)

/-- A tree is read in a place for operators in front. -/
def ReadsPrefixed (e : Expr) : Prop :=
  ∀ fuel ts, Affords fuel 7 (e.tokensAt 7) → Follows 7 ts →
    readPrefixed fuel (spaced (e.tokensAt 7 ++ ts)) = some (e, spaced ts)

/-- A tree is read as something whose parts may be accessed. -/
def ReadsObject (e : Expr) : Prop :=
  ∀ fuel ts, Affords fuel 8 (e.tokensAt 8) →
    ∃ fuel', fuel ≤ fuel' + (e.tokensAt 8).length ∧
      readPrefixed fuel (spaced (e.tokensAt 8 ++ ts)) = readAccess fuel' e (spaced ts)

/-- A tree is read in a place. -/
def Reads (e : Expr) (p : Nat) : Prop :=
  match p with
  | 0 => ReadsWhole e
  | 7 => ReadsPrefixed e
  | 8 => ReadsObject e
  | level + 1 => ReadsOperand level e

/-! ## Loops that end

A reader that goes on as long as it can has to stop at what follows. -/

/-- No operator of this level follows, so that the loop ends at once. -/
theorem readBinaryRest_of_follows {ts : List Token} {level : Nat} (h : Follows p ts) (hp : p ≤ level)
    (fuel : Nat) (e : Expr) : readBinaryRest (fuel + 1) level e (spaced ts) = some (e, spaced ts) := by
  rw [readBinaryRest, h.readOperator_eq_none hp]

/-- Nothing that could be accessed follows. -/
theorem readAccess_of_follows {ts : List Token} (h : Follows p ts) (fuel : Nat) (e : Expr) :
    readAccess (fuel + 1) e (spaced ts) = some (e, spaced ts) := by
  rw [readAccess]
  split
  · next hs => exact absurd rfl (h.head hs).1
  · next hs => exact absurd rfl (h.head hs).2.1
  · rfl

/-! ## From place to place

What is read in a narrow place can be read in a wider one, where nothing of the wider kind follows. -/

/-- An operand of one level is read by the next level, and a loop that ends at once. -/
theorem Reads.operand {level : Nat} (hlevel : level < 6) (h : Reads e (level + 1)) : ReadsOperand level e := by
  unfold Reads at h
  split at h <;> first | omega | skip
  next l _ _ hl =>
    obtain rfl : l = level := by omega
    exact h

/-- The other way round: what the next level reads is an operand that may be followed by more of this level. -/
theorem ReadsOperand.reads {level : Nat} (hlevel : level < 6) (h : ReadsOperand level e) : Reads e (level + 1) := by
  unfold Reads
  split <;> first | omega | skip
  next l _ _ hl =>
    obtain rfl : l = level := by omega
    exact h

/-- A whole operand of a level, where the next token belongs to a looser one or further out. -/
theorem readBinary_operand {level : Nat} (hlevel : level < 6) (h : Reads e (level + 1 + 1)) {ts : List Token}
    (hts : Follows (level + 1) ts) (fuel : Nat)
    (hfuel : 12 * (e.tokensAt (level + 1 + 1)).length ≤ fuel + level + 2) :
    readBinary fuel (level + 1) (spaced (e.tokensAt (level + 1 + 1) ++ ts)) = some (e, spaced ts) := by
  have hone := one_le_length_tokensAt (level + 1 + 1) e
  by_cases hlast : level = 5
  · -- Next to the tightest operators between operands come those in front.
    subst hlast
    obtain ⟨fuel, rfl⟩ : ∃ n, fuel = n + 1 := ⟨fuel - 1, by omega⟩
    rw [readBinary, if_neg (by decide)]
    refine h fuel ts ?_ (hts.mono (by decide))
    unfold Affords
    omega
  · obtain ⟨fuel', hle, heq⟩ :=
      h.operand (by omega) fuel ts (by unfold Affords; omega) (hts.mono (by omega))
    obtain ⟨fuel', rfl⟩ : ∃ n, fuel' = n + 1 := ⟨fuel' - 1, by omega⟩
    rw [heq, readBinaryRest_of_follows hts le_rfl]

/-- What is read as an operand is read where there is no operator. -/
theorem ReadsOperand.whole (h : ReadsOperand 0 e) (he : e.binding ≠ 0) : ReadsWhole e := by
  intro fuel ts hfuel hts
  have hone := one_le_length_tokens e
  unfold Affords at hfuel
  obtain ⟨fuel, rfl⟩ : ∃ n, fuel = n + 1 := ⟨fuel - 1, by omega⟩
  unfold ReadsOperand at h
  rw [tokensAt_of_le (Nat.one_le_iff_ne_zero.2 he)] at h
  obtain ⟨fuel', hle, heq⟩ := h fuel ts (by unfold Affords; omega) (hts.mono (Nat.zero_le 1))
  obtain ⟨fuel', rfl⟩ : ∃ n, fuel' = n + 1 := ⟨fuel' - 1, by omega⟩
  rw [readCond, heq, readBinaryRest_of_follows hts le_rfl]
  simp only
  split
  · next hs => exact absurd rfl ((hts.head hs).2.2 rfl)
  · rfl

/-- What is read in the next place is read as an operand. -/
theorem Reads.loosen {level : Nat} (hlevel : level < 6) (h : Reads e (level + 1 + 1))
    (he : e.binding ≠ level + 1) : ReadsOperand level e := by
  intro fuel ts hfuel hts
  have hone := one_le_length_tokensAt (level + 1) e
  unfold Affords at hfuel
  obtain ⟨fuel, rfl⟩ : ∃ n, fuel = n + 1 := ⟨fuel - 1, by omega⟩
  have hoperand := readBinary_operand hlevel h hts fuel
  rw [tokensAt_succ he] at hoperand
  refine ⟨fuel, by omega, ?_⟩
  have hlt : level < operatorLevels := hlevel
  rw [readBinary, if_pos hlt, hoperand (by omega)]

/-- What is read as an object is read where there is no access. -/
theorem ReadsObject.prefixed (h : ReadsObject e) (he : e.binding ≠ 7) : ReadsPrefixed e := by
  intro fuel ts hfuel hts
  have hone := one_le_length_tokensAt 7 e
  unfold Affords at hfuel
  unfold ReadsObject at h
  rw [tokensAt_succ he] at h
  obtain ⟨fuel', hle, heq⟩ := h fuel ts (by unfold Affords; omega)
  obtain ⟨fuel', rfl⟩ : ∃ n, fuel' = n + 1 := ⟨fuel' - 1, by omega⟩
  rw [heq, readAccess_of_follows hts]

/-! ## Single operands

In brackets anything is a single operand. -/

/-- What is read as an operand that begins with no operator may have accesses behind it. -/
theorem readPrefixed_primary {t : Token} {ts us : List Token} {fuel : Nat} (hsolid : solid t)
    (hnot : t.head? ≠ some '!') (hneg : t.head? ≠ some '-')
    (hprimary : readPrimary fuel (t ++ spaced ts) = some (e, spaced us)) :
    readPrefixed (fuel + 1) (spaced (t :: ts)) = readAccess fuel e (spaced us) := by
  rw [readPrefixed, skipSpace_spaced hsolid]
  -- The first character tells that no sign stands in front.
  obtain ⟨c, r, rfl⟩ : ∃ c r, t = c :: r := by
    cases t with
    | nil => cases hsolid
    | cons c r => exact ⟨c, r, rfl⟩
  split
  · next hs =>
    cases hs
    exact absurd rfl hnot
  · next hs =>
    cases hs
    exact absurd rfl hneg
  · rw [hprimary]

/-- Brackets make an object of any tree. -/
theorem ReadsWhole.object (h : ReadsWhole e) (he : e.binding < 8) : ReadsObject e := by
  intro fuel ts hfuel
  have hone := one_le_length_tokens e
  unfold Affords at hfuel
  rw [tokensAt_of_lt he] at hfuel ⊢
  simp only [List.length_cons, List.length_append, List.length_nil] at hfuel ⊢
  obtain ⟨fuel, rfl⟩ : ∃ n, fuel = n + 1 + 1 := ⟨fuel - 2, by omega⟩
  have hinner := h fuel ([')'] :: ts) (by unfold Affords; omega) (.closer (by decide) 0 ts)
  refine ⟨fuel + 1, by omega, ?_⟩
  rw [List.cons_append, List.append_assoc, List.singleton_append]
  refine readPrefixed_primary rfl (by decide) (by decide) ?_
  show readPrimary (fuel + 1) ('(' :: spaced (e.tokens ++ [')'] :: ts)) = _
  rw [readPrimary, hinner]
  simp only
  rw [skipSpace_spaced rfl]
  rfl

/-- A tree that is read in its own place is read in every place. -/
theorem Reads.everywhere (h : Reads e e.binding) {p : Nat} (hp : p ≤ 8) : Reads e p := by
  -- From a place outwards, as long as the binding is not passed.
  have hdown : ∀ {q : Nat}, q < 8 → Reads e (q + 1) → e.binding ≠ q → Reads e q := by
    intro q hq hr hne
    rcases Nat.lt_or_ge q 7 with hlt | hge
    · cases q with
      | zero => exact ReadsOperand.whole (hr.operand (by omega)) hne
      | succ level => exact (hr.loosen (by omega) hne).reads (by omega)
    · obtain rfl : q = 7 := by omega
      exact ReadsObject.prefixed hr hne
  have houtwards : ∀ d q, q + d ≤ 8 → Reads e (q + d) → (∀ r, q ≤ r → r < q + d → e.binding ≠ r) → Reads e q := by
    intro d
    induction d with
    | zero =>
      intro q _ hr _
      exact hr
    | succ d ih =>
      intro q hq hr hne
      have hstep := hdown (q := q + d) (by omega) hr (hne (q + d) (by omega) (by omega))
      exact ih q (by omega) hstep fun r h₁ h₂ => hne r h₁ (by omega)
  have hown := binding_le e
  by_cases hle : p ≤ e.binding
  · refine houtwards (e.binding - p) p (by omega) ?_ fun r h₁ h₂ => by omega
    rwa [Nat.add_sub_cancel' hle]
  · -- Beyond its own place a tree stands in brackets.
    have hwhole : Reads e 0 := houtwards e.binding 0 (by omega) (by rwa [Nat.zero_add]) fun r h₁ h₂ => by omega
    have hobject : Reads e 8 := ReadsWhole.object hwhole (by omega)
    refine houtwards (8 - p) p (by omega) ?_ fun r h₁ h₂ => by omega
    rwa [Nat.add_sub_cancel' hp]

/-! ## Trees in their own places

Trees without parts. -/

section Own

/-- A tree of a single token that is read as an operand. -/
theorem readsObject_token {t : Token} (hbinding : e.binding = 8) (htokens : e.tokens = [t]) (hsolid : solid t)
    (hnot : t.head? ≠ some '!') (hneg : t.head? ≠ some '-')
    (hprimary : ∀ fuel ts, readPrimary (fuel + 1) (t ++ spaced ts) = some (e, spaced ts)) : ReadsObject e := by
  intro fuel ts hfuel
  unfold Affords at hfuel
  rw [tokensAt_of_le hbinding.ge, htokens] at hfuel ⊢
  rw [List.length_singleton] at hfuel ⊢
  obtain ⟨fuel, rfl⟩ : ∃ n, fuel = n + 1 + 1 := ⟨fuel - 2, by omega⟩
  exact ⟨fuel + 1, by omega, readPrefixed_primary hsolid hnot hneg (hprimary fuel ts)⟩

/-- A number and a name are told apart by their first character. -/
theorem not_isDigit_of_start {c : Char} (h : isNameStart c) : ¬ c.isDigit := by
  intro hd
  unfold isNameStart Char.isAlpha Char.isUpper Char.isLower at h
  unfold Char.isDigit at hd
  simp only [Bool.or_eq_true, Bool.and_eq_true, decide_eq_true_eq, ge_iff_le, UInt32.le_iff_toNat_le] at h hd
  obtain ⟨h0, h9⟩ := hd
  rcases h with ((⟨hA, -⟩ | ⟨ha, -⟩) | rfl) | rfl
  · exact absurd (hA.trans h9) (by decide)
  · exact absurd (ha.trans h9) (by decide)
  · exact absurd h9 (by decide)
  · exact absurd h0 (by decide)

/-- A name, or a word that is a literal. -/
theorem readPrimary_word {w : List Char} (h : IsName w) (fuel : Nat) (ts : List Token) :
    readPrimary (fuel + 1) (w ++ spaced ts) = some (ofWord (String.ofList w), spaced ts) := by
  have hread := readName_spaced h ts
  cases w with
  | nil => cases h
  | cons c r =>
    -- A word starts with none of the characters of the other forms.
    have hstart := h.1
    rw [List.cons_append] at hread ⊢
    rw [readPrimary.eq_def]
    simp only
    split
    all_goals try (rename_i hs; cases hs; exact absurd hstart (by decide))
    · next hs =>
      cases hs
      rw [if_neg (not_isDigit_of_start hstart), hread]
      rfl
    · next hs => cases hs

/-- A name is one word: no blank, no bracket and no sign begins or divides it. -/
theorem isName_solid {w : List Char} (h : IsName w) : solid w ∧ w.head? ≠ some '!' ∧ w.head? ≠ some '-' := by
  cases w with
  | nil => cases h
  | cons c r =>
    have hstart := h.1
    have hother : ∀ d, isNameStart d = false → c ≠ d := by
      rintro d hd rfl
      rw [hd] at hstart
      cases hstart
    refine ⟨?_, ?_, ?_⟩
    · have h₁ := hother ' ' rfl
      have h₂ := hother '\t' rfl
      have h₃ := hother '\r' rfl
      have h₄ := hother '\n' rfl
      simp [solid, isSpace, h₁, h₂, h₃, h₄]
    · intro he
      exact hother '!' rfl (Option.some.inj he)
    · intro he
      exact hother '-' rfl (Option.some.inj he)

/-- A word that stands alone is read as a whole, and looked up among the reserved ones. -/
theorem readsObject_word {w : List Char} (h : IsName w) (hbinding : e.binding = 8) (htokens : e.tokens = [w])
    (hword : ofWord (String.ofList w) = e) : ReadsObject e := by
  obtain ⟨hsolid, hnot, hneg⟩ := isName_solid h
  refine readsObject_token hbinding htokens hsolid hnot hneg fun fuel ts => ?_
  rw [readPrimary_word h, hword]

/-- A name that is not reserved is read as a variable. -/
theorem readsObject_name {x : String} (h : IsName x.toList) (hx : x ∉ reserved) : ReadsObject (.name x) := by
  refine readsObject_word h rfl (by rw [tokens]) ?_
  unfold reserved at hx
  simp only [List.mem_cons, List.not_mem_nil, or_false, not_or] at hx
  obtain ⟨htrue, hfalse, hnull, hundefined⟩ := hx
  unfold ofWord
  rw [String.ofList_toList, if_neg htrue, if_neg hfalse, if_neg (not_or.2 ⟨hnull, hundefined⟩)]

theorem readsObject_null : ReadsObject (.lit .null) :=
  readsObject_word (w := ['n', 'u', 'l', 'l']) ⟨rfl, List.all_eq_true.1 rfl⟩ rfl (by rw [tokens]; rfl) rfl

theorem readsObject_bool (b : Bool) : ReadsObject (.lit (.bool b)) := by
  cases b with
  | true =>
    exact readsObject_word (w := ['t', 'r', 'u', 'e']) ⟨rfl, List.all_eq_true.1 rfl⟩ rfl (by rw [tokens]; rfl) rfl
  | false =>
    have hname : IsName ['f', 'a', 'l', 's', 'e'] := ⟨rfl, List.all_eq_true.1 rfl⟩
    exact readsObject_word hname rfl (by rw [tokens]; rfl) rfl

/-- A key is read back from its quotes, whatever it is. -/
theorem readKey_quoteToken (s : String) (ts : List Token) :
    readKey (quoteToken s ++ spaced ts) = some (s, spaced ts) := by
  unfold quoteToken
  rw [List.cons_append, List.append_assoc, List.singleton_append, readKey, readQuoted_quoteChar, Option.map_some]
  simp only
  rw [String.ofList_toList]

/-- A text is read back from its quotes. -/
theorem readsObject_str (s : String) : ReadsObject (.lit (.str s)) := by
  refine readsObject_token (t := quoteToken s) rfl (by rw [tokens]; rfl) rfl (by simp [quoteToken])
    (by simp [quoteToken]) fun fuel ts => ?_
  unfold quoteToken
  rw [List.cons_append, List.append_assoc, List.singleton_append, readPrimary, readQuoted_quoteChar,
    Option.map_some]
  simp only [Value.ofChars]
  rw [String.ofList_toList]

/-- A whole number that fits is read back from its digits. -/
theorem readsObject_int {n : Nat} (h : n < Value.wholeBound) : ReadsObject (.lit (.num (.int n))) := by
  have htokens : (Expr.lit (.num (.int n))).tokens = [Nat.toDigits 10 n] := by
    rw [tokens]
    unfold literalToken Value.write Number.write
    simp only
    rw [if_neg (by omega), Int.natAbs_natCast]
  obtain ⟨d, r, hd⟩ := List.exists_cons_of_ne_nil (Nat.toDigits_ne_nil (n := n) (b := 10))
  have hdigit : d.isDigit := by
    refine Nat.isDigit_of_mem_toDigits (b := 10) (n := n) (by decide) (by decide) ?_
    rw [hd]
    exact List.mem_cons_self
  -- The first digit decides the kind of the token, so every other kind is out.
  have hother : ∀ c, c.isDigit = false → d ≠ c := by
    rintro c hc rfl
    rw [hc] at hdigit
    cases hdigit
  refine readsObject_token rfl htokens ?_ ?_ ?_ fun fuel ts => ?_
  · have h₁ := hother ' ' rfl
    have h₂ := hother '\t' rfl
    have h₃ := hother '\r' rfl
    have h₄ := hother '\n' rfl
    simp [hd, solid, isSpace, h₁, h₂, h₃, h₄]
  · rw [hd]
    exact fun he => hother '!' rfl (Option.some.inj he)
  · rw [hd]
    exact fun he => hother '-' rfl (Option.some.inj he)
  · have hread := readNumber_spaced h ts
    rw [hd, List.cons_append] at hread ⊢
    rw [readPrimary.eq_def]
    simp only
    split
    all_goals try (rename_i hs; cases hs; exact absurd hdigit (by decide))
    · next hs =>
      cases hs
      rw [if_pos hdigit, hread]
    · next hs => cases hs

/-! ### Operators

The operands are read in their places, and so is the tree that is made of them. -/

/-- Behind the sign of a prefix there may be another one. -/
theorem reads_prefixed (op : PrefixOp) (h : ReadsPrefixed e) : ReadsPrefixed (.prefixed op e) := by
  intro fuel ts hfuel hts
  have htokens : (Expr.prefixed op e).tokensAt 7 = op.symbol :: e.tokensAt 7 := by
    refine (tokensAt_binding (.prefixed op e)).trans ?_
    rw [tokens]
    rfl
  unfold Affords at hfuel
  rw [htokens] at hfuel ⊢
  rw [List.length_cons] at hfuel
  obtain ⟨fuel, rfl⟩ : ∃ n, fuel = n + 1 := ⟨fuel - 1, by omega⟩
  have hinner := h fuel ts (by unfold Affords; omega) hts
  rw [List.cons_append, readPrefixed, skipSpace_spaced (by cases op <;> rfl)]
  cases op with
  | not =>
    show (readPrefixed fuel (spaced (e.tokensAt 7 ++ ts))).map _ = _
    rw [hinner]
    rfl
  | neg =>
    show (readPrefixed fuel (spaced (e.tokensAt 7 ++ ts))).map _ = _
    rw [hinner]
    rfl

/-- The left operand is read in the place of the operator itself, so that operators of one level group to the
left. -/
theorem reads_binary (op : BinaryOp) {l r : Expr} (hl : ReadsOperand op.level l) (hr : Reads r (op.level + 1 + 1)) :
    ReadsOperand op.level (.binary op l r) := by
  intro fuel ts hfuel hts
  have hlevel : op.level < 6 := level_lt op
  have htokens : (Expr.binary op l r).tokensAt (op.level + 1) =
      l.tokensAt (op.level + 1) ++ op.symbol :: r.tokensAt (op.level + 1 + 1) := by
    refine (tokensAt_binding (.binary op l r)).trans ?_
    rw [tokens]
    rfl
  unfold Affords at hfuel
  rw [htokens] at hfuel ⊢
  rw [List.length_append, List.length_cons] at hfuel ⊢
  rw [List.append_assoc, List.cons_append]
  -- The left operand stops at the operator, and the rest of the level goes on from there.
  obtain ⟨fuel', hle, heq⟩ := hl fuel (op.symbol :: (r.tokensAt (op.level + 1 + 1) ++ ts))
    (by unfold Affords; omega) (.operator (Nat.lt_succ_self _) _)
  have hone := one_le_length_tokensAt (op.level + 1) l
  obtain ⟨fuel', rfl⟩ : ∃ n, fuel' = n + 1 := ⟨fuel' - 1, by omega⟩
  have hsolid : solid op.symbol := by cases op <;> rfl
  refine ⟨fuel', by omega, ?_⟩
  rw [heq, readBinaryRest, skipSpace_spaced hsolid, readOperator_spaced, readOperator_symbol]
  simp only [Option.map_some, List.nil_append]
  rw [readBinary_operand hlevel hr hts _ (by omega)]

/-- All three parts of a condition stand in the widest place, since the marks close them off. -/
theorem reads_cond {c a b : Expr} (hc : ReadsOperand 0 c) (ha : ReadsWhole a) (hb : ReadsWhole b) :
    ReadsWhole (.cond c a b) := by
  intro fuel ts hfuel hts
  have htokens : (Expr.cond c a b).tokens = c.tokensAt 1 ++ ['?'] :: (a.tokens ++ [':'] :: b.tokens) := by
    rw [tokens]
    rfl
  unfold Affords at hfuel
  rw [htokens] at hfuel ⊢
  simp only [List.length_append, List.length_cons] at hfuel
  have hone := one_le_length_tokens a
  obtain ⟨fuel, rfl⟩ : ∃ n, fuel = n + 1 := ⟨fuel - 1, by omega⟩
  simp only [List.append_assoc, List.cons_append]
  have hquestion : Follows 1 (['?'] :: (a.tokens ++ [':'] :: (b.tokens ++ ts))) := .question (by decide) _
  obtain ⟨fuel', hle, heq⟩ := hc fuel _ (by unfold Affords; simp only [Nat.zero_add]; omega) hquestion
  simp only [Nat.zero_add] at hle heq
  obtain ⟨fuel', rfl⟩ : ∃ n, fuel' = n + 1 := ⟨fuel' - 1, by omega⟩
  -- The operator level of the condition ends at the question mark.
  have hstop : readBinaryRest (fuel' + 1) 0 c (spaced (['?'] :: (a.tokens ++ [':'] :: (b.tokens ++ ts)))) =
      some (c, spaced (['?'] :: (a.tokens ++ [':'] :: (b.tokens ++ ts)))) := by
    rw [readBinaryRest, skipSpace_spaced rfl, readOperator_spaced]
    rfl
  have hthen := ha fuel ([':'] :: (b.tokens ++ ts)) (by unfold Affords; omega) (.closer (by decide) 0 _)
  have helse := hb fuel ts (by unfold Affords; omega) hts
  rw [readCond, heq, hstop]
  simp only
  rw [skipSpace_spaced rfl]
  simp only [List.singleton_append]
  rw [hthen]
  simp only
  rw [skipSpace_spaced rfl]
  simp only [List.singleton_append]
  rw [helse]
  rfl

/-! ### Accesses

What is accessed comes first and is read as a single operand. -/

/-- Members are read from left to right, so that the object is read before. -/
theorem reads_member {field : String} (h : ReadsObject e) (hf : IsName field.toList) :
    ReadsObject (.member e field) := by
  intro fuel ts hfuel
  have htokens : (Expr.member e field).tokensAt 8 = e.tokensAt 8 ++ [['.'], field.toList] := by
    refine (tokensAt_binding (.member e field)).trans ?_
    rw [tokens]
    rfl
  unfold Affords at hfuel
  rw [htokens] at hfuel ⊢
  simp only [List.length_append, List.length_cons, List.length_nil] at hfuel ⊢
  rw [List.append_assoc]
  obtain ⟨fuel', hle, heq⟩ := h fuel ([['.'], field.toList] ++ ts) (by unfold Affords; omega)
  have hone := one_le_length_tokensAt 8 e
  obtain ⟨fuel', rfl⟩ : ∃ n, fuel' = n + 1 := ⟨fuel' - 1, by omega⟩
  refine ⟨fuel', by omega, ?_⟩
  rw [heq, readAccess, List.cons_append, skipSpace_spaced rfl]
  simp only [List.singleton_append]
  rw [skipSpace_spaced (isName_solid hf).1, readName_spaced hf, String.ofList_toList]

/-- An index is enclosed, and may be any expression. -/
theorem reads_index {i : Expr} (h : ReadsObject e) (hi : ReadsWhole i) : ReadsObject (.index e i) := by
  intro fuel ts hfuel
  have htokens : (Expr.index e i).tokensAt 8 = e.tokensAt 8 ++ ['['] :: (i.tokens ++ [[']']]) := by
    refine (tokensAt_binding (.index e i)).trans ?_
    rw [tokens]
    rfl
  unfold Affords at hfuel
  rw [htokens] at hfuel ⊢
  simp only [List.length_append, List.length_cons, List.length_nil] at hfuel ⊢
  simp only [List.append_assoc, List.cons_append, List.nil_append]
  obtain ⟨fuel', hle, heq⟩ := h fuel (['['] :: (i.tokens ++ [']'] :: ts)) (by unfold Affords; omega)
  have hone := one_le_length_tokensAt 8 e
  obtain ⟨fuel', rfl⟩ : ∃ n, fuel' = n + 1 := ⟨fuel' - 1, by omega⟩
  -- The index is read in the widest place, up to the bracket.
  have hinner := hi fuel' ([']'] :: ts) (by unfold Affords; omega) (.closer (by decide) 0 ts)
  refine ⟨fuel', by omega, ?_⟩
  rw [heq, readAccess, skipSpace_spaced rfl]
  simp only [List.singleton_append]
  rw [hinner]
  simp only
  rw [skipSpace_spaced rfl]
  rfl

/-! ### Lists and objects

The reader skips a space to see whether anything comes before the closing bracket, and reads the first element
from there. -/

/-- Blanks are skipped before each token, and skipping them twice is the same as once. -/
theorem skipSpace_idem (s : List Char) : skipSpace (skipSpace s) = skipSpace s :=
  List.dropWhile_idempotent isSpace s

/-- Every reader skips them by itself. -/
theorem readPrefixed_skipSpace (fuel : Nat) (s : List Char) :
    readPrefixed fuel (skipSpace s) = readPrefixed fuel s := by
  cases fuel with
  | zero => rw [readPrefixed, readPrefixed]
  | succ fuel => rw [readPrefixed, readPrefixed, skipSpace_idem]

theorem readBinary_skipSpace (fuel level : Nat) (s : List Char) :
    readBinary fuel level (skipSpace s) = readBinary fuel level s := by
  induction fuel generalizing level with
  | zero => rw [readBinary, readBinary]
  | succ fuel ih => rw [readBinary, readBinary, ih, readPrefixed_skipSpace]

theorem readCond_skipSpace (fuel : Nat) (s : List Char) : readCond fuel (skipSpace s) = readCond fuel s := by
  cases fuel with
  | zero => rw [readCond, readCond]
  | succ fuel => rw [readCond, readCond, readBinary_skipSpace]

theorem readItems_skipSpace (fuel : Nat) (s : List Char) : readItems fuel (skipSpace s) = readItems fuel s := by
  cases fuel with
  | zero => rw [readItems, readItems]
  | succ fuel => rw [readItems, readItems, readCond_skipSpace]

theorem readEntries_skipSpace (fuel : Nat) (s : List Char) :
    readEntries fuel (skipSpace s) = readEntries fuel s := by
  cases fuel with
  | zero => rw [readEntries, readEntries]
  | succ fuel => rw [readEntries, readEntries, skipSpace_idem]

/-- Nothing is read where a list ends. -/
theorem readPrimary_closer (fuel : Nat) (r : List Char) : readPrimary fuel (']' :: r) = none := by
  cases fuel with
  | zero => rw [readPrimary]
  | succ fuel =>
    rw [readPrimary.eq_def]
    rfl

/-- A list that ends where its next item should begin has no such item. -/
theorem readPrefixed_closer {s r : List Char} (hs : skipSpace s = ']' :: r) (fuel : Nat) :
    readPrefixed fuel s = none := by
  cases fuel with
  | zero => rw [readPrefixed]
  | succ fuel =>
    rw [readPrefixed, hs]
    simp [readPrimary_closer]

theorem readBinary_closer {s r : List Char} (hs : skipSpace s = ']' :: r) (fuel level : Nat) :
    readBinary fuel level s = none := by
  induction fuel generalizing level with
  | zero => rw [readBinary]
  | succ fuel ih =>
    rw [readBinary, ih, readPrefixed_closer hs]
    split_ifs <;> rfl

theorem readCond_closer {s r : List Char} (hs : skipSpace s = ']' :: r) (fuel : Nat) : readCond fuel s = none := by
  cases fuel with
  | zero => rw [readCond]
  | succ fuel => rw [readCond, readBinary_closer hs]

/-- Items are divided by commas, and there is none after the last. -/
theorem itemTokens_cons (e : Expr) (items : List Expr) :
    itemTokens (e :: items) = e.tokens ++ (if items.isEmpty then [] else [','] :: itemTokens items) := by
  rw [itemTokens]

/-- The elements of a list, up to the closing bracket. -/
theorem readItems_itemTokens {items : List Expr} (hne : items ≠ []) (h : ∀ e ∈ items, ReadsWhole e) (fuel : Nat)
    (hfuel : 12 * (itemTokens items).length < fuel) (ts : List Token) :
    readItems fuel (spaced (itemTokens items ++ [']'] :: ts)) = some (items, spaced ts) := by
  induction items generalizing fuel with
  | nil => exact absurd rfl hne
  | cons e items ih =>
    obtain ⟨fuel, rfl⟩ : ∃ n, fuel = n + 1 := ⟨fuel - 1, by omega⟩
    have hone := one_le_length_tokens e
    have he := h e List.mem_cons_self
    rw [itemTokens_cons] at hfuel ⊢
    rw [List.length_append] at hfuel
    rw [readItems]
    cases items with
    | nil =>
      -- The last element is followed by the bracket, which no value can read.
      have hfirst := he fuel ([']'] :: ts) (by unfold Affords; omega) (.closer (by decide) 0 ts)
      rw [List.isEmpty_nil, if_pos rfl, List.append_nil, hfirst]
      simp only
      rw [skipSpace_spaced rfl]
      rfl
    | cons d items =>
      rw [List.isEmpty_cons, if_neg Bool.false_ne_true] at hfuel ⊢
      rw [List.length_cons] at hfuel
      -- Any other element is followed by a comma, and the rest is read by induction.
      have hfirst := he fuel ([','] :: (itemTokens (d :: items) ++ [']'] :: ts)) (by unfold Affords; omega)
        (.closer (by decide) 0 _)
      have hrest := ih (List.cons_ne_nil d items) (fun f hf => h f (List.mem_cons_of_mem e hf)) fuel
        (by omega)
      rw [List.append_assoc, List.cons_append, hfirst]
      simp only
      rw [skipSpace_spaced rfl]
      simp only [List.singleton_append]
      rw [hrest]
      rfl

/-- A list is read item by item, each in the widest place. -/
theorem readsObject_list {items : List Expr} (h : ∀ e ∈ items, ReadsWhole e) : ReadsObject (.list items) := by
  intro fuel ts hfuel
  have htokens : (Expr.list items).tokensAt 8 = ['['] :: (itemTokens items ++ [[']']]) := by
    refine (tokensAt_binding (.list items)).trans ?_
    rw [tokens]
  unfold Affords at hfuel
  rw [htokens] at hfuel ⊢
  simp only [List.length_append, List.length_cons, List.length_nil] at hfuel ⊢
  simp only [List.append_assoc, List.cons_append, List.nil_append]
  obtain ⟨fuel, rfl⟩ : ∃ n, fuel = n + 1 + 1 := ⟨fuel - 2, by omega⟩
  refine ⟨fuel + 1, by omega, readPrefixed_primary rfl (by decide) (by decide) ?_⟩
  rw [List.singleton_append, readPrimary]
  cases items with
  | nil =>
    rw [itemTokens, List.nil_append, skipSpace_spaced rfl]
    rfl
  | cons e items =>
    have hitems := readItems_itemTokens (List.cons_ne_nil e items) h fuel (by omega) ts
    split
    · next r hs =>
      -- An element begins here, so this is not the end of the list.
      have hnone : readItems fuel (spaced (itemTokens (e :: items) ++ [']'] :: ts)) = none := by
        cases fuel with
        | zero => rw [readItems]
        | succ fuel => rw [readItems, readCond_closer hs]
      rw [hnone] at hitems
      cases hitems
    · rw [readItems_skipSpace, hitems]
      rfl

/-- Fields are divided by commas, and there is none after the last. -/
theorem fieldTokens_cons (key : String) (e : Expr) (fields : List (String × Expr)) :
    fieldTokens ((key, e) :: fields) = quoteToken key :: [':'] ::
      (e.tokens ++ (if fields.isEmpty then [] else [','] :: fieldTokens fields)) := by
  rw [fieldTokens]

/-- The entries of an object, up to the closing brace. -/
theorem readEntries_fieldTokens {fields : List (String × Expr)} (hne : fields ≠ [])
    (h : ∀ f ∈ fields, ReadsWhole f.2) (fuel : Nat) (hfuel : 12 * (fieldTokens fields).length < fuel)
    (ts : List Token) :
    readEntries fuel (spaced (fieldTokens fields ++ ['}'] :: ts)) = some (fields, spaced ts) := by
  induction fields generalizing fuel with
  | nil => exact absurd rfl hne
  | cons f fields ih =>
    obtain ⟨key, e⟩ := f
    obtain ⟨fuel, rfl⟩ : ∃ n, fuel = n + 1 := ⟨fuel - 1, by omega⟩
    have he : ReadsWhole e := h (key, e) List.mem_cons_self
    rw [fieldTokens_cons] at hfuel ⊢
    simp only [List.length_append, List.length_cons] at hfuel
    rw [readEntries, List.cons_append, List.cons_append, skipSpace_spaced rfl, readKey_quoteToken]
    simp only
    rw [skipSpace_spaced rfl]
    simp only [List.singleton_append]
    cases fields with
    | nil =>
      -- The last value is followed by the brace, which no value can read.
      have hfirst := he fuel (['}'] :: ts) (by unfold Affords; omega) (.closer (by decide) 0 ts)
      rw [List.isEmpty_nil, if_pos rfl, List.append_nil, hfirst]
      simp only
      rw [skipSpace_spaced rfl]
      rfl
    | cons g fields =>
      rw [List.isEmpty_cons, if_neg Bool.false_ne_true] at hfuel ⊢
      rw [List.length_cons] at hfuel
      -- Any other value is followed by a comma, and the rest is read by induction.
      have hfirst := he fuel ([','] :: (fieldTokens (g :: fields) ++ ['}'] :: ts)) (by unfold Affords; omega)
        (.closer (by decide) 0 _)
      have hrest := ih (List.cons_ne_nil g fields) (fun f hf => h f (List.mem_cons_of_mem _ hf)) fuel
        (by omega)
      rw [List.append_assoc, List.cons_append, hfirst]
      simp only
      rw [skipSpace_spaced rfl]
      simp only [List.singleton_append]
      rw [hrest]
      rfl

/-- An object is read field by field, and the fields keep their order. -/
theorem readsObject_record {fields : List (String × Expr)} (h : ∀ f ∈ fields, ReadsWhole f.2) :
    ReadsObject (.record fields) := by
  intro fuel ts hfuel
  have htokens : (Expr.record fields).tokensAt 8 = ['{'] :: (fieldTokens fields ++ [['}']]) := by
    refine (tokensAt_binding (.record fields)).trans ?_
    rw [tokens]
  unfold Affords at hfuel
  rw [htokens] at hfuel ⊢
  simp only [List.length_append, List.length_cons, List.length_nil] at hfuel ⊢
  simp only [List.append_assoc, List.cons_append, List.nil_append]
  obtain ⟨fuel, rfl⟩ : ∃ n, fuel = n + 1 + 1 := ⟨fuel - 2, by omega⟩
  refine ⟨fuel + 1, by omega, readPrefixed_primary rfl (by decide) (by decide) ?_⟩
  rw [List.singleton_append, readPrimary]
  cases fields with
  | nil =>
    rw [fieldTokens, List.nil_append, skipSpace_spaced rfl]
    rfl
  | cons f fields =>
    have hentries := readEntries_fieldTokens (List.cons_ne_nil f fields) h fuel (by omega) ts
    obtain ⟨key, e⟩ := f
    split
    · next r hs =>
      -- A key begins here, so this is not the end of the object.
      rw [fieldTokens_cons, List.cons_append, skipSpace_spaced rfl] at hs
      cases hs
    · rw [readEntries_skipSpace, hentries]
      rfl

end Own

/-! ## All trees

Each tree is read in its own place first, and so in any other one with brackets or without. -/

/-- Every tree that can be written is read in its own place. The induction is on the tree, whose parts are then read
in every place. -/
theorem Printable.reads (h : Printable e) : Reads e e.binding := by
  induction h with
  | null => exact readsObject_null
  | bool b => exact readsObject_bool b
  | str s => exact readsObject_str s
  | int h => exact readsObject_int h
  | name h hx => exact readsObject_name h hx
  | member _ hf ih => exact reads_member (ih.everywhere (p := 8) le_rfl) hf
  | index _ _ ih ihi => exact reads_index (ih.everywhere (p := 8) le_rfl) (ihi.everywhere (p := 0) (by decide))
  | list _ ih => exact readsObject_list fun e he => (ih e he).everywhere (p := 0) (by decide)
  | record _ ih => exact readsObject_record fun f hf => (ih f hf).everywhere (p := 0) (by decide)
  | prefixed op _ ih => exact reads_prefixed op (ih.everywhere (p := 7) (by decide))
  | binary op _ _ ihl ihr =>
    have hlevel : op.level < 6 := level_lt op
    have hl := (ihl.everywhere (p := op.level + 1) (by omega)).operand hlevel
    exact (reads_binary op hl (ihr.everywhere (by omega))).reads hlevel
  | cond _ _ _ ihc iha ihb =>
    have hc := (ihc.everywhere (p := 1) (by decide)).operand (by decide)
    exact reads_cond hc (iha.everywhere (p := 0) (by decide)) (ihb.everywhere (p := 0) (by decide))

/-- Every token takes up some of the text, which is what the readers count down. -/
theorem length_le_spaced (ts : List Token) : ts.length ≤ (spaced ts).length := by
  induction ts with
  | nil => exact le_rfl
  | cons t ts ih =>
    rw [spaced_cons, List.length_cons, List.length_cons, List.length_append]
    omega

/-! ## The whole picture

From the tokens of a tree to its text, and from the text to its tree. -/

/-- An expression whose literals are nothing, truth values, texts or whole numbers below the bound, and whose
names are names, is what the grammar reads in its text: the tokens with spaces between them, and brackets only
where a part is bound looser than its place asks for. -/
theorem parse_print (h : Printable e) : parse e.print = .ok e := by
  have hwhole : ReadsWhole e := h.reads.everywhere (p := 0) (by decide)
  obtain ⟨t, ts, htokens⟩ := List.exists_cons_of_ne_nil e.tokens_ne_nil
  have hspaced : spaced e.tokens = ' ' :: e.print := by
    unfold print
    rw [htokens, spaced_eq_intercalate]
  have hlength := length_le_spaced e.tokens
  rw [hspaced, List.length_cons] at hlength
  -- The text begins without the space, which the reader skips.
  have hskip : skipSpace (spaced e.tokens) = skipSpace e.print := by
    rw [hspaced]
    rfl
  have hread := hwhole (readFuel e.print) [] (by unfold Affords readFuel; omega) (.nil 0)
  rw [List.append_nil, ← readCond_skipSpace, hskip, readCond_skipSpace] at hread
  unfold parse
  rw [hread]
  rfl

/-- A product of a sum and of an operand that needs no brackets. -/
def product : Expr :=
  .binary .mul (.binary .add (.lit (.num (.int 1))) (.index (.name "x") (.lit (.str "a\"b"))))
    (.prefixed .neg (.member (.name "truely") "y"))

/-- The sum in it stands in brackets, and nothing else does. -/
theorem parse_print_product :
    product.print = "( 1 + x [ \"a\\\"b\" ] ) * - truely . y".toList ∧
      parse "( 1 + x [ \"a\\\"b\" ] ) * - truely . y".toList = .ok product := by
  have hprint : product.print = "( 1 + x [ \"a\\\"b\" ] ) * - truely . y".toList := by decide +kernel
  have hx : Printable (.name "x") := .name ⟨rfl, List.all_eq_true.1 rfl⟩ (by decide)
  have htruely : Printable (.name "truely") := .name ⟨rfl, List.all_eq_true.1 rfl⟩ (by decide)
  have hone : Printable (.lit (.num (.int 1))) := .int (n := 1) (by decide)
  have hmember : Printable (.member (.name "truely") "y") := .member htruely ⟨rfl, List.all_eq_true.1 rfl⟩
  have hproduct : Printable product := .binary .mul (.binary .add hone (.index hx (.str _))) (.prefixed .neg hmember)
  refine ⟨hprint, ?_⟩
  rw [← hprint]
  exact parse_print hproduct

end Sequencer.Expr
