import Sequencer.Proofs.Grammar

/-!
# Braces and quotes in an expression

Braces stand in an expression as the brackets of objects, where each that opens is closed, and inside of quotes, where
they mean nothing. A scan of a text tells the two apart: it counts the braces that are open and knows whether it is
inside of quotes. Whatever a phrase takes up of a text leaves the scan as it was, so that no expression can be cut off
inside of an object or inside of quotes. A phrase also begins and ends with characters that are not blank.
-/

namespace Sequencer.Expr

open Text

/-! ## The scan

A scan knows how many braces are open, and whether it is inside of quotes. -/

/-- Where a scan is: outside of quotes, inside of some, or there behind a backslash. -/
inductive Place where
  | outside
  | inside (quote : Char)
  | escaped (quote : Char)

/-- One character, with the number of open braces. No brace is closed that is not open. -/
def pairStep : Nat × Place → Char → Option (Nat × Place)
  | (n, .outside), c =>
    if c = '"' ∨ c = '\'' then some (n, .inside c)
    else if c = '{' then some (n + 1, .outside)
    else if c = '}' then (if n = 0 then none else some (n - 1, .outside))
    else some (n, .outside)
  | (n, .inside quote), c =>
    if c = '\\' then some (n, .escaped quote)
    else if c = quote then some (n, .outside)
    else some (n, .inside quote)
  | (n, .escaped quote), _ => some (n, .inside quote)

/-- The scan of a text. -/
def pair (start : Nat × Place) (s : List Char) : Option (Nat × Place) := s.foldlM pairStep start

/-- The scan goes on with the state that the first character leads to, if there is one. -/
theorem pair_cons (start : Nat × Place) (c : Char) (s : List Char) :
    pair start (c :: s) = (pairStep start c).bind fun next => pair next s := rfl

/-- It can be cut anywhere. -/
theorem pair_append (start : Nat × Place) (s t : List Char) :
    pair start (s ++ t) = (pair start s).bind fun next => pair next t :=
  List.foldlM_append

/-- Characters without a meaning for the scan. -/
def Unpaired (s : List Char) : Prop := ∀ c ∈ s, c ∉ ['"', '\'', '{', '}']

/-- It goes through characters without a meaning as it came. -/
theorem pair_of_unpaired {s : List Char} (h : Unpaired s) (n : Nat) : pair (n, .outside) s = some (n, .outside) := by
  induction s with
  | nil => rfl
  | cons c s ih =>
    have hc := h c List.mem_cons_self
    simp only [List.mem_cons, List.not_mem_nil, or_false, not_or] at hc
    have hstep : pairStep (n, .outside) c = some (n, .outside) := by simp [pairStep, hc]
    rw [pair_cons, hstep]
    exact ih fun d hd => h d (List.mem_cons_of_mem c hd)

/-! ## What a scan goes through

Parts of a text that the scan goes through are put together from smaller ones. -/

/-- A part at the front of a text, from its first character behind spaces to its last. Neither is blank, and the scan
of the part begins and ends outside of quotes, with these numbers of open braces beside any others. -/
structure Through (n m : Nat) (s r : List Char) : Prop where
  front : ∃ c t, skipSpace s = c :: t ∧ isBlank c = false
  back : ∃ t c, s = t ++ c :: r ∧ isBlank c = false ∧ ∀ k, pair (n + k, .outside) (t ++ [c]) = some (m + k, .outside)

namespace Through

variable {n m l : Nat} {s r u : List Char}

/-- Parts that follow one another are one part. -/
theorem trans (h : Through n m s r) (h' : Through m l r u) : Through n l s u := by
  obtain ⟨t, c, rfl, -, hpair⟩ := h.back
  obtain ⟨t', c', rfl, hc', hpair'⟩ := h'.back
  refine ⟨h.front, t ++ c :: t', c', by simp, hc', fun k => ?_⟩
  have hsplit : t ++ c :: t' ++ [c'] = (t ++ [c]) ++ (t' ++ [c']) := by simp
  rw [hsplit, pair_append, hpair, Option.bind_some, hpair']

/-- A part has at least one character. -/
theorem length_lt (h : Through n m s r) : r.length < s.length := by
  obtain ⟨t, c, rfl, -, -⟩ := h.back
  rw [List.length_append, List.length_cons]
  omega

/-- More braces may be open around a part. -/
theorem lift (h : Through n m s r) (l : Nat) : Through (n + l) (m + l) s r := by
  obtain ⟨t, c, rfl, hc, hpair⟩ := h.back
  refine ⟨h.front, t, c, rfl, hc, fun k => ?_⟩
  rw [Nat.add_assoc, Nat.add_assoc, hpair]

/-- Spaces have no meaning for the scan. -/
theorem unpaired_spaces (s : List Char) : ∃ t, s = t ++ skipSpace s ∧ Unpaired t := by
  refine ⟨s.takeWhile isSpace, (List.takeWhile_append_dropWhile (p := isSpace)).symm, fun c hc => ?_⟩
  have hspace : isSpace c = true := List.mem_takeWhile_imp hc
  rintro hmem
  simp only [List.mem_cons, List.not_mem_nil, or_false] at hmem
  rcases hmem with rfl | rfl | rfl | rfl <;> exact absurd hspace (by decide)

/-- Spaces in front of a part belong to it. -/
theorem skip (h : Through n m (skipSpace s) r) : Through n m s r := by
  obtain ⟨c, t, hfront, hc⟩ := h.front
  rw [skipSpace_idem] at hfront
  obtain ⟨t', c', hback, hc', hpair⟩ := h.back
  obtain ⟨w, hw, hplain⟩ := unpaired_spaces s
  refine ⟨⟨c, t, hfront, hc⟩, w ++ t', c', ?_, hc', fun k => ?_⟩
  · rw [List.append_assoc, ← hback, ← hw]
  · rw [List.append_assoc, pair_append, pair_of_unpaired hplain, Option.bind_some, hpair]

/-- A part of a phrase that may be missing. -/
theorem trans_opt (h : Through n m s r) (h' : r = u ∨ Through 0 0 r u) : Through n m s u := by
  rcases h' with rfl | h'
  · exact h
  · have hlift := h'.lift m
    rw [Nat.zero_add] at hlift
    exact h.trans hlift

end Through

/-! ## Tokens

A token is such a part without braces. -/

/-- Spaces of the grammar are among the blanks that are trimmed. -/
theorem isSpace_of_blank {c : Char} (h : isSpace c = true) : isBlank c = true := by
  simp only [isSpace, Bool.or_eq_true, decide_eq_true_eq] at h
  rcases h with ((rfl | rfl) | rfl) | rfl <;> decide

/-- So a character that is not blank is no space. -/
theorem not_isSpace_of_not_blank {c : Char} (h : isBlank c = false) : isSpace c = false := by
  by_contra hspace
  rw [isSpace_of_blank (by simpa using hspace)] at h
  cases h

/-- Nothing is skipped in front of it. -/
theorem skipSpace_of_not_blank {c : Char} (h : isBlank c = false) (s : List Char) : skipSpace (c :: s) = c :: s := by
  simp [skipSpace, not_isSpace_of_not_blank h]

/-- A character that is neither blank nor has a meaning for the scan. -/
def Bare (c : Char) : Prop := isBlank c = false ∧ c ∉ ['"', '\'', '{', '}']

instance (c : Char) : Decidable (Bare c) := inferInstanceAs (Decidable (_ ∧ _))

/-- A token of bare characters. -/
theorem Through.token {w : List Char} (hne : w ≠ []) (h : ∀ c ∈ w, Bare c) (r : List Char) :
    Through 0 0 (w ++ r) r := by
  have hplain : Unpaired w := fun c hc => (h c hc).2
  constructor
  · obtain ⟨c, t, rfl⟩ := List.exists_cons_of_ne_nil hne
    have hc := (h c List.mem_cons_self).1
    exact ⟨c, t ++ r, skipSpace_of_not_blank hc _, hc⟩
  · obtain ⟨t, c, rfl⟩ : ∃ t c, w = t ++ [c] := ⟨_, _, (List.dropLast_concat_getLast hne).symm⟩
    have hc := (h c (by simp)).1
    exact ⟨t, c, by simp, hc, fun k => pair_of_unpaired hplain _⟩

/-- A single character behind spaces. -/
theorem Through.char {c : Char} {s r : List Char} (hs : skipSpace s = c :: r) (hc : Bare c) : Through 0 0 s r := by
  refine .skip ?_
  rw [hs]
  exact .token (w := [c]) (by simp) (by simpa using hc) r

/-- An opening brace is one more to be closed. -/
theorem Through.opening {s r : List Char} (hs : skipSpace s = '{' :: r) : Through 0 1 s r := by
  refine .skip ?_
  rw [hs]
  exact ⟨⟨'{', r, rfl, by decide⟩, [], '{', rfl, by decide, fun k => by simp [pair, pairStep, Nat.add_comm]⟩

/-- A closing one ends the innermost that is open. -/
theorem Through.closing {s r : List Char} (hs : skipSpace s = '}' :: r) : Through 1 0 s r := by
  refine .skip ?_
  rw [hs]
  exact ⟨⟨'}', r, rfl, by decide⟩, [], '}', rfl, by decide, fun k => by simp [pair, pairStep]⟩

/-! ### Names, numbers and operators

Whatever else there is in these, there is nothing that means something for the scan. -/

/-- A span is cut off where the first character does not belong to it. -/
theorem span_eq (p : Char → Bool) (s : List Char) : (s.span p).1 ++ (s.span p).2 = s ∧ ∀ c ∈ (s.span p).1, p c := by
  rw [List.span_eq_takeWhile_dropWhile]
  exact ⟨List.takeWhile_append_dropWhile, fun c hc => List.mem_takeWhile_imp hc⟩

/-- A character is bare if its code is none of those that mean something. -/
theorem bare_of_toNat {c : Char} (h : 0x23 ≤ c.toNat ∧ c.toNat < 0x7B ∧ c.toNat ≠ 0x27) : Bare c := by
  obtain ⟨hlow, hhigh, hquote⟩ := h
  refine ⟨?_, fun hmem => ?_⟩
  · simp only [isBlank, Bool.or_eq_false_iff, Bool.and_eq_false_iff, decide_eq_false_iff_not, beq_eq_false_iff_ne]
    omega
  · simp only [List.mem_cons, List.not_mem_nil, or_false] at hmem
    rcases hmem with rfl | rfl | rfl | rfl <;> revert hlow hhigh hquote <;> decide

/-- Digits are bare. -/
theorem bare_of_isDigit {c : Char} (h : c.isDigit = true) : Bare c := by
  unfold Char.isDigit at h
  simp only [Bool.and_eq_true, decide_eq_true_eq, ge_iff_le, UInt32.le_iff_toNat_le] at h
  have hlow : 0x30 ≤ c.toNat := h.1
  have hhigh : c.toNat ≤ 0x39 := h.2
  exact bare_of_toNat (by omega)

/-- Characters of names are bare. -/
theorem bare_of_isNameChar {c : Char} (h : isNameChar c = true) : Bare c := by
  unfold isNameChar Char.isAlphanum Char.isAlpha Char.isUpper Char.isLower at h
  simp only [Bool.or_eq_true, Bool.and_eq_true, decide_eq_true_eq, ge_iff_le, UInt32.le_iff_toNat_le] at h
  rcases h with (((⟨hlow, hhigh⟩ | ⟨hlow, hhigh⟩) | hdigit) | rfl) | rfl
  · have hlow : 0x41 ≤ c.toNat := hlow
    have hhigh : c.toNat ≤ 0x5A := hhigh
    exact bare_of_toNat (by omega)
  · have hlow : 0x61 ≤ c.toNat := hlow
    have hhigh : c.toNat ≤ 0x7A := hhigh
    exact bare_of_toNat (by omega)
  · exact bare_of_isDigit hdigit
  · decide
  · decide

/-- A name may go on as it begins. -/
theorem isNameChar_of_start {c : Char} (h : isNameStart c = true) : isNameChar c = true := by
  unfold isNameStart at h
  unfold isNameChar Char.isAlphanum
  simp only [Bool.or_eq_true, decide_eq_true_eq] at h ⊢
  tauto

/-- A name is a part without braces and quotes. -/
theorem through_readName {s r : List Char} {w : String} (h : readName s = some (w, r)) : Through 0 0 s r := by
  cases s with
  | nil => cases h
  | cons c t =>
    unfold readName at h
    simp only at h
    split_ifs at h with hc
    obtain ⟨he, hname⟩ := span_eq isNameChar t
    obtain ⟨-, rfl⟩ := Prod.mk.inj (Option.some.inj h)
    have htoken := Through.token (w := c :: (t.span isNameChar).1) (by simp) ?_ (t.span isNameChar).2
    · rwa [List.cons_append, he] at htoken
    · intro d hd
      rcases List.mem_cons.1 hd with rfl | hd
      · exact bare_of_isNameChar (isNameChar_of_start hc)
      · exact bare_of_isNameChar (hname d hd)

/-- Bare characters at the front of a text. -/
def Led (s r : List Char) : Prop := ∃ w, s = w ++ r ∧ ∀ c ∈ w, Bare c

/-- A text leads to itself. -/
theorem Led.refl (s : List Char) : Led s s := ⟨[], rfl, by simp⟩

/-- One may go on from where one has got. -/
theorem Led.trans {s r t : List Char} (h : Led s r) (h' : Led r t) : Led s t := by
  obtain ⟨w, rfl, hw⟩ := h
  obtain ⟨w', rfl, hw'⟩ := h'
  refine ⟨w ++ w', (List.append_assoc ..).symm, fun c hc => ?_⟩
  rcases List.mem_append.1 hc with hc | hc
  · exact hw c hc
  · exact hw' c hc

/-- One bare character more is passed. -/
theorem Led.cons {c : Char} {s r : List Char} (hc : Bare c) (h : Led s r) : Led (c :: s) r :=
  Led.trans ⟨[c], rfl, by simpa using hc⟩ h

/-- Digits are passed. -/
theorem led_spanDigits (s : List Char) : Led s (Decimal.spanDigits s).2 := by
  obtain ⟨he, hdigit⟩ := span_eq Char.isDigit s
  exact ⟨_, he.symm, fun c hc => bare_of_isDigit (hdigit c hc)⟩

/-- A fraction is passed, if there is one. -/
theorem led_readFraction (s : List Char) : Led s (readFraction s).2 := by
  unfold readFraction
  split
  · next c r =>
    split_ifs
    · exact .cons (by decide) (led_spanDigits (c :: r))
    · exact .refl _
  · exact .refl _

/-- A sign is passed. -/
theorem led_splitSign (s : List Char) : Led s (Decimal.splitSign s).2 := by
  unfold Decimal.splitSign
  split
  · exact .cons (by decide) (.refl _)
  · exact .cons (by decide) (.refl _)
  · exact .refl _

/-- An exponent is passed, if there is one. -/
theorem led_readExponent (s : List Char) : Led s (readExponent s).2 := by
  unfold readExponent
  split
  · next c r =>
    split_ifs with hc
    · have hbare : Bare c := by rcases hc with rfl | rfl <;> decide
      have htail := (led_splitSign r).trans (led_spanDigits _)
      simp only
      split
      · exact .refl _
      · exact .cons hbare htail
    · exact .refl _
  · exact .refl _

/-- A number begins with a digit, so that it takes up something. -/
theorem through_readNumber {c : Char} {s r : List Char} {v : Value} (hc : c.isDigit = true)
    (h : readNumber (c :: s) = (v, r)) : Through 0 0 (c :: s) r := by
  -- A numeral ends where its exponent does, or its fraction, or its digits.
  have hled : Led s r := by
    have hspan : Decimal.spanDigits (c :: s) = (c :: (Decimal.spanDigits s).1, (Decimal.spanDigits s).2) := by
      unfold Decimal.spanDigits
      simp [List.span_eq_takeWhile_dropWhile, hc]
    have hrest : (readNumber (c :: s)).2 = (readExponent (readFraction (Decimal.spanDigits s).2).2).2 := by
      unfold readNumber
      rw [hspan]
    rw [h] at hrest
    obtain rfl : r = _ := hrest
    exact (led_spanDigits s).trans ((led_readFraction _).trans (led_readExponent _))
  obtain ⟨w, rfl, hw⟩ := hled
  rw [← List.cons_append]
  refine .token (by simp) (fun d hd => ?_) r
  rcases List.mem_cons.1 hd with rfl | hd
  · exact bare_of_isDigit hc
  · exact hw d hd

/-- No operator has a character that means something for the scan. -/
theorem bare_symbol (op : BinaryOp) : ∀ c ∈ op.symbol, Bare c := by
  have hall : (op.symbol.all fun c => decide (Bare c)) = true := by cases op <;> decide
  simpa only [List.all_eq_true, decide_eq_true_eq] using hall

/-- An operator is a part too. -/
theorem through_readOperator {level : Nat} {s r : List Char} {op : BinaryOp}
    (h : readOperator level (skipSpace s) = some (op, r)) : Through 0 0 s r := by
  refine .skip ?_
  unfold readOperator at h
  obtain ⟨op', -, hop⟩ := List.exists_of_findSome?_eq_some h
  obtain ⟨t, ht, he⟩ := Option.map_eq_some_iff.1 hop
  cases he
  rw [dropLead?_eq_some.1 ht]
  exact .token (by cases op <;> decide) (bare_symbol op) r

/-! ### Quotes

In quotes a brace has no meaning, and a quote that is escaped does not end them. -/

/-- The scan goes through quotes. -/
theorem pair_readQuoted {q : Char} {s r cs : List Char} (h : readQuoted q s = some (cs, r)) (hq : q ≠ '\\') :
    ∃ t, s = t ++ q :: r ∧ ∀ n, pair (n, .inside q) (t ++ [q]) = some (n, .outside) := by
  induction s using readQuoted.induct q generalizing cs with
  | case1 => cases h
  | case2 c s ih =>
    rw [readQuoted] at h
    obtain ⟨⟨ds, u⟩, hds, he⟩ := Option.map_eq_some_iff.1 h
    cases he
    obtain ⟨t, rfl, hpair⟩ := ih hds
    exact ⟨'\\' :: c :: t, rfl, fun n => hpair n⟩
  | case3 s hslash =>
    rw [readQuoted, if_pos rfl] at h
    · cases h
      exact ⟨[], rfl, fun n => by simp [pair, pairStep, hq]⟩
    · exact hslash
  | case4 c s hslash hc ih =>
    rw [readQuoted, if_neg hc] at h
    · obtain ⟨⟨ds, u⟩, hds, he⟩ := Option.map_eq_some_iff.1 h
      cases he
      obtain ⟨t, rfl, hpair⟩ := ih hds
      -- a backslash at the very end would leave the quotes open
      have hne : c ≠ '\\' := by
        intro he
        cases t with
        | nil => exact hslash q r he rfl
        | cons d t => exact hslash d _ he rfl
      refine ⟨c :: t, rfl, fun n => ?_⟩
      have hstep : pairStep (n, .inside q) c = some (n, .inside q) := by simp [pairStep, hne, hc]
      rw [List.cons_append, pair_cons, hstep]
      exact hpair n
    · exact hslash

/-- A text in quotes opens no braces, even if there are some in it. -/
theorem through_quoted {q : Char} {s r cs : List Char} (hq : q = '"' ∨ q = '\'')
    (h : readQuoted q s = some (cs, r)) : Through 0 0 (q :: s) r := by
  have hblank : isBlank q = false := by rcases hq with rfl | rfl <;> decide
  obtain ⟨t, rfl, hpair⟩ := pair_readQuoted h (by rcases hq with rfl | rfl <;> decide)
  refine ⟨⟨q, _, skipSpace_of_not_blank hblank _, hblank⟩, q :: t, q, by simp, hblank, fun k => ?_⟩
  have hstep : pairStep (0 + k, .outside) q = some (0 + k, .inside q) := by simp [pairStep, hq]
  rw [List.cons_append, pair_cons, hstep]
  exact hpair _

/-- A key is a name or a text in quotes, and so a part either way. -/
theorem through_readKey {s r : List Char} {key : String} (h : readKey s = some (key, r)) : Through 0 0 s r := by
  unfold readKey at h
  split at h
  · obtain ⟨⟨cs, t⟩, hcs, he⟩ := Option.map_eq_some_iff.1 h
    cases he
    exact through_quoted (.inl rfl) hcs
  · obtain ⟨⟨cs, t⟩, hcs, he⟩ := Option.map_eq_some_iff.1 h
    cases he
    exact through_quoted (.inr rfl) hcs
  · exact through_readName h

/-! ## Phrases

Each rule of the grammar closes the braces that it opens. So a text that can be read has its braces in pairs. -/

/-- What is taken up by a phrase. Only accesses and further operands may be missing, and the closing brace belongs to
the entries of an object. -/
def Phrase.Takes : Phrase → List Char → List Char → Prop
  | .rest _ _, s, r => s = r ∨ Through 0 0 s r
  | .access _, s, r => s = r ∨ Through 0 0 s r
  | .entries, s, r => Through 1 0 s r
  | _, s, r => Through 0 0 s r

/-- Braces that are opened in a phrase are closed in it, and the entries of an object close the one in front of them.
-/
theorem Derives.takes {ph : Phrase} {s r : List Char} {y : Yield} (h : Derives ph s y r) : ph.Takes s r := by
  induction h with
  | plain _ _ ih => exact ih
  | cond _ hr _ hu _ ihc iha ihb =>
    exact ihc.trans ((Through.char hr (by decide)).trans (iha.trans ((Through.char hu (by decide)).trans ihb)))
  | binary _ _ _ ihl ihr => exact ihl.trans_opt ihr
  | tightest _ _ ih => exact ih
  | noOperator _ => exact .inl rfl
  | operator hs _ _ ihe ihrest => exact .inr ((through_readOperator hs).trans (ihe.trans_opt ihrest))
  | @prefixed op _ _ _ _ hs _ ih =>
    cases op with
    | not => exact (Through.char hs (by decide)).trans ih
    | neg => exact (Through.char hs (by decide)).trans ih
  | operand _ _ _ ihe ihrest => exact (Through.skip ihe).trans_opt ihrest
  | noAccess _ => exact .inl rfl
  | member hs hr _ ih =>
    exact .inr ((Through.char hs (by decide)).trans ((through_readName hr).skip.trans_opt ih))
  | index hs _ ht _ ihi ihrest =>
    have hinner := ihi.trans (Through.char ht (by decide))
    exact .inr ((Through.char hs (by decide)).trans (hinner.trans_opt ihrest))
  | quoted hq hr => exact through_quoted hq hr
  | number hc hr => exact through_readNumber hc hr
  | word hs => exact through_readName hs
  | brackets _ ht ih => exact (Through.char rfl (by decide)).trans (ih.trans (Through.char ht (by decide)))
  | emptyList hr => exact (Through.char rfl (by decide)).trans (Through.char hr (by decide))
  | list _ _ ih => exact (Through.char rfl (by decide)).trans (Through.skip ih)
  | emptyRecord hr => exact (Through.opening rfl).trans (Through.closing hr)
  | record _ _ ih => exact (Through.opening rfl).trans (Through.skip ih)
  | lastItem _ hr ih => exact ih.trans (Through.char hr (by decide))
  | item _ hr _ ih ihes => exact ih.trans ((Through.char hr (by decide)).trans ihes)
  -- Inside an object there is one brace more that is open.
  | lastEntry hs hr _ hu ih =>
    have hfield := (through_readKey hs).skip.trans ((Through.char hr (by decide)).trans ih)
    exact (hfield.lift 1).trans (Through.closing hu)
  | entry hs hr _ hu _ ih ihfields =>
    have hfield := (through_readKey hs).skip.trans ((Through.char hr (by decide)).trans ih)
    exact ((hfield.trans (Through.char hu (by decide))).lift 1).trans ihfields

/-- An expression closes all its braces and quotes, and no brace that it does not open. -/
theorem pair_of_parse {s : List Char} {e : Expr} (h : parse s = .ok e) :
    pair (0, .outside) s = some (0, .outside) := by
  unfold parse at h
  split at h
  · next d r hread =>
    split_ifs at h with hspace
    have htakes : Through 0 0 s r := (derives_of_readCond hread).takes
    obtain ⟨t, c, rfl, -, hpair⟩ := htakes.back
    obtain ⟨w, hw, hplain⟩ := Through.unpaired_spaces r
    rw [List.isEmpty_iff.1 hspace, List.append_nil] at hw
    rw [← hw] at hplain
    have hsplit : t ++ c :: r = (t ++ [c]) ++ r := by simp
    rw [hsplit, pair_append, hpair 0, Option.bind_some, pair_of_unpaired hplain]
  · cases h

end Sequencer.Expr
