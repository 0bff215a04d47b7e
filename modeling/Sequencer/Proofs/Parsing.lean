import Sequencer.Proofs.Pairing

/-!
# Texts of expressions

A text is that of an expression exactly if the rules of the grammar derive a condition in it with nothing but spaces
behind. The fuel of the reader is no part of this: it never runs out before the text does.
-/

namespace Sequencer.Expr

open Text

/-! ## The fuel is enough

A phrase needs a dozen steps for each character that it takes up. What it needs less for is what the levels around it
have used up on the way. -/

/-- The steps that a phrase needs beyond a dozen for each character but one that it takes up. -/
@[grind] def Phrase.margin : Phrase → Nat
  | .cond => 10
  | .binary level => 3 + (operatorLevels - level)
  | .rest _ _ => 13
  | .prefixed => 2
  | .access _ => 13
  | .primary => 1
  | .items => 1
  | .entries => 1

/-- The fuel is enough to take a phrase up. -/
@[grind] def Phrase.Affords (ph : Phrase) (fuel : Nat) (s r : List Char) : Prop :=
  12 * s.length + ph.margin ≤ fuel + 12 * r.length + 12

/-- What the reader returns for a phrase. -/
def Phrase.Reads (fuel : Nat) : Phrase → List Char → Yield → List Char → Prop
  | .cond, s, .tree e, r => readCond fuel s = some (e, r)
  | .binary level, s, .tree e, r => readBinary fuel level s = some (e, r)
  | .rest level l, s, .tree e, r => readBinaryRest fuel level l s = some (e, r)
  | .prefixed, s, .tree e, r => readPrefixed fuel s = some (e, r)
  | .access d, s, .tree e, r => readAccess fuel d s = some (e, r)
  | .primary, s, .tree e, r => readPrimary fuel s = some (e, r)
  | .items, s, .items es, r => readItems fuel s = some (es, r)
  | .entries, s, .entries fields, r => readEntries fuel s = some (fields, r)
  | _, _, _, _ => False

/-- Skipping takes nothing but spaces away. -/
theorem length_skipSpace_le (s : List Char) : (skipSpace s).length ≤ s.length := List.length_dropWhile_le isSpace s

/-- A character that is taken up makes the text shorter, and so do the spaces in front of it. -/
theorem length_of_skipSpace {s r : List Char} {c : Char} (h : skipSpace s = c :: r) : r.length < s.length := by
  have hle := length_skipSpace_le s
  rw [h, List.length_cons] at hle
  exact hle

/-- An operator has characters too. -/
theorem length_of_readOperator {level : Nat} {s r : List Char} {op : BinaryOp}
    (h : readOperator level (skipSpace s) = some (op, r)) : r.length < s.length :=
  (through_readOperator h).length_lt

/-- A phrase that may be missing takes up nothing or something. -/
theorem length_le_of_opt {s r : List Char} (h : s = r ∨ Through 0 0 s r) : r.length ≤ s.length := by
  rcases h with rfl | h
  · exact le_rfl
  · exact h.length_lt.le

/-! ### One rule, one step

What each reader returns when the ones that it calls have returned. In these lemmas the fuel is only ever one more
than that of the readers inside. -/

section Steps

variable {fuel level : Nat} {s r t u w z cs : List Char} {c a b d e l i : Expr}

theorem Avoids.ne {s cs : List Char} (h : Avoids s cs) {c : Char} (hc : c ∈ cs) (t : List Char) :
    skipSpace s ≠ c :: t :=
  fun hs => h c t hs hc

/-- A condition without a question mark is a single operand of the loosest kind. -/
theorem readCond_plain (hc : readBinary fuel 0 s = some (c, r)) (hr : Avoids r ['?']) :
    readCond (fuel + 1) s = some (c, r) := by
  rw [readCond, hc]
  simp only
  split
  · next hs => exact absurd hs (hr.ne (by decide) _)
  · rfl

/-- With one, its three parts are read one after the other. -/
theorem readCond_cond (hc : readBinary fuel 0 s = some (c, r)) (hr : skipSpace r = '?' :: t)
    (ha : readCond fuel t = some (a, u)) (hu : skipSpace u = ':' :: w) (hb : readCond fuel w = some (b, z)) :
    readCond (fuel + 1) s = some (.cond c a b, z) := by
  rw [readCond, hc]
  simp only [hr, ha, hu, hb, Option.map_some]

/-- A level is a first operand from the next level, and the operators behind it. -/
theorem readBinary_of_lt (hlevel : level < operatorLevels) (hl : readBinary fuel (level + 1) s = some (l, r))
    (hr : readBinaryRest fuel level l r = some (e, z)) : readBinary (fuel + 1) level s = some (e, z) := by
  rw [readBinary, if_pos hlevel, hl]
  exact hr

/-- From the last level on there are only prefixes. -/
theorem readBinary_tightest (hlevel : ¬level < operatorLevels) (he : readPrefixed fuel s = some (e, r)) :
    readBinary (fuel + 1) level s = some (e, r) := by
  rw [readBinary, if_neg hlevel, he]

/-- The operators of a level end where there is none. -/
theorem readBinaryRest_stop (hs : readOperator level (skipSpace s) = none) :
    readBinaryRest (fuel + 1) level l s = some (l, s) := by
  rw [readBinaryRest, hs]

/-- An operator of the level takes its second operand from the next level, and what is read so far becomes the first
operand of another one. -/
theorem readBinaryRest_operator {op : BinaryOp} (hs : readOperator level (skipSpace s) = some (op, r))
    (hd : readBinary fuel (level + 1) r = some (d, t))
    (hrest : readBinaryRest fuel level (.binary op l d) t = some (e, z)) :
    readBinaryRest (fuel + 1) level l s = some (e, z) := by
  rw [readBinaryRest, hs]
  simp only [hd, hrest]

/-- A prefix is taken off, and the rest is read in the same way. -/
theorem readPrefixed_symbol {op : PrefixOp} (hs : skipSpace s = op.symbol ++ r)
    (he : readPrefixed fuel r = some (e, t)) : readPrefixed (fuel + 1) s = some (.prefixed op e, t) := by
  rw [readPrefixed, hs]
  cases op <;> simp [PrefixOp.symbol, he]

/-- Without one there is a single operand, and the accesses behind it. -/
theorem readPrefixed_operand (hs : Avoids s ['!', '-']) (hd : readPrimary fuel (skipSpace s) = some (d, r))
    (hrest : readAccess fuel d r = some (e, z)) : readPrefixed (fuel + 1) s = some (e, z) := by
  rw [readPrefixed]
  split
  · next hs' => exact absurd hs' (hs.ne (by decide) _)
  · next hs' => exact absurd hs' (hs.ne (by decide) _)
  · rw [hd]
    exact hrest

/-- Without a dot or a bracket the accesses are at their end. -/
theorem readAccess_stop (hs : Avoids s ['.', '[']) : readAccess (fuel + 1) e s = some (e, s) := by
  rw [readAccess]
  split
  · next hs' => exact absurd hs' (hs.ne (by decide) _)
  · next hs' => exact absurd hs' (hs.ne (by decide) _)
  · rfl

/-- Behind a dot there is a name. -/
theorem readAccess_member {field : String} (hs : skipSpace s = '.' :: r)
    (hr : readName (skipSpace r) = some (field, t)) (hrest : readAccess fuel (.member d field) t = some (e, z)) :
    readAccess (fuel + 1) d s = some (e, z) := by
  rw [readAccess, hs]
  simp only [hr, hrest]

/-- In brackets there is an index. -/
theorem readAccess_index (hs : skipSpace s = '[' :: r) (hi : readCond fuel r = some (i, t))
    (ht : skipSpace t = ']' :: u) (hrest : readAccess fuel (.index d i) u = some (e, z)) :
    readAccess (fuel + 1) d s = some (e, z) := by
  rw [readAccess, hs]
  simp only [hi, ht, hrest]

/-- Either quote begins a text, and ends it. -/
theorem readPrimary_quoted {q : Char} (hq : q = '"' ∨ q = '\'') (hr : readQuoted q r = some (cs, t)) :
    readPrimary (fuel + 1) (q :: r) = some (.lit (Value.ofChars cs), t) := by
  rw [readPrimary.eq_def]
  rcases hq with rfl | rfl <;> simp [hr]

/-- A digit begins a number. -/
theorem readPrimary_number {x : Char} {v : Value} (hx : x.isDigit = true) (hr : readNumber (x :: r) = (v, t)) :
    readPrimary (fuel + 1) (x :: r) = some (.lit v, t) := by
  rw [readPrimary.eq_def]
  simp only
  split
  all_goals try (rename_i hs; cases hs; exact absurd hx (by decide))
  · next hs =>
    cases hs
    rw [if_pos hx, hr]
  · next hs => cases hs

/-- A word is read as a word, since none of the other operands begins like one. -/
theorem readPrimary_of_readName {x : String} (hs : readName s = some (x, t)) :
    readPrimary (fuel + 1) s = some (ofWord x, t) := by
  cases s with
  | nil => cases hs
  | cons y r =>
    -- The first character of a name begins no other primary expression.
    have hstart : isNameStart y = true := by
      by_contra hy
      simp [readName, hy] at hs
    rw [readPrimary.eq_def]
    simp only
    split
    all_goals try (rename_i hs; cases hs; exact absurd hstart (by decide))
    · next hs' =>
      cases hs'
      rw [if_neg (not_isDigit_of_start hstart), hs]
      rfl
    · next hs => cases hs

/-- In parentheses there is an expression. -/
theorem readPrimary_brackets (he : readCond fuel r = some (e, t)) (ht : skipSpace t = ')' :: u) :
    readPrimary (fuel + 1) ('(' :: r) = some (e, u) := by
  rw [readPrimary.eq_def]
  simp only [he, ht]

/-- A list without items. -/
theorem readPrimary_emptyList (hr : skipSpace r = ']' :: t) :
    readPrimary (fuel + 1) ('[' :: r) = some (.list [], t) := by
  rw [readPrimary.eq_def]
  simp only [hr]

/-- A list with items is read from its first one. -/
theorem readPrimary_list {es : List Expr} (hr : Avoids r [']']) (hes : readItems fuel (skipSpace r) = some (es, t)) :
    readPrimary (fuel + 1) ('[' :: r) = some (.list es, t) := by
  rw [readPrimary.eq_def]
  simp only
  split
  · next hs => exact absurd hs (hr.ne (by decide) _)
  · rw [hes]
    rfl

/-- An object without entries. -/
theorem readPrimary_emptyRecord (hr : skipSpace r = '}' :: t) :
    readPrimary (fuel + 1) ('{' :: r) = some (.record [], t) := by
  rw [readPrimary.eq_def]
  simp only [hr]

/-- An object with entries is read from its first one. -/
theorem readPrimary_record {fields : List (String × Expr)} (hr : Avoids r ['}'])
    (hfields : readEntries fuel (skipSpace r) = some (fields, t)) :
    readPrimary (fuel + 1) ('{' :: r) = some (.record fields, t) := by
  rw [readPrimary.eq_def]
  simp only
  split
  · next hs => exact absurd hs (hr.ne (by decide) _)
  · rw [hfields]
    rfl

/-- The last item is followed by the end of the list. -/
theorem readItems_last (he : readCond fuel s = some (e, r)) (hr : skipSpace r = ']' :: t) :
    readItems (fuel + 1) s = some ([e], t) := by
  rw [readItems, he]
  simp only [hr]

/-- Another one is followed by a comma. -/
theorem readItems_item {es : List Expr} (he : readCond fuel s = some (e, r)) (hr : skipSpace r = ',' :: t)
    (hes : readItems fuel t = some (es, u)) : readItems (fuel + 1) s = some (e :: es, u) := by
  rw [readItems, he]
  simp only [hr, hes, Option.map_some]

/-- The last entry is followed by the end of the object. -/
theorem readEntries_last {key : String} (hs : readKey (skipSpace s) = some (key, r)) (hr : skipSpace r = ':' :: t)
    (he : readCond fuel t = some (e, u)) (hu : skipSpace u = '}' :: w) :
    readEntries (fuel + 1) s = some ([(key, e)], w) := by
  rw [readEntries, hs]
  simp only [hr, he, hu]

/-- Another one is followed by a comma. -/
theorem readEntries_entry {key : String} {fields : List (String × Expr)}
    (hs : readKey (skipSpace s) = some (key, r)) (hr : skipSpace r = ':' :: t) (he : readCond fuel t = some (e, u))
    (hu : skipSpace u = ',' :: w) (hfields : readEntries fuel w = some (fields, z)) :
    readEntries (fuel + 1) s = some ((key, e) :: fields, z) := by
  rw [readEntries, hs]
  simp only [hr, he, hu, hfields, Option.map_some]

end Steps

/-- Fuel that is enough for a phrase is never none, so that one step can be taken. -/
theorem Derives.not_affords_zero {ph : Phrase} {s r : List Char} {y : Yield} (h : Derives ph s y r) :
    ¬ph.Affords 0 s r := by
  intro hfuel
  have htakes := h.takes
  simp only [Phrase.Affords] at hfuel
  cases ph with
  | rest level l | access e =>
    have hle := length_le_of_opt htakes
    simp only [Phrase.margin] at hfuel
    omega
  | _ =>
    have hlt := htakes.length_lt
    simp only [Phrase.margin] at hfuel
    omega

/-- What is derived is read with this fuel, if it is enough. -/
def ReadsWithin (fuel : Nat) : Prop :=
  ∀ ⦃ph : Phrase⦄ ⦃s : List Char⦄ ⦃y : Yield⦄ ⦃r : List Char⦄,
    Derives ph s y r → ph.Affords fuel s r → ph.Reads fuel s y r

/-! ### One phrase, one step

One step goes to the phrase itself, and what is left is enough for its parts by their lengths. -/

section Phrases

variable {fuel : Nat} {s r : List Char} {y : Yield}

/-- Three phrases take up parts of the text, with two marks in between, so that the fuel is enough for each. -/
theorem ReadsWithin.cond (ih : ReadsWithin fuel) (h : Derives .cond s y r)
    (hfuel : Phrase.cond.Affords (fuel + 1) s r) : Phrase.cond.Reads (fuel + 1) s y r := by
  simp only [Phrase.Affords, Phrase.margin] at hfuel
  cases h with
  | plain hc hr =>
    -- Each part takes some characters, so the fuel that is left is enough for the next one.
    have h₁ := hc.takes.length_lt
    exact readCond_plain (ih hc (by simp only [Phrase.Affords, Phrase.margin, operatorLevels]; omega)) hr
  | cond hc hr ha hu hb =>
    have h₁ := hc.takes.length_lt
    have h₂ := length_of_skipSpace hr
    have h₃ := ha.takes.length_lt
    have h₄ := length_of_skipSpace hu
    have h₅ := hb.takes.length_lt
    have hcond := ih hc (by simp only [Phrase.Affords, Phrase.margin, operatorLevels]; omega)
    have hthen := ih ha (by simp only [Phrase.Affords, Phrase.margin]; omega)
    have helse := ih hb (by simp only [Phrase.Affords, Phrase.margin]; omega)
    exact readCond_cond hcond hr hthen hu helse

/-- The first operand is read with as much fuel as is left for the level. -/
theorem ReadsWithin.binary {level : Nat} (ih : ReadsWithin fuel) (h : Derives (.binary level) s y r)
    (hfuel : (Phrase.binary level).Affords (fuel + 1) s r) : (Phrase.binary level).Reads (fuel + 1) s y r := by
  simp only [Phrase.Affords, Phrase.margin, operatorLevels] at hfuel
  cases h with
  | binary hlevel hl hr =>
    have h₁ := hl.takes.length_lt
    have h₂ := length_le_of_opt hr.takes
    have hlevels : level < 6 := hlevel
    have hleft := ih hl (by simp only [Phrase.Affords, Phrase.margin, operatorLevels]; omega)
    have hrest := ih hr (by simp only [Phrase.Affords, Phrase.margin]; omega)
    exact readBinary_of_lt hlevel hleft hrest
  | tightest hlevel he =>
    have h₁ := he.takes.length_lt
    exact readBinary_tightest hlevel (ih he (by simp only [Phrase.Affords, Phrase.margin]; omega))

/-- Behind an operator the text is shorter, which pays for the levels below. -/
theorem ReadsWithin.rest {level : Nat} {l : Expr} (ih : ReadsWithin fuel) (h : Derives (.rest level l) s y r)
    (hfuel : (Phrase.rest level l).Affords (fuel + 1) s r) : (Phrase.rest level l).Reads (fuel + 1) s y r := by
  simp only [Phrase.Affords, Phrase.margin] at hfuel
  cases h with
  | noOperator hs => exact readBinaryRest_stop hs
  | operator hs hd hrest =>
    have h₁ := length_of_readOperator hs
    have h₂ := hd.takes.length_lt
    have h₃ := length_le_of_opt hrest.takes
    have hright := ih hd (by simp only [Phrase.Affords, Phrase.margin, operatorLevels]; omega)
    have hon := ih hrest (by simp only [Phrase.Affords, Phrase.margin]; omega)
    exact readBinaryRest_operator hs hright hon

/-- A prefix has a character of its own as well. -/
theorem ReadsWithin.prefixed (ih : ReadsWithin fuel) (h : Derives .prefixed s y r)
    (hfuel : Phrase.prefixed.Affords (fuel + 1) s r) : Phrase.prefixed.Reads (fuel + 1) s y r := by
  simp only [Phrase.Affords, Phrase.margin] at hfuel
  cases h with
  | @prefixed op _ t _ _ hs he =>
    have h₁ := he.takes.length_lt
    have h₂ : t.length < s.length := by
      cases op with
      | not => exact length_of_skipSpace hs
      | neg => exact length_of_skipSpace hs
    exact readPrefixed_symbol hs (ih he (by simp only [Phrase.Affords, Phrase.margin]; omega))
  | operand hs hd hrest =>
    have h₁ := hd.takes.length_lt
    have h₂ := length_le_of_opt hrest.takes
    have h₃ := length_skipSpace_le s
    have hprimary := ih hd (by simp only [Phrase.Affords, Phrase.margin]; omega)
    have haccess := ih hrest (by simp only [Phrase.Affords, Phrase.margin]; omega)
    exact readPrefixed_operand hs hprimary haccess

/-- So does each access. -/
theorem ReadsWithin.access {d : Expr} (ih : ReadsWithin fuel) (h : Derives (.access d) s y r)
    (hfuel : (Phrase.access d).Affords (fuel + 1) s r) : (Phrase.access d).Reads (fuel + 1) s y r := by
  simp only [Phrase.Affords, Phrase.margin] at hfuel
  cases h with
  | noAccess hs => exact readAccess_stop hs
  | member hs hr hrest =>
    have h₁ := length_of_skipSpace hs
    have h₂ := (through_readName hr).skip.length_lt
    have h₃ := length_le_of_opt hrest.takes
    exact readAccess_member hs hr (ih hrest (by simp only [Phrase.Affords, Phrase.margin]; omega))
  | index hs hi ht hrest =>
    have h₁ := length_of_skipSpace hs
    have h₂ := hi.takes.length_lt
    have h₃ := length_of_skipSpace ht
    have h₄ := length_le_of_opt hrest.takes
    have hindex := ih hi (by simp only [Phrase.Affords, Phrase.margin]; omega)
    have hon := ih hrest (by simp only [Phrase.Affords, Phrase.margin]; omega)
    exact readAccess_index hs hindex ht hon

/-- An operand that is no bracket needs no fuel for others. -/
theorem ReadsWithin.primary (ih : ReadsWithin fuel) (h : Derives .primary s y r)
    (hfuel : Phrase.primary.Affords (fuel + 1) s r) : Phrase.primary.Reads (fuel + 1) s y r := by
  simp only [Phrase.Affords, Phrase.margin] at hfuel
  cases h with
  | quoted hq hr => exact readPrimary_quoted hq hr
  | number hc hr => exact readPrimary_number hc hr
  | word hs => exact readPrimary_of_readName hs
  | brackets he ht =>
    have h₁ := he.takes.length_lt
    have h₂ := length_of_skipSpace ht
    -- The opening bracket pays for the inner expression.
    rw [List.length_cons] at hfuel
    exact readPrimary_brackets (ih he (by simp only [Phrase.Affords, Phrase.margin]; omega)) ht
  | emptyList hr => exact readPrimary_emptyList hr
  | @list t _ _ hr hes =>
    have h₁ := hes.takes.length_lt
    have h₂ := length_skipSpace_le t
    rw [List.length_cons] at hfuel
    exact readPrimary_list hr (ih hes (by simp only [Phrase.Affords, Phrase.margin]; omega))
  | emptyRecord hr => exact readPrimary_emptyRecord hr
  | @record t _ _ hr hfields =>
    have h₁ := hfields.takes.length_lt
    have h₂ := length_skipSpace_le t
    rw [List.length_cons] at hfuel
    exact readPrimary_record hr (ih hfields (by simp only [Phrase.Affords, Phrase.margin]; omega))

/-- An item that is followed by others leaves them a shorter text. -/
theorem ReadsWithin.items (ih : ReadsWithin fuel) (h : Derives .items s y r)
    (hfuel : Phrase.items.Affords (fuel + 1) s r) : Phrase.items.Reads (fuel + 1) s y r := by
  simp only [Phrase.Affords, Phrase.margin] at hfuel
  cases h with
  | lastItem he hr =>
    have h₁ := he.takes.length_lt
    have h₂ := length_of_skipSpace hr
    exact readItems_last (ih he (by simp only [Phrase.Affords, Phrase.margin]; omega)) hr
  | item he hr hes =>
    have h₁ := he.takes.length_lt
    have h₂ := length_of_skipSpace hr
    have h₃ := hes.takes.length_lt
    have hitem := ih he (by simp only [Phrase.Affords, Phrase.margin]; omega)
    have hitems := ih hes (by simp only [Phrase.Affords, Phrase.margin]; omega)
    exact readItems_item hitem hr hitems

/-- An entry has its key and its colon in addition. -/
theorem ReadsWithin.entries (ih : ReadsWithin fuel) (h : Derives .entries s y r)
    (hfuel : Phrase.entries.Affords (fuel + 1) s r) : Phrase.entries.Reads (fuel + 1) s y r := by
  simp only [Phrase.Affords, Phrase.margin] at hfuel
  cases h with
  | lastEntry hs hr he hu =>
    have h₁ := (through_readKey hs).skip.length_lt
    have h₂ := length_of_skipSpace hr
    have h₃ := he.takes.length_lt
    have h₄ := length_of_skipSpace hu
    exact readEntries_last hs hr (ih he (by simp only [Phrase.Affords, Phrase.margin]; omega)) hu
  | entry hs hr he hu hfields =>
    have h₁ := (through_readKey hs).skip.length_lt
    have h₂ := length_of_skipSpace hr
    have h₃ := he.takes.length_lt
    have h₄ := length_of_skipSpace hu
    have h₅ := hfields.takes.length_lt
    have hvalue := ih he (by simp only [Phrase.Affords, Phrase.margin]; omega)
    have hentries := ih hfields (by simp only [Phrase.Affords, Phrase.margin]; omega)
    exact readEntries_entry hs hr hvalue hu hentries

end Phrases

/-- What is derived is read, with fuel for what is taken up. -/
theorem reads_within (fuel : Nat) : ReadsWithin fuel := by
  -- each phrase hands its parts the fuel but one, as the reader does
  induction fuel with
  | zero => exact fun _ _ _ _ h hfuel => absurd hfuel h.not_affords_zero
  | succ fuel ih =>
    intro ph s y r h hfuel
    cases ph with
    | cond => exact ih.cond h hfuel
    | binary level => exact ih.binary h hfuel
    | rest level l => exact ih.rest h hfuel
    | prefixed => exact ih.prefixed h hfuel
    | access d => exact ih.access h hfuel
    | primary => exact ih.primary h hfuel
    | items => exact ih.items h hfuel
    | entries => exact ih.entries h hfuel

/-- The texts of an expression are those that a condition takes up but for spaces at the end. -/
theorem parse_eq_ok_iff {s : List Char} {e : Expr} :
    parse s = .ok e ↔ ∃ r, Derives .cond s (.tree e) r ∧ skipSpace r = [] := by
  constructor
  · intro h
    unfold parse at h
    split at h
    · next d r hread =>
      split_ifs at h with hspace
      cases h
      exact ⟨r, derives_of_readCond hread, List.isEmpty_iff.1 hspace⟩
    · cases h
  · rintro ⟨r, hderives, hspace⟩
    have hafford : Phrase.cond.Affords (readFuel s) s r := by
      simp only [Phrase.Affords, Phrase.margin, readFuel]
      omega
    have hread : readCond (readFuel s) s = some (e, r) := reads_within _ hderives hafford
    unfold parse
    rw [hread]
    simp only [hspace, List.isEmpty_nil, if_true]

end Sequencer.Expr
