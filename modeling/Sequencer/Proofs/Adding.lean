import Sequencer.Proofs.Decorations

/-!
# Adding texts

Addition takes two texts for numbers if both are read as doubles, and joins them if not. What is read as a double is
found here as a grammar: decimal numerals, and words for infinity and for what is not a number. The words are no
numerals, and yet count. Since no finite number comes of them, their sum with anything that counts is nothing at all.
-/

namespace Sequencer

/-! ## Texts that are read as doubles

The parser of numbers takes a sign, digits with an optional point, and an optional exponent. Beside these it takes a
few words that stand for no finite number. -/

namespace Decimal

/-- A run of digits. -/
def AllDigits (s : List Char) : Prop := ∀ c ∈ s, c.isDigit = true

/-- What may stand in front of a number. -/
inductive Sign : List Char → Prop
  | none : Sign []
  | plus : Sign ['+']
  | minus : Sign ['-']

/-- What may stand behind the digits of a numeral. -/
inductive Exponent : List Char → Prop
  | none : Exponent []
  | power {letter : Char} {sign digits : List Char} (hletter : letter = 'e' ∨ letter = 'E') (hsign : Sign sign)
      (hdigits : AllDigits digits) (hne : digits ≠ []) : Exponent (letter :: (sign ++ digits))

/-- Numerals without a sign. -/
inductive Magnitude : List Char → Prop
  | whole {digits e : List Char} (hdigits : AllDigits digits) (hne : digits ≠ []) (he : Exponent e) :
      Magnitude (digits ++ e)
  | point {whole fraction e : List Char} (hwhole : AllDigits whole) (hfraction : AllDigits fraction)
      (hne : whole ≠ [] ∨ fraction ≠ []) (he : Exponent e) : Magnitude (whole ++ '.' :: (fraction ++ e))

/-- Decimal numerals: digits with at most one point among or around them, behind a sign or none, and with an exponent
or none. -/
def IsNumeral (s : List Char) : Prop := ∃ sign m, s = sign ++ m ∧ Sign sign ∧ Magnitude m

/-- The words that stand for a double. -/
def words : List String := ["inf", "infinity", "nan"]

/-- The words for doubles that are no numbers, behind a sign or none, in capital or small letters. -/
def IsWord (s : List Char) : Prop :=
  ∃ sign w, s = sign ++ w ∧ Sign sign ∧ String.ofList (w.map Char.toLower) ∈ words

variable {s r : List Char}

/-! ### Runs of digits

A run of digits ends at the first character that is none. -/

theorem Exponent.not_digit (h : Exponent s) : ∀ c ∈ s.head?, c.isDigit = false := by
  cases h with
  | none => simp
  | power hletter _ _ _ => rcases hletter with rfl | rfl <;> simp

theorem Exponent.ne_point (h : Exponent s) (t : List Char) : s ≠ '.' :: t := by
  cases h with
  | none => nofun
  | power hletter _ _ _ => rcases hletter with rfl | rfl <;> simp

theorem Magnitude.head (h : Magnitude s) : ∃ c t, s = c :: t ∧ (c.isDigit = true ∨ c = '.') := by
  cases h with
  | @whole digits e hdigits hne he =>
    obtain ⟨c, t, rfl⟩ := List.exists_cons_of_ne_nil hne
    exact ⟨c, t ++ e, rfl, .inl (hdigits c List.mem_cons_self)⟩
  | @point whole fraction e hwhole hfraction hne he =>
    cases whole with
    | nil => exact ⟨'.', fraction ++ e, rfl, .inr rfl⟩
    | cons c t => exact ⟨c, _, rfl, .inl (hwhole c List.mem_cons_self)⟩

/-- All digits are taken, as long as no digit comes next. -/
theorem spanDigits_append (hs : AllDigits s) (hr : ∀ c ∈ r.head?, c.isDigit = false) :
    spanDigits (s ++ r) = (s, r) := by
  unfold spanDigits
  rw [List.span_eq_takeWhile_dropWhile, List.takeWhile_append_of_pos hs, List.dropWhile_append_of_pos hs]
  cases r with
  | nil => simp
  | cons c r =>
    have hc : c.isDigit = false := hr c rfl
    simp [hc]

theorem spanDigits_spec (s : List Char) : s = (spanDigits s).1 ++ (spanDigits s).2 ∧ AllDigits (spanDigits s).1 :=
  ⟨(Expr.span_eq Char.isDigit s).1.symm, (Expr.span_eq Char.isDigit s).2⟩

theorem not_digit_spanDigits (s : List Char) : ∀ c ∈ (spanDigits s).2.head?, c.isDigit = false := by
  unfold spanDigits
  rw [List.span_eq_takeWhile_dropWhile]
  intro c hc
  have hstop := List.head?_dropWhile_not Char.isDigit s
  rw [Option.mem_def.1 hc] at hstop
  exact hstop

theorem digits?_isSome_iff : (digits? s).isSome ↔ AllDigits s ∧ s ≠ [] := by
  unfold digits? AllDigits
  split_ifs with h
  · simpa [and_comm] using h
  · simpa [and_comm] using h

/-! ### Signs

At most one sign is taken off. A second one is not part of a number any more. -/

theorem splitSign_append (hs : Sign s) (hr : ∀ c ∈ r.head?, c ≠ '+' ∧ c ≠ '-') : (splitSign (s ++ r)).2 = r := by
  cases hs with
  | plus => rfl
  | minus => rfl
  | none =>
    rw [List.nil_append]
    unfold splitSign
    split
    · exact absurd rfl (hr '+' rfl).1
    · exact absurd rfl (hr '-' rfl).2
    · rfl

theorem splitSign_spec (s : List Char) : ∃ sign, Sign sign ∧ s = sign ++ (splitSign s).2 := by
  unfold splitSign
  split
  · exact ⟨['+'], .plus, rfl⟩
  · exact ⟨['-'], .minus, rfl⟩
  · exact ⟨[], .none, rfl⟩

theorem Magnitude.not_sign (h : Magnitude s) : ∀ c ∈ s.head?, c ≠ '+' ∧ c ≠ '-' := by
  obtain ⟨c, t, rfl, hc⟩ := h.head
  intro d hd
  cases hd
  constructor <;> rintro rfl <;> revert hc <;> decide

/-! ### Numerals

What can be read as a number is exactly what can be written as one. The digits may be missing on one side of the
point, but not on both. -/

theorem exponent?_isSome_iff :
    (exponent? s).isSome ↔ ∃ sign digits, s = sign ++ digits ∧ Sign sign ∧ AllDigits digits ∧ digits ≠ [] := by
  constructor
  · intro h
    have hdigits : ∀ {r : List Char}, digits? r ≠ none → AllDigits r ∧ r ≠ [] := fun hr =>
      digits?_isSome_iff.1 (Option.isSome_iff_ne_none.2 hr)
    unfold exponent? at h
    split at h
    · next r => exact ⟨['+'], r, rfl, .plus, hdigits fun hr => by simp [hr] at h⟩
    · next r => exact ⟨['-'], r, rfl, .minus, hdigits fun hr => by simp [hr] at h⟩
    · exact ⟨[], s, rfl, .none, hdigits fun hr => by simp [hr] at h⟩
  · rintro ⟨sign, digits, rfl, hsign, hdigits⟩
    obtain ⟨n, hn⟩ := Option.isSome_iff_exists.1 (digits?_isSome_iff.2 hdigits)
    cases hsign with
    | plus => simp [exponent?, hn]
    | minus => simp [exponent?, hn]
    | none =>
      rw [List.nil_append]
      unfold exponent?
      split
      · exact absurd (hdigits.1 '+' List.mem_cons_self) (by decide)
      · exact absurd (hdigits.1 '-' List.mem_cons_self) (by decide)
      · simp [hn]

/-- The end of a numeral, behind its digits. -/
def readEnd? (whole fraction : List Char) : List Char → Option Numeral
  | [] => some (.ofParts whole fraction 0)
  | c :: r => if c = 'e' ∨ c = 'E' then (exponent? r).map (Numeral.ofParts whole fraction) else none

theorem readEnd?_isSome_iff {whole fraction : List Char} : (readEnd? whole fraction s).isSome ↔ Exponent s := by
  constructor
  · intro h
    unfold readEnd? at h
    split at h
    · exact .none
    · next c r =>
      split_ifs at h with hc
      · rw [Option.isSome_map] at h
        obtain ⟨sign, digits, rfl, hsign, hdigits, hne⟩ := exponent?_isSome_iff.1 h
        exact .power hc hsign hdigits hne
      · cases h
  · intro h
    cases h with
    | none => rfl
    | power hletter hsign hdigits hne =>
      have hread := exponent?_isSome_iff.2 ⟨_, _, rfl, hsign, hdigits, hne⟩
      simpa [readEnd?, hletter] using hread

/-- Without a point a numeral has no fraction. -/
theorem read?_whole (hs : AllDigits s) (hr : ∀ c ∈ r.head?, c.isDigit = false) (hpoint : ∀ t, r ≠ '.' :: t) :
    Numeral.read? (s ++ r) = if s = [] then none else readEnd? s [] r := by
  unfold Numeral.read?
  rw [spanDigits_append hs hr]
  cases r with
  | nil => simp [readEnd?, List.isEmpty_iff]
  | cons c t =>
    have hc : c ≠ '.' := fun hc => hpoint t (hc ▸ rfl)
    simp [readEnd?, List.isEmpty_iff]

/-- Behind a point stands the fraction. -/
theorem read?_point {fraction : List Char} (hs : AllDigits s) (hf : AllDigits fraction)
    (hr : ∀ c ∈ r.head?, c.isDigit = false) : Numeral.read? (s ++ '.' :: (fraction ++ r)) =
      if s = [] ∧ fraction = [] then none else readEnd? s fraction r := by
  have hwhole : spanDigits (s ++ '.' :: (fraction ++ r)) = (s, '.' :: (fraction ++ r)) :=
    spanDigits_append hs fun c hc => by cases hc; rfl
  unfold Numeral.read?
  simp only [hwhole, spanDigits_append hf hr, Bool.and_eq_true, List.isEmpty_iff]
  rfl

/-- What is read as a number without a sign. -/
theorem read?_isSome_iff : (Numeral.read? s).isSome ↔ Magnitude s := by
  constructor
  · intro h
    obtain ⟨hs, hwhole⟩ := spanDigits_spec s
    have hrest : ∀ c ∈ (spanDigits s).2.head?, c.isDigit = false := not_digit_spanDigits s
    generalize (spanDigits s).1 = whole at hs hwhole
    generalize (spanDigits s).2 = r at hs hrest
    subst hs
    by_cases hpoint : ∃ t, r = '.' :: t
    · obtain ⟨t, rfl⟩ := hpoint
      obtain ⟨ht, hfraction⟩ := spanDigits_spec t
      have htail := not_digit_spanDigits t
      generalize (spanDigits t).1 = fraction at ht hfraction
      generalize (spanDigits t).2 = e at ht htail
      subst ht
      rw [read?_point hwhole hfraction htail] at h
      split_ifs at h with hnil
      · cases h
      · exact .point hwhole hfraction (by tauto) (readEnd?_isSome_iff.1 h)
    · rw [read?_whole hwhole hrest fun t ht => hpoint ⟨t, ht⟩] at h
      split_ifs at h with hnil
      · cases h
      · exact .whole hwhole hnil (readEnd?_isSome_iff.1 h)
  · intro h
    cases h with
    | whole hdigits hne he =>
      rw [read?_whole hdigits he.not_digit he.ne_point, if_neg hne]
      exact readEnd?_isSome_iff.2 he
    | point hwhole hfraction hne he =>
      rw [read?_point hwhole hfraction he.not_digit, if_neg (by tauto)]
      exact readEnd?_isSome_iff.2 he

/-- A text is a numeral exactly if a number is read behind its sign. -/
theorem isNumeral_iff : IsNumeral s ↔ (Numeral.read? (splitSign s).2).isSome := by
  rw [read?_isSome_iff]
  constructor
  · rintro ⟨sign, m, rfl, hsign, hm⟩
    rwa [splitSign_append hsign hm.not_sign]
  · obtain ⟨sign, hsign, hs⟩ := splitSign_spec s
    exact fun hm => ⟨sign, _, hs, hsign, hm⟩

/-! ### Words

A word stands for no number that could be written with digits, whatever its letters' case. -/

/-- A word begins with a letter, and there is neither a sign nor a numeral that does. -/
theorem head_of_word (h : String.ofList (s.map Char.toLower) ∈ words) :
    ∃ c t, s = c :: t ∧ (c.toLower = 'i' ∨ c.toLower = 'n') := by
  have hwords : ∀ w ∈ words, w.toList.head? = some 'i' ∨ w.toList.head? = some 'n' := by decide
  have hhead := hwords _ h
  rw [String.toList_ofList] at hhead
  cases s with
  | nil => simp at hhead
  | cons c t => exact ⟨c, t, rfl, by simpa using hhead⟩

theorem not_sign_of_word (h : String.ofList (s.map Char.toLower) ∈ words) : ∀ c ∈ s.head?, c ≠ '+' ∧ c ≠ '-' := by
  obtain ⟨c, t, rfl, hlower⟩ := head_of_word h
  intro d hd
  cases hd
  constructor <;> rintro rfl <;> revert hlower <;> decide

theorem float?_isSome_iff_unsigned :
    (float? s).isSome ↔ Magnitude (splitSign s).2 ∨ String.ofList ((splitSign s).2.map Char.toLower) ∈ words := by
  rw [← read?_isSome_iff]
  unfold float?
  cases hr : Numeral.read? (splitSign s).2 with
  | some n => simp [hr]
  | none =>
    simp only [hr, words, List.mem_cons, List.not_mem_nil, or_false, Option.isSome_none, Bool.false_eq_true, false_or]
    split_ifs with hinf hnan
    · simp only [Option.isSome_some, true_iff]
      tauto
    · simp [hnan]
    · simp only [Option.isSome_none, Bool.false_eq_true, false_iff]
      tauto

/-- A text is read as a double exactly if it is a numeral or a word. -/
theorem float?_isSome_iff : (float? s).isSome ↔ IsNumeral s ∨ IsWord s := by
  rw [float?_isSome_iff_unsigned]
  constructor
  · obtain ⟨sign, hsign, hs⟩ := splitSign_spec s
    rintro (hm | hw)
    · exact .inl ⟨sign, _, hs, hsign, hm⟩
    · exact .inr ⟨sign, _, hs, hsign, hw⟩
  · rintro (⟨sign, m, rfl, hsign, hm⟩ | ⟨sign, w, rfl, hsign, hw⟩)
    · rw [splitSign_append hsign hm.not_sign]
      exact .inl hm
    · rw [splitSign_append hsign (not_sign_of_word hw)]
      exact .inr hw

end Decimal

/-! ## What is no number

What comes of such a word is lost where a JSON number is made of it. -/

namespace Binary64

open Float.Model (UnpackedFloat Format)

/-- Infinite, or not a number at all. -/
def NoNumber : UnpackedFloat → Prop
  | .infinity _ => True
  | .notANumber => True
  | _ => False

/-- With what is no number there is no sum that is one. -/
theorem noNumber_add {u v : UnpackedFloat} (h : NoNumber u ∨ NoNumber v) (format : Format) :
    NoNumber (UnpackedFloat.add format u v) := by
  cases u with
  | notANumber => trivial
  | infinity sign =>
    cases v with
    | infinity sign' => cases sign <;> cases sign' <;> trivial
    | _ => trivial
  | zero sign =>
    cases v with
    | notANumber => trivial
    | infinity sign' => trivial
    | _ => exact absurd h (by simp [NoNumber])
  | finite sign mantissa exponent hpos =>
    cases v with
    | notANumber => trivial
    | infinity sign' => trivial
    | _ => exact absurd h (by simp [NoNumber])

/-- It has no value but nothing. -/
theorem ofFloat_pack {u : UnpackedFloat} (h : NoNumber u) : Value.ofFloat ⟨.pack u⟩ = .null := by
  cases u with
  | notANumber => rfl
  | infinity sign => cases sign <;> rfl
  | zero sign => cases h
  | finite sign mantissa exponent hpos => cases h

end Binary64

namespace Decimal

open Binary64

variable {s : List Char} {f : Float}

/-- What is read as a double and is no numeral is no number. -/
theorem noNumber_of_not_isNumeral (hf : float? s = some f) (hs : ¬IsNumeral s) : NoNumber f.toModel.unpack := by
  rw [isNumeral_iff, Option.not_isSome_iff_eq_none] at hs
  unfold float? at hf
  simp only [hs] at hf
  split_ifs at hf
  · cases hf
    cases (splitSign s).1 <;> exact trivial
  · cases hf
    exact trivial

end Decimal

/-! ## Sums of texts

A sum is one of numbers if both texts count as numbers, and a text otherwise. -/

namespace Expr

open Decimal Binary64

/-- Whether a text counts as a number in a sum: a numeral or a word, between blanks. -/
def Counts (s : String) : Prop := IsNumeral (Text.trim s.toList) ∨ IsWord (Text.trim s.toList)

variable {a b : String}

/-- Texts are joined if one of them does not count. -/
theorem sum_of_not_counts (h : ¬(Counts a ∧ Counts b)) : sum (.str a) (.str b) = .str (a ++ b) := by
  unfold Counts at h
  rw [← float?_isSome_iff, ← float?_isSome_iff] at h
  have hnone : numbers? (.str a) (.str b) = none := by
    cases ha : float? (Text.trim a.toList) with
    | none => simp [numbers?, Value.toFloat?, Value.isContainer, ha]
    | some x =>
      cases hb : float? (Text.trim b.toList) with
      | none => simp [numbers?, Value.toFloat?, Value.isContainer, ha, hb]
      | some y => simp [ha, hb] at h
  unfold sum
  rw [hnone]
  show Value.str (String.ofList (a.toList ++ b.toList)) = _
  rw [← String.toList_append, String.ofList_toList]

/-- If both count and are not numerals both, then the sum is nothing. -/
theorem sum_of_counts (ha : Counts a) (hb : Counts b)
    (h : ¬(IsNumeral (Text.trim a.toList) ∧ IsNumeral (Text.trim b.toList))) : sum (.str a) (.str b) = .null := by
  obtain ⟨x, hx⟩ := Option.isSome_iff_exists.1 (float?_isSome_iff.2 ha)
  obtain ⟨y, hy⟩ := Option.isSome_iff_exists.1 (float?_isSome_iff.2 hb)
  have hsum : sum (.str a) (.str b) = Value.ofFloat (x + y) := by
    simp [sum, numbers?, Value.toFloat?, Value.isContainer, hx, hy]
  rw [hsum]
  apply ofFloat_pack
  apply noNumber_add
  by_cases hnumeral : IsNumeral (Text.trim a.toList)
  · exact .inr (noNumber_of_not_isNumeral hy fun hb => h ⟨hnumeral, hb⟩)
  · exact .inl (noNumber_of_not_isNumeral hx hnumeral)

/-- Adding two texts, not both of which are numerals, always gives a value. It joins the texts exactly if one of them
does not count as a number, and otherwise gives nothing. -/
theorem add_joins_iff {vars : Lookup} {l r : Expr} (hl : eval vars l = .ok (.str a)) (hr : eval vars r = .ok (.str b))
    (h : ¬(IsNumeral (Text.trim a.toList) ∧ IsNumeral (Text.trim b.toList))) :
    (eval vars (.binary .add l r) = .ok (.str (a ++ b)) ↔ ¬(Counts a ∧ Counts b)) ∧
    (Counts a ∧ Counts b → eval vars (.binary .add l r) = .ok .null) := by
  have heval : eval vars (.binary .add l r) = .ok (sum (.str a) (.str b)) := by
    rw [eval, hl]
    simp [hr, apply]
  rw [heval]
  refine ⟨⟨?_, fun hcounts => congrArg _ (sum_of_not_counts hcounts)⟩,
    fun hcounts => congrArg _ (sum_of_counts hcounts.1 hcounts.2 h)⟩
  rintro hjoined ⟨ha, hb⟩
  rw [sum_of_counts ha hb h] at hjoined
  cases hjoined

/-- A word is lost in a sum with a numeral. -/
theorem word_vanishes : ¬IsNumeral (Text.trim "inf".toList) ∧
    eval (fun _ => none) (.binary .add (.lit (.str "inf")) (.lit (.str "1"))) = .ok .null := by
  have hword : ¬IsNumeral (Text.trim "inf".toList) := by
    rw [isNumeral_iff]
    decide
  exact ⟨hword, by rfl⟩

/-- The word is joined with a text that does not count, and lost in a sum with a numeral. -/
theorem add_joins_iff_infinity : ¬IsNumeral (Text.trim " -Infinity".toList) ∧
    eval (fun _ => none) (.binary .add (.lit (.str " -Infinity")) (.lit (.str "x"))) = .ok (.str " -Infinityx") ∧
    eval (fun _ => none) (.binary .add (.lit (.str " -Infinity")) (.lit (.str "1."))) = .ok .null := by
  have hword : ¬IsNumeral (Text.trim " -Infinity".toList) := by
    rw [isNumeral_iff]
    decide
  have hletter : ¬Counts "x" := by
    unfold Counts
    rw [← float?_isSome_iff]
    decide
  have hcounts : Counts " -Infinity" ∧ Counts "1." := by
    unfold Counts
    rw [← float?_isSome_iff, ← float?_isSome_iff]
    decide
  have joined := @add_joins_iff " -Infinity" "x" (fun _ => none) (.lit (.str " -Infinity")) (.lit (.str "x")) rfl rfl
    fun h => hword h.1
  have lost := @add_joins_iff " -Infinity" "1." (fun _ => none) (.lit (.str " -Infinity")) (.lit (.str "1.")) rfl rfl
    fun h => hword h.1
  exact ⟨hword, joined.1.2 fun h => hletter h.2, lost.2 hcounts⟩

end Expr
end Sequencer
