import Sequencer.Proofs.Head
import Sequencer.Proofs.Parsing

/-!
# Blanks around an expression

Trimming takes more characters for blank than the reader of expressions does. All that it removes around an expression
are spaces, though, because an expression begins and ends with characters that are not blank at all. And it is the same
expression without them: no token and no phrase reaches into the spaces at the end of a text.
-/

namespace Sequencer

/-! ## Trimming

Trimming takes blanks off, and only at the ends. -/

namespace Text

/-- A text with nothing in it but blanks. -/
def Blanks (s : List Char) : Prop := ∀ c ∈ s, isBlank c = true

instance (s : List Char) : Decidable (Blanks s) := List.decidableBAll _ s

/-- Blanks in front are trimmed. -/
theorem trimStart_blanks {l : List Char} (h : Blanks l) (s : List Char) : trimStart (l ++ s) = trimStart s :=
  List.dropWhile_append_of_pos h

/-- Blanks at the end are trimmed. -/
theorem trimEnd_blanks {r : List Char} (h : Blanks r) (s : List Char) : trimEnd (s ++ r) = trimEnd s := by
  have hrev : Blanks r.reverse := fun c hc => h c (List.mem_reverse.1 hc)
  have hstart : trimStart (r.reverse ++ s.reverse) = trimStart s.reverse := trimStart_blanks hrev s.reverse
  rw [← List.reverse_append] at hstart
  exact congrArg List.reverse hstart

/-- Blanks around a text do not matter. -/
theorem trim_blanks {l r : List Char} (hl : Blanks l) (hr : Blanks r) (s : List Char) :
    trim (l ++ s ++ r) = trim s := by
  have hfront : trim (l ++ s ++ r) = trim (s ++ r) := by
    rw [trim, List.append_assoc, trimStart_blanks hl, trim]
  rw [hfront, trim, trim]
  cases hs : trimStart s with
  | nil =>
    have hnil : trimStart (s ++ r) = [] := by
      rw [trimStart, List.dropWhile_append, ← trimStart, hs, List.isEmpty_nil, if_pos rfl]
      exact List.dropWhile_eq_nil_iff.2 hr
    rw [hnil]
  | cons c t =>
    have hcons : trimStart (s ++ r) = c :: t ++ r := by
      rw [trimStart, List.dropWhile_append, ← trimStart, hs, if_neg (by simp)]
    rw [hcons, trimEnd_blanks hr]

/-- A text that neither begins nor ends with a blank. -/
theorem trim_of_not_blank {c d : Char} {s : List Char} (hc : isBlank c = false) (hd : isBlank d = false)
    (hfront : s.head? = some c) (hback : s.getLast? = some d) : trim s = s := by
  have hstart : trimStart s = s := by
    obtain ⟨t, rfl⟩ := List.head?_eq_some_iff.1 hfront
    exact trimStart_of_not_blank t hc
  have hend : trimEnd s = s := by
    obtain ⟨u, rfl⟩ := List.getLast?_eq_some_iff.1 hback
    have hrev : trimStart (u ++ [d]).reverse = (u ++ [d]).reverse := by
      rw [List.reverse_append]
      exact trimStart_of_not_blank _ hd
    have hdouble : (trimStart (u ++ [d]).reverse).reverse = u ++ [d] := by rw [hrev, List.reverse_reverse]
    exact hdouble
  rw [trim, hstart, hend]

/-- What trimming removes. -/
theorem exists_trim (s : List Char) : ∃ l r, s = l ++ trim s ++ r ∧ Blanks l ∧ Blanks r := by
  set t := trimStart s with ht
  have hstart : s = s.takeWhile isBlank ++ t := List.takeWhile_append_dropWhile.symm
  have hrev : t.reverse = t.reverse.takeWhile isBlank ++ trimStart t.reverse := List.takeWhile_append_dropWhile.symm
  have hend : t = trim s ++ (t.reverse.takeWhile isBlank).reverse := by
    have hflip := congrArg List.reverse hrev
    rw [List.reverse_reverse, List.reverse_append] at hflip
    exact hflip
  refine ⟨s.takeWhile isBlank, (t.reverse.takeWhile isBlank).reverse, ?_, fun c hc => List.mem_takeWhile_imp hc,
    fun c hc => List.mem_takeWhile_imp (List.mem_reverse.1 hc)⟩
  rw [List.append_assoc, ← hend]
  exact hstart

end Text

namespace Expr

open Text

/-- No blank has a meaning for the scan. -/
theorem unpaired_of_blanks {s : List Char} (h : Blanks s) : Unpaired s := by
  intro c hc hmem
  have hblank := h c hc
  simp only [List.mem_cons, List.not_mem_nil, or_false] at hmem
  rcases hmem with rfl | rfl | rfl | rfl <;> exact absurd hblank (by decide)

/-! ## Spaces at the end

A reader of tokens stops in front of the spaces at the end of a text, wherever it stops without them. -/

/-- A text with nothing in it but spaces. -/
def Spaces (s : List Char) : Prop := ∀ c ∈ s, isSpace c = true

/-- Spaces of the grammar are blanks. -/
theorem Spaces.blanks {s : List Char} (h : Spaces s) : Blanks s := fun c hc => isSpace_of_blank (h c hc)

/-- What is skipped to the end is all spaces. -/
theorem spaces_of_skipSpace {s : List Char} (h : skipSpace s = []) : Spaces s := List.dropWhile_eq_nil_iff.1 h

/-- More spaces behind make no difference to that. -/
theorem skipSpace_append_of_eq_nil {s sp : List Char} (hsp : Spaces sp) (hs : skipSpace s = []) :
    skipSpace (s ++ sp) = [] :=
  List.dropWhile_eq_nil_iff.2 fun c hc => (List.mem_append.1 hc).elim (spaces_of_skipSpace hs c) (hsp c)

/-- What comes behind spaces stays in front when more is appended. -/
theorem skipSpace_append_of_eq_cons {s t : List Char} {c : Char} (hs : skipSpace s = c :: t) (sp : List Char) :
    skipSpace (s ++ sp) = c :: (t ++ sp) := by
  rw [skipSpace, List.dropWhile_append, ← skipSpace, hs, if_neg (by simp)]
  rfl

/-- The second text is the first one without some of the spaces at its end. -/
def Padded (s s₀ : List Char) : Prop := ∃ sp, Spaces sp ∧ s = s₀ ++ sp

namespace Padded

variable {s s₀ r cs : List Char} {c : Char}

/-- Spaces in front may be skipped on both sides. -/
theorem skip (h : Padded s s₀) : Padded (skipSpace s) (skipSpace s₀) := by
  obtain ⟨sp, hsp, rfl⟩ := h
  cases hs : skipSpace s₀ with
  | nil => exact ⟨[], by simp [Spaces], skipSpace_append_of_eq_nil hsp hs⟩
  | cons c t => exact ⟨sp, hsp, skipSpace_append_of_eq_cons hs sp⟩

/-- A character that is no space is there in both texts. -/
theorem cons (h : Padded (c :: r) s₀) (hc : isSpace c = false) : ∃ r₀, s₀ = c :: r₀ ∧ Padded r r₀ := by
  obtain ⟨sp, hsp, he⟩ := h
  cases s₀ with
  | nil =>
    have hspace : isSpace c = true := hsp c (by rw [← List.nil_append sp, ← he]; exact List.mem_cons_self)
    rw [hc] at hspace
    cases hspace
  | cons d t =>
    obtain ⟨rfl, rfl⟩ := List.cons.inj he
    exact ⟨t, rfl, sp, hsp, rfl⟩

/-- The next character is the same. -/
theorem next (h : Padded s s₀) (hs : skipSpace s = c :: r) : ∃ r₀, skipSpace s₀ = c :: r₀ ∧ Padded r r₀ := by
  have hc : isSpace c = false := by
    have hhead := List.head?_dropWhile_not isSpace s
    rw [← skipSpace, hs] at hhead
    simpa using hhead
  have hskip := h.skip
  rw [hs] at hskip
  exact hskip.cons hc

/-- What does not come next in the longer text does not come next in the shorter one. -/
theorem avoids (h : Padded s s₀) (hs : Avoids s cs) : Avoids s₀ cs := by
  obtain ⟨sp, hsp, rfl⟩ := h
  intro c t hc
  exact hs c (t ++ sp) (skipSpace_append_of_eq_cons hc sp)

end Padded

/-- A reader that leaves spaces at the end. -/
def Leaves {α : Type} (read : List Char → Option (α × List Char)) : Prop :=
  ∀ s sp, Spaces sp → read (s ++ sp) = (read s).map fun (x, r) => (x, r ++ sp)

section Leaves

variable {α : Type} {read : List Char → Option (α × List Char)} {s s₀ r : List Char} {x : α}

/-- A reader that leaves spaces alone reads the same from the shorter text. -/
theorem Leaves.padded (h : Leaves read) (hp : Padded s s₀) (hs : read s = some (x, r)) :
    ∃ r₀, read s₀ = some (x, r₀) ∧ Padded r r₀ := by
  obtain ⟨sp, hsp, rfl⟩ := hp
  rw [h s₀ sp hsp] at hs
  obtain ⟨⟨y, r₀⟩, hr₀, he⟩ := Option.map_eq_some_iff.1 hs
  cases he
  exact ⟨r₀, hr₀, sp, hsp, rfl⟩

/-- And it fails there if it fails on the longer one. -/
theorem Leaves.padded_none (h : Leaves read) (hp : Padded s s₀) (hs : read s = none) : read s₀ = none := by
  obtain ⟨sp, hsp, rfl⟩ := hp
  rw [h s₀ sp hsp] at hs
  exact Option.map_eq_none_iff.1 hs

end Leaves

/-- What the reader takes up are no spaces. -/
theorem span_spaces {p : Char → Bool} (hp : ∀ c, isSpace c = true → p c = false) {sp : List Char} (hsp : Spaces sp)
    (s : List Char) : (s ++ sp).span p = ((s.span p).1, (s.span p).2 ++ sp) := by
  simp only [List.span_eq_takeWhile_dropWhile]
  induction s with
  | nil =>
    cases sp with
    | nil => rfl
    | cons c t =>
      have hc : p c = false := hp c (hsp c List.mem_cons_self)
      simp [hc]
  | cons c s ih =>
    cases hc : p c with
    | true =>
      obtain ⟨htake, hdrop⟩ := Prod.mk.inj ih
      simp [hc, htake, hdrop]
    | false => simp [hc]

/-- No digit is a space. -/
theorem not_digit_of_isSpace {c : Char} (h : isSpace c = true) : c.isDigit = false := by
  simp only [isSpace, Bool.or_eq_true, decide_eq_true_eq] at h
  rcases h with ((rfl | rfl) | rfl) | rfl <;> decide

/-- No name has a space in it. -/
theorem not_name_of_isSpace {c : Char} (h : isSpace c = true) : isNameStart c = false ∧ isNameChar c = false := by
  simp only [isSpace, Bool.or_eq_true, decide_eq_true_eq] at h
  rcases h with ((rfl | rfl) | rfl) | rfl <;> decide

/-- A name ends before spaces. -/
theorem leaves_readName : Leaves readName := by
  intro s sp hsp
  cases s with
  | nil =>
    cases sp with
    | nil => rfl
    | cons c t =>
      have hc := (not_name_of_isSpace (hsp c List.mem_cons_self)).1
      simp [readName, hc]
  | cons c t =>
    have hspan := span_spaces (fun d hd => (not_name_of_isSpace hd).2) hsp t
    rw [List.cons_append, readName, readName, hspan]
    split_ifs <;> rfl

/-- In quotes every character but the backslash and the quote stands for itself. -/
theorem readQuoted_of_ne {q c : Char} (hc : c ≠ '\\') (s : List Char) : readQuoted q (c :: s) =
    if c = q then some ([], s) else (readQuoted q s).map fun (cs, r) => (c :: cs, r) := by
  rw [readQuoted]
  exact fun _ _ hs => absurd hs hc

/-- Quotes are not closed by spaces. -/
theorem readQuoted_spaces {q : Char} (hq : isSpace q = false) {sp : List Char} (hsp : Spaces sp) :
    readQuoted q sp = none := by
  induction sp with
  | nil => rfl
  | cons c t ih =>
    have hc : isSpace c = true := hsp c List.mem_cons_self
    have hslash : c ≠ '\\' := by
      rintro rfl
      exact absurd hc (by decide)
    have hne : c ≠ q := by
      rintro rfl
      rw [hq] at hc
      cases hc
    rw [readQuoted_of_ne hslash, if_neg hne, ih fun d hd => hsp d (List.mem_cons_of_mem c hd)]
    rfl

/-- A text in quotes ends with its quote, so that spaces behind it do not matter, while those inside belong to it. -/
theorem leaves_readQuoted {q : Char} (hspace : isSpace q = false) (hslash : q ≠ '\\') : Leaves (readQuoted q) := by
  intro s sp hsp
  induction s using readQuoted.induct q with
  | case1 => exact readQuoted_spaces hspace hsp
  | case2 c s ih =>
    rw [List.cons_append, List.cons_append, readQuoted, readQuoted, ih, Option.map_map, Option.map_map]
    rfl
  | case3 s _ =>
    rw [List.cons_append, readQuoted_of_ne hslash, readQuoted_of_ne hslash, if_pos rfl, if_pos rfl]
    rfl
  | case4 c s hlast hc ih =>
    by_cases he : c = '\\'
    · -- a backslash at the very end takes a space with it, or nothing
      obtain rfl : s = [] := by
        cases s with
        | nil => rfl
        | cons d t => exact absurd rfl (hlast d t he)
      subst he
      cases sp with
      | nil => simp
      | cons d t =>
        have ht : readQuoted q t = none := readQuoted_spaces hspace fun d hd => hsp d (List.mem_cons_of_mem _ hd)
        simp [readQuoted, ht, hc]
    · rw [List.cons_append, readQuoted_of_ne he, readQuoted_of_ne he, if_neg hc, if_neg hc, ih, Option.map_map,
        Option.map_map]
      rfl

/-- Both quotes are of this kind. -/
theorem leaves_quotes {q : Char} (hq : q = '"' ∨ q = '\'') : Leaves (readQuoted q) := by
  rcases hq with rfl | rfl
  · exact leaves_readQuoted (by decide) (by decide)
  · exact leaves_readQuoted (by decide) (by decide)

/-- A key is a name or a text in quotes. -/
theorem leaves_readKey : Leaves readKey := by
  -- A key that does not begin with a quote is a name.
  have hname {c : Char} (h₁ : c ≠ '"') (h₂ : c ≠ '\'') (t : List Char) : readKey (c :: t) = readName (c :: t) := by
    rw [readKey]
    · exact fun _ hs => absurd (List.cons.inj hs).1 h₁
    · exact fun _ hs => absurd (List.cons.inj hs).1 h₂
  intro s sp hsp
  cases s with
  | nil =>
    cases sp with
    | nil => rfl
    | cons c t =>
      have hc : isSpace c = true := hsp c List.mem_cons_self
      have h₁ : c ≠ '"' := by
        rintro rfl
        exact absurd hc (by decide)
      have h₂ : c ≠ '\'' := by
        rintro rfl
        exact absurd hc (by decide)
      rw [List.nil_append, hname h₁ h₂]
      exact leaves_readName [] (c :: t) hsp
  | cons c t =>
    by_cases h₁ : c = '"'
    · subst h₁
      rw [List.cons_append, readKey, readKey, leaves_quotes (.inl rfl) t sp hsp, Option.map_map, Option.map_map]
      rfl
    by_cases h₂ : c = '\''
    · subst h₂
      rw [List.cons_append, readKey, readKey, leaves_quotes (.inr rfl) t sp hsp, Option.map_map, Option.map_map]
      rfl
    · rw [List.cons_append, hname h₁ h₂, hname h₁ h₂]
      exact leaves_readName (c :: t) sp hsp

/-- A fixed text without spaces is found in front, or is not, whatever spaces come at the end. -/
theorem dropLead?_spaces {lead : List Char} (hlead : ∀ c ∈ lead, isSpace c = false) {sp : List Char}
    (hsp : Spaces sp) (s : List Char) : dropLead? lead (s ++ sp) = (dropLead? lead s).map (· ++ sp) := by
  induction lead generalizing s with
  | nil => rfl
  | cons c cs ih =>
    cases s with
    | nil =>
      cases sp with
      | nil => rfl
      | cons d t =>
        -- The text is used up, and the space behind it is no part of a symbol.
        have hne : c ≠ d := by
          rintro rfl
          have hc := hlead c List.mem_cons_self
          rw [hsp c List.mem_cons_self] at hc
          cases hc
        simp [dropLead?, hne]
    | cons d t =>
      have ih := ih (fun e he => hlead e (List.mem_cons_of_mem c he)) t
      by_cases hc : c = d <;> simp [dropLead?, hc, ih]

/-- At the end there is no operator. -/
theorem readOperator_nil (level : Nat) : readOperator level [] = none := by
  refine List.findSome?_eq_none_iff.2 fun op _ => ?_
  cases op <;> rfl

/-- An operator is found behind spaces. -/
theorem leaves_readOperator (level : Nat) : Leaves fun s => readOperator level (skipSpace s) := by
  intro s sp hsp
  cases hs : skipSpace s with
  | nil => simp only [skipSpace_append_of_eq_nil hsp hs, hs, readOperator_nil, Option.map_none]
  | cons c t =>
    have hsymbol (op : BinaryOp) : ∀ c ∈ op.symbol, isSpace c = false :=
      fun c hc => not_isSpace_of_not_blank (bare_symbol op c hc).1
    simp only [skipSpace_append_of_eq_cons hs, hs, ← List.cons_append]
    unfold readOperator
    rw [List.map_findSome?]
    congr 1
    funext op
    rw [Function.comp, dropLead?_spaces (hsymbol op) hsp, Option.map_map, Option.map_map]
    rfl

/-! ### Numbers

Each part of a number ends before a space. -/

section Numbers

variable {sp : List Char}

/-- Digits end before spaces. -/
theorem spanDigits_spaces (hsp : Spaces sp) (s : List Char) :
    Decimal.spanDigits (s ++ sp) = ((Decimal.spanDigits s).1, (Decimal.spanDigits s).2 ++ sp) :=
  span_spaces (fun _ hc => not_digit_of_isSpace hc) hsp s

/-- Spaces begin with no other character. -/
theorem Spaces.head_ne (hsp : Spaces sp) {c : Char} (hc : isSpace c = false) : sp.head? ≠ some c := by
  intro hhead
  rw [hsp c (List.mem_of_mem_head? hhead)] at hc
  cases hc

/-- Without a point there is no fraction. -/
theorem readFraction_of_head {s : List Char} (h : s.head? ≠ some '.') : readFraction s = ([], s) := by
  unfold readFraction
  split
  · exact absurd rfl h
  · rfl

/-- A fraction ends before spaces, and a point without digits stays. -/
theorem readFraction_spaces (hsp : Spaces sp) (s : List Char) :
    readFraction (s ++ sp) = ((readFraction s).1, (readFraction s).2 ++ sp) := by
  by_cases hs : s.head? = some '.'
  · obtain ⟨t, rfl⟩ := List.head?_eq_some_iff.1 hs
    cases t with
    | nil =>
      cases sp with
      | nil => rfl
      | cons d t =>
        have hd : d.isDigit = false := not_digit_of_isSpace (hsp d List.mem_cons_self)
        simp [readFraction, hd]
    | cons c t =>
      rw [List.cons_append, List.cons_append, readFraction, readFraction]
      split_ifs
      · exact spanDigits_spaces hsp (c :: t)
      · rfl
  · -- Without a point in front there is no fraction, and the spaces bring none.
    have happend : (s ++ sp).head? ≠ some '.' := by
      cases s with
      | nil => exact hsp.head_ne (by decide)
      | cons c t => exact hs
    rw [readFraction_of_head hs, readFraction_of_head happend]

/-- Without a sign there is none. -/
theorem splitSign_of_head {s : List Char} (hplus : s.head? ≠ some '+') (hminus : s.head? ≠ some '-') :
    Decimal.splitSign s = (false, s) := by
  unfold Decimal.splitSign
  split
  · exact absurd rfl hplus
  · exact absurd rfl hminus
  · rfl

/-- A sign is taken off a text that is followed by spaces. -/
theorem splitSign_spaces (hsp : Spaces sp) (s : List Char) :
    Decimal.splitSign (s ++ sp) = ((Decimal.splitSign s).1, (Decimal.splitSign s).2 ++ sp) := by
  cases s with
  | nil => exact splitSign_of_head (hsp.head_ne (by decide)) (hsp.head_ne (by decide))
  | cons c t =>
    by_cases hplus : c = '+'
    · subst hplus
      rfl
    by_cases hminus : c = '-'
    · subst hminus
      rfl
    · rw [splitSign_of_head (s := c :: t) (by simp [hplus]) (by simp [hminus]), List.cons_append]
      exact splitSign_of_head (by simp [hplus]) (by simp [hminus])

/-- An exponent ends before spaces, and so does one without digits, which is none. -/
theorem readExponent_spaces (hsp : Spaces sp) (s : List Char) :
    readExponent (s ++ sp) = ((readExponent s).1, (readExponent s).2 ++ sp) := by
  cases s with
  | nil =>
    cases sp with
    | nil => rfl
    | cons c t =>
      have hc : ¬(c = 'e' ∨ c = 'E') := by
        rintro (rfl | rfl)
        · exact absurd (hsp 'e' List.mem_cons_self) (by decide)
        · exact absurd (hsp 'E' List.mem_cons_self) (by decide)
      simp [readExponent, hc]
  | cons c t =>
    simp only [List.cons_append, readExponent, splitSign_spaces hsp, spanDigits_spaces hsp]
    split_ifs <;> rfl

/-- So does a number with all its parts. -/
theorem readNumber_spaces (hsp : Spaces sp) (s : List Char) :
    readNumber (s ++ sp) = ((readNumber s).1, (readNumber s).2 ++ sp) := by
  simp only [readNumber, spanDigits_spaces hsp, readFraction_spaces hsp, readExponent_spaces hsp]

end Numbers

/-! ## Phrases without spaces at the end

By induction on the derivation: the same rule applies without the spaces. -/

/-- The same phrase stands at the front of a text without the spaces at its end. -/
theorem Derives.padded {ph : Phrase} {s r : List Char} {y : Yield} (h : Derives ph s y r) {s₀ : List Char}
    (hp : Padded s s₀) : ∃ r₀, Padded r r₀ ∧ Derives ph s₀ y r₀ := by
  -- by the rules: each token and each part hands the spaces on to what is left behind it
  induction h generalizing s₀ with
  | plain hc hr ih =>
    obtain ⟨r₀, hr₀, hc₀⟩ := ih hp
    exact ⟨r₀, hr₀, .plain hc₀ (hr₀.avoids hr)⟩
  | cond hc hr ha hu hb ihc iha ihb =>
    obtain ⟨r₀, hr₀, hc₀⟩ := ihc hp
    obtain ⟨t₀, hrt, ht₀⟩ := hr₀.next hr
    obtain ⟨u₀, hu₀, ha₀⟩ := iha ht₀
    obtain ⟨w₀, huw, hw₀⟩ := hu₀.next hu
    obtain ⟨z₀, hz₀, hb₀⟩ := ihb hw₀
    exact ⟨z₀, hz₀, .cond hc₀ hrt ha₀ huw hb₀⟩
  | binary hlevel hl hr ihl ihr =>
    obtain ⟨r₀, hr₀, hl₀⟩ := ihl hp
    obtain ⟨z₀, hz₀, hrest⟩ := ihr hr₀
    exact ⟨z₀, hz₀, .binary hlevel hl₀ hrest⟩
  | tightest hlevel he ih =>
    obtain ⟨r₀, hr₀, he₀⟩ := ih hp
    exact ⟨r₀, hr₀, .tightest hlevel he₀⟩
  | noOperator hs => exact ⟨s₀, hp, .noOperator ((leaves_readOperator _).padded_none hp hs)⟩
  | operator hs hd hrest ihd ihrest =>
    obtain ⟨r₀, hs₀, hr₀⟩ := (leaves_readOperator _).padded hp hs
    obtain ⟨t₀, ht₀, hd₀⟩ := ihd hr₀
    obtain ⟨z₀, hz₀, hrest₀⟩ := ihrest ht₀
    exact ⟨z₀, hz₀, .operator hs₀ hd₀ hrest₀⟩
  | @prefixed op s r _ _ hs he ih =>
    obtain ⟨r₀, hs₀, hr₀⟩ : ∃ r₀, skipSpace s₀ = op.symbol ++ r₀ ∧ Padded r r₀ := by
      cases op with
      | not => exact hp.next hs
      | neg => exact hp.next hs
    obtain ⟨t₀, ht₀, he₀⟩ := ih hr₀
    exact ⟨t₀, ht₀, .prefixed hs₀ he₀⟩
  | operand hs hd hrest ihd ihrest =>
    obtain ⟨r₀, hr₀, hd₀⟩ := ihd hp.skip
    obtain ⟨z₀, hz₀, hrest₀⟩ := ihrest hr₀
    exact ⟨z₀, hz₀, .operand (hp.avoids hs) hd₀ hrest₀⟩
  | noAccess hs => exact ⟨s₀, hp, .noAccess (hp.avoids hs)⟩
  | member hs hr hrest ih =>
    obtain ⟨r₀, hs₀, hr₀⟩ := hp.next hs
    obtain ⟨t₀, hname, ht₀⟩ := leaves_readName.padded hr₀.skip hr
    obtain ⟨z₀, hz₀, hrest₀⟩ := ih ht₀
    exact ⟨z₀, hz₀, .member hs₀ hname hrest₀⟩
  | index hs hi ht hrest ihi ihrest =>
    obtain ⟨r₀, hs₀, hr₀⟩ := hp.next hs
    obtain ⟨t₀, ht₀, hi₀⟩ := ihi hr₀
    obtain ⟨u₀, htu, hu₀⟩ := ht₀.next ht
    obtain ⟨z₀, hz₀, hrest₀⟩ := ihrest hu₀
    exact ⟨z₀, hz₀, .index hs₀ hi₀ htu hrest₀⟩
  | @quoted q _ _ _ hq hr =>
    have hspace : isSpace q = false := by rcases hq with rfl | rfl <;> decide
    obtain ⟨r₀, rfl, hr₀⟩ := hp.cons hspace
    obtain ⟨t₀, hquoted, ht₀⟩ := (leaves_quotes hq).padded hr₀ hr
    exact ⟨t₀, ht₀, .quoted hq hquoted⟩
  | @number c _ _ _ hc hr =>
    have hspace : isSpace c = false := by
      by_contra hspace
      rw [not_digit_of_isSpace (by simpa using hspace)] at hc
      cases hc
    obtain ⟨r₀, rfl, hr₀⟩ := hp.cons hspace
    obtain ⟨sp, hsp, he⟩ := hp
    rw [he, readNumber_spaces hsp] at hr
    obtain ⟨hv, rfl⟩ := Prod.mk.inj hr
    exact ⟨_, ⟨sp, hsp, rfl⟩, .number hc (Prod.ext hv rfl)⟩
  | word hs =>
    obtain ⟨t₀, hname, ht₀⟩ := leaves_readName.padded hp hs
    exact ⟨t₀, ht₀, .word hname⟩
  | brackets he ht ih =>
    obtain ⟨r₀, rfl, hr₀⟩ := hp.cons (by decide)
    obtain ⟨t₀, ht₀, he₀⟩ := ih hr₀
    obtain ⟨u₀, htu, hu₀⟩ := ht₀.next ht
    exact ⟨u₀, hu₀, .brackets he₀ htu⟩
  | emptyList hr =>
    obtain ⟨r₀, rfl, hr₀⟩ := hp.cons (by decide)
    obtain ⟨t₀, hrt, ht₀⟩ := hr₀.next hr
    exact ⟨t₀, ht₀, .emptyList hrt⟩
  | list hr hes ih =>
    obtain ⟨r₀, rfl, hr₀⟩ := hp.cons (by decide)
    obtain ⟨t₀, ht₀, hes₀⟩ := ih hr₀.skip
    exact ⟨t₀, ht₀, .list (hr₀.avoids hr) hes₀⟩
  | emptyRecord hr =>
    obtain ⟨r₀, rfl, hr₀⟩ := hp.cons (by decide)
    obtain ⟨t₀, hrt, ht₀⟩ := hr₀.next hr
    exact ⟨t₀, ht₀, .emptyRecord hrt⟩
  | record hr hfields ih =>
    obtain ⟨r₀, rfl, hr₀⟩ := hp.cons (by decide)
    obtain ⟨t₀, ht₀, hfields₀⟩ := ih hr₀.skip
    exact ⟨t₀, ht₀, .record (hr₀.avoids hr) hfields₀⟩
  | lastItem he hr ih =>
    obtain ⟨r₀, hr₀, he₀⟩ := ih hp
    obtain ⟨t₀, hrt, ht₀⟩ := hr₀.next hr
    exact ⟨t₀, ht₀, .lastItem he₀ hrt⟩
  | item he hr hes ih ihes =>
    obtain ⟨r₀, hr₀, he₀⟩ := ih hp
    obtain ⟨t₀, hrt, ht₀⟩ := hr₀.next hr
    obtain ⟨u₀, hu₀, hes₀⟩ := ihes ht₀
    exact ⟨u₀, hu₀, .item he₀ hrt hes₀⟩
  | lastEntry hs hr he hu ih =>
    obtain ⟨r₀, hkey, hr₀⟩ := leaves_readKey.padded hp.skip hs
    obtain ⟨t₀, hrt, ht₀⟩ := hr₀.next hr
    obtain ⟨u₀, hu₀, he₀⟩ := ih ht₀
    obtain ⟨w₀, huw, hw₀⟩ := hu₀.next hu
    exact ⟨w₀, hw₀, .lastEntry hkey hrt he₀ huw⟩
  | entry hs hr he hu hfields ih ihfields =>
    obtain ⟨r₀, hkey, hr₀⟩ := leaves_readKey.padded hp.skip hs
    obtain ⟨t₀, hrt, ht₀⟩ := hr₀.next hr
    obtain ⟨u₀, hu₀, he₀⟩ := ih ht₀
    obtain ⟨w₀, huw, hw₀⟩ := hu₀.next hu
    obtain ⟨z₀, hz₀, hfields₀⟩ := ihfields hw₀
    exact ⟨z₀, hz₀, .entry hkey hrt he₀ huw hfields₀⟩

/-! ## Whole texts

A text may be trimmed before it is read. -/

/-- The fuel is measured by the length, which is smaller, but enough for what is derived. -/
theorem parse_of_padded {s s₀ : List Char} {e : Expr} (h : parse s = .ok e) (hp : Padded s s₀) :
    parse s₀ = .ok e := by
  obtain ⟨r, hderives, hspace⟩ := parse_eq_ok_iff.1 h
  obtain ⟨r₀, hr₀, hderives₀⟩ := hderives.padded hp
  refine parse_eq_ok_iff.2 ⟨r₀, hderives₀, ?_⟩
  obtain ⟨sp, -, hsp⟩ := hr₀.skip
  rw [hspace] at hsp
  exact (List.append_eq_nil_iff.1 hsp.symm).1

/-- Spaces in front of a text are skipped before anything is read. -/
theorem parse_skipSpace {s : List Char} {e : Expr} (h : parse s = .ok e) : parse (skipSpace s) = .ok e := by
  obtain ⟨r, hderives, hspace⟩ := parse_eq_ok_iff.1 h
  refine parse_eq_ok_iff.2 ⟨r, ?_, hspace⟩
  have hread : readCond (12 * s.length + 10) s = some (e, r) := reads_within _ hderives (by
    simp only [Phrase.Affords, Phrase.margin]
    omega)
  rw [← readCond_skipSpace] at hread
  exact derives_of_readCond hread

/-- Trimming keeps an expression. -/
theorem parse_trim {s : List Char} {e : Expr} (h : parse s = .ok e) : parse (trim s) = .ok e := by
  obtain ⟨r, hderives, hspace⟩ := parse_eq_ok_iff.1 (parse_skipSpace h)
  have htakes : Through 0 0 (skipSpace s) r := hderives.takes
  obtain ⟨c, t, hfront, hc⟩ := htakes.front
  obtain ⟨u, d, hback, hd, -⟩ := htakes.back
  rw [skipSpace_idem] at hfront
  have hr : Spaces r := spaces_of_skipSpace hspace
  have hcore : skipSpace s = (u ++ [d]) ++ r := by
    rw [hback]
    simp
  -- all that is blank around the expression are these spaces
  have htrim : trim s = u ++ [d] := by
    have hsplit : s = s.takeWhile isSpace ++ (u ++ [d]) ++ r := by
      rw [List.append_assoc, ← hcore]
      exact List.takeWhile_append_dropWhile.symm
    have hl : Blanks (s.takeWhile isSpace) := fun c hc => isSpace_of_blank (List.mem_takeWhile_imp hc)
    rw [hsplit, trim_blanks hl hr.blanks]
    have hhead : (u ++ [d]).head? = some c := by
      rw [← List.head?_append_of_ne_nil _ (by simp), ← hcore, hfront]
      rfl
    exact trim_of_not_blank hc hd hhead (by simp)
  rw [htrim]
  exact parse_of_padded (parse_skipSpace h) ⟨r, hr, hcore⟩

end Expr
end Sequencer
