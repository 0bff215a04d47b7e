import Sequencer.Proofs.Decorations

/-!
# How instructions are written

The same instruction can be written in many ways: its marks stand in any order and may be repeated, control characters
may stand among them, and the three numbers of a timing may have zeros and signs in front of them and blanks around
them. Whichever way is taken, reading finds the instruction again, and its payload as it stands. The cuts are at the
first comma, three times, and then at the first colon; neither a number nor a blank has a comma in it, and no command
a colon, while the payload is free to have both.
-/

namespace Sequencer

/-! ## Signed numbers

A number may have a sign and zeros in front, and must be one of 64 bits. -/

namespace Decimal

/-- The texts of a whole number: digits, with or without zeros in front of them, behind a sign or without one. -/
inductive Writes : Int → List Char → Prop
  | plain (zeros n : Nat) : Writes n (numeral zeros n)
  | plus (zeros n : Nat) : Writes n ('+' :: numeral zeros n)
  | minus (zeros n : Nat) : Writes (-n) ('-' :: numeral zeros n)

namespace Writes

variable {n : Int} {s : List Char}

/-- All numbers of a word of 64 bits are read, the lowest one too. -/
theorem integer?_eq (h : Writes n s) (hlow : -2 ^ 63 ≤ n) (hhigh : n < 2 ^ 63) : integer? s = some n := by
  -- The number is in the range of a word, so the check lets it pass.
  have hfits : Option.filter (fun n : Int => decide (-Int.pow 2 63 ≤ n) && decide (n < Int.pow 2 63)) (some n) =
      some n := by
    have hlow' : -Int.pow 2 63 ≤ n := hlow
    have hhigh' : n < Int.pow 2 63 := hhigh
    rw [Option.filter_some, decide_eq_true hlow', decide_eq_true hhigh']
    rfl
  cases h with
  | plain zeros n =>
    unfold integer?
    split
    · next r he => exact absurd he (numeral_ne_cons (by decide) zeros n r)
    · next r he => exact absurd he (numeral_ne_cons (by decide) zeros n r)
    · rw [digits?_numeral]
      exact hfits
  | plus zeros n =>
    have hvalue : (digits? (numeral zeros n)).map Int.ofNat = some (n : Int) := by
      rw [digits?_numeral]
      rfl
    exact (congrArg _ hvalue).trans hfits
  | minus zeros n =>
    have hvalue : ((digits? (numeral zeros n)).map fun n => -(n : Int)) = some (-(n : Int)) := by
      rw [digits?_numeral]
      rfl
    exact (congrArg _ hvalue).trans hfits

theorem isDigit_or_sign (h : Writes n s) : ∀ c ∈ s, c.isDigit = true ∨ c = '+' ∨ c = '-' := by
  have hdigits : ∀ zeros n : Nat, ∀ c ∈ numeral zeros n, c.isDigit = true := fun _ _ _ => isDigit_of_mem_numeral
  intro c hc
  cases h with
  | plain zeros n => exact .inl (hdigits zeros n c hc)
  | plus zeros n =>
    rcases List.mem_cons.1 hc with rfl | hc
    · exact .inr (.inl rfl)
    · exact .inl (hdigits zeros n c hc)
  | minus zeros n =>
    rcases List.mem_cons.1 hc with rfl | hc
    · exact .inr (.inr rfl)
    · exact .inl (hdigits zeros n c hc)

theorem isBlank (h : Writes n s) : ∀ c ∈ s, Text.isBlank c = false := by
  intro c hc
  rcases h.isDigit_or_sign c hc with hdigit | rfl | rfl
  · exact Text.isBlank_of_isAlphanum (by simp [Char.isAlphanum, hdigit])
  · rfl
  · rfl

theorem comma_notMem (h : Writes n s) : ',' ∉ s := fun hc => absurd (h.isDigit_or_sign _ hc) (by decide)

end Writes

end Decimal

namespace Text

theorem comma_notMem_of_blanks {s : List Char} (h : Blanks s) : ',' ∉ s := fun hc => absurd (h _ hc) (by decide)

end Text

namespace Instruction

open Text

variable {s : List Char}

/-! ## Marks

The marks end where the first digit of a timing or the first letter of a command begins. -/

/-- The texts of the marks: a question mark for an instruction that is not strict, an exclamation mark for a parallel
one, as many as one likes, and with spaces and control characters among them. -/
structure Marks (strict parallel : Bool) (s : List Char) : Prop where
  allowed : ∀ c ∈ s, c = '?' ∨ c = '!' ∨ c ≤ ' '
  question : '?' ∈ s ↔ strict = false
  exclamation : '!' ∈ s ↔ parallel = true

/-- Where the marks end. -/
def EndsMarks (s : List Char) : Prop := ∃ c r, s = c :: r ∧ c ≠ '?' ∧ c ≠ '!' ∧ ¬c ≤ ' '

theorem readMarks_append (hs : ∀ c ∈ s, c = '?' ∨ c = '!' ∨ c ≤ ' ') {rest : List Char} (hrest : EndsMarks rest)
    (strict parallel : Bool) : readMarks strict parallel (s ++ rest) =
      (strict && decide ('?' ∉ s), parallel || decide ('!' ∈ s), rest) := by
  induction s generalizing strict parallel with
  | nil =>
    obtain ⟨c, r, rfl, hquestion, hexclamation, hcontrol⟩ := hrest
    simp [readMarks, hquestion, hexclamation, hcontrol]
  | cons c s ih =>
    have ih := ih fun d hd => hs d (List.mem_cons_of_mem c hd)
    rw [List.cons_append, readMarks]
    -- Each mark sets its flag, and anything else in front is passed over.
    by_cases hquestion : c = '?'
    · rw [if_pos hquestion, ih, hquestion]
      simp
    · rw [if_neg hquestion]
      by_cases hexclamation : c = '!'
      · rw [if_pos hexclamation, ih, hexclamation]
        simp
      · have hcontrol : c ≤ ' ' := by simpa [hquestion, hexclamation] using hs c List.mem_cons_self
        rw [if_neg hexclamation, if_pos hcontrol, ih]
        simp [Ne.symm hquestion, Ne.symm hexclamation]

theorem Marks.readMarks_eq {strict parallel : Bool} (h : Marks strict parallel s) {rest : List Char}
    (hrest : EndsMarks rest) : readMarks true false (s ++ rest) = (strict, parallel, rest) := by
  have hstrict : decide ('?' ∉ s) = strict := by simp [h.question]
  have hparallel : decide ('!' ∈ s) = parallel := by simp [h.exclamation]
  rw [readMarks_append h.allowed hrest, Bool.true_and, Bool.false_or, hstrict, hparallel]

/-! ## Timings

Three numbers between commas and blanks, which may be left out together. -/

/-- The texts of one number of a timing: the number, with blanks around it, and a comma. -/
inductive Entry (n : Int64) : List Char → Prop
  | intro {front word back : List Char} (hfront : Blanks front) (hword : Decimal.Writes n.toInt word)
      (hback : Blanks back) : Entry n (front ++ word ++ back ++ [','])

/-- The texts of a timing: its three numbers, of which the first begins at once and with a digit. -/
inductive Entries (t : Timing) : List Char → Prop
  | intro {idle pause total gap : List Char} (hidle : Entry t.idle idle) (hdigit : startsWithDigit idle = true)
      (hpause : Entry t.pause pause) (htotal : Entry t.total total) (hgap : Blanks gap) :
      Entries t (idle ++ pause ++ total ++ gap)

theorem Entry.read {n : Int64} (h : Entry n s) (part : TimingPart) (rest : List Char) :
    readTimingPart part (s ++ rest) = .ok (n, trimStart rest) := by
  obtain ⟨hfront, hword, hback⟩ := h
  next front word back =>
  have hcomma : ',' ∉ front ++ word ++ back := by
    simp [comma_notMem_of_blanks hfront, hword.comma_notMem, comma_notMem_of_blanks hback]
  have htrim : trim (front ++ word ++ back) = word := by
    rw [trim_blanks hfront hback, trim_of_forall hword.isBlank]
  have hnumber : Decimal.integer? word = some n.toInt := hword.integer?_eq n.le_toInt n.toInt_lt
  unfold readTimingPart
  rw [List.append_assoc, List.singleton_append, splitFirst_append rest hcomma]
  simp only [htrim, hnumber, Int64.ofInt_toInt]

/-- Blanks in front of a number have been taken off with the comma before it, which makes no difference. -/
theorem Entry.read_trimStart {n : Int64} (h : Entry n s) (part : TimingPart) (rest : List Char) :
    readTimingPart part (trimStart (s ++ rest)) = .ok (n, trimStart rest) := by
  obtain ⟨hfront, hword, hback⟩ := h
  next front word back =>
  have hstart : trimStart (front ++ word ++ back ++ [','] ++ rest) = [] ++ word ++ back ++ [','] ++ rest := by
    simp only [List.append_assoc, List.nil_append]
    rw [trimStart_blanks hfront]
    cases word with
    | nil => cases hword.integer?_eq n.le_toInt n.toInt_lt
    | cons c r => exact trimStart_of_not_blank _ (hword.isBlank c List.mem_cons_self)
  have hentry : Entry n ([] ++ word ++ back ++ [',']) := .intro (by simp [Blanks]) hword hback
  rw [hstart]
  exact hentry.read part rest

theorem Entries.read {t : Timing} (h : Entries t s) {rest : List Char} (hrest : trimStart rest = rest) :
    readTiming (s ++ rest) = .ok (t, rest) := by
  obtain ⟨hidle, -, hpause, htotal, hgap⟩ := h
  next idle pause total gap =>
  simp only [List.append_assoc]
  unfold readTiming
  rw [hidle.read]
  simp only
  rw [hpause.read_trimStart]
  simp only
  rw [htotal.read_trimStart, trimStart_blanks hgap, hrest]

theorem Entries.startsWithDigit_append {t : Timing} (h : Entries t s) (rest : List Char) :
    startsWithDigit (s ++ rest) = true := by
  obtain ⟨-, hdigit, -, -, -⟩ := h
  next idle pause total gap =>
  cases idle with
  | nil => cases hdigit
  | cons c r => exact hdigit

/-! ## Instructions

An instruction in all its spellings. -/

/-- The texts of an instruction: its marks, its timing if it has one, its command, a colon and its payload. The
command has no blanks around it and no colon in it. Right behind the marks it must not begin like a mark or a timing. -/
inductive Spells (i : Instruction) : List Char → Prop
  | timed {marks timing : List Char} (hmarks : Marks i.strict i.parallel marks) (htiming : Entries i.timing timing)
      (hcommand : Snug i.command.toList) (hcolon : ':' ∉ i.command.toList) :
      Spells i (marks ++ (timing ++ (i.command.toList ++ ':' :: i.payload.toList)))
  | untimed {marks : List Char} (hmarks : Marks i.strict i.parallel marks) (htiming : i.timing = .none)
      (hcommand : Snug i.command.toList) (hcolon : ':' ∉ i.command.toList)
      (hfirst : ∀ c ∈ i.command.toList.head?, c.isDigit = false ∧ c ≠ '?' ∧ c ≠ '!' ∧ ' ' ≤ c) :
      Spells i (marks ++ (i.command.toList ++ ':' :: i.payload.toList))

theorem endsMarks_of_startsWithDigit (h : startsWithDigit s = true) : EndsMarks s := by
  cases s with
  | nil => cases h
  | cons c r =>
    have hdigit : c.isDigit = true := h
    refine ⟨c, r, rfl, ?_, ?_, ?_⟩
    · rintro rfl
      cases hdigit
    · rintro rfl
      cases hdigit
    · intro hle
      unfold Char.isDigit at hdigit
      simp only [Bool.and_eq_true, decide_eq_true_eq] at hdigit
      exact absurd (UInt32.le_trans hdigit.1 hle) (by decide)

/-- What is read behind marks and timing is cut at the first colon. -/
theorem parse_of_parts {i : Instruction} {marks body : List Char} (hmarks : Marks i.strict i.parallel marks)
    (hends : EndsMarks body) (hbody : (if startsWithDigit body then readTiming body else .ok (.none, body)) =
      .ok (i.timing, i.command.toList ++ ':' :: i.payload.toList))
    (hcommand : Snug i.command.toList) (hcolon : ':' ∉ i.command.toList) : parse (marks ++ body) = .ok i := by
  have hsome : body.isEmpty = false := by
    obtain ⟨c, r, rfl, -⟩ := hends
    rfl
  have hgiven : i.command.toList.isEmpty = false := by simpa using hcommand.1
  unfold parse
  simp only [hmarks.readMarks_eq hends, hsome, hbody, splitFirst_append _ hcolon, hgiven, hcommand.2,
    String.ofList_toList]
  rfl

/-- However an instruction is written, reading finds it. -/
theorem parse_spelled {i : Instruction} {text : List Char} (h : Spells i text) : parse text = .ok i := by
  cases h with
  | @timed marks timing hmarks htiming hcommand hcolon =>
    have hdigit := htiming.startsWithDigit_append (i.command.toList ++ ':' :: i.payload.toList)
    -- The command is spelled without blanks around it.
    have hstart : trimStart (i.command.toList ++ ':' :: i.payload.toList) =
        i.command.toList ++ ':' :: i.payload.toList := by
      cases hlist : i.command.toList with
      | nil => exact absurd hlist hcommand.1
      | cons c r =>
        have hblank := (trim_eq_self_iff.1 hcommand.2).1 c (by rw [hlist]; rfl)
        exact trimStart_of_not_blank _ hblank
    refine parse_of_parts hmarks (endsMarks_of_startsWithDigit hdigit) ?_ hcommand hcolon
    rw [if_pos hdigit, htiming.read hstart]
  | @untimed marks hmarks htiming hcommand hcolon hfirst =>
    cases hlist : i.command.toList with
    | nil => exact absurd hlist hcommand.1
    | cons c r =>
      obtain ⟨hdigit, hquestion, hexclamation, hcontrol⟩ := hfirst c (by rw [hlist]; rfl)
      have hspace : c ≠ ' ' := by
        rintro rfl
        exact absurd ((trim_eq_self_iff.1 hcommand.2).1 ' ' (by rw [hlist]; rfl)) (by decide)
      -- Without a timing the marks end at the first letter of the command.
      have hends : EndsMarks (c :: r ++ ':' :: i.payload.toList) :=
        ⟨c, _, rfl, hquestion, hexclamation, fun hle => hspace (Char.le_antisymm hle hcontrol)⟩
      refine parse_of_parts hmarks hends ?_ hcommand hcolon
      rw [if_neg, htiming, hlist]
      simp [startsWithDigit, hdigit]

/-- The ends of the range, zeros and blanks of all kinds, and a command and a payload full of marks. -/
theorem parse_spelled_crowded :
    parse "!\t? !\x01 007\u00a0, -9223372036854775808,\u2003+9223372036854775807 ,\n1,?!:2:,".toList =
        .ok ⟨false, true, ⟨7, Int64.minValue, Int64.maxValue⟩, "1,?!", "2:,"⟩ ∧
      parse "\x1fprint, 1,2,3:".toList = .ok ⟨true, false, .none, "print, 1,2,3", ""⟩ := by
  have none : Blanks [] := by decide
  have hseven : Decimal.Writes (7 : Int64).toInt "007".toList := .plain 2 7
  have hlow : Decimal.Writes Int64.minValue.toInt "-9223372036854775808".toList := .minus 0 9223372036854775808
  have hhigh : Decimal.Writes Int64.maxValue.toInt "+9223372036854775807".toList := .plus 0 9223372036854775807
  have hwide : Blanks ['\u00a0'] := by decide
  have hquad : Blanks ['\u2003'] := by decide
  have hspace : Blanks [' '] := by decide
  have hline : Blanks ['\n'] := by decide
  have hmarks : Marks false true "!\t? !\x01 ".toList := ⟨by simp, by decide, by decide⟩
  have hcontrol : Marks true false ['\x1f'] := ⟨by simp, by decide, by decide⟩
  have hidle : Entry 7 _ := .intro none hseven hwide
  have hpause : Entry Int64.minValue _ := .intro hspace hlow none
  have htotal : Entry Int64.maxValue _ := .intro hquad hhigh hspace
  have htiming : Entries ⟨7, Int64.minValue, Int64.maxValue⟩ _ := .intro hidle rfl hpause htotal hline
  have htimed : Spells ⟨false, true, ⟨7, Int64.minValue, Int64.maxValue⟩, "1,?!", "2:,"⟩ _ :=
    .timed hmarks htiming (by decide) (by decide)
  have huntimed : Spells ⟨true, false, .none, "print, 1,2,3", ""⟩ _ :=
    .untimed hcontrol rfl (by decide) (by decide) (by simp)
  refine ⟨.trans ?_ (parse_spelled htimed), .trans ?_ (parse_spelled huntimed)⟩
  · exact congrArg parse (by decide +kernel)
  · exact congrArg parse (by decide +kernel)

end Instruction
end Sequencer
