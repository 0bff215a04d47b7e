import Mathlib.Data.List.TakeWhile
import Sequencer.Proofs.Decoding

/-!
# What stands before the first colon

The marks, the timing and the command of an instruction all stand before its first colon. Whatever follows
that colon changes none of them, and where one of them is malformed it is reported in the same way. So an instruction
may be judged before its placeholders are expanded, as long as the first of them comes behind a colon.
-/

namespace Sequencer

/-! ## Blanks and numbers

What stands at the front of a text is read in the same way whatever comes behind, as long as it comes behind some
character that ends it. -/

namespace Text

theorem mem_trimStart {c : Char} {s : List Char} (hc : isBlank c = false) (h : c ∈ s) : c ∈ trimStart s := by
  rw [← List.takeWhile_append_dropWhile (p := isBlank) (l := s)] at h
  rcases List.mem_append.1 h with h | h
  · rw [List.mem_takeWhile_imp h] at hc
    cases hc
  · exact h

theorem mem_trim {c : Char} {s : List Char} (hc : isBlank c = false) (h : c ∈ s) : c ∈ trim s := by
  have hrev : c ∈ trimStart (trimStart s).reverse := mem_trimStart hc (List.mem_reverse.2 (mem_trimStart hc h))
  exact List.mem_reverse.2 hrev

/-- Trimming at the front stops at a character that is not blank. -/
theorem trimStart_append {c : Char} (hc : isBlank c = false) (s t : List Char) :
    trimStart (s ++ c :: t) = trimStart s ++ c :: t := by
  induction s with
  | nil => exact trimStart_of_not_blank t hc
  | cons d r ih =>
    cases hd : isBlank d with
    | true => rw [List.cons_append, trimStart_of_blank _ hd, trimStart_of_blank _ hd, ih]
    | false => rw [List.cons_append, trimStart_of_not_blank _ hd, trimStart_of_not_blank _ hd, List.cons_append]

/-- The first separator of a text is the first one of any longer text. -/
theorem splitFirst_append_right {sep : Char} {s a b : List Char} (h : splitFirst sep s = some (a, b)) (t : List Char) :
    splitFirst sep (s ++ t) = some (a, b ++ t) := by
  obtain ⟨rfl, hn⟩ := splitFirst_eq_some h
  rw [List.append_assoc]
  exact splitFirst_append _ hn

/-- A character in front of the first separator stands in the part before it. -/
theorem mem_of_splitFirst {sep c : Char} {s x a b : List Char} (hc : c ≠ sep) (hs : sep ∉ s)
    (h : splitFirst sep (s ++ c :: x) = some (a, b)) : c ∈ a := by
  obtain ⟨he, -⟩ := splitFirst_eq_some h
  rcases List.append_eq_append_iff.1 he with ⟨as, rfl, has⟩ | ⟨bs, rfl, hbs⟩
  · cases as with
    | nil => exact absurd (List.cons.inj has).1 hc
    | cons d as =>
      obtain ⟨rfl, -⟩ := List.cons.inj has
      simp
  · cases bs with
    | nil => exact absurd (List.cons.inj hbs).1.symm hc
    | cons d bs =>
      obtain ⟨rfl, -⟩ := List.cons.inj hbs
      simp at hs

/-- What stands before the first separator is the same whatever follows that separator. -/
theorem exists_splitFirst (sep : Char) (s : List Char) :
    ∃ a, ∀ x, ∃ b, splitFirst sep (s ++ sep :: x) = some (a, b) := by
  cases hs : splitFirst sep s with
  | some parts => exact ⟨parts.1, fun x => ⟨_, splitFirst_append_right hs _⟩⟩
  | none => exact ⟨s, fun x => ⟨x, splitFirst_append x (splitFirst_eq_none.1 hs)⟩⟩

/-- A marker is found exactly where the text has one. -/
theorem splitMarker_eq_none {a b : Char} {s : List Char} : splitMarker a b s = none ↔ ¬[a, b] <:+: s := by
  induction s with
  | nil => exact iff_of_true rfl fun h => absurd h.length_le (by simp)
  | cons c r ih =>
    cases r with
    | nil => exact iff_of_true rfl fun h => absurd h.length_le (by simp)
    | cons d r =>
      rw [splitMarker, List.infix_cons_iff, not_or]
      by_cases hc : c = a ∧ d = b
      · obtain ⟨rfl, rfl⟩ := hc
        simp
      · rw [if_neg hc, Option.map_eq_none_iff, ih]
        refine (and_iff_right ?_).symm
        rintro ⟨t, ht⟩
        cases ht
        exact hc ⟨rfl, rfl⟩

/-- The marker that is found is the first one. -/
theorem splitMarker_eq_some {a b : Char} {s x y : List Char} (h : splitMarker a b s = some (x, y)) :
    s = x ++ a :: b :: y ∧ ¬[a, b] <:+: x := by
  induction s generalizing x with
  | nil => cases h
  | cons c r ih =>
    cases r with
    | nil => cases h
    | cons d r =>
      rw [splitMarker] at h
      by_cases hc : c = a ∧ d = b
      · obtain ⟨rfl, rfl⟩ := hc
        rw [if_pos ⟨rfl, rfl⟩] at h
        cases h
        exact ⟨rfl, fun h => absurd h.length_le (by simp)⟩
      · rw [if_neg hc] at h
        obtain ⟨⟨x', y'⟩, hr, he⟩ := Option.map_eq_some_iff.1 h
        cases he
        obtain ⟨hs, hn⟩ := ih hr
        refine ⟨congrArg (c :: ·) hs, fun hin => ?_⟩
        -- A marker in front would begin with this character, or come later.
        rcases List.infix_cons_iff.1 hin with ⟨t, ht⟩ | hin
        · cases ht
          exact hc ⟨rfl, (List.cons.inj hs).1⟩
        · exact hn hin

end Text

namespace Decimal

theorem digits?_eq_none {c : Char} {s : List Char} (hd : c.isDigit = false) (h : c ∈ s) : digits? s = none := by
  refine if_neg fun hs => ?_
  simp only [Bool.and_eq_true, List.all_eq_true] at hs
  rw [hs.2 c h] at hd
  cases hd

/-- No whole number has a character that is neither a digit nor a sign. -/
theorem integer?_eq_none {c : Char} {s : List Char} (hd : c.isDigit = false) (hp : c ≠ '+') (hm : c ≠ '-')
    (h : c ∈ s) : integer? s = none := by
  have htail {d : Char} {r : List Char} (hcd : c ≠ d) (hs : c ∈ d :: r) : digits? r = none :=
    digits?_eq_none hd ((List.mem_cons.1 hs).resolve_left hcd)
  unfold integer?
  split
  · rw [htail hp h]
    rfl
  · rw [htail hm h]
    rfl
  · rw [digits?_eq_none hd h]
    rfl

end Decimal

/-! ## Texts with a colon

For the parts of an instruction this character is the colon. -/

namespace Instruction

open Text

variable {α : Type}

/-- A reader ends in the same way whatever stands behind the colon: it fails with one error, or it leaves the
colon and all behind it. -/
def Stops (read : List Char → Except InstructionError (α × List Char)) (s : List Char) : Prop :=
  (∃ e, ∀ x, read (s ++ ':' :: x) = .error e) ∨ ∃ a r, ∀ x, read (s ++ ':' :: x) = .ok (a, r ++ ':' :: x)

theorem readMarks_stops (strict parallel : Bool) (s : List Char) :
    ∃ strict' parallel' r, ∀ x, readMarks strict parallel (s ++ ':' :: x) = (strict', parallel', r ++ ':' :: x) := by
  induction s generalizing strict parallel with
  | nil =>
    refine ⟨strict, parallel, [], fun x => ?_⟩
    simp only [List.nil_append, readMarks]
    rfl
  | cons c s ih =>
    simp only [List.cons_append, readMarks]
    split_ifs
    · exact ih false parallel
    · exact ih strict true
    · exact ih strict parallel
    · exact ⟨strict, parallel, c :: s, fun _ => rfl⟩

/-- A number that would reach over the colon is none. -/
theorem readTimingPart_stops (part : TimingPart) (s : List Char) : Stops (readTimingPart part) s := by
  have hb : isBlank ':' = false := by decide
  cases hs : splitFirst ',' s with
  | some parts =>
    obtain ⟨before, after⟩ := parts
    have hsplit (x : List Char) := splitFirst_append_right hs (':' :: x)
    cases hi : Decimal.integer? (trim before) with
    | none =>
      refine .inl ⟨.badTiming part, fun x => ?_⟩
      simp only [readTimingPart, hsplit, hi]
    | some n =>
      refine .inr ⟨Int64.ofInt n, trimStart after, fun x => ?_⟩
      simp only [readTimingPart, hsplit, hi, trimStart_append hb]
  | none =>
    refine .inl ⟨.badTiming part, fun x => ?_⟩
    unfold readTimingPart
    cases hx : splitFirst ',' (s ++ ':' :: x) with
    | none => rfl
    | some parts =>
      obtain ⟨before, after⟩ := parts
      -- the first comma comes behind the colon
      have hcolon : ':' ∈ before := mem_of_splitFirst (by decide) (splitFirst_eq_none.1 hs) hx
      have hnone : Decimal.integer? (trim before) = none :=
        Decimal.integer?_eq_none (by decide) (by decide) (by decide) (mem_trim hb hcolon)
      simp only [hnone]

theorem readTiming_stops (s : List Char) : Stops readTiming s := by
  rcases readTimingPart_stops .idle s with ⟨err, h₁⟩ | ⟨idle, s₁, h₁⟩
  · exact .inl ⟨err, fun x => by simp only [readTiming, h₁]⟩
  rcases readTimingPart_stops .pause s₁ with ⟨err, h₂⟩ | ⟨pause, s₂, h₂⟩
  · exact .inl ⟨err, fun x => by simp only [readTiming, h₁, h₂]⟩
  rcases readTimingPart_stops .total s₂ with ⟨err, h₃⟩ | ⟨total, s₃, h₃⟩
  · exact .inl ⟨err, fun x => by simp only [readTiming, h₁, h₂, h₃]⟩
  · exact .inr ⟨⟨idle, pause, total⟩, s₃, fun x => by simp only [readTiming, h₁, h₂, h₃]⟩

/-- What an instruction says before its payload. -/
def head (i : Instruction) : Bool × Bool × Timing × String := (i.strict, i.parallel, i.timing, i.command)

/-- The head of an instruction, and what is wrong with it, is all in front of a colon. -/
theorem head_parse_append (s x y : List Char) :
    (parse (s ++ ':' :: x)).map head = (parse (s ++ ':' :: y)).map head := by
  obtain ⟨strict, parallel, r, hmarks⟩ := readMarks_stops true false s
  have hne (z : List Char) : (r ++ ':' :: z).isEmpty = false := by
    cases r <;> rfl
  -- The timing ends at the colon, if not before, whatever comes behind it.
  have htiming : Stops (fun z => if startsWithDigit z then readTiming z else .ok (.none, z)) r := by
    cases r with
    | nil => exact .inr ⟨.none, [], fun _ => rfl⟩
    | cons c r =>
      cases hc : c.isDigit with
      | true => simpa only [Stops, List.cons_append, startsWithDigit, hc, if_true] using readTiming_stops (c :: r)
      | false => exact .inr ⟨.none, c :: r, fun _ => by simp [startsWithDigit, hc]⟩
  rcases htiming with ⟨err, ht⟩ | ⟨timing, s', ht⟩
  · simp only at ht
    simp only [parse, hmarks, hne, ht]
  · simp only at ht
    simp only [parse, hmarks, hne, ht]
    obtain ⟨command, hcommand⟩ := exists_splitFirst ':' s'
    obtain ⟨b, hx⟩ := hcommand x
    obtain ⟨b', hy⟩ := hcommand y
    simp only [hx, hy]
    split_ifs <;> rfl

/-- The head of an instruction can be told before its placeholders are expanded: if there are any, a colon stands
before the first. -/
def Told (text : List Char) : Prop := ['{', '{'] <:+: text → ∃ a b, text = a ++ ':' :: b ∧ ¬['{', '{'] <:+: a

/-- The first placeholder decides. -/
theorem told_iff {text : List Char} :
    Told text ↔ ∀ before after, splitMarker '{' '{' text = some (before, after) → ':' ∈ before := by
  constructor
  · intro h before after hopen
    obtain ⟨hmark, -⟩ := splitMarker_eq_some hopen
    obtain ⟨a, b, he, ha⟩ := h ⟨before, after, by rw [hmark]; simp⟩
    rcases List.append_eq_append_iff.1 (hmark.symm.trans he) with ⟨as, rfl, has⟩ | ⟨bs, rfl, hbs⟩
    · -- the marker would stand in front of the colon
      match as with
      | [] => cases has
      | [_] => cases has
      | _ :: _ :: as =>
        cases has
        exact absurd (List.infix_append' before ['{', '{'] as) ha
    · cases bs with
      | nil => cases hbs
      | cons d bs =>
        obtain ⟨rfl, -⟩ := List.cons.inj hbs
        simp
  · intro h hin
    cases hopen : splitMarker '{' '{' text with
    | none => exact absurd hin (splitMarker_eq_none.1 hopen)
    | some parts =>
      obtain ⟨before, after⟩ := parts
      obtain ⟨hmark, hn⟩ := splitMarker_eq_some hopen
      obtain ⟨a, b, rfl⟩ := List.append_of_mem (h before after hopen)
      exact ⟨a, b ++ '{' :: '{' :: after, by rw [hmark]; simp, fun ha => hn (ha.trans (List.infix_append' [] a _))⟩

/-- The text in front of a colon that comes before all placeholders is kept by their expansion. -/
theorem Told.expand {text s : List Char} {vars : Lookup} (h : Told text) (hs : Template.expand vars text = .ok s) :
    s = text ∨ ∃ a x y, text = a ++ ':' :: x ∧ s = a ++ ':' :: y := by
  rcases Template.expandRest_cases hs with ⟨-, rfl⟩ | ⟨before, after, inside, behind, v, tail, hopen, -, -, -, rfl⟩
  · exact .inl rfl
  · obtain ⟨a, b, rfl⟩ := List.append_of_mem (told_iff.1 h before after hopen)
    refine .inr ⟨a, b ++ '{' :: '{' :: after, b ++ v.chars ++ tail, ?_, ?_⟩
    · rw [(splitMarker_eq_some hopen).1]
      simp
    · simp

/-- Expansion changes the payload of an instruction only, if its head can be told before. -/
theorem Told.head_expand {text s : List Char} {vars : Lookup} (h : Told text)
    (hs : Template.expand vars text = .ok s) : (parse text).map head = (parse s).map head := by
  rcases h.expand hs with rfl | ⟨a, x, y, rfl, rfl⟩
  · rfl
  · exact head_parse_append a x y

end Instruction
end Sequencer
