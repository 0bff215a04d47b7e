import Mathlib.Tactic.SplitIfs
import Sequencer.Run

/-!
# What an instruction is decoded to

The text of an instruction is expanded, read and looked up in the registry. The mark for running it on the side, put
in front of its text, goes through all of this without a trace but for the flag that it sets.
-/

namespace Sequencer

variable {σ : Type}

/-! ## Placeholders

The first pair of opening braces begins a placeholder, and the first pair of closing braces behind it ends it. -/

namespace Text

/-- A character in front that begins no marker. -/
theorem splitMarker_cons {a b c : Char} (h : c ≠ a) (s : List Char) :
    splitMarker a b (c :: s) = (splitMarker a b s).map fun (x, y) => (c :: x, y) := by
  cases s with
  | nil => rfl
  | cons d r =>
    rw [splitMarker]
    exact if_neg fun hc => h hc.1

end Text

namespace Template

variable {eval : List Char → Except EvalError Value} {whole rest out : List Char}

theorem expandRest_of_eq_none (h : Text.splitMarker '{' '{' rest = none) : expandRest eval whole rest = .ok rest := by
  rw [expandRest]
  split
  · rfl
  · next hopen =>
    rw [h] at hopen
    cases hopen

theorem expandRest_of_eq_some {before after inside behind : List Char} {v : Value}
    (hopen : Text.splitMarker '{' '{' rest = some (before, after))
    (hclose : Text.splitMarker '}' '}' after = some (inside, behind)) (hv : eval (Text.trim inside) = .ok v) :
    expandRest eval whole rest = (expandRest eval whole behind).map fun tail => before ++ v.chars ++ tail := by
  rw [expandRest]
  split
  · next h =>
    rw [hopen] at h
    cases h
  · next h =>
    rw [hopen] at h
    cases h
    split
    · next h =>
      rw [hclose] at h
      cases h
    · next h =>
      rw [hclose] at h
      cases h
      rw [hv]
      simp only
      cases expandRest eval whole behind <;> rfl

/-- The ways in which an expansion succeeds. -/
theorem expandRest_cases (h : expandRest eval whole rest = .ok out) :
    (Text.splitMarker '{' '{' rest = none ∧ out = rest) ∨
      ∃ before after inside behind v tail, Text.splitMarker '{' '{' rest = some (before, after) ∧
        Text.splitMarker '}' '}' after = some (inside, behind) ∧ eval (Text.trim inside) = .ok v ∧
        expandRest eval whole behind = .ok tail ∧ out = before ++ v.chars ++ tail := by
  rw [expandRest] at h
  split at h
  · next hopen =>
    cases h
    exact .inl ⟨hopen, rfl⟩
  · next before after hopen =>
    split at h
    · cases h
    · next inside behind hclose =>
      split at h
      · cases h
      · next v hv =>
        split at h
        · cases h
        · next tail htail =>
          cases h
          exact .inr ⟨before, after, inside, behind, v, tail, hopen, hclose, hv, htail, rfl⟩

/-- The whole text matters for errors only. -/
theorem expandRest_whole {rest out : List Char} (h : expandRest eval whole rest = .ok out) (whole' : List Char) :
    expandRest eval whole' rest = .ok out := by
  rcases expandRest_cases h with ⟨hopen, rfl⟩ | ⟨before, after, inside, behind, v, tail, hopen, hclose, hv, htail, rfl⟩
  · exact expandRest_of_eq_none hopen
  · have h₁ := Text.splitMarker_length hopen
    have h₂ := Text.splitMarker_length hclose
    rw [expandRest_of_eq_some hopen hclose hv, expandRest_whole htail whole']
    rfl
termination_by rest.length
decreasing_by omega

/-- A character in front that opens no placeholder. -/
theorem expandRest_cons {c : Char} (hc : c ≠ '{') (h : expandRest eval whole rest = .ok out) :
    expandRest eval whole (c :: rest) = .ok (c :: out) := by
  have hcons := Text.splitMarker_cons (b := '{') hc rest
  rcases expandRest_cases h with ⟨hopen, rfl⟩ | ⟨before, after, inside, behind, v, tail, hopen, hclose, hv, htail, rfl⟩
  · rw [hopen] at hcons
    exact expandRest_of_eq_none hcons
  · rw [hopen] at hcons
    rw [expandRest_of_eq_some hcons hclose hv, htail]
    rfl

end Template

/-! ## Marks

The marks stand in front of the text of an instruction, and are taken off before the rest is divided. -/

namespace Instruction

/-- The mark for running on the side is the same wherever it stands among the marks. -/
theorem readMarks_parallel (strict parallel : Bool) (s : List Char) :
    readMarks strict true s = ((readMarks strict parallel s).1, true, (readMarks strict parallel s).2.2) := by
  induction s generalizing strict parallel with
  | nil => rfl
  | cons c r ih =>
    unfold readMarks
    split_ifs
    · exact ih false parallel
    · rw [← ih strict true]
    · exact ih strict parallel
    · rfl

/-- The mark in front is all that it adds to an instruction. -/
theorem parse_bang {s : List Char} {i : Instruction} (h : parse s = .ok i) :
    parse ('!' :: s) = .ok { i with parallel := true } := by
  have hmarks : readMarks true false ('!' :: s) =
      ((readMarks true false s).1, true, (readMarks true false s).2.2) := readMarks_parallel true false s
  unfold parse at h ⊢
  rw [hmarks]
  -- Behind the marks both readers see the same text, so they go the same ways from here on.
  generalize readMarks true false s = marks at h ⊢
  obtain ⟨strict, parallel, r⟩ := marks
  simp only at h ⊢
  cases hempty : r.isEmpty with
  | true =>
    rw [if_pos hempty] at h
    cases h
  | false =>
    rw [if_neg (by simp [hempty])] at h ⊢
    -- Timing and command are read without the marks.
    generalize (if startsWithDigit r then readTiming r else .ok (.none, r)) = timing at h ⊢
    cases timing with
    | error err => cases h
    | ok q =>
      obtain ⟨timing, s'⟩ := q
      simp only at h ⊢
      cases hsplit : Text.splitFirst ':' s' with
      | none =>
        rw [hsplit] at h
        cases h
      | some parts =>
        obtain ⟨command, payload⟩ := parts
        rw [hsplit] at h
        simp only at h ⊢
        split_ifs at h ⊢
        cases h
        rfl

end Instruction

/-! ## Decoding

Placeholders are filled in before an instruction is read, so that a value may bring marks and separators along. -/

namespace Machine

/-- A text without placeholders is its own expansion. -/
theorem expand_of_splitMarker {m : Machine σ} {text : String}
    (h : Text.splitMarker '{' '{' text.toList = none) : m.expand text = .ok text := by
  have he : Template.expand m.lookup text.toList = .ok text.toList := Template.expandRest_of_eq_none h
  unfold expand
  rw [he]
  exact congrArg Except.ok String.ofList_toList

/-- A text without placeholders is decoded as it stands. -/
theorem decode_of_splitMarker {e : Engine σ} {m : Machine σ} {text : String} {i : Instruction} {c : Command σ}
    (h : Text.splitMarker '{' '{' text.toList = none) (hparse : Instruction.parse text.toList = .ok i)
    (hc : e.registry.get? i.command = some c) : m.decode e text = some (i, c) := by
  unfold decode
  rw [expand_of_splitMarker h]
  simp only [hparse, hc, Option.map_some]

theorem registered_of_decode {e : Engine σ} {m : Machine σ} {text : String} {i : Instruction} {c : Command σ}
    (h : m.decode e text = some (i, c)) : e.registry.get? i.command = some c := by
  unfold decode at h
  split at h
  · cases h
  · split at h
    · cases h
    · obtain ⟨d, hd, he⟩ := Option.map_eq_some_iff.1 h
      cases he
      exact hd

/-- The mark in front of a text starts the same command on the side. -/
theorem decode_bang {e : Engine σ} {m : Machine σ} {text : String} {i : Instruction} {c : Command σ}
    (h : m.decode e text = some (i, c)) : m.decode e ("!" ++ text) = some ({ i with parallel := true }, c) := by
  have hlist : ("!" ++ text).toList = '!' :: text.toList := String.toList_append
  unfold decode expand Template.expand at h ⊢
  rw [hlist]
  cases hexp : Template.expandRest (Expr.evalText m.lookup) text.toList text.toList with
  | error err =>
    rw [hexp] at h
    cases h
  | ok out =>
    have hcons := Template.expandRest_cons (by decide : '!' ≠ '{') (Template.expandRest_whole hexp ('!' :: text.toList))
    rw [hexp] at h
    rw [hcons]
    simp only [String.toList_ofList] at h ⊢
    cases hparse : Instruction.parse out with
    | error err =>
      rw [hparse] at h
      cases h
    | ok j =>
      rw [hparse] at h
      rw [Instruction.parse_bang hparse]
      obtain ⟨d, hd, he⟩ := Option.map_eq_some_iff.1 h
      cases he
      exact congrArg (Option.map _) hd

end Machine
end Sequencer
