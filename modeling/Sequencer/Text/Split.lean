import Sequencer.Text.Blank

/-!
# Cutting text

Splitting at a character or at a marker. `splitFirst` and `splitMarker` cut at the first
occurrence and drop it; `splitAll` cuts at every one, so that it returns one part more than
there are separators.
-/

namespace Sequencer.Text

/-- The parts before and after the first `sep`. -/
@[grind] def splitFirst (sep : Char) : List Char → Option (List Char × List Char)
  | [] => none
  | c :: r => if c = sep then some ([], r) else (splitFirst sep r).map fun (a, b) => (c :: a, b)

/-- All parts between separators; the empty text is one empty part. -/
def splitAll (sep : Char) : List Char → List (List Char)
  | [] => [[]]
  | c :: r =>
    if c = sep then [] :: splitAll sep r
    else
      match splitAll sep r with
      | [] => [[c]]
      | part :: parts => (c :: part) :: parts

/-- The parts before and after the first occurrence of the two characters `a`, `b` in a row. -/
@[grind] def splitMarker (a b : Char) : List Char → Option (List Char × List Char)
  | c :: d :: r =>
    if c = a ∧ d = b then some ([], r)
    else (splitMarker a b (d :: r)).map fun (x, y) => (c :: x, y)
  | _ => none

/-- The text after `lead`, if it starts with it. -/
@[grind] def dropLead? : List Char → List Char → Option (List Char)
  | [], s => some s
  | c :: cs, d :: s => if c = d then dropLead? cs s else none
  | _ :: _, [] => none

/-- The text before `tail`, if it ends with it. -/
def dropTail? (tail s : List Char) : Option (List Char) :=
  (dropLead? tail.reverse s.reverse).map List.reverse

/-- The parts between separators, trimmed, with blank ones dropped. -/
def trimmedParts (sep : Char) (s : List Char) : List (List Char) :=
  ((splitAll sep s).map trim).filter fun part => !part.isEmpty

/-! ## Laws -/

theorem splitFirst_eq_some {sep : Char} {s a b : List Char} (h : splitFirst sep s = some (a, b)) :
    s = a ++ sep :: b ∧ sep ∉ a := by
  induction s generalizing a b with
  | nil => simp [splitFirst] at h
  | cons c r ih =>
    simp only [splitFirst] at h
    split at h
    · next hc => cases h; simp [hc]
    · next hc =>
      obtain ⟨⟨a', b'⟩, hr, he⟩ := Option.map_eq_some_iff.1 h
      cases he
      obtain ⟨hs, hn⟩ := ih hr
      exact ⟨by simp [hs], by simp [hn, Ne.symm hc]⟩

theorem splitFirst_append {sep : Char} {a : List Char} (b : List Char) (h : sep ∉ a) :
    splitFirst sep (a ++ sep :: b) = some (a, b) := by
  induction a with
  | nil => simp [splitFirst]
  | cons c r ih =>
    simp only [List.mem_cons, not_or] at h
    simp [splitFirst, Ne.symm h.1, ih h.2]

theorem splitFirst_eq_none {sep : Char} {s : List Char} : splitFirst sep s = none ↔ sep ∉ s := by
  induction s with
  | nil => simp [splitFirst]
  | cons c r ih =>
    by_cases hc : c = sep
    · simp [splitFirst, hc]
    · simp [splitFirst, hc, ih, Ne.symm hc]

theorem splitMarker_length {a b : Char} {s x y : List Char}
    (h : splitMarker a b s = some (x, y)) : y.length + 2 ≤ s.length := by
  induction s generalizing x y with
  | nil => simp [splitMarker] at h
  | cons c r ih =>
    cases r with
    | nil => simp [splitMarker] at h
    | cons d r =>
      simp only [splitMarker] at h
      split at h
      · cases h; simp
      · obtain ⟨⟨x', y'⟩, hr, he⟩ := Option.map_eq_some_iff.1 h
        cases he
        exact Nat.le_succ_of_le (ih hr)

theorem dropLead?_eq_some {lead s r : List Char} : dropLead? lead s = some r ↔ s = lead ++ r := by
  induction lead generalizing s with
  | nil => simp [dropLead?]
  | cons c cs ih =>
    cases s with
    | nil => simp [dropLead?]
    | cons d s =>
      by_cases hc : c = d
      · simp [dropLead?, hc, ih]
      · simp [dropLead?, hc, Ne.symm hc]

end Sequencer.Text
