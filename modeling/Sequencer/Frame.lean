import Sequencer.Scope
import Sequencer.Text.Split

/-!
# Frames

A frame is the record of one activation of an action: how far it has come, which scope it works in and
under which names its results go to whoever called it.
-/

namespace Sequencer

/-- The names in a list with commas, without the blank ones. -/
def splitNames (text : String) : List String :=
  (Text.trimmedParts ',' text.toList).map String.ofList

/-- The name that stands for no variable where results are passed on. -/
def discard : String := "_"

/-- One activation of an action. -/
structure Frame where
  action : String
  /-- The number of the instruction that was fetched last; negative once no more are to be. -/
  ip : Int
  /-- The caller's names for the results, in order. Without names results are ignored. -/
  results : List String
  scope : ScopeId
  /-- Whether a loop repeats the frame. Its implicit return then ends a pass and passes nothing on. -/
  looping : Bool
  /-- Whether the frame holds a reference on its scope. -/
  ownsScope : Bool
  /-- The number of the activation among all of the run. -/
  activation : Nat
  deriving Repr, DecidableEq

namespace Frame

/-- Whether no more instructions are fetched. -/
def exhausted (f : Frame) : Bool := f.ip < 0

/-- The frame at its next instruction. -/
def advance (f : Frame) : Frame := { f with ip := f.ip + 1 }

/-- The name of the instruction that was fetched last. -/
def key (f : Frame) : String := s!"{f.action}_{f.ip}"

/-- The frame without further instructions. -/
def exhaust (f : Frame) : Frame := { f with ip := -1 }

end Frame

/-- Ends the innermost loop of a stack, whose top comes first: its frame and all above it fetch nothing
more, and it loops no longer. Returns the stack and how many frames are below the loop. -/
def breakInnermost : List Frame → Option (List Frame × Nat)
  | [] => none
  | f :: below =>
    if f.looping then some ({ f.exhaust with looping := false } :: below, below.length)
    else (breakInnermost below).map fun (below, index) => (f.exhaust :: below, index)

theorem breakInnermost_length {fs gs : List Frame} {i : Nat} (h : breakInnermost fs = some (gs, i)) :
    gs.length = fs.length ∧ i < fs.length := by
  induction fs generalizing gs with
  | nil => simp [breakInnermost] at h
  | cons f below ih =>
    simp only [breakInnermost] at h
    split at h
    · cases h; simp
    · obtain ⟨⟨hs, j⟩, hb, he⟩ := Option.map_eq_some_iff.1 h
      cases he
      have := ih hb
      simp only [List.length_cons]
      omega

end Sequencer
