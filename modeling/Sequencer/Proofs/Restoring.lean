import Sequencer.Proofs.Turns

/-!
# Loops among threads

A loop leaves the stack as it has found it, and with the stack the scopes, in whatever order its thread and those that its
body has started on the side take their steps. The order matters for what the variables hold, but not for which scopes
there are: a thread on the side holds the scopes of its copy of the stack until it is joined, and nobody is left behind when
the loop is done.
-/

namespace Sequencer

open Machine

variable {σ : Type} {e : Engine σ}

namespace Pool

section

variable {p : Pool σ} {w : Worker σ} {others : Multiset (Worker σ)} {task : Task σ}

/-- An instruction of a thread of a pool, looked at by itself. -/
theorem Sound.stands (hp : p.Sound) (hw : p.workers = w ::ₘ others)
    (hl : Snapshot.Leveled ⟨p.machine w, task, standing w.thread.frames⟩) (ho : Actor.Owned ⟨w.thread, task, []⟩)
    (hn : Snapshot.Nested (.stack w.thread.frames) ⟨p.machine w, task, []⟩) (hfits : Actor.Fits ⟨w.thread, task, []⟩) :
    Scene.Stands w.thread.frames w.loops p.held others (Snapshot.among ⟨p.machine w, task, []⟩ 0) := by
  constructor
  case orderly => exact Scene.orderly_singleton ⟨hfits, trivial⟩ rfl p.world
  case actors => exact Scene.forall_singleton ⟨hl, ho, fun _ => hn⟩
  case rests => exact Scene.forall_singleton fun _ => .refl _
  case loops => exact (hp.stacked w (hw ▸ Multiset.mem_cons_self w others)).base_le
  case held => exact (Sound.held_cons hw).le

end

/-- What is to be done with a loop: one attempt at it, or all of them. -/
inductive Attempting (invocation : Invocation σ) : Task σ → Prop
  | once : Attempting invocation (.perform invocation)
  | retried (key : String) (pause total : Int64) : Attempting invocation (.attempts invocation key pause total)

theorem Attempting.stands {p : Pool σ} (hp : p.Sound) {w : Worker σ} {others : Multiset (Worker σ)}
    (hw : p.workers = w ::ₘ others) (hb : w.thread.breakAt = none) {invocation : Invocation σ}
    (hi : invocation.isLoop = true) {task : Task σ} (h : Attempting invocation task) :
    Scene.Stands w.thread.frames w.loops p.held others (Snapshot.among ⟨p.machine w, task, []⟩ 0) := by
  have hgoes : (Around.stack w.thread.frames).Goes (p.machine w) := ⟨rfl, hb⟩
  have haccepts (d : Nat) (ok : Bool) : Accepts (standing w.thread.frames : List (Caller σ)) d ok :=
    fun d' ok' hok => ⟨hok, trivial⟩
  cases h with
  | once =>
    exact hp.stands hw ⟨layered_standing _, Nat.le_refl _, fun d ok _ => haccepts d ok⟩ trivial
      (.perform (.attempt rfl) (.inr hi) hgoes) trivial
  | retried key pause total =>
    exact hp.stands hw ⟨layered_standing _, Nat.le_refl _, fun d ok _ => haccepts d ok⟩ trivial
      (.attempts (.instruction rfl) (.inr hi) hgoes) trivial

end Pool
end Sequencer
