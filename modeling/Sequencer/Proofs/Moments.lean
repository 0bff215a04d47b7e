import Mathlib.Logic.Relation
import Sequencer.Proofs.Attempt

/-!
# The moments of a run

A derivation relates the beginning of a run to its end. What happens in between, and what happens in a run that
never ends, is told by its moments: a moment is a call of one of the functions that run instructions, and one
leads to another where the function calls the next, once all that it has called before has come to its end.
-/

namespace Sequencer

variable {σ : Type}

/-- What is about to run. -/
inductive Moment (σ : Type) where
  | cycle (m : Machine σ) (level : Nat)
  | runCycle (m : Machine σ) (level : Nat)
  | dispatch (m : Machine σ) (c : Command σ) (i : Instruction) (key : String)
  | attempts (m : Machine σ) (invocation : Invocation σ) (key : String) (pause total : Int64)
  | perform (m : Machine σ) (invocation : Invocation σ)
  | drive (m : Machine σ) (loop : Machine.Loop)
  | passes (m : Machine σ) (loop : Machine.Loop) (f : Frame)
  /-- The frame of a loop is back on the stack after a pass. -/
  | between (m : Machine σ) (loop : Machine.Loop) (f : Frame)
  | join (m : Machine σ) (failed : Nat)
  /-- The machine is the one that waits for the job. -/
  | job (m : Machine σ) (job : Job σ)

namespace Moment

open Machine

/-- The machine of the thread that runs, or waits for a job. -/
def machine : Moment σ → Machine σ
  | .cycle m _ => m
  | .runCycle m _ => m
  | .dispatch m _ _ _ => m
  | .attempts m _ _ _ _ => m
  | .perform m _ => m
  | .drive m _ => m
  | .passes m _ _ => m
  | .between m _ _ => m
  | .join m _ => m
  | .job m _ => m

/-- One moment leads to the next. -/
inductive Next (e : Engine σ) : Moment σ → Moment σ → Prop
  | exhausted {m level n} (ha : m.aborted = false) (hs : m.nextStep level = (n, .exhausted)) :
      Next e (.cycle m level) (.cycle (n.returnFrame none).1 level)
  | forked {m level n key text i c} (ha : m.aborted = false)
      (hs : m.nextStep level = (n, .instruction key text)) (hd : n.decode e text = some (i, c))
      (hp : (i.parallel && !c.isAsync) = true) : Next e (.cycle m level) (.cycle (n.forkInstruction i key) level)
  | dispatched {m level n key text i c} (ha : m.aborted = false)
      (hs : m.nextStep level = (n, .instruction key text)) (hd : n.decode e text = some (i, c))
      (hp : (i.parallel && !c.isAsync) = false) : Next e (.cycle m level) (.dispatch n c i key)
  | advanced {m level n key text i c n' ok} (ha : m.aborted = false)
      (hs : m.nextStep level = (n, .instruction key text)) (hd : n.decode e text = some (i, c))
      (hp : (i.parallel && !c.isAsync) = false) (step : Dispatches e n c i key n' ok)
      (hgo : (ok || !i.strict) = true) : Next e (.cycle m level) (.cycle n' level)
  | opened {m level} : Next e (.runCycle m level) (.cycle (m.withBarrier (some .new)) level)
  | joined {m level n ok} (run : Cycles e (m.withBarrier (some .new)) level n ok) :
      Next e (.runCycle m level) (.join n 0)
  | prepared {m c i key n invocation} (hp : m.prepare e c i key = (n, .ok invocation)) :
      Next e (.dispatch m c i key) (.attempts n invocation key i.timing.pause i.timing.total)
  | tried {m invocation key pause total} (ht : ¬total < 0) :
      Next e (.attempts m invocation key pause total) (.perform (m.note (.attempted m.thread.id key)) invocation)
  | retried {m invocation key pause total n} (ht : ¬total < 0)
      (run : Performs e (m.note (.attempted m.thread.id key)) invocation n false)
      (hl : n.lastAttempt pause total = false) :
      Next e (.attempts m invocation key pause total)
        (.attempts (n.wait pause) invocation key pause (total - pause))
  | looped {m invocation n loop} (hl : m.entered invocation = some (n, some loop)) :
      Next e (.perform m invocation) (.drive n loop)
  | driven {m loop f below} (hf : m.disown.frames = f :: below) :
      Next e (.drive m loop) (.passes m.disown loop f)
  | passed {m loop f n} (hb : m.beforePass loop = (n, .run)) :
      Next e (.passes m loop f) (.runCycle n (m.depth - 1))
  | put {m loop f n o n'} (hb : m.beforePass loop = (n, .run)) (run : RunsCycle e n (m.depth - 1) o true)
      (ht : (o.unwind (m.depth - 1)).takeBreak (m.depth - 1) = (n', false)) :
      Next e (.passes m loop f) (.between (n'.repush f) loop f)
  | again {m loop f n loop'} (hn : m.afterPass loop = (n, some loop')) :
      Next e (.between m loop f) (.passes n loop' f)
  | begun {m failed job n} (hj : m.nextJob = some (job, n)) : Next e (.join m failed) (.job n job)
  | waited {m failed job n w ok} (hj : m.nextJob = some (job, n)) (run : RunsJob e n.world job w ok) :
      Next e (.join m failed) (.join { n with world := w } (if ok then failed else failed + 1))
  | copied {m thread frames i key c} (hc : e.registry.get? i.command = some c) :
      Next e (.job m (.instruction thread frames i key))
        (.dispatch ⟨m.world, { Thread.new thread with frames }⟩ c i key)
  | called {m thread frames i key c n ok} (hc : e.registry.get? i.command = some c)
      (step : Dispatches e ⟨m.world, { Thread.new thread with frames }⟩ c i key n ok)
      (hd : (ok && decide (frames.length < n.depth)) = true) :
      Next e (.job m (.instruction thread frames i key)) (.runCycle n frames.length)

/-- One moment is followed by another, at once or later, and every one before the last is deeper than a level. -/
def During (e : Engine σ) (level : Nat) : Moment σ → Moment σ → Prop :=
  Relation.ReflTransGen fun s t => level < s.machine.depth ∧ s.Next e t

/-- An instruction, or a part of one, ends in a machine, with success or without. -/
def Ends (e : Engine σ) : Moment σ → Machine σ → Bool → Prop
  | .dispatch m c i key, n, ok => Dispatches e m c i key n ok
  | .attempts m invocation key pause total, n, ok => Attempts e m invocation key pause total n ok
  | .perform m invocation, n, ok => Performs e m invocation n ok
  | .drive m loop, n, ok => Drives e m loop n ok
  | .passes m loop f, n, ok => Passes e m loop f n ok
  | _, _, _ => False

/-- An instruction is about to be started on the side. -/
def Forks (e : Engine σ) : Moment σ → Prop
  | .cycle m level => m.aborted = false ∧ ∃ n key text i c, m.nextStep level = (n, .instruction key text) ∧
      n.decode e text = some (i, c) ∧ (i.parallel && !c.isAsync) = true
  | _ => False

/-- Something that holds of all moments of a run for as long as it is deeper than a level. -/
def Always (e : Engine σ) (level : Nat) (P : Moment σ → Prop) (s : Moment σ) : Prop :=
  ∀ t, s.During e level t → level < t.machine.depth → P t

variable {e : Engine σ} {level : Nat} {P : Moment σ → Prop} {s t u : Moment σ}

namespace During

theorem refl (s : Moment σ) : s.During e level s := Relation.ReflTransGen.refl

theorem head (hl : level < s.machine.depth) (hn : s.Next e t) (h : t.During e level u) : s.During e level u :=
  Relation.ReflTransGen.head ⟨hl, hn⟩ h

end During

namespace Always

theorem here (h : Always e level P s) (hl : level < s.machine.depth) : P s := h s (.refl s) hl

theorem next (h : Always e level P s) (hl : level < s.machine.depth) (hn : s.Next e t) : Always e level P t :=
  fun u hu => h u (hu.head hl hn)

end Always

/-- The machines that a run comes through until it is back at a level: those of its moments, and those in which
instructions end. -/
def Visits (e : Engine σ) (level : Nat) (s : Moment σ) (n : Machine σ) : Prop :=
  ∃ t, s.During e level t ∧ (t.machine = n ∨ ∃ ok, t.Ends e n ok)

/-! ## Cycles that began further down

A run above a level is one above any lower level too. The moments of the cycles on the way are the same. -/

/-- As long as a run is deeper than a level, it does not matter from which level below a cycle has begun: it fetches
the same instructions. -/
theorem During.of_le {m : Machine σ} {l l' : Nat} (hl : l ≤ level) (hl' : l' ≤ level)
    (h : (Moment.cycle m l).During e level t) : (Moment.cycle m l').During e level t ∨
      ∃ n, t = .cycle n l ∧ (Moment.cycle m l').During e level (.cycle n l') := by
  induction h with
  | refl => exact .inr ⟨m, rfl, .refl _⟩
  | @tail t u _ hstep ih =>
    obtain ⟨hdepth, hnext⟩ := hstep
    rcases ih with ih | ⟨n, rfl, ih⟩
    · exact .inl (ih.tail ⟨hdepth, hnext⟩)
    · have hd : level < n.depth := hdepth
      -- Above both levels a fetch does the same for either of them.
      have hfetch : n.nextStep l' = n.nextStep l := nextStep_of_lt (hl'.trans_lt hd) (hl.trans_lt hd)
      cases hnext with
      | exhausted ha hs => exact .inr ⟨_, rfl, ih.tail ⟨hd, .exhausted ha (hfetch.trans hs)⟩⟩
      | forked ha hs hdec hp => exact .inr ⟨_, rfl, ih.tail ⟨hd, .forked ha (hfetch.trans hs) hdec hp⟩⟩
      | dispatched ha hs hdec hp => exact .inl (ih.tail ⟨hd, .dispatched ha (hfetch.trans hs) hdec hp⟩)
      | advanced ha hs hdec hp step hgo =>
        exact .inr ⟨_, rfl, ih.tail ⟨hd, .advanced ha (hfetch.trans hs) hdec hp step hgo⟩⟩

theorem Visits.of_le {m n : Machine σ} {l l' : Nat} (hl : l ≤ level) (hl' : l' ≤ level)
    (h : (Moment.cycle m l).Visits e level n) : (Moment.cycle m l').Visits e level n := by
  obtain ⟨t, hd, ht⟩ := h
  rcases hd.of_le hl hl' with hd' | ⟨o, rfl, hd'⟩
  · exact ⟨t, hd', ht⟩
  · refine ⟨_, hd', .inl ?_⟩
    rcases ht with ht | ⟨ok, ht⟩
    · exact ht
    · cases ht

end Moment
end Sequencer
