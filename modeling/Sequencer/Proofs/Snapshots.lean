import Mathlib.Logic.Relation
import Sequencer.Proofs.Derivation

/-!
# Runs step by step

A derivation tells how a run ends. Here a run is a sequence of snapshots: the machine at work, the task it has before
it, and those who wait for the task to be done, the innermost first. What happens at some point of a run, or from some
point on, is told by its snapshots, whether or not the run ever ends. Those that end are the derivations.
-/

namespace Sequencer

open Machine

variable {σ : Type}

/-! ## Tasks and callers

What a thread is about to do, and who waits for it. A snapshot has the machine besides. -/

/-- What a machine is to do next. -/
inductive Task (σ : Type) where
  | cycle (level : Nat)
  /-- The active frame has no more instructions. -/
  | leave (level : Nat)
  | runCycle (level : Nat)
  | dispatch (c : Command σ) (i : Instruction) (key : String)
  | attempts (invocation : Invocation σ) (key : String) (pause total : Int64)
  | perform (invocation : Invocation σ)
  /-- The frame of a loop is on the stack, and the elements to loop over are still to be read. -/
  | choose (c : RangeSpec) (level : Nat)
  | drive (loop : Loop)
  | passes (loop : Loop) (f : Frame)
  /-- The frame of a loop is back on the stack after a pass. -/
  | between (level : Nat) (loop : Loop) (f : Frame)
  | join (failed : Nat)
  /-- Nothing: the task that somebody waits for is done. -/
  | done (ok : Bool)

/-- Who waits for a task to be done, with what is needed to go on. -/
inductive Caller (σ : Type) where
  /-- A cycle waits for an instruction. -/
  | cycle (level : Nat) (strict : Bool)
  /-- A cycle with a barrier of its own waits for its instructions. -/
  | opened (outer : Option (Barrier σ))
  /-- A cycle with a barrier of its own waits for its jobs. -/
  | closing (outer : Option (Barrier σ)) (ok : Bool)
  /-- The attempts of a command wait for one of them. -/
  | attempts (invocation : Invocation σ) (key : String) (pause total : Int64)
  /-- A loop at a level, which holds the scope of its frame, waits for its passes. -/
  | release (level : Nat) (f : Frame)
  /-- A loop waits for its body. -/
  | pass (level : Nat) (loop : Loop) (f : Frame)
  /-- A job waits for its instruction. -/
  | job (base : Nat)
  /-- A thread that has begun with some number of frames waits for its job, to give its stack up. -/
  | started (base : Nat)
  /-- A thread with jobs waits for one of them. -/
  | waiting (thread : Thread σ) (failed : Nat)
  /-- Some other thread is to join this one. -/
  | joiner

/-- A run at one point of time. -/
structure Snapshot (σ : Type) where
  machine : Machine σ
  task : Task σ
  /-- Those who wait, the innermost first. -/
  callers : List (Caller σ)

/-! ## Steps

A task begins and leads to another one, or comes to its end and gives back to its caller. At most one step is
possible. -/

/-- The first step of a task: what the machine is to do next, and who comes to wait for it. -/
inductive Task.Begins (e : Engine σ) : Machine σ → Task σ → Machine σ → Task σ → List (Caller σ) → Prop
  | aborted {m level} (ha : m.aborted = true) : Begins e m (.cycle level) m (.done false) []
  | drained {m level n} (ha : m.aborted = false) (hs : m.nextStep level = (n, .drained)) :
      Begins e m (.cycle level) n (.done true) []
  | exhausted {m level n} (ha : m.aborted = false) (hs : m.nextStep level = (n, .exhausted)) :
      Begins e m (.cycle level) n (.leave level) []
  | left {m level} : Begins e m (.leave level) (m.returnFrame none).1 (.cycle level) []
  | undecodable {m level n key text} (ha : m.aborted = false) (hs : m.nextStep level = (n, .instruction key text))
      (hd : n.decode e text = none) : Begins e m (.cycle level) n (.done false) []
  | forked {m level n key text i c} (ha : m.aborted = false) (hs : m.nextStep level = (n, .instruction key text))
      (hd : n.decode e text = some (i, c)) (hp : (i.parallel && !c.isAsync) = true) :
      Begins e m (.cycle level) (n.forkInstruction i key) (.cycle level) []
  | fetched {m level n key text i c} (ha : m.aborted = false) (hs : m.nextStep level = (n, .instruction key text))
      (hd : n.decode e text = some (i, c)) (hp : (i.parallel && !c.isAsync) = false) :
      Begins e m (.cycle level) n (.dispatch c i key) [.cycle level i.strict]
  | opened {m level} :
      Begins e m (.runCycle level) (m.withBarrier (some .new)) (.cycle level) [.opened m.thread.barrier]
  | unprepared {m c i key n err} (hp : m.prepare e c i key = (n, .error err)) :
      Begins e m (.dispatch c i key) n (.done false) []
  | prepared {m c i key n invocation} (hp : m.prepare e c i key = (n, .ok invocation)) :
      Begins e m (.dispatch c i key) n (.attempts invocation key i.timing.pause i.timing.total) []
  | spent {m invocation key pause total} (ht : total < 0) :
      Begins e m (.attempts invocation key pause total) m (.done false) []
  | tried {m invocation key pause total} (ht : ¬total < 0) :
      Begins e m (.attempts invocation key pause total) (m.note (.attempted m.thread.id key)) (.perform invocation)
        [.attempts invocation key pause total]
  | immediate {m invocation n ok} (hi : m.immediate invocation = some (n, ok)) :
      Begins e m (.perform invocation) n (.done ok) []
  | refused {m c n} (hl : m.enterFor c = (n, none)) : Begins e m (.perform (.loopFor c)) n (.done false) []
  | looped {m c n loop} (hl : m.enterFor c = (n, some loop)) :
      Begins e m (.perform (.loopFor c)) n (.drive loop) []
  | rejected {m c n err} (hl : m.enterLoop c.body c.result c.params = (n, .error err)) :
      Begins e m (.perform (.loopRange c)) n (.done false) []
  | ranged {m c n} (hl : m.enterLoop c.body c.result c.params = (n, .ok ())) :
      Begins e m (.perform (.loopRange c)) n (.choose c m.depth) []
  | unreadable {m c level n err} (hr : m.read c.range = (n, .error err)) :
      Begins e m (.choose c level) (n.unwind level) (.done false) []
  | chosen {m c level n v} (hr : m.read c.range = (n, .ok v)) :
      Begins e m (.choose c level) n
        (.drive (.over (v.elim [] Value.elements) 0 (c.key.getD keyName) (c.value.getD valueName))) []
  | frameless {m loop} (hf : m.disown.frames = []) : Begins e m (.drive loop) m (.done false) []
  | driven {m loop f below} (hf : m.disown.frames = f :: below) :
      Begins e m (.drive loop) m.disown (.passes loop f) [.release below.length f]
  | finished {m loop f n o ok} (hb : m.beforePass loop = (n, .done))
      (hr : (n.setLooping false).returnFrame none = (o, ok)) : Begins e m (.passes loop f) o (.done ok) []
  | stopped {m loop f n} (hb : m.beforePass loop = (n, .fail)) :
      Begins e m (.passes loop f) (n.unwind (m.depth - 1)) (.done false) []
  | passed {m loop f n} (hb : m.beforePass loop = (n, .run)) :
      Begins e m (.passes loop f) n (.runCycle (m.depth - 1)) [.pass (m.depth - 1) loop f]
  | again {m level loop f n loop'} (hn : m.afterPass loop = (n, some loop')) :
      Begins e m (.between level loop f) n (.passes loop' f) []
  | stuck {m level loop f n} (hn : m.afterPass loop = (n, none)) :
      Begins e m (.between level loop f) (n.unwind level) (.done false) []
  | joined {m failed} (hj : m.nextJob = none) : Begins e m (.join failed) m (.done true) []
  | worked {m failed work n} (hj : m.nextJob = some (.host work, n)) :
      Begins e m (.join failed) { n with world := { n.world with host := (work n.world.host).1 } }
        (.join (if (work n.world.host).2 then failed else failed + 1)) []
  | unknown {m failed thread frames i key n} (hj : m.nextJob = some (.instruction thread frames i key, n))
      (hc : e.registry.get? i.command = none) :
      Begins e m (.join failed) ⟨n.world, { Thread.new thread with frames }⟩ (.done false)
        [.started frames.length, .waiting n.thread failed]
  | started {m failed thread frames i key n c} (hj : m.nextJob = some (.instruction thread frames i key, n))
      (hc : e.registry.get? i.command = some c) :
      Begins e m (.join failed) ⟨n.world, { Thread.new thread with frames }⟩ (.dispatch c i key)
        [.job frames.length, .started frames.length, .waiting n.thread failed]

/-- How a caller goes on when the task it has waited for is done, and who waits from then on. -/
inductive Caller.Resumes : Machine σ → Bool → Caller σ → Machine σ → Task σ → List (Caller σ) → Prop
  | advanced {m ok level strict} (hgo : (ok || !strict) = true) :
      Resumes m ok (.cycle level strict) m (.cycle level) []
  | failed {m ok level strict} (hstop : (ok || !strict) = false) :
      Resumes m ok (.cycle level strict) m (.done false) []
  | joins {m ok outer} : Resumes m ok (.opened outer) m (.join 0) [.closing outer ok]
  | closed {m ok outer ok'} :
      Resumes m ok (.closing outer ok') (m.withBarrier outer) (.done (ok' && !m.aborted)) []
  | succeeded {m invocation key pause total} :
      Resumes m true (.attempts invocation key pause total) m (.done true) []
  | gaveUp {m invocation key pause total} (hl : m.lastAttempt pause total = true) :
      Resumes m false (.attempts invocation key pause total) m (.done false) []
  | retried {m invocation key pause total} (hl : m.lastAttempt pause total = false) :
      Resumes m false (.attempts invocation key pause total) (m.wait pause)
        (.attempts invocation key pause (total - pause)) []
  | released {m ok level f} : Resumes m ok (.release level f) (m.withScopes (·.release f.scope)) (.done ok) []
  | unwound {m level loop f} : Resumes m false (.pass level loop f) (m.unwind level) (.done false) []
  | broken {m level loop f n} (ht : (m.unwind level).takeBreak level = (n, true)) :
      Resumes m true (.pass level loop f) n (.done true) []
  | put {m level loop f n} (ht : (m.unwind level).takeBreak level = (n, false)) :
      Resumes m true (.pass level loop f) (n.repush f) (.between level loop f) []
  | called {m ok base} (hd : (ok && decide (base < m.depth)) = true) :
      Resumes m ok (.job base) m (.runCycle base) []
  | simple {m ok base} (hd : (ok && decide (base < m.depth)) = false) : Resumes m ok (.job base) m (.done ok) []
  | finished {m ok base} : Resumes m ok (.started base) m.finish (.done ok) []
  | waited {m ok thread failed} :
      Resumes m ok (.waiting thread failed) ⟨m.world, thread⟩ (.join (if ok then failed else failed + 1)) []

@[simp] theorem Machine.immediate_loopFor (m : Machine σ) (c : ForSpec) : m.immediate (.loopFor c) = none := rfl

@[simp] theorem Machine.immediate_loopRange (m : Machine σ) (c : RangeSpec) : m.immediate (.loopRange c) = none := rfl

/-- A task goes on in one way only, if at all. -/
theorem Task.Begins.unique {e : Engine σ} {m n n' : Machine σ} {task t t' : Task σ} {callers callers' : List (Caller σ)}
    (h : task.Begins e m n t callers) (h' : task.Begins e m n' t' callers') : n = n' ∧ t = t' ∧ callers = callers' := by
  cases h <;> cases h' <;> simp_all

/-- What was waiting goes on in one way only, too. So there is one run from each snapshot. -/
theorem Caller.Resumes.unique {m n n' : Machine σ} {ok : Bool} {caller : Caller σ} {t t' : Task σ}
    {callers callers' : List (Caller σ)} (h : caller.Resumes m ok n t callers)
    (h' : caller.Resumes m ok n' t' callers') : n = n' ∧ t = t' ∧ callers = callers' := by
  cases h <;> cases h' <;> simp_all

namespace Snapshot

/-- One step of a run. -/
inductive Step (e : Engine σ) : Snapshot σ → Snapshot σ → Prop
  | begin {m task n task' callers} (h : task.Begins e m n task' callers) (outer : List (Caller σ)) :
      Step e ⟨m, task, outer⟩ ⟨n, task', callers ++ outer⟩
  | resume {m ok caller n task callers} (h : caller.Resumes m ok n task callers) (outer : List (Caller σ)) :
      Step e ⟨m, .done ok, caller :: outer⟩ ⟨n, task, callers ++ outer⟩

/-- A step is determined by the snapshot. -/
theorem Step.unique {e : Engine σ} {s t u : Snapshot σ} (h : Step e s t) (h' : Step e s u) : t = u := by
  cases h with
  | begin hb outer =>
    cases h' with
    | begin hb' _ =>
      obtain ⟨rfl, rfl, rfl⟩ := hb.unique hb'
      rfl
    | resume => cases hb
  | resume hr outer =>
    cases h' with
    | begin hb => cases hb
    | resume hr' _ =>
      obtain ⟨rfl, rfl, rfl⟩ := hr.unique hr'
      rfl

/-- More callers have no part in a step. -/
theorem Step.under {e : Engine σ} {s t : Snapshot σ} (h : Step e s t) (outer : List (Caller σ)) :
    Step e ⟨s.machine, s.task, s.callers ++ outer⟩ ⟨t.machine, t.task, t.callers ++ outer⟩ := by
  cases h with
  | begin hb inner =>
    rw [List.append_assoc]
    exact .begin hb _
  | resume hr inner =>
    rw [List.append_assoc]
    exact .resume hr _

/-- From one snapshot a run comes to another. -/
def Reaches (e : Engine σ) : Snapshot σ → Snapshot σ → Prop := Relation.ReflTransGen (Step e)

namespace Reaches

variable {e : Engine σ} {s t u : Snapshot σ}

theorem refl (s : Snapshot σ) : Reaches e s s := Relation.ReflTransGen.refl

theorem trans (h : Reaches e s t) (h' : Reaches e t u) : Reaches e s u := Relation.ReflTransGen.trans h h'

theorem begin {m n : Machine σ} {task task' : Task σ} {callers outer : List (Caller σ)}
    (h : task.Begins e m n task' callers) (rest : Reaches e ⟨n, task', callers ++ outer⟩ t) :
    Reaches e ⟨m, task, outer⟩ t :=
  Relation.ReflTransGen.head (.begin h outer) rest

theorem resume {m n : Machine σ} {ok : Bool} {caller : Caller σ} {task : Task σ} {callers outer : List (Caller σ)}
    (h : caller.Resumes m ok n task callers) (rest : Reaches e ⟨n, task, callers ++ outer⟩ t) :
    Reaches e ⟨m, .done ok, caller :: outer⟩ t :=
  Relation.ReflTransGen.head (.resume h outer) rest

/-- An instruction is fetched, prepared and tried for the first time. -/
theorem fetched {m n o : Machine σ} {level : Nat} {key text : String} {i : Instruction} {c : Command σ}
    {invocation : Invocation σ} {outer : List (Caller σ)} (ha : m.aborted = false)
    (hs : m.nextStep level = (n, .instruction key text)) (hd : n.decode e text = some (i, c))
    (hside : (i.parallel && !c.isAsync) = false) (hp : n.prepare e c i key = (o, .ok invocation))
    (ht : ¬i.timing.total < 0) : Reaches e ⟨m, .cycle level, outer⟩
      ⟨o.note (.attempted o.thread.id key), .perform invocation,
        .attempts invocation key i.timing.pause i.timing.total :: .cycle level i.strict :: outer⟩ :=
  .begin (.fetched ha hs hd hside) (.begin (.prepared hp) (.begin (.tried ht) (refl _)))

/-- Two snapshots of one run come one after the other. -/
theorem total (h : Reaches e s t) (h' : Reaches e s u) : Reaches e t u ∨ Reaches e u t :=
  Relation.ReflTransGen.total_of_right_unique (fun _ _ _ => Step.unique) h h'

/-- Those who wait from the beginning have no part in a run. -/
theorem under (h : Reaches e s t) (outer : List (Caller σ)) :
    Reaches e ⟨s.machine, s.task, s.callers ++ outer⟩ ⟨t.machine, t.task, t.callers ++ outer⟩ := by
  induction h with
  | refl => exact refl _
  | tail _ hstep ih => exact ih.tail (hstep.under outer)

/-- A run that is done goes nowhere. -/
theorem of_done {n : Machine σ} {ok : Bool} (h : Reaches e ⟨n, .done ok, []⟩ t) : t = ⟨n, .done ok, []⟩ := by
  rcases Relation.ReflTransGen.cases_head h with rfl | ⟨u, hstep, -⟩
  · rfl
  · cases hstep with
    | begin hb => cases hb

/-- In a run that ends, whatever is reached goes on to the end. -/
theorem to_done {n : Machine σ} {ok : Bool} (h : Reaches e s ⟨n, .done ok, []⟩) (hu : Reaches e s u) :
    Reaches e u ⟨n, .done ok, []⟩ := by
  rcases hu.total h with hbefore | hafter
  · exact hbefore
  · rw [hafter.of_done]
    exact refl _

/-- A run with a task to do is still at it or has done it, and those who wait come after. -/
theorem inside {m : Machine σ} {task : Task σ} {outer : List (Caller σ)} (h : Reaches e ⟨m, task, outer⟩ t) :
    (∃ inner, t.callers = inner ++ outer ∧ Reaches e ⟨m, task, []⟩ ⟨t.machine, t.task, inner⟩) ∨
      ∃ n ok, Reaches e ⟨m, task, []⟩ ⟨n, .done ok, []⟩ ∧ Reaches e ⟨n, .done ok, outer⟩ t := by
  induction h with
  | refl => exact .inl ⟨[], rfl, refl _⟩
  | tail _ hstep ih =>
    rcases ih with ⟨inner, hcallers, hrun⟩ | ⟨n, ok, hrun, hrest⟩
    · cases hstep with
      | begin hb waiting =>
        obtain rfl : waiting = inner ++ outer := hcallers
        exact .inl ⟨_, (List.append_assoc _ _ _).symm, hrun.tail (.begin hb inner)⟩
      | @resume m ok caller n t callers hr waiting =>
        cases inner with
        | nil =>
          -- The inner task is done, and the first of those who waited goes on.
          obtain rfl : caller :: waiting = outer := hcallers
          exact .inr ⟨m, ok, hrun, .resume hr (refl _)⟩
        | cons first inner =>
          cases hcallers
          exact .inl ⟨_, (List.append_assoc _ _ _).symm, hrun.tail (.resume hr inner)⟩
    · exact .inr ⟨n, ok, hrun, hrest.tail hstep⟩

end Reaches

/-- From one snapshot a run comes to another, and something holds all the way. -/
inductive Throughout (e : Engine σ) (P : Snapshot σ → Prop) : Snapshot σ → Snapshot σ → Prop
  | refl {s} (h : P s) : Throughout e P s s
  | head {s t u} (h : P s) (step : Step e s t) (rest : Throughout e P t u) : Throughout e P s u

namespace Throughout

variable {e : Engine σ} {P Q : Snapshot σ → Prop} {s t u v : Snapshot σ}

theorem reaches (h : Throughout e P s t) : Reaches e s t := by
  induction h with
  | refl => exact .refl _
  | head _ step _ ih => exact Relation.ReflTransGen.head step ih

theorem last (h : Throughout e P s t) : P t := by
  induction h with
  | refl h => exact h
  | head _ _ _ ih => exact ih

theorem trans (h : Throughout e P s t) (h' : Throughout e P t u) : Throughout e P s u := by
  induction h with
  | refl => exact h'
  | head h step _ ih => exact .head h step (ih h')

theorem mono (h : Throughout e P s t) (hle : ∀ u, P u → Q u) : Throughout e Q s t := by
  induction h with
  | refl h => exact .refl (hle _ h)
  | head h step _ ih => exact .head (hle _ h) step ih

theorem begin {m n : Machine σ} {task task' : Task σ} {callers outer : List (Caller σ)}
    (h : task.Begins e m n task' callers) (hP : P ⟨m, task, outer⟩)
    (rest : Throughout e P ⟨n, task', callers ++ outer⟩ t) : Throughout e P ⟨m, task, outer⟩ t :=
  .head hP (.begin h outer) rest

theorem resume {m n : Machine σ} {ok : Bool} {caller : Caller σ} {task : Task σ} {callers outer : List (Caller σ)}
    (h : caller.Resumes m ok n task callers) (hP : P ⟨m, .done ok, caller :: outer⟩)
    (rest : Throughout e P ⟨n, task, callers ++ outer⟩ t) : Throughout e P ⟨m, .done ok, caller :: outer⟩ t :=
  .head hP (.resume h outer) rest

/-- Those who wait from the beginning have no part in it. -/
theorem under (h : Throughout e P s t) (outer : List (Caller σ))
    (hP : ∀ u, P u → Q ⟨u.machine, u.task, u.callers ++ outer⟩) :
    Throughout e Q ⟨s.machine, s.task, s.callers ++ outer⟩ ⟨t.machine, t.task, t.callers ++ outer⟩ := by
  induction h with
  | refl h => exact .refl (hP _ h)
  | head h step _ ih => exact .head (hP _ h) (step.under outer) ih

/-- Every snapshot is one on the way, or comes later. -/
theorem on_the_way (h : Throughout e P s t) (hu : Reaches e s u) : (P u ∧ Reaches e u t) ∨ Reaches e t u := by
  induction h with
  | refl => exact .inr hu
  | head h step rest ih =>
    rcases Relation.ReflTransGen.cases_head hu with rfl | ⟨v, hstep, hrest⟩
    · exact .inl ⟨h, Relation.ReflTransGen.head step rest.reaches⟩
    · rw [← step.unique hstep] at hrest
      exact ih hrest

/-- In a run that ends, every snapshot is one on the way. -/
theorem of_reaches {n : Machine σ} {ok : Bool} (h : Throughout e P s ⟨n, .done ok, []⟩) (hu : Reaches e s u) :
    P u ∧ Reaches e u ⟨n, .done ok, []⟩ := by
  rcases h.on_the_way hu with hbefore | hafter
  · exact hbefore
  · rw [hafter.of_done]
    exact ⟨h.last, .refl _⟩

/-- A run that ends has two parts, with a step in between. Every snapshot is in one of them. -/
theorem before_or_after {n : Machine σ} {ok : Bool} (h : Throughout e P s t) (step : Step e t u)
    (h' : Throughout e Q u ⟨n, .done ok, []⟩) (hv : Reaches e s v) :
    (Reaches e v t ∧ P v) ∨ (Reaches e u v ∧ Q v) := by
  induction h with
  | refl h =>
    rcases Relation.ReflTransGen.cases_head hv with rfl | ⟨w, hstep, hrest⟩
    · exact .inl ⟨.refl _, h⟩
    · rw [← step.unique hstep] at hrest
      exact .inr ⟨hrest, (h'.of_reaches hrest).1⟩
  | head h hstep rest ih =>
    rcases Relation.ReflTransGen.cases_head hv with rfl | ⟨w, hstep', hrest⟩
    · exact .inl ⟨Relation.ReflTransGen.head hstep rest.reaches, h⟩
    · rw [← hstep.unique hstep'] at hrest
      exact ih step hrest

end Throughout

end Snapshot

/-! ## Derivations are runs

One rule of a derivation after the other is followed by steps. -/

namespace Machine

open Snapshot

/-- The beginning of a loop as a run. -/
theorem reaches_of_entered {e : Engine σ} {m n : Machine σ} {invocation : Invocation σ} {loop : Option Loop}
    (h : m.entered invocation = some (n, loop)) (outer : List (Caller σ)) :
    Reaches e ⟨m, .perform invocation, outer⟩ ⟨n, loop.elim (.done false) .drive, outer⟩ := by
  unfold entered at h
  cases invocation with
  | loopFor c =>
    have hl : m.enterFor c = (n, loop) := Option.some.inj h
    cases loop with
    | none => exact .begin (.refused hl) (.refl _)
    | some loop => exact .begin (.looped hl) (.refl _)
  | loopRange c =>
    have hl : m.enterRange c = (n, loop) := Option.some.inj h
    unfold enterRange at hl
    simp only at hl
    split at hl
    · next he =>
      cases hl
      exact .begin (.rejected he) (.refl _)
    · next he =>
      refine .begin (.ranged he) ?_
      split at hl
      · next hr =>
        cases hl
        exact .begin (.unreadable hr) (.refl _)
      · next v hr =>
        cases hl
        refine .begin (.chosen hr) ?_
        cases v <;> exact .refl _
  | _ => cases h

mutual

theorem Cycles.reaches {e : Engine σ} : ∀ {m : Machine σ} {level : Nat} {n : Machine σ} {ok : Bool},
    Cycles e m level n ok → ∀ outer, Reaches e ⟨m, .cycle level, outer⟩ ⟨n, .done ok, outer⟩
  | _, _, _, _, .aborted ha, _ => .begin (.aborted ha) (.refl _)
  | _, _, _, _, .drained ha hs, _ => .begin (.drained ha hs) (.refl _)
  | _, _, _, _, .exhausted ha hs rest, outer => .begin (.exhausted ha hs) (.begin .left (rest.reaches outer))
  | _, _, _, _, .undecodable ha hs hd, _ => .begin (.undecodable ha hs hd) (.refl _)
  | _, _, _, _, .forked ha hs hd hp rest, outer => .begin (.forked ha hs hd hp) (rest.reaches outer)
  | _, _, _, _, .dispatched ha hs hd hp step hgo rest, outer =>
    .begin (.fetched ha hs hd hp) ((step.reaches _).trans (.resume (.advanced hgo) (rest.reaches outer)))
  | _, _, _, _, .failed ha hs hd hp step hstop, _ =>
    .begin (.fetched ha hs hd hp) ((step.reaches _).trans (.resume (.failed hstop) (.refl _)))

/-- The cycle with its barrier goes through the inner cycle, its jobs, and the closing of the barrier. -/
theorem RunsCycle.reaches {e : Engine σ} : ∀ {m : Machine σ} {level : Nat} {n : Machine σ} {ok : Bool},
    RunsCycle e m level n ok → ∀ outer, Reaches e ⟨m, .runCycle level, outer⟩ ⟨n, .done ok, outer⟩
  | _, _, _, _, .closed run jobs, _ =>
    .begin .opened ((run.reaches _).trans (.resume .joins ((jobs.reaches _).trans (.resume .closed (.refl _)))))

/-- A dispatch prepares, and hands over to the attempts. -/
theorem Dispatches.reaches {e : Engine σ} : ∀ {m : Machine σ} {c : Command σ} {i : Instruction} {key : String}
    {n : Machine σ} {ok : Bool}, Dispatches e m c i key n ok →
    ∀ outer, Reaches e ⟨m, .dispatch c i key, outer⟩ ⟨n, .done ok, outer⟩
  | _, _, _, _, _, _, .unprepared hp, _ => .begin (.unprepared hp) (.refl _)
  | _, _, _, _, _, _, .prepared hp run, outer => .begin (.prepared hp) (run.reaches outer)

theorem Attempts.reaches {e : Engine σ} : ∀ {m : Machine σ} {invocation : Invocation σ} {key : String}
    {pause total : Int64} {n : Machine σ} {ok : Bool}, Attempts e m invocation key pause total n ok →
    ∀ outer, Reaches e ⟨m, .attempts invocation key pause total, outer⟩ ⟨n, .done ok, outer⟩
  | _, _, _, _, _, _, _, .spent ht, _ => .begin (.spent ht) (.refl _)
  | _, _, _, _, _, _, _, .succeeded ht run, _ =>
    .begin (.tried ht) ((run.reaches _).trans (.resume .succeeded (.refl _)))
  | _, _, _, _, _, _, _, .gaveUp ht run hl, _ =>
    .begin (.tried ht) ((run.reaches _).trans (.resume (.gaveUp hl) (.refl _)))
  | _, _, _, _, _, _, _, .retried ht run hl rest, outer =>
    .begin (.tried ht) ((run.reaches _).trans (.resume (.retried hl) (rest.reaches outer)))

theorem Performs.reaches {e : Engine σ} : ∀ {m : Machine σ} {invocation : Invocation σ} {n : Machine σ} {ok : Bool},
    Performs e m invocation n ok → ∀ outer, Reaches e ⟨m, .perform invocation, outer⟩ ⟨n, .done ok, outer⟩
  | _, _, _, _, .immediate hi, _ => .begin (.immediate hi) (.refl _)
  | _, _, _, _, .refused hl, outer => reaches_of_entered hl outer
  | _, _, _, _, .looped hl run, outer => (reaches_of_entered hl outer).trans (run.reaches outer)

theorem Drives.reaches {e : Engine σ} : ∀ {m : Machine σ} {loop : Loop} {n : Machine σ} {ok : Bool},
    Drives e m loop n ok → ∀ outer, Reaches e ⟨m, .drive loop, outer⟩ ⟨n, .done ok, outer⟩
  | _, _, _, _, .frameless hf, _ => .begin (.frameless hf) (.refl _)
  | _, _, _, _, .driven hf run, _ => .begin (.driven hf) ((run.reaches _).trans (.resume .released (.refl _)))

/-- A pass is a cycle, with what comes in front of it and behind it. The loop waits for the cycle all the time. -/
theorem Passes.reaches {e : Engine σ} : ∀ {m : Machine σ} {loop : Loop} {f : Frame} {n : Machine σ} {ok : Bool},
    Passes e m loop f n ok → ∀ outer, Reaches e ⟨m, .passes loop f, outer⟩ ⟨n, .done ok, outer⟩
  | _, _, _, _, _, .done hb hr, _ => .begin (.finished hb hr) (.refl _)
  | _, _, _, _, _, .refused hb, _ => .begin (.stopped hb) (.refl _)
  | _, _, _, _, _, .failed hb run, _ =>
    .begin (.passed hb) ((run.reaches _).trans (.resume .unwound (.refl _)))
  | _, _, _, _, _, .broken hb run ht, _ =>
    .begin (.passed hb) ((run.reaches _).trans (.resume (.broken ht) (.refl _)))
  | _, _, _, _, _, .repeated hb run ht hn rest, outer =>
    .begin (.passed hb) ((run.reaches _).trans (.resume (.put ht) (.begin (.again hn) (rest.reaches outer))))
  | _, _, _, _, _, .stuck hb run ht hn, _ =>
    .begin (.passed hb) ((run.reaches _).trans (.resume (.put ht) (.begin (.stuck hn) (.refl _))))

theorem Joins.reaches {e : Engine σ} : ∀ {m : Machine σ} {failed : Nat} {n : Machine σ} {failed' : Nat},
    Joins e m failed n failed' → ∀ outer, Reaches e ⟨m, .join failed, outer⟩ ⟨n, .done true, outer⟩
  | _, _, _, _, .done hj, _ => .begin (.joined hj) (.refl _)
  | _, _, _, _, .next hj run rest, outer => (run.reaches hj _ outer).trans (rest.reaches outer)

theorem RunsJob.reaches {e : Engine σ} : ∀ {w : World σ} {job : Job σ} {w' : World σ} {ok : Bool},
    RunsJob e w job w' ok → ∀ {m : Machine σ} {thread : Thread σ}, m.nextJob = some (job, ⟨w, thread⟩) →
    ∀ failed outer, Reaches e ⟨m, .join failed, outer⟩ ⟨⟨w', thread⟩, .join (if ok then failed else failed + 1), outer⟩
  | _, _, _, _, .host, _, _, hj, _, _ => .begin (.worked hj) (.refl _)
  | _, _, _, _, .unknown hc, _, _, hj, _, _ =>
    .begin (.unknown hj hc) (.resume .finished (.resume .waited (.refl _)))
  | _, _, _, _, .simple hc step hd, _, _, hj, _, _ =>
    .begin (.started hj hc) ((step.reaches _).trans
      (.resume (.simple hd) (.resume .finished (.resume .waited (.refl _)))))
  | _, _, _, _, .called hc step hd run, _, _, hj, _, _ =>
    .begin (.started hj hc) ((step.reaches _).trans
      (.resume (.called hd) ((run.reaches _).trans (.resume .finished (.resume .waited (.refl _))))))

end

end Machine

/-! ## Runs that end are derivations

Conversely the steps up to an end are put together to a derivation, from the last one backwards. -/

/-- A task, done to its end, leads to a machine, with success or without. -/
def Task.Ends (e : Engine σ) (m : Machine σ) : Task σ → Machine σ → Bool → Prop
  | .cycle level, n, ok => Cycles e m level n ok
  | .leave level, n, ok => Cycles e (m.returnFrame none).1 level n ok
  | .runCycle level, n, ok => RunsCycle e m level n ok
  | .dispatch c i key, n, ok => Dispatches e m c i key n ok
  | .attempts invocation key pause total, n, ok => Attempts e m invocation key pause total n ok
  | .perform invocation, n, ok => Performs e m invocation n ok
  | .choose c level, n, ok =>
    match m.read c.range with
    | (o, .error _) => n = o.unwind level ∧ ok = false
    | (o, .ok v) =>
      Drives e o (.over (v.elim [] Value.elements) 0 (c.key.getD keyName) (c.value.getD valueName)) n ok
  | .drive loop, n, ok => Drives e m loop n ok
  | .passes loop f, n, ok => Passes e m loop f n ok
  | .between level loop f, n, ok =>
    match m.afterPass loop with
    | (o, some loop') => Passes e o loop' f n ok
    | (o, none) => n = o.unwind level ∧ ok = false
  | .join failed, n, ok => ok = true ∧ ∃ failed', Joins e m failed n failed'
  | .done ok', n, ok => n = m ∧ ok = ok'

/-- What the caller had to do is done, from the end of the task that it waits for. -/
def Caller.Ends (e : Engine σ) (m : Machine σ) (ok : Bool) : Caller σ → Machine σ → Bool → Prop
  | .cycle level strict, n, ok' =>
    if (ok || !strict) = true then Cycles e m level n ok' else n = m ∧ ok' = false
  | .opened outer, n, ok' => ∃ o failed, Joins e m 0 o failed ∧ n = o.withBarrier outer ∧ ok' = (ok && !o.aborted)
  | .closing outer ok₀, n, ok' => n = m.withBarrier outer ∧ ok' = (ok₀ && !m.aborted)
  | .attempts invocation key pause total, n, ok' =>
    if (ok || m.lastAttempt pause total) = true then n = m ∧ ok' = ok
    else Attempts e (m.wait pause) invocation key pause (total - pause) n ok'
  | .release _ f, n, ok' => n = m.withScopes (·.release f.scope) ∧ ok' = ok
  | .pass level loop f, n, ok' =>
    if ok = true then
      match (m.unwind level).takeBreak level with
      | (o, true) => n = o ∧ ok' = true
      | (o, false) => Task.Ends e (o.repush f) (.between level loop f) n ok'
    else n = m.unwind level ∧ ok' = false
  | .job base, n, ok' =>
    if (ok && decide (base < m.depth)) = true then RunsCycle e m base n ok' else n = m ∧ ok' = ok
  | .started _, n, ok' => n = m.finish ∧ ok' = ok
  | .waiting thread failed, n, ok' =>
    ok' = true ∧ ∃ failed', Joins e ⟨m.world, thread⟩ (if ok then failed else failed + 1) n failed'
  | .joiner, n, ok' => n = m ∧ ok' = ok

/-- All callers are done, one after the other. -/
def CallersEnd (e : Engine σ) (m : Machine σ) (ok : Bool) : List (Caller σ) → Machine σ → Bool → Prop
  | [], n, ok' => n = m ∧ ok' = ok
  | caller :: outer, n, ok' => ∃ o r, caller.Ends e m ok o r ∧ CallersEnd e o r outer n ok'

/-- Those who wait end one after the other: first the inner ones, then the outer ones, from where those have ended.
-/
theorem callersEnd_append {e : Engine σ} {m n : Machine σ} {ok ok' : Bool} {callers outer : List (Caller σ)} :
    CallersEnd e m ok (callers ++ outer) n ok' ↔
      ∃ o r, CallersEnd e m ok callers o r ∧ CallersEnd e o r outer n ok' := by
  induction callers generalizing m ok with
  | nil =>
    constructor
    · exact fun h => ⟨m, ok, ⟨rfl, rfl⟩, h⟩
    · rintro ⟨_, _, ⟨rfl, rfl⟩, h⟩
      exact h
  | cons caller callers ih =>
    simp only [List.cons_append, CallersEnd, ih]
    constructor
    · rintro ⟨o, r, hc, p, q, hcs, ho⟩
      exact ⟨p, q, ⟨o, r, hc, hcs⟩, ho⟩
    · rintro ⟨p, q, ⟨o, r, hc, hcs⟩, ho⟩
      exact ⟨o, r, hc, p, q, hcs, ho⟩

@[simp] theorem callersEnd_nil {e : Engine σ} {m n : Machine σ} {ok ok' : Bool} :
    CallersEnd e m ok [] n ok' ↔ n = m ∧ ok' = ok := Iff.rfl

@[simp] theorem callersEnd_singleton {e : Engine σ} {m n : Machine σ} {ok ok' : Bool} {caller : Caller σ} :
    CallersEnd e m ok [caller] n ok' ↔ caller.Ends e m ok n ok' := by
  simp only [CallersEnd]
  constructor
  · rintro ⟨o, r, hc, rfl, rfl⟩
    exact hc
  · intro hc
    exact ⟨n, ok', hc, rfl, rfl⟩

section

variable {e : Engine σ} {m n o p : Machine σ} {task t : Task σ} {callers : List (Caller σ)} {r q : Bool}

/-- How a cycle begins tells how it ends. -/
theorem Machine.Cycles.of_begins {level : Nat} (h : (Task.cycle level).Begins e m n t callers) (ht : t.Ends e n o r)
    (hc : CallersEnd e o r callers p q) : Cycles e m level p q := by
  cases h with
  | aborted ha =>
    obtain ⟨⟨rfl, rfl⟩, rfl, rfl⟩ := And.intro ht hc
    exact .aborted ha
  | drained ha hs =>
    obtain ⟨⟨rfl, rfl⟩, rfl, rfl⟩ := And.intro ht hc
    exact .drained ha hs
  | exhausted ha hs =>
    obtain ⟨rfl, rfl⟩ := hc
    exact .exhausted ha hs ht
  | undecodable ha hs hd =>
    obtain ⟨⟨rfl, rfl⟩, rfl, rfl⟩ := And.intro ht hc
    exact .undecodable ha hs hd
  | forked ha hs hd hp =>
    obtain ⟨rfl, rfl⟩ := hc
    exact .forked ha hs hd hp ht
  | fetched ha hs hd hp =>
    -- the cycle waits for the instruction, and goes on unless it has failed and had to succeed
    have hgo := callersEnd_singleton.1 hc
    simp only [Caller.Ends] at hgo
    split at hgo
    · next h => exact .dispatched ha hs hd hp ht h hgo
    · next h =>
      obtain ⟨rfl, rfl⟩ := hgo
      exact .failed ha hs hd hp ht (Bool.eq_false_iff.2 h)

/-- How attempts begin tells how they end. -/
theorem Machine.Attempts.of_begins {invocation : Invocation σ} {key : String} {pause total : Int64}
    (h : (Task.attempts invocation key pause total).Begins e m n t callers) (ht : t.Ends e n o r)
    (hc : CallersEnd e o r callers p q) : Attempts e m invocation key pause total p q := by
  cases h with
  | spent hspent =>
    obtain ⟨⟨rfl, rfl⟩, rfl, rfl⟩ := And.intro ht hc
    exact .spent hspent
  | tried hspent =>
    have hgo := callersEnd_singleton.1 hc
    simp only [Caller.Ends] at hgo
    cases r with
    | true =>
      obtain ⟨rfl, rfl⟩ := hgo
      exact .succeeded hspent ht
    | false =>
      -- After a failure the caller decides whether there is another attempt.
      split at hgo
      · next hl =>
        obtain ⟨rfl, rfl⟩ := hgo
        exact .gaveUp hspent ht hl
      · next hl => exact .retried hspent ht (Bool.eq_false_iff.2 hl) hgo

/-- How a command begins tells how it ends. -/
theorem Machine.Performs.of_begins {invocation : Invocation σ} (h : (Task.perform invocation).Begins e m n t callers)
    (ht : t.Ends e n o r) (hc : CallersEnd e o r callers p q) : Performs e m invocation p q := by
  cases h with
  | immediate hi =>
    obtain ⟨⟨rfl, rfl⟩, rfl, rfl⟩ := And.intro ht hc
    exact .immediate hi
  | refused hl =>
    obtain ⟨⟨rfl, rfl⟩, rfl, rfl⟩ := And.intro ht hc
    exact .refused (congrArg some hl)
  | looped hl =>
    obtain ⟨rfl, rfl⟩ := hc
    exact .looped (congrArg some hl) ht
  | rejected hl =>
    obtain ⟨⟨rfl, rfl⟩, rfl, rfl⟩ := And.intro ht hc
    refine .refused (congrArg some ?_)
    simp only [enterRange, hl]
  | ranged hl =>
    -- entering a loop over a range is one step of a derivation, with its frame and its elements
    obtain ⟨rfl, rfl⟩ := hc
    simp only [Task.Ends] at ht
    split at ht
    · next hr =>
      obtain ⟨rfl, rfl⟩ := ht
      refine .refused (congrArg some ?_)
      simp only [enterRange, hl, hr]
    · next v hr =>
      refine .looped (congrArg some ?_) ht
      simp only [enterRange, hl, hr]
      cases v <;> rfl

/-- How the passes of a loop begin tells how they end. -/
theorem Machine.Passes.of_begins {loop : Loop} {f : Frame} (h : (Task.passes loop f).Begins e m n t callers)
    (ht : t.Ends e n o r) (hc : CallersEnd e o r callers p q) : Passes e m loop f p q := by
  cases h with
  | finished hb hr =>
    obtain ⟨⟨rfl, rfl⟩, rfl, rfl⟩ := And.intro ht hc
    exact .done hb hr
  | stopped hb =>
    obtain ⟨⟨rfl, rfl⟩, rfl, rfl⟩ := And.intro ht hc
    exact .refused hb
  | passed hb =>
    have hgo := callersEnd_singleton.1 hc
    simp only [Caller.Ends] at hgo
    cases r with
    | false =>
      obtain ⟨rfl, rfl⟩ := hgo
      exact .failed hb ht
    | true =>
      -- after a body that succeeds the mark decides, and then the step to the next pass
      rw [if_pos rfl] at hgo
      split at hgo
      · next hbreak =>
        obtain ⟨rfl, rfl⟩ := hgo
        exact .broken hb ht hbreak
      · next hbreak =>
        simp only [Task.Ends] at hgo
        split at hgo
        · next hn => exact .repeated hb ht hbreak hn hgo
        · next hn =>
          obtain ⟨rfl, rfl⟩ := hgo
          exact .stuck hb ht hbreak hn

/-- How the wait for jobs begins tells how it ends. -/
theorem Machine.Joins.of_begins {failed : Nat} (h : (Task.join failed).Begins e m n t callers) (ht : t.Ends e n o r)
    (hc : CallersEnd e o r callers p q) : q = true ∧ ∃ failed', Joins e m failed p failed' := by
  cases h with
  | joined hj =>
    obtain ⟨⟨rfl, rfl⟩, rfl, rfl⟩ := And.intro ht hc
    exact ⟨rfl, _, .done hj⟩
  | worked hj =>
    obtain ⟨rfl, rfl⟩ := hc
    obtain ⟨rfl, failed', hrest⟩ := ht
    exact ⟨rfl, failed', .next hj .host hrest⟩
  | unknown hj hreg =>
    obtain ⟨rfl, rfl⟩ := ht
    obtain ⟨n', ok, ⟨rfl, rfl⟩, hwait⟩ := hc
    obtain ⟨rfl, failed', hrest⟩ := callersEnd_singleton.1 hwait
    exact ⟨rfl, failed', .next hj (.unknown hreg) hrest⟩
  | started hj hreg =>
    obtain ⟨n', ok, hjob, o', ok', ⟨rfl, rfl⟩, hwait⟩ := hc
    obtain ⟨rfl, failed', hrest⟩ := callersEnd_singleton.1 hwait
    simp only [Caller.Ends] at hjob
    -- The job goes on with the cycle of its frame if the command was a call.
    split at hjob
    · next hd => exact ⟨rfl, failed', .next hj (.called hreg ht hd hjob) hrest⟩
    · next hd =>
      obtain ⟨rfl, rfl⟩ := hjob
      exact ⟨rfl, failed', .next hj (.simple hreg ht (Bool.eq_false_iff.2 hd)) hrest⟩

/-- A task ends as what it begins with does, once those who wait for that are done. -/
theorem Task.Begins.ends (h : task.Begins e m n t callers) (ht : t.Ends e n o r) (hc : CallersEnd e o r callers p q) :
    task.Ends e m p q := by
  -- the tasks with several ways to go on have lemmas of their own
  cases task with
  | cycle => exact .of_begins h ht hc
  | attempts => exact .of_begins h ht hc
  | perform => exact .of_begins h ht hc
  | passes => exact .of_begins h ht hc
  | join => exact Joins.of_begins h ht hc
  | leave =>
    cases h
    obtain ⟨rfl, rfl⟩ := hc
    exact ht
  -- a cycle with its own barrier ends when the join behind it has
  | runCycle =>
    cases h
    obtain ⟨n', failed, hj, rfl, rfl⟩ := callersEnd_singleton.1 hc
    exact .closed ht hj
  | dispatch =>
    cases h with
    | unprepared hp =>
      obtain ⟨⟨rfl, rfl⟩, rfl, rfl⟩ := And.intro ht hc
      exact .unprepared hp
    | prepared hp =>
      obtain ⟨rfl, rfl⟩ := hc
      exact .prepared hp ht
  | choose =>
    cases h with
    | unreadable hr =>
      obtain ⟨⟨rfl, rfl⟩, rfl, rfl⟩ := And.intro ht hc
      simp [Task.Ends, hr]
    | chosen hr =>
      obtain ⟨rfl, rfl⟩ := hc
      simp only [Task.Ends, hr]
      exact ht
  | drive =>
    cases h with
    | frameless hf =>
      obtain ⟨⟨rfl, rfl⟩, rfl, rfl⟩ := And.intro ht hc
      exact .frameless hf
    | driven hf =>
      obtain ⟨rfl, rfl⟩ := callersEnd_singleton.1 hc
      exact .driven hf ht
  | between =>
    cases h with
    | again hn =>
      obtain ⟨rfl, rfl⟩ := hc
      simp only [Task.Ends, hn]
      exact ht
    | stuck hn =>
      obtain ⟨⟨rfl, rfl⟩, rfl, rfl⟩ := And.intro ht hc
      simp [Task.Ends, hn]
  | done => cases h

end

/-- A caller is done as soon as what it goes on with is, and those who wait for that are. -/
theorem Caller.Resumes.ends {e : Engine σ} {m n o p : Machine σ} {ok : Bool} {caller : Caller σ} {t : Task σ}
    {callers : List (Caller σ)} {r q : Bool} (h : caller.Resumes m ok n t callers) (ht : t.Ends e n o r)
    (hc : CallersEnd e o r callers p q) : caller.Ends e m ok p q := by
  -- Whoever goes on with a task is done when that task is; the others are done at once.
  cases h with
  | joins =>
    obtain ⟨rfl, failed, hj⟩ := ht
    obtain ⟨rfl, rfl⟩ := callersEnd_singleton.1 hc
    exact ⟨o, failed, hj, rfl, rfl⟩
  | advanced hgo =>
    obtain ⟨rfl, rfl⟩ := hc
    simp only [Caller.Ends, if_pos hgo]
    exact ht
  | failed hstop =>
    obtain ⟨rfl, rfl⟩ := ht
    obtain ⟨rfl, rfl⟩ := hc
    simp [Caller.Ends, hstop]
  | closed =>
    obtain ⟨rfl, rfl⟩ := ht
    obtain ⟨rfl, rfl⟩ := hc
    exact ⟨rfl, rfl⟩
  | succeeded =>
    obtain ⟨rfl, rfl⟩ := ht
    obtain ⟨rfl, rfl⟩ := hc
    exact ⟨rfl, rfl⟩
  | gaveUp hl =>
    obtain ⟨rfl, rfl⟩ := ht
    obtain ⟨rfl, rfl⟩ := hc
    simp [Caller.Ends, Bool.false_or, if_pos hl]
  | retried hl =>
    obtain ⟨rfl, rfl⟩ := hc
    simp only [Caller.Ends, Bool.false_or, hl]
    exact ht
  | released =>
    obtain ⟨rfl, rfl⟩ := ht
    obtain ⟨rfl, rfl⟩ := hc
    exact ⟨rfl, rfl⟩
  | unwound =>
    obtain ⟨rfl, rfl⟩ := ht
    obtain ⟨rfl, rfl⟩ := hc
    exact ⟨rfl, rfl⟩
  | broken hbreak =>
    obtain ⟨rfl, rfl⟩ := ht
    obtain ⟨rfl, rfl⟩ := hc
    simp [Caller.Ends, hbreak]
  | put hbreak =>
    obtain ⟨rfl, rfl⟩ := hc
    simp only [Caller.Ends, hbreak]
    exact ht
  | called hd =>
    obtain ⟨rfl, rfl⟩ := hc
    simp only [Caller.Ends, if_pos hd]
    exact ht
  | simple hd =>
    obtain ⟨rfl, rfl⟩ := ht
    obtain ⟨rfl, rfl⟩ := hc
    simp [Caller.Ends, hd]
  | finished =>
    obtain ⟨rfl, rfl⟩ := ht
    obtain ⟨rfl, rfl⟩ := hc
    exact ⟨rfl, rfl⟩
  | waited =>
    obtain ⟨rfl, rfl⟩ := hc
    exact ht

namespace Snapshot

variable {e : Engine σ}

/-- The run from a snapshot ends, with all that wait in it. -/
def Ends (e : Engine σ) (s : Snapshot σ) (n : Machine σ) (ok : Bool) : Prop :=
  ∃ o r, s.task.Ends e s.machine o r ∧ CallersEnd e o r s.callers n ok

/-- If a run ends after a step as its task would by the rules, it does so from before the step. This goes through a
run from its last step to its first. -/
theorem Step.ends {s t : Snapshot σ} {n : Machine σ} {ok : Bool} (h : Step e s t) (ht : t.Ends e n ok) :
    s.Ends e n ok := by
  obtain ⟨o, r, htask, hcallers⟩ := ht
  cases h with
  | begin hb outer =>
    obtain ⟨p, q, hc, houter⟩ := callersEnd_append.1 hcallers
    exact ⟨p, q, hb.ends htask hc, houter⟩
  | resume hr outer =>
    obtain ⟨p, q, hc, houter⟩ := callersEnd_append.1 hcallers
    exact ⟨_, _, ⟨rfl, rfl⟩, p, q, hr.ends htask hc, houter⟩

/-- A run that has come to its end has ended as the rules say. -/
theorem Reaches.ends {m n : Machine σ} {task : Task σ} {ok : Bool}
    (h : Reaches e ⟨m, task, []⟩ ⟨n, .done ok, []⟩) : task.Ends e m n ok := by
  have hends : Ends e ⟨m, task, []⟩ n ok := by
    refine Relation.ReflTransGen.head_induction_on h ⟨n, ok, ⟨rfl, rfl⟩, rfl, rfl⟩ fun hstep _ ih => hstep.ends ih
  obtain ⟨o, r, htask, rfl, rfl⟩ := hends
  exact htask

end Snapshot

namespace Machine

open Snapshot

variable {e : Engine σ} {m n : Machine σ} {ok : Bool}

/-- A cycle with a barrier of its own ends exactly as its run does. -/
theorem runsCycle_iff {level : Nat} :
    RunsCycle e m level n ok ↔ Reaches e ⟨m, .runCycle level, []⟩ ⟨n, .done ok, []⟩ :=
  ⟨fun h => h.reaches [], fun h => h.ends⟩

/-- A loop ends exactly as its run does. -/
theorem drives_iff {loop : Loop} : Drives e m loop n ok ↔ Reaches e ⟨m, .drive loop, []⟩ ⟨n, .done ok, []⟩ :=
  ⟨fun h => h.reaches [], fun h => h.ends⟩

end Machine
end Sequencer
