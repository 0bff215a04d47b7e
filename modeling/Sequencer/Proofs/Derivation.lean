import Sequencer.Run

/-!
# Runs as derivations

The functions that run instructions count down some fuel. Here is the same without fuel: a family of
relations with one rule for each way through each function. A run that ends with some fuel is a
derivation, and a derivation gives the result with all fuel from some amount on, so that the two agree.
What is proved about all runs is proved by induction on derivations.
-/

namespace Sequencer
namespace Machine

variable {σ : Type}

/-- The first job of the barrier leaves it, and nothing else changes. -/
theorem barrier_of_nextJob {m n : Machine σ} {job : Job σ} (h : m.nextJob = some (job, n)) :
    ∃ rest, m.thread.barrier = some ⟨job :: rest⟩ ∧ n = m.withBarrier (some ⟨rest⟩) := by
  unfold nextJob at h
  split at h
  · next job rest hb =>
    cases h
    exact ⟨rest, hb, rfl⟩
  · cases h

/-- The oldest job comes first. -/
theorem nextJob_of_barrier {m : Machine σ} {job : Job σ} {rest : List (Job σ)}
    (h : m.thread.barrier = some ⟨job :: rest⟩) : m.nextJob = some (job, m.withBarrier (some ⟨rest⟩)) := by
  unfold nextJob
  rw [h]

/-- A new barrier waits for nothing. -/
theorem nextJob_of_new {m : Machine σ} (h : m.thread.barrier = some .new) : m.nextJob = none := by
  unfold nextJob
  rw [h]
  rfl

/-- Without a barrier there is nothing to wait for. -/
theorem nextJob_of_no_barrier {m : Machine σ} (h : m.thread.barrier = none) : m.nextJob = none := by
  unfold nextJob
  rw [h]

/-- An attempt of a command that runs no instructions itself. -/
def immediate (m : Machine σ) : Invocation σ → Option (Machine σ × Bool)
  | .call c => some (m.performCall c)
  | .branch p c => some (m.performBranch p c)
  | .switch c => some (m.performSwitch c)
  | .leave names => some (m.returnEarly (if names.isEmpty then none else some names))
  | .void => some (m, true)
  | .breakLoop => some m.breakLoop
  | .var c => some (m.performVar c)
  | .host run => some (m.performHost run)
  | .loopFor _ => none
  | .loopRange _ => none

/-- The beginning of a loop, which fails or gives the passes to come. -/
def entered (m : Machine σ) : Invocation σ → Option (Machine σ × Option Loop)
  | .loopFor c => some (m.enterFor c)
  | .loopRange c => some (m.enterRange c)
  | _ => none

/-! ## Rules

One relation for each function of the interpreter, and one rule for each of its branches. The fuel is not in the
rules. -/

mutual

/-- A cycle from a level upwards. -/
inductive Cycles (e : Engine σ) : Machine σ → Nat → Machine σ → Bool → Prop
  | aborted {m level} (ha : m.aborted = true) : Cycles e m level m false
  | drained {m level n} (ha : m.aborted = false) (hs : m.nextStep level = (n, .drained)) :
      Cycles e m level n true
  | exhausted {m level n o ok} (ha : m.aborted = false) (hs : m.nextStep level = (n, .exhausted))
      (rest : Cycles e (n.returnFrame none).1 level o ok) : Cycles e m level o ok
  | undecodable {m level n key text} (ha : m.aborted = false)
      (hs : m.nextStep level = (n, .instruction key text)) (hd : n.decode e text = none) :
      Cycles e m level n false
  | forked {m level n key text i c o ok} (ha : m.aborted = false)
      (hs : m.nextStep level = (n, .instruction key text)) (hd : n.decode e text = some (i, c))
      (hp : (i.parallel && !c.isAsync) = true) (rest : Cycles e (n.forkInstruction i key) level o ok) :
      Cycles e m level o ok
  | dispatched {m level n key text i c n' ok' o ok} (ha : m.aborted = false)
      (hs : m.nextStep level = (n, .instruction key text)) (hd : n.decode e text = some (i, c))
      (hp : (i.parallel && !c.isAsync) = false) (step : Dispatches e n c i key n' ok')
      (hgo : (ok' || !i.strict) = true) (rest : Cycles e n' level o ok) : Cycles e m level o ok
  | failed {m level n key text i c n' ok'} (ha : m.aborted = false)
      (hs : m.nextStep level = (n, .instruction key text)) (hd : n.decode e text = some (i, c))
      (hp : (i.parallel && !c.isAsync) = false) (step : Dispatches e n c i key n' ok')
      (hstop : (ok' || !i.strict) = false) : Cycles e m level n' false

/-- A cycle with a barrier of its own, and the jobs that it leaves there. -/
inductive RunsCycle (e : Engine σ) : Machine σ → Nat → Machine σ → Bool → Prop
  | closed {m level n ok o failed} (run : Cycles e (m.withBarrier (some .new)) level n ok)
      (jobs : Joins e n 0 o failed) :
      RunsCycle e m level (o.withBarrier m.thread.barrier) (ok && !o.aborted)

/-- A command that is prepared and tried within its budget. -/
inductive Dispatches (e : Engine σ) :
    Machine σ → Command σ → Instruction → String → Machine σ → Bool → Prop
  | unprepared {m c i key n err} (hp : m.prepare e c i key = (n, .error err)) :
      Dispatches e m c i key n false
  | prepared {m c i key n invocation o ok} (hp : m.prepare e c i key = (n, .ok invocation))
      (run : Attempts e n invocation key i.timing.pause i.timing.total o ok) : Dispatches e m c i key o ok

/-- Attempts of a command for as long as its budget lasts. -/
inductive Attempts (e : Engine σ) :
    Machine σ → Invocation σ → String → Int64 → Int64 → Machine σ → Bool → Prop
  | spent {m invocation key pause total} (ht : total < 0) :
      Attempts e m invocation key pause total m false
  | succeeded {m invocation key pause total n} (ht : ¬total < 0)
      (run : Performs e (m.note (.attempted m.thread.id key)) invocation n true) :
      Attempts e m invocation key pause total n true
  | gaveUp {m invocation key pause total n} (ht : ¬total < 0)
      (run : Performs e (m.note (.attempted m.thread.id key)) invocation n false)
      (hl : n.lastAttempt pause total = true) : Attempts e m invocation key pause total n false
  | retried {m invocation key pause total n o ok} (ht : ¬total < 0)
      (run : Performs e (m.note (.attempted m.thread.id key)) invocation n false)
      (hl : n.lastAttempt pause total = false)
      (rest : Attempts e (n.wait pause) invocation key pause (total - pause) o ok) :
      Attempts e m invocation key pause total o ok

/-- One attempt of a command. -/
inductive Performs (e : Engine σ) : Machine σ → Invocation σ → Machine σ → Bool → Prop
  | immediate {m invocation n ok} (hi : m.immediate invocation = some (n, ok)) :
      Performs e m invocation n ok
  | refused {m invocation n} (hl : m.entered invocation = some (n, none)) :
      Performs e m invocation n false
  | looped {m invocation n loop o ok} (hl : m.entered invocation = some (n, some loop))
      (run : Drives e n loop o ok) : Performs e m invocation o ok

/-- A loop from the first of its passes to its end. -/
inductive Drives (e : Engine σ) : Machine σ → Loop → Machine σ → Bool → Prop
  | frameless {m loop} (hf : m.disown.frames = []) : Drives e m loop m false
  | driven {m loop f below n ok} (hf : m.disown.frames = f :: below)
      (run : Passes e m.disown loop f n ok) : Drives e m loop (n.withScopes (·.release f.scope)) ok

/-- Passes of a loop, with the frame that each pass begins with. -/
inductive Passes (e : Engine σ) : Machine σ → Loop → Frame → Machine σ → Bool → Prop
  | done {m loop f n o ok} (hb : m.beforePass loop = (n, .done))
      (hr : (n.setLooping false).returnFrame none = (o, ok)) : Passes e m loop f o ok
  | refused {m loop f n} (hb : m.beforePass loop = (n, .fail)) :
      Passes e m loop f (n.unwind (m.depth - 1)) false
  | failed {m loop f n o} (hb : m.beforePass loop = (n, .run))
      (run : RunsCycle e n (m.depth - 1) o false) : Passes e m loop f (o.unwind (m.depth - 1)) false
  | broken {m loop f n o n'} (hb : m.beforePass loop = (n, .run))
      (run : RunsCycle e n (m.depth - 1) o true)
      (ht : (o.unwind (m.depth - 1)).takeBreak (m.depth - 1) = (n', true)) : Passes e m loop f n' true
  | repeated {m loop f n o n' q loop' o' ok} (hb : m.beforePass loop = (n, .run))
      (run : RunsCycle e n (m.depth - 1) o true)
      (ht : (o.unwind (m.depth - 1)).takeBreak (m.depth - 1) = (n', false))
      (hn : (n'.repush f).afterPass loop = (q, some loop')) (rest : Passes e q loop' f o' ok) :
      Passes e m loop f o' ok
  | stuck {m loop f n o n' q} (hb : m.beforePass loop = (n, .run))
      (run : RunsCycle e n (m.depth - 1) o true)
      (ht : (o.unwind (m.depth - 1)).takeBreak (m.depth - 1) = (n', false))
      (hn : (n'.repush f).afterPass loop = (q, none)) :
      Passes e m loop f (q.unwind (m.depth - 1)) false

/-- All jobs of a barrier, counting those that fail. -/
inductive Joins (e : Engine σ) : Machine σ → Nat → Machine σ → Nat → Prop
  | done {m failed} (hj : m.nextJob = none) : Joins e m failed m failed
  | next {m failed job n w ok o failed'} (hj : m.nextJob = some (job, n))
      (run : RunsJob e n.world job w ok)
      (rest : Joins e { n with world := w } (if ok then failed else failed + 1) o failed') :
      Joins e m failed o failed'

/-- A job on a thread of its own. -/
inductive RunsJob (e : Engine σ) : World σ → Job σ → World σ → Bool → Prop
  | host {w work} : RunsJob e w (.host work) { w with host := (work w.host).1 } (work w.host).2
  | unknown {w thread frames i key} (hc : e.registry.get? i.command = none) :
      RunsJob e w (.instruction thread frames i key)
        (finish (⟨w, { Thread.new thread with frames }⟩ : Machine σ)).world false
  | simple {w thread frames i key c n ok} (hc : e.registry.get? i.command = some c)
      (step : Dispatches e ⟨w, { Thread.new thread with frames }⟩ c i key n ok)
      (hd : (ok && decide (frames.length < n.depth)) = false) :
      RunsJob e w (.instruction thread frames i key) n.finish.world ok
  | called {w thread frames i key c n ok o ok'} (hc : e.registry.get? i.command = some c)
      (step : Dispatches e ⟨w, { Thread.new thread with frames }⟩ c i key n ok)
      (hd : (ok && decide (frames.length < n.depth)) = true)
      (run : RunsCycle e n frames.length o ok') :
      RunsJob e w (.instruction thread frames i key) o.finish.world ok'

end

/-! ## A run that ends is a derivation

Whatever a function returns with any fuel is derived. -/

/-- An attempt either is immediate or begins a loop. -/
theorem perform_succ (e : Engine σ) (fuel : Nat) (m : Machine σ) (invocation : Invocation σ) :
    perform e (fuel + 1) m invocation =
      match m.immediate invocation with
      | some r => some r
      | none =>
        match m.entered invocation with
        | some (n, some loop) => drive e fuel n loop
        | some (n, none) => some (n, false)
        | none => none := by
  unfold perform immediate entered
  cases invocation with
  | loopFor c =>
    simp only
    rcases m.enterFor c with ⟨n, _ | loop⟩ <;> rfl
  | loopRange c =>
    simp only
    rcases m.enterRange c with ⟨n, _ | loop⟩ <;> rfl
  | _ => rfl

/-- What enters a loop is not done at once. -/
theorem immediate_of_entered {m : Machine σ} {invocation : Invocation σ}
    {r : Machine σ × Option Loop} (h : m.entered invocation = some r) :
    m.immediate invocation = none := by
  unfold entered at h
  cases invocation with
  | loopFor c => rfl
  | loopRange c => rfl
  | _ => cases h

mutual

/-- The induction is on the fuel, which all of these functions count down together. Where a call has returned, its
rule applies; where the fuel was spent, there is nothing to derive. -/
theorem cycles_of_cycle {e : Engine σ} : ∀ (fuel : Nat) {m : Machine σ} {level : Nat} {n : Machine σ}
    {ok : Bool}, cycle e fuel m level = some (n, ok) → Cycles e m level n ok
  | 0, m, level, n, ok, h => by
    rw [cycle] at h
    cases h
  | fuel + 1, m, level, n, ok, h => by
    rw [cycle] at h
    cases ha : m.aborted with
    | true =>
      rw [if_pos ha] at h
      cases h
      exact .aborted ha
    | false =>
      rw [if_neg (by simp [ha])] at h
      split at h
      · next hs =>
        cases h
        exact .drained ha hs
      · next hs => exact .exhausted ha hs (cycles_of_cycle fuel h)
      · next m' key text hs =>
        split at h
        · next hd =>
          cases h
          exact .undecodable ha hs hd
        · next i c hd =>
          -- A command that is asynchronous by itself is never forked.
          cases hp : i.parallel && !c.isAsync with
          | true =>
            rw [if_pos hp] at h
            exact .forked ha hs hd hp (cycles_of_cycle fuel h)
          | false =>
            rw [if_neg (by simp [hp])] at h
            split at h
            · cases h
            · next n' ok' hstep =>
              have step := dispatches_of_dispatch fuel hstep
              -- Only a strict instruction that fails stops the cycle.
              cases hgo : ok' || !i.strict with
              | true =>
                rw [if_pos hgo] at h
                exact .dispatched ha hs hd hp step hgo (cycles_of_cycle fuel h)
              | false =>
                rw [if_neg (by simp [hgo])] at h
                cases h
                exact .failed ha hs hd hp step hgo

/-- A cycle with a barrier of its own, and the join behind it. -/
theorem runsCycle_of_runCycle {e : Engine σ} : ∀ (fuel : Nat) {m : Machine σ} {level : Nat}
    {n : Machine σ} {ok : Bool}, runCycle e fuel m level = some (n, ok) → RunsCycle e m level n ok
  | 0, m, level, n, ok, h => by
    rw [runCycle] at h
    cases h
  | fuel + 1, m, level, n, ok, h => by
    rw [runCycle] at h
    split at h
    · cases h
    · next hrun =>
      split at h
      · cases h
      · next hjobs =>
        cases h
        exact .closed (cycles_of_cycle fuel hrun) (joins_of_join fuel hjobs)

/-- An instruction with its preparation. -/
theorem dispatches_of_dispatch {e : Engine σ} : ∀ (fuel : Nat) {m : Machine σ} {c : Command σ}
    {i : Instruction} {key : String} {n : Machine σ} {ok : Bool},
    dispatch e fuel m c i key = some (n, ok) → Dispatches e m c i key n ok
  | 0, m, c, i, key, n, ok, h => by
    rw [dispatch] at h
    cases h
  | fuel + 1, m, c, i, key, n, ok, h => by
    rw [dispatch] at h
    split at h
    · next hp =>
      cases h
      exact .unprepared hp
    · next hp => exact .prepared hp (attempts_of_attempts fuel h)

/-- One attempt, or one and the others. -/
theorem attempts_of_attempts {e : Engine σ} : ∀ (fuel : Nat) {m : Machine σ}
    {invocation : Invocation σ} {key : String} {pause total : Int64} {n : Machine σ} {ok : Bool},
    attempts e fuel m invocation key pause total = some (n, ok) →
      Attempts e m invocation key pause total n ok
  | 0, m, invocation, key, pause, total, n, ok, h => by
    rw [attempts] at h
    cases h
  | fuel + 1, m, invocation, key, pause, total, n, ok, h => by
    rw [attempts] at h
    by_cases ht : total < 0
    · rw [if_pos ht] at h
      cases h
      exact .spent ht
    · rw [if_neg ht] at h
      split at h
      · cases h
      · next hrun =>
        cases h
        exact .succeeded ht (performs_of_perform fuel hrun)
      · next n' hrun =>
        have run := performs_of_perform fuel hrun
        -- After a failure there is a wait and another attempt, or an end.
        cases hl : n'.lastAttempt pause total with
        | true =>
          rw [if_pos hl] at h
          cases h
          exact .gaveUp ht run hl
        | false =>
          rw [if_neg (by simp [hl])] at h
          exact .retried ht run hl (attempts_of_attempts fuel h)

/-- A command that is done at once, or a loop. -/
theorem performs_of_perform {e : Engine σ} : ∀ (fuel : Nat) {m : Machine σ}
    {invocation : Invocation σ} {n : Machine σ} {ok : Bool},
    perform e fuel m invocation = some (n, ok) → Performs e m invocation n ok
  | 0, m, invocation, n, ok, h => by
    rw [perform] at h
    cases h
  | fuel + 1, m, invocation, n, ok, h => by
    rw [perform_succ] at h
    split at h
    · next hi =>
      cases h
      exact .immediate hi
    · split at h
      · next hl => exact .looped hl (drives_of_drive fuel h)
      · next hl =>
        cases h
        exact .refused hl
      · cases h

/-- A loop that has a frame. -/
theorem drives_of_drive {e : Engine σ} : ∀ (fuel : Nat) {m : Machine σ} {loop : Loop}
    {n : Machine σ} {ok : Bool}, drive e fuel m loop = some (n, ok) → Drives e m loop n ok
  | 0, m, loop, n, ok, h => by
    rw [drive] at h
    cases h
  | fuel + 1, m, loop, n, ok, h => by
    rw [drive] at h
    split at h
    · next hf =>
      cases h
      exact .frameless hf
    · next hf =>
      split at h
      · cases h
      · next hrun =>
        cases h
        exact .driven hf (passes_of_passes fuel hrun)

/-- One pass, or one and the others. -/
theorem passes_of_passes {e : Engine σ} : ∀ (fuel : Nat) {m : Machine σ} {loop : Loop} {f : Frame}
    {n : Machine σ} {ok : Bool}, passes e fuel m loop f = some (n, ok) → Passes e m loop f n ok
  | 0, m, loop, f, n, ok, h => by
    rw [passes] at h
    cases h
  | fuel + 1, m, loop, f, n, ok, h => by
    rw [passes] at h
    -- What comes in front of a pass decides whether there is one.
    split at h
    · next hb => exact .done hb (Option.some.inj h)
    · next hb =>
      cases h
      exact .refused hb
    · next hb =>
      split at h
      · cases h
      · next hrun =>
        cases h
        exact .failed hb (runsCycle_of_runCycle fuel hrun)
      · next hrun =>
        have run := runsCycle_of_runCycle fuel hrun
        split at h
        · next ht =>
          cases h
          exact .broken hb run ht
        · next ht =>
          split at h
          · next hn => exact .repeated hb run ht hn (passes_of_passes fuel h)
          · next hn =>
            cases h
            exact .stuck hb run ht hn

/-- One job, or one and the others. -/
theorem joins_of_join {e : Engine σ} : ∀ (fuel : Nat) {m : Machine σ} {failed : Nat} {n : Machine σ}
    {failed' : Nat}, join e fuel m failed = some (n, failed') → Joins e m failed n failed'
  | 0, m, failed, n, failed', h => by
    rw [join] at h
    cases h
  | fuel + 1, m, failed, n, failed', h => by
    rw [join] at h
    split at h
    · next hj =>
      cases h
      exact .done hj
    · next hj =>
      split at h
      · cases h
      · next hrun => exact .next hj (runsJob_of_runJob fuel hrun) (joins_of_join fuel h)

/-- A job runs on a thread of its own. -/
theorem runsJob_of_runJob {e : Engine σ} : ∀ (fuel : Nat) {w : World σ} {job : Job σ} {v : World σ}
    {ok : Bool}, runJob e fuel w job = some (v, ok) → RunsJob e w job v ok
  | 0, w, job, v, ok, h => by
    rw [runJob] at h
    cases h
  | fuel + 1, w, job, v, ok, h => by
    cases job with
    | host work =>
      rw [runJob] at h
      cases h
      exact .host
    | instruction thread frames i key =>
      rw [runJob] at h
      split at h
      · next hc =>
        cases h
        exact .unknown hc
      · next hc =>
        split at h
        · cases h
        · next n' ok' hstep =>
          have step := dispatches_of_dispatch fuel hstep
          -- A call has pushed a frame, which the job has to run; any other command is done.
          cases hd : ok' && decide (frames.length < n'.depth) with
          | true =>
            rw [if_pos hd] at h
            split at h
            · cases h
            · next hrun =>
              cases h
              exact .called hc step hd (runsCycle_of_runCycle fuel hrun)
          | false =>
            rw [if_neg (by simp [hd])] at h
            cases h
            exact .simple hc step hd

end

/-! ## A derivation is a run that ends

For what is derived there is fuel enough, and with more fuel the result is the same. -/

/-- From some amount of fuel on, a run has a result. -/
def Enough {α : Type} (run : Nat → Option α) (x : α) : Prop :=
  ∃ bound, ∀ fuel, bound ≤ fuel → run fuel = some x

/-- A bound on the fuel, written as one. -/
theorem Enough.bound {α : Type} {run : Nat → Option α} {x : α} (h : Enough run x) :
    ∃ bound, ∀ fuel, bound ≤ fuel → run fuel = some x := h

/-- One step more needs one unit more. -/
theorem enough_of_succ {α : Type} {run : Nat → Option α} {x : α} (bound : Nat)
    (h : ∀ fuel, bound ≤ fuel → run (fuel + 1) = some x) : Enough run x := by
  refine ⟨bound + 1, fun fuel hfuel => ?_⟩
  obtain ⟨k, rfl⟩ := Nat.exists_eq_add_of_lt hfuel
  exact h (bound + k) (Nat.le_add_right bound k)

mutual

/-- The fuel of the parts is enough for all of them, so that the larger one is enough for the whole. -/
theorem Cycles.settles {e : Engine σ} : ∀ {m : Machine σ} {level : Nat} {n : Machine σ} {ok : Bool},
    Cycles e m level n ok → Enough (cycle e · m level) (n, ok)
  -- each rule has its equation, with one unit of fuel for the call itself
  | _, _, _, _, .aborted ha => enough_of_succ 0 fun fuel _ => by
    rw [cycle, if_pos ha]
  | _, _, _, _, .drained ha hs => enough_of_succ 0 fun fuel _ => by
    rw [cycle, if_neg (by simp [ha])]
    simp only [hs]
  | _, _, _, _, .exhausted ha hs rest => by
    obtain ⟨bound, hrest⟩ := rest.settles.bound
    refine enough_of_succ bound fun fuel hfuel => ?_
    rw [cycle, if_neg (by simp [ha])]
    simp only [hs]
    exact hrest fuel hfuel
  | _, _, _, _, .undecodable ha hs hd => enough_of_succ 0 fun fuel _ => by
    rw [cycle, if_neg (by simp [ha])]
    simp only [hs, hd]
  | _, _, _, _, .forked ha hs hd hp rest => by
    obtain ⟨bound, hrest⟩ := rest.settles.bound
    refine enough_of_succ bound fun fuel hfuel => ?_
    rw [cycle, if_neg (by simp [ha])]
    simp only [hs, hd]
    rw [if_pos hp]
    exact hrest fuel hfuel
  | _, _, _, _, .dispatched ha hs hd hp step hgo rest => by
    obtain ⟨a, hstep⟩ := step.settles.bound
    obtain ⟨b, hrest⟩ := rest.settles.bound
    -- the fuel that is enough for both parts
    refine enough_of_succ (max a b) fun fuel hfuel => ?_
    rw [cycle, if_neg (by simp [ha])]
    simp only [hs, hd]
    rw [if_neg (by simp [hp]), hstep fuel (Nat.max_le.1 hfuel).1]
    simp only
    rw [if_pos hgo]
    exact hrest fuel (Nat.max_le.1 hfuel).2
  | _, _, _, _, .failed ha hs hd hp step hstop => by
    obtain ⟨a, hstep⟩ := step.settles.bound
    refine enough_of_succ a fun fuel hfuel => ?_
    rw [cycle, if_neg (by simp [ha])]
    simp only [hs, hd]
    rw [if_neg (by simp [hp]), hstep fuel hfuel]
    simp only
    rw [if_neg (by simp [hstop])]

/-- The cycle and the join have the same fuel. -/
theorem RunsCycle.settles {e : Engine σ} : ∀ {m : Machine σ} {level : Nat} {n : Machine σ} {ok : Bool},
    RunsCycle e m level n ok → Enough (runCycle e · m level) (n, ok)
  | _, _, _, _, .closed run jobs => by
    obtain ⟨a, hrun⟩ := run.settles.bound
    obtain ⟨b, hjobs⟩ := jobs.settles.bound
    refine enough_of_succ (max a b) fun fuel hfuel => ?_
    rw [runCycle, hrun fuel (Nat.max_le.1 hfuel).1]
    simp only
    rw [hjobs fuel (Nat.max_le.1 hfuel).2]
    rfl

/-- The attempts get what is left after the preparation. -/
theorem Dispatches.settles {e : Engine σ} : ∀ {m : Machine σ} {c : Command σ} {i : Instruction}
    {key : String} {n : Machine σ} {ok : Bool}, Dispatches e m c i key n ok →
      Enough (dispatch e · m c i key) (n, ok)
  | _, _, _, _, _, _, .unprepared hp => enough_of_succ 0 fun fuel _ => by
    rw [dispatch]
    simp only [hp]
  | _, _, _, _, _, _, .prepared hp run => by
    obtain ⟨bound, hrun⟩ := run.settles.bound
    refine enough_of_succ bound fun fuel hfuel => ?_
    rw [dispatch]
    simp only [hp]
    exact hrun fuel hfuel

/-- The others get what is left after the first. -/
theorem Attempts.settles {e : Engine σ} : ∀ {m : Machine σ} {invocation : Invocation σ}
    {key : String} {pause total : Int64} {n : Machine σ} {ok : Bool},
    Attempts e m invocation key pause total n ok →
      Enough (attempts e · m invocation key pause total) (n, ok)
  | _, _, _, _, _, _, _, .spent ht => enough_of_succ 0 fun fuel _ => by
    rw [attempts, if_pos ht]
  | _, _, _, _, _, _, _, .succeeded ht run => by
    obtain ⟨bound, hrun⟩ := run.settles.bound
    refine enough_of_succ bound fun fuel hfuel => ?_
    rw [attempts, if_neg ht, hrun fuel hfuel]
  | _, _, _, _, _, _, _, .gaveUp ht run hl => by
    obtain ⟨bound, hrun⟩ := run.settles.bound
    refine enough_of_succ bound fun fuel hfuel => ?_
    rw [attempts, if_neg ht, hrun fuel hfuel]
    simp only
    rw [if_pos hl]
  | _, _, _, _, _, _, _, .retried ht run hl rest => by
    obtain ⟨a, hrun⟩ := run.settles.bound
    obtain ⟨b, hrest⟩ := rest.settles.bound
    refine enough_of_succ (max a b) fun fuel hfuel => ?_
    rw [attempts, if_neg ht, hrun fuel (Nat.max_le.1 hfuel).1]
    simp only
    rw [if_neg (by simp [hl])]
    exact hrest fuel (Nat.max_le.1 hfuel).2

/-- A loop gets what is left for its frame. -/
theorem Performs.settles {e : Engine σ} : ∀ {m : Machine σ} {invocation : Invocation σ}
    {n : Machine σ} {ok : Bool}, Performs e m invocation n ok →
      Enough (perform e · m invocation) (n, ok)
  | _, _, _, _, .immediate hi => enough_of_succ 0 fun fuel _ => by
    rw [perform_succ]
    simp only [hi]
  | m, invocation, _, _, .refused hl => enough_of_succ 0 fun fuel _ => by
    rw [perform_succ, immediate_of_entered hl]
    simp only [hl]
  | m, invocation, _, _, .looped hl run => by
    obtain ⟨bound, hrun⟩ := run.settles.bound
    refine enough_of_succ bound fun fuel hfuel => ?_
    rw [perform_succ, immediate_of_entered hl]
    simp only [hl]
    exact hrun fuel hfuel

/-- Its passes get as much. -/
theorem Drives.settles {e : Engine σ} : ∀ {m : Machine σ} {loop : Loop} {n : Machine σ} {ok : Bool},
    Drives e m loop n ok → Enough (drive e · m loop) (n, ok)
  | _, _, _, _, .frameless hf => enough_of_succ 0 fun fuel _ => by
    rw [drive]
    simp only [hf]
  | _, _, _, _, .driven hf run => by
    obtain ⟨bound, hrun⟩ := run.settles.bound
    refine enough_of_succ bound fun fuel hfuel => ?_
    rw [drive]
    simp only [hf]
    rw [hrun fuel hfuel]

/-- The next pass gets what is left after one. -/
theorem Passes.settles {e : Engine σ} : ∀ {m : Machine σ} {loop : Loop} {f : Frame} {n : Machine σ}
    {ok : Bool}, Passes e m loop f n ok → Enough (passes e · m loop f) (n, ok)
  -- the same with the calls of a pass
  | _, _, _, _, _, .done hb hr => enough_of_succ 0 fun fuel _ => by
    rw [passes]
    simp only [hb]
    rw [hr]
  | _, _, _, _, _, .refused hb => enough_of_succ 0 fun fuel _ => by
    rw [passes]
    simp only [hb]
  | _, _, _, _, _, .failed hb run => by
    obtain ⟨bound, hrun⟩ := run.settles.bound
    refine enough_of_succ bound fun fuel hfuel => ?_
    rw [passes]
    simp only [hb]
    rw [hrun fuel hfuel]
  | _, _, _, _, _, .broken hb run ht => by
    obtain ⟨bound, hrun⟩ := run.settles.bound
    refine enough_of_succ bound fun fuel hfuel => ?_
    rw [passes]
    simp only [hb]
    rw [hrun fuel hfuel]
    simp only [ht]
  | _, _, _, _, _, .repeated hb run ht hn rest => by
    obtain ⟨a, hrun⟩ := run.settles.bound
    obtain ⟨b, hrest⟩ := rest.settles.bound
    refine enough_of_succ (max a b) fun fuel hfuel => ?_
    rw [passes]
    simp only [hb]
    rw [hrun fuel (Nat.max_le.1 hfuel).1]
    simp only [ht, hn]
    exact hrest fuel (Nat.max_le.1 hfuel).2
  | _, _, _, _, _, .stuck hb run ht hn => by
    obtain ⟨bound, hrun⟩ := run.settles.bound
    refine enough_of_succ bound fun fuel hfuel => ?_
    rw [passes]
    simp only [hb]
    rw [hrun fuel hfuel]
    simp only [ht, hn]

/-- The next job gets what is left after one. -/
theorem Joins.settles {e : Engine σ} : ∀ {m : Machine σ} {failed : Nat} {n : Machine σ} {failed' : Nat},
    Joins e m failed n failed' → Enough (join e · m failed) (n, failed')
  | _, _, _, _, .done hj => enough_of_succ 0 fun fuel _ => by
    rw [join]
    simp only [hj]
  | _, _, _, _, .next hj run rest => by
    obtain ⟨a, hrun⟩ := run.settles.bound
    obtain ⟨b, hrest⟩ := rest.settles.bound
    refine enough_of_succ (max a b) fun fuel hfuel => ?_
    rw [join]
    simp only [hj]
    rw [hrun fuel (Nat.max_le.1 hfuel).1]
    exact hrest fuel (Nat.max_le.1 hfuel).2

/-- A thread on the side gets fuel like any other. -/
theorem RunsJob.settles {e : Engine σ} : ∀ {w : World σ} {job : Job σ} {v : World σ} {ok : Bool},
    RunsJob e w job v ok → Enough (runJob e · w job) (v, ok)
  | _, _, _, _, .host => enough_of_succ 0 fun fuel _ => by
    rw [runJob]
  | _, _, _, _, .unknown hc => enough_of_succ 0 fun fuel _ => by
    rw [runJob]
    simp only [hc]
  | _, _, _, _, .simple hc step hd => by
    obtain ⟨bound, hstep⟩ := step.settles.bound
    refine enough_of_succ bound fun fuel hfuel => ?_
    rw [runJob]
    simp only [hc]
    rw [hstep fuel hfuel]
    simp only
    rw [if_neg (by simp [hd])]
  | _, _, _, _, .called hc step hd run => by
    obtain ⟨a, hstep⟩ := step.settles.bound
    obtain ⟨b, hrun⟩ := run.settles.bound
    -- The fuel has to be enough for the command and for the cycle behind it.
    refine enough_of_succ (max a b) fun fuel hfuel => ?_
    rw [runJob]
    simp only [hc]
    rw [hstep fuel (Nat.max_le.1 hfuel).1]
    simp only
    rw [if_pos hd, hrun fuel (Nat.max_le.1 hfuel).2]

end

/-- Some fuel is enough for a cycle exactly if there is a derivation. -/
theorem cycle_iff {e : Engine σ} {m : Machine σ} {level : Nat} {n : Machine σ} {ok : Bool} :
    (∃ fuel, cycle e fuel m level = some (n, ok)) ↔ Cycles e m level n ok := by
  constructor
  · rintro ⟨fuel, h⟩
    exact cycles_of_cycle fuel h
  · intro h
    obtain ⟨bound, hb⟩ := h.settles.bound
    exact ⟨bound, hb bound (Nat.le_refl bound)⟩

/-- Some fuel is enough for an attempt exactly if there is a derivation. -/
theorem perform_iff {e : Engine σ} {m : Machine σ} {invocation : Invocation σ} {n : Machine σ} {ok : Bool} :
    (∃ fuel, perform e fuel m invocation = some (n, ok)) ↔ Performs e m invocation n ok := by
  constructor
  · rintro ⟨fuel, h⟩
    exact performs_of_perform fuel h
  · intro h
    obtain ⟨bound, hb⟩ := h.settles.bound
    exact ⟨bound, hb bound (Nat.le_refl bound)⟩

/-! ## Jobs and the thread that waits for them

A join leaves its thread as it is but for the barrier: the jobs have threads of their own. -/

/-- Only the barrier changes where a job is taken. -/
theorem thread_of_nextJob {m n : Machine σ} {job : Job σ} (h : m.nextJob = some (job, n)) :
    ∃ b, n.thread = { m.thread with barrier := b } := by
  obtain ⟨rest, -, rfl⟩ := barrier_of_nextJob h
  exact ⟨_, rfl⟩

/-- Waiting for jobs changes nothing of a thread but its barrier. -/
theorem Joins.thread {e : Engine σ} : ∀ {m : Machine σ} {failed : Nat} {n : Machine σ} {failed' : Nat},
    Joins e m failed n failed' → ∃ b, n.thread = { m.thread with barrier := b }
  | m, _, _, _, .done _ => ⟨m.thread.barrier, rfl⟩
  | m, _, _, _, .next hj _ rest => by
    obtain ⟨b, hb⟩ := rest.thread
    obtain ⟨c, hc⟩ := thread_of_nextJob hj
    refine ⟨b, hb.trans ?_⟩
    show { (_ : Thread σ) with barrier := b } = _
    rw [hc]

/-- A join leaves the stack, and no break pending that was not. -/
theorem Joins.stack {e : Engine σ} {m n : Machine σ} {failed failed' : Nat} (h : Joins e m failed n failed') :
    n.frames = m.frames ∧ n.thread.breakAt = m.thread.breakAt := by
  obtain ⟨b, hb⟩ := h.thread
  unfold Machine.frames
  rw [hb]
  exact ⟨rfl, rfl⟩

end Machine
end Sequencer
