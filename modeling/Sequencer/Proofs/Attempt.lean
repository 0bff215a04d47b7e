import Sequencer.Proofs.Derivation
import Sequencer.Proofs.Pool

/-!
# What one step does to a stack

All that a cycle can do in one step, as far as stacks and scopes are concerned, said once: fetching marks
the active frame, an attempt keeps the stack, calls, returns or breaks, and a loop begins with a call. All
arguments about runs go through these lists of cases, and none opens the commands again.
-/

namespace Sequencer

variable {σ : Type}

namespace Job

/-- The instruction on the side that a job is. -/
def instructions : Job σ → List (Job σ)
  | .instruction thread frames i key => [.instruction thread frames i key]
  | .host _ => []

/-- The threads that a job stands for. -/
def threads : Job σ → List (Thread σ)
  | .instruction thread frames _ _ => [{ Thread.new thread with frames }]
  | .host _ => []

theorem flatMap_threads_instructions (job : Job σ) : job.instructions.flatMap threads = job.threads := by
  cases job <;> rfl

end Job

/-- The instructions on the side that a barrier has to wait for. -/
def Barrier.jobs (b : Option (Barrier σ)) : List (Job σ) := b.elim [] fun b => b.pending.flatMap Job.instructions

/-- Work of the host program is no instruction. -/
theorem Barrier.jobs_works (b : Option (Barrier σ)) (works : List (σ → σ × Bool)) :
    Barrier.jobs (b.map fun b => ⟨b.pending ++ works.map .host⟩) = Barrier.jobs b := by
  have hhost : (works.map Job.host).flatMap Job.instructions = [] := by simp [Job.instructions]
  cases b with
  | none => rfl
  | some b => simp only [jobs, Option.map_some, Option.elim_some, List.flatMap_append, hhost, List.append_nil]

namespace Machine

/-- The instructions on the side that a machine has to wait for. -/
def jobs (m : Machine σ) : List (Job σ) := Barrier.jobs m.thread.barrier

/-- From one machine to another the barrier stays one, and has to wait for the same instructions. -/
structure Awaits (m n : Machine σ) : Prop where
  jobs : n.jobs = m.jobs
  barrier : n.thread.barrier.isSome = m.thread.barrier.isSome

namespace Awaits

variable {m n o : Machine σ}

/-- What is waited for is a matter of the barrier alone. -/
theorem of_eq (h : n.thread.barrier = m.thread.barrier) : m.Awaits n := ⟨congrArg Barrier.jobs h, congrArg _ h⟩

theorem trans (h₁ : m.Awaits n) (h₂ : n.Awaits o) : m.Awaits o :=
  ⟨h₂.jobs.trans h₁.jobs, h₂.barrier.trans h₁.barrier⟩

end Awaits

theorem Quiet.awaits {m n : Machine σ} (h : m.Quiet n) : m.Awaits n := .of_eq h.barrier

/-! ## Fetching

A fetch has three outcomes, and all that is proved about cycles goes along them. -/

/-- What fetching does: nothing where the stack is drained or its active frame exhausted, and otherwise the
active frame moves on to its next instruction. -/
inductive Fetched (m : Machine σ) (level : Nat) : Machine σ → Step → Prop
  | drained (h : m.depth ≤ level) : Fetched m level m .drained
  | exhausted {f below} (h : level < m.depth) (hf : m.frames = f :: below) (he : f.exhausted = true) :
      Fetched m level m .exhausted
  | advanced {f below n step} (h : level < m.depth) (hf : m.frames = f :: below)
      (he : f.exhausted = false) (hq : (m.withFrames (f.advance :: below)).Quiet n)
      (hs : step ≠ .drained) : Fetched m level n step

/-- What fetching does, by its outcome: nothing above the level is left, the active frame has no more instructions, or
it has moved on by one. -/
theorem nextStep_cases {m n : Machine σ} {level : Nat} {step : Step} (hn : m.nextStep level = (n, step)) :
    Fetched m level n step := by
  unfold nextStep at hn
  by_cases hd : m.depth ≤ level
  · rw [if_pos hd] at hn
    cases hn
    exact .drained hd
  · have hlt := Nat.lt_of_not_le hd
    rw [if_neg hd] at hn
    split at hn
    · next hf =>
      unfold depth at hlt
      rw [hf] at hlt
      cases hlt
    · next f below hf =>
      cases he : f.exhausted with
      | true =>
        rw [if_pos he] at hn
        cases hn
        exact .exhausted hlt hf he
      | false =>
        rw [if_neg (by simp [he])] at hn
        have hq := quiet_note (m.withFrames (f.advance :: below))
          (.fetched m.thread.id f.advance.activation f.advance.key
            (m.withFrames (f.advance :: below)).depth m.scopes.live)
        simp only at hn
        split_ifs at hn
        · cases hn
          exact .advanced hlt hf he hq (by simp)
        · cases hn
          exact .advanced hlt hf he hq (by simp)

/-- A fetch that finds something marks no more than the active frame. -/
theorem nextStep_calm {m n : Machine σ} {level : Nat} {step : Step} (hn : m.nextStep level = (n, step))
    (hs : step ≠ .drained) : m.Calm n ∧ m.Awaits n ∧ level < n.depth := by
  cases nextStep_cases hn with
  | drained h => exact absurd rfl hs
  | exhausted h hf he => exact ⟨(Quiet.refl m).calm, .of_eq rfl, h⟩
  | @advanced f below _ _ h hf he hq hs =>
    have hc : m.Calm (m.withFrames (f.advance :: below)) := by
      refine Calm.of_thread m ?_
      rw [hf]
      rfl
    have hcn := hc.trans hq.calm
    exact ⟨hcn, .of_eq hq.barrier, hcn.depth.symm ▸ h⟩

/-- Fetching does not depend on the level, as long as there is a frame above it. -/
theorem nextStep_of_lt {m : Machine σ} {level level' : Nat} (h : level < m.depth) (h' : level' < m.depth) :
    m.nextStep level = m.nextStep level' := by
  unfold nextStep
  rw [if_neg (Nat.not_le_of_lt h), if_neg (Nat.not_le_of_lt h')]

/-- At the level or below it there is nothing to fetch from. -/
theorem nextStep_of_le {m : Machine σ} {level : Nat} (h : m.depth ≤ level) :
    m.nextStep level = (m, .drained) := by
  unfold nextStep
  rw [if_pos h]

/-- The frames below an active frame that is above a level reach up to the level. -/
theorem le_length_of_lt_depth {m : Machine σ} {level : Nat} {f : Frame} {rest : List Frame}
    (hf : m.frames = f :: rest) (hd : level < m.depth) : level ≤ rest.length := by
  unfold depth at hd
  rw [hf] at hd
  exact Nat.le_of_lt_succ hd

/-- Above a level there is a frame. -/
theorem exists_cons_of_lt_depth {m : Machine σ} {level : Nat} (h : level < m.depth) :
    ∃ f rest, m.frames = f :: rest ∧ level ≤ rest.length := by
  cases hf : m.frames with
  | nil =>
    unfold depth at h
    rw [hf] at h
    cases h
  | cons f rest => exact ⟨f, rest, rfl, le_length_of_lt_depth hf h⟩

/-- A frame without more instructions is left as it is, and the cycle takes care of it. -/
theorem nextStep_of_exhausted {m : Machine σ} {level : Nat} {f : Frame} {rest : List Frame} (hd : level < m.depth)
    (hf : m.frames = f :: rest) (he : f.exhausted = true) : m.nextStep level = (m, .exhausted) := by
  unfold nextStep
  rw [if_neg (Nat.not_le_of_lt hd), hf]
  exact if_pos he

/-! ## Returning and breaking

A frame that returns leaves the stack, or stays exhausted for a loop that is to go on with it. A break leaves all
frames where they are. -/

/-- No return touches the barrier: results are published, and frames leave the stack. -/
theorem barrier_returnFrame (m : Machine σ) (explicit : Option (List String)) :
    (m.returnFrame explicit).1.thread.barrier = m.thread.barrier := by
  cases hf : m.frames with
  | nil => rw [returnFrame_nil hf]
  | cons f below =>
    obtain ⟨n, hq, he⟩ := returnFrame_eq hf explicit
    rw [he]
    exact hq.barrier

/-- An early return takes the active frame off like any return. If a loop repeats the frame, it marks the
loop as one to end. -/
theorem returnEarly_cons {m : Machine σ} {f : Frame} {below : List Frame} (hf : m.frames = f :: below)
    (explicit : Option (List String)) :
    ∃ n, ((m.withFrames below).withBreak
        (if f.looping then some below.length else m.thread.breakAt)).Quiet n ∧
      m.returnEarly explicit = (n.withScopes (releaseFrames · [f]), true) := by
  cases hl : f.looping with
  | true =>
    rw [returnEarly_of_looping hf hl, if_pos rfl]
    exact returnFrame_eq (m := (m.withFrames ({ f with looping := false } :: below)).withBreak
      (some below.length)) rfl explicit
  | false =>
    rw [returnEarly_of_not_looping hf hl, if_neg Bool.false_ne_true]
    exact returnFrame_eq hf explicit

/-- The active frame is left by an early return, whether it is that of a loop or not. -/
theorem frames_returnEarly {m : Machine σ} {f : Frame} {below : List Frame} (hf : m.frames = f :: below)
    (explicit : Option (List String)) : (m.returnEarly explicit).1.frames = below := by
  obtain ⟨n, hq, he⟩ := returnEarly_cons hf explicit
  rw [he]
  exact hq.frames

theorem barrier_returnEarly (m : Machine σ) (explicit : Option (List String)) :
    (m.returnEarly explicit).1.thread.barrier = m.thread.barrier := by
  cases hf : m.frames with
  | nil => rw [returnEarly_nil hf]
  | cons f below =>
    obtain ⟨n, hq, he⟩ := returnEarly_cons hf explicit
    rw [he]
    exact hq.barrier

/-- Breaking changes no more of a frame than how far it has come and whether it loops. -/
theorem breakInnermost_core {fs gs : List Frame} {i : Nat} (h : breakInnermost fs = some (gs, i)) :
    gs.map Frame.core = fs.map Frame.core := by
  induction fs generalizing gs with
  | nil => cases h
  | cons f below ih =>
    unfold breakInnermost at h
    split_ifs at h
    · cases h
      rfl
    · obtain ⟨⟨gs', j⟩, hb, he⟩ := Option.map_eq_some_iff.1 h
      cases he
      rw [List.map_cons, List.map_cons, ih hb]
      rfl

/-- So a break moves no frame and no scope. -/
theorem breakLoop_calm (m : Machine σ) : m.Calm m.breakLoop.1 := by
  unfold breakLoop
  split
  · next hb => exact Calm.of_thread m (breakInnermost_core hb)
  · exact (Quiet.refl m).calm

theorem barrier_breakLoop (m : Machine σ) : m.breakLoop.1.thread.barrier = m.thread.barrier := by
  unfold breakLoop
  split <;> rfl

/-! ## Attempts

An attempt at a command that runs no instructions ends in one of a few ways, which do not depend on the command. -/

/-- What an attempt does that runs no instructions. -/
inductive Attempted (m : Machine σ) : Machine σ → Bool → Prop
  /-- The stack stays, and so do the instructions to wait for. -/
  | kept {n b ok} (h : m.Quiet n) (hb : b.isSome = n.thread.barrier.isSome)
      (hj : (n.withBarrier b).jobs = n.jobs) : Attempted m (n.withBarrier b) ok
  | called {n} (h : m.Quiet n) (action : String) (results : List String) (params : Table Value) :
      Attempted m (n.push action results params) true
  | returned {n} (h : m.Quiet n) (explicit : Option (List String)) :
      Attempted m (n.returnEarly explicit).1 (n.returnEarly explicit).2
  | broke : Attempted m m.breakLoop.1 m.breakLoop.2

/-- The same, with the relation that holds of all that is done to variables and stores. -/
inductive Tried (R : Machine σ → Machine σ → Prop) (m : Machine σ) : Machine σ → Bool → Prop
  /-- The stack stays, and the barrier gets work of the host program. -/
  | kept {n} (h : R m n) (works : List (σ → σ × Bool)) (ok : Bool) :
      Tried R m (n.withBarrier (n.thread.barrier.map fun b => ⟨b.pending ++ works.map .host⟩)) ok
  | called {n} (h : R m n) (action : String) (results : List String) (params : Table Value) :
      Tried R m (n.push action results params) true
  | returned {n} (h : R m n) (explicit : Option (List String)) :
      Tried R m (n.returnEarly explicit).1 (n.returnEarly explicit).2
  | broke : Tried R m m.breakLoop.1 m.breakLoop.2

/-- What is quiet is an attempt, with success or without. -/
theorem Tried.of {R : Machine σ → Machine σ → Prop} {m n : Machine σ} (h : R m n) (ok : Bool) : Tried R m n ok := by
  have hb : n.withBarrier (n.thread.barrier.map fun b => ⟨b.pending ++ ([] : List (σ → σ × Bool)).map .host⟩) = n := by
    simp only [List.map_nil, List.append_nil]
    exact congrArg n.withBarrier (Option.map_id' ..)
  exact hb ▸ .kept h [] ok

namespace Covers

variable {R : Machine σ → Machine σ → Prop} (hR : Covers R) {m n : Machine σ} {ok : Bool}
include hR

/-- A call publishes nothing yet: its parameters are read, and its frame is pushed when all of them are there. -/
theorem tried_performCall (m : Machine σ) (c : CallSpec) : Tried R m (m.performCall c).1 (m.performCall c).2 := by
  have hres := hR.resolve m c.params
  unfold performCall call
  split_ifs
  · exact Tried.of (hR.refl m) true
  · split
    · next n params he =>
      rw [he] at hres
      exact .returned (hR.trans hres (hR.bindAll n params)) _
    · next n e he =>
      rw [he] at hres
      exact Tried.of hres false
  · cases he : m.resolve c.params with
    | mk n r =>
      rw [he] at hres
      cases r with
      | ok params => exact .called hres _ _ params
      | error e => exact Tried.of hres false

/-- A branch evaluates its condition and goes on as a call of the action that it chooses. -/
theorem tried_performBranch (m : Machine σ) (p : Predicate) (c : BranchSpec) :
    Tried R m (m.performBranch p c).1 (m.performBranch p c).2 := by
  unfold performBranch
  split
  · exact Tried.of (hR.refl m) false
  · split
    · exact hR.tried_performCall m _
    · exact Tried.of (hR.refl m) true

/-- A switch pushes the frame of its case, once its parameters are resolved. -/
theorem tried_performSwitch (m : Machine σ) (c : SwitchSpec) :
    Tried R m (m.performSwitch c).1 (m.performSwitch c).2 := by
  unfold performSwitch
  split
  · exact hR.tried_performCall m _
  · exact Tried.of (hR.refl m) false

/-- A host command may change variables, may start work on the side, and may abort. -/
theorem tried_performHost (m : Machine σ) (run : Machine σ → Effect σ) :
    Tried R m (m.performHost run).1 (m.performHost run).2 := by
  have register (works : List (σ → σ × Bool)) (b : Barrier σ) :
      works.foldl (fun b work => b.register (.host work)) b = ⟨b.pending ++ works.map .host⟩ := by
    induction works generalizing b with
    | nil => simp
    | cons work works ih =>
      rw [List.foldl_cons, ih]
      simp [Barrier.register]
  have hupdated := hR.trans (hR.withHost m (run m).host) (hR.updateAll _ (run m).updates)
  unfold performHost
  simp only [register]
  cases (run m).abort with
  | none => exact .kept hupdated _ _
  | some message => exact .kept (hR.trans hupdated (hR.abort _ message)) _ _

/-- An attempt that runs no instructions keeps the stack, calls, returns or breaks. -/
theorem tried_immediate {invocation : Invocation σ} (h : m.immediate invocation = some (n, ok)) : Tried R m n ok := by
  unfold immediate at h
  have of {r : Machine σ × Bool} (he : some r = some (n, ok)) (ht : Tried R m r.1 r.2) : Tried R m n ok := by
    cases he
    exact ht
  cases invocation with
  | call c => exact of h (hR.tried_performCall m c)
  | branch p c => exact of h (hR.tried_performBranch m p c)
  | switch c => exact of h (hR.tried_performSwitch m c)
  | leave names => exact of h (.returned (hR.refl m) _)
  | void => exact of h (Tried.of (hR.refl m) true)
  | breakLoop => exact of h .broke
  | var c => exact of h (Tried.of (hR.performVar m c) _)
  | host run => exact of h (hR.tried_performHost m run)
  | loopFor c => cases h
  | loopRange c => cases h

end Covers

/-- An attempt that runs no instructions has kept the stack, called an action, returned or broken a loop. -/
theorem immediate_cases {m n : Machine σ} {invocation : Invocation σ} {ok : Bool}
    (h : m.immediate invocation = some (n, ok)) : Attempted m n ok := by
  cases covers_quiet.tried_immediate h with
  | kept hq works ok => exact .kept hq (Option.isSome_map ..) (Barrier.jobs_works _ works)
  | called hq action results params => exact .called hq action results params
  | returned hq explicit => exact .returned hq explicit
  | broke => exact .broke

namespace Attempted

variable {m n : Machine σ} {ok : Bool}

/-- The barrier only gets more to wait for. -/
theorem awaits (h : Attempted m n ok) : m.Awaits n := by
  cases h with
  | @kept o _ _ hq hb hj => exact hq.awaits.trans ⟨hj, hb⟩
  | called hq action results params => exact hq.awaits.trans (.of_eq rfl)
  | returned hq explicit => exact hq.awaits.trans (.of_eq (barrier_returnEarly _ explicit))
  | broke => exact .of_eq (barrier_breakLoop m)

/-- An attempt that fails leaves the stack and the pending break as they were. -/
theorem still (h : Attempted m n false) : n.frames = m.frames ∧ n.thread.breakAt = m.thread.breakAt := by
  -- A failure leaves no trace on the stack, since frames come and go by attempts that succeed.
  generalize hok : false = ok at h
  cases h with
  | kept hq hb hj => exact ⟨hq.frames, hq.breakAt⟩
  | called hq action results params => cases hok
  | @returned o hq explicit =>
    cases hf : o.frames with
    | nil =>
      rw [returnEarly_nil hf]
      exact ⟨hq.frames, hq.breakAt⟩
    | cons f below =>
      obtain ⟨o', -, he⟩ := returnEarly_cons hf explicit
      rw [he] at hok
      cases hok
  | broke =>
    unfold breakLoop at hok ⊢
    cases hb : breakInnermost m.frames with
    | none => exact ⟨rfl, rfl⟩
    | some r =>
      rw [hb] at hok
      cases hok

/-- An attempt that fails leaves the stack alone. -/
theorem stays (h : Attempted m n false) : n.frames = m.frames := h.still.1

end Attempted

/-! ## Loops

A loop begins by pushing its frame, after its parameters have been read, or does not begin. -/

/-- How a loop begins. A loop over what cannot be read has put its frame on the stack by then. -/
inductive Entered (m : Machine σ) : Machine σ → Option Loop → Prop
  | refused {n} (h : m.Quiet n) : Entered m n none
  | unwound {o n} (h : m.Quiet o) (body : String) (results : List String) (params : Table Value)
      (hn : ((o.push body results params).setLooping true).Quiet n) : Entered m (n.unwind m.depth) none
  | began {o n} (h : m.Quiet o) (body : String) (results : List String) (params : Table Value)
      (hn : ((o.push body results params).setLooping true).Quiet n) (loop : Loop) :
      Entered m n (some loop)

/-- The frame of a loop is put on the stack, unless a parameter cannot be read. -/
theorem Covers.enterLoop {R : Machine σ → Machine σ → Prop} (hR : Covers R) {m n : Machine σ} {body result : String}
    {params : Table Value} {r : Except StorageError Unit} (h : m.enterLoop body result params = (n, r)) :
    (∃ e, r = .error e ∧ R m n) ∨
      ∃ o values, r = .ok () ∧ R m o ∧ n = (o.push body (splitNames result) values).setLooping true := by
  have hres := hR.resolve m params
  unfold Machine.enterLoop at h
  cases he : m.resolve params with
  | mk o r' =>
    rw [he] at h hres
    cases r' with
    | error e =>
      cases h
      exact .inl ⟨e, rfl, hres⟩
    | ok values =>
      cases h
      exact .inr ⟨o, values, rfl, hres, rfl⟩

/-- The passes of a loop with a condition begin with its frame on the stack. -/
theorem Covers.enterFor {R : Machine σ → Machine σ → Prop} (hR : Covers R) {m n : Machine σ} {c : ForSpec}
    {loop : Option Loop} (h : m.enterFor c = (n, loop)) :
    (loop = none ∧ R m n) ∨ ∃ o values loop', loop = some loop' ∧ R m o ∧
      n = (o.push c.body (splitNames c.result) values).setLooping true := by
  unfold Machine.enterFor at h
  cases he : m.enterLoop c.body c.result c.initial with
  | mk o r =>
    rw [he] at h
    rcases hR.enterLoop he with ⟨e, rfl, hq⟩ | ⟨q, values, rfl, hq, rfl⟩
    · cases h
      exact .inl ⟨rfl, hq⟩
    · cases h
      exact .inr ⟨q, values, _, rfl, hq, rfl⟩

namespace Covers

variable {R : Machine σ → Machine σ → Prop} (hR : Covers R) {m n : Machine σ}
include hR

/-- A loop whose parameters cannot be read has done no more than to read them. -/
theorem of_rejected {body result : String} {params : Table Value} {err : StorageError}
    (h : m.enterLoop body result params = (n, .error err)) : R m n := by
  rcases hR.enterLoop h with ⟨_, -, hn⟩ | ⟨_, _, hr, -⟩
  · exact hn
  · cases hr

/-- Otherwise its frame is on top of what reading has left. -/
theorem of_ranged {body result : String} {params : Table Value}
    (h : m.enterLoop body result params = (n, .ok ())) :
    ∃ o values, R m o ∧ n = (o.push body (splitNames result) values).setLooping true := by
  rcases hR.enterLoop h with ⟨_, hr, -⟩ | ⟨o, values, -, ho, hn⟩
  · cases hr
  · exact ⟨o, values, ho, hn⟩

/-- A loop whose initial values are not found does not begin. -/
theorem of_refused {c : ForSpec} (h : m.enterFor c = (n, none)) : R m n := by
  rcases hR.enterFor h with ⟨-, hn⟩ | ⟨_, _, _, hr, -⟩
  · exact hn
  · cases hr

theorem of_looped {c : ForSpec} {loop : Loop} (h : m.enterFor c = (n, some loop)) :
    ∃ o values, R m o ∧ n = (o.push c.body (splitNames c.result) values).setLooping true := by
  rcases hR.enterFor h with ⟨hr, -⟩ | ⟨o, values, _, -, ho, hn⟩
  · cases hr
  · exact ⟨o, values, ho, hn⟩

end Covers

/-- Both kinds of loops begin in one of two ways. -/
theorem entered_cases {m n : Machine σ} {invocation : Invocation σ} {loop : Option Loop}
    (h : m.entered invocation = some (n, loop)) : Entered m n loop := by
  unfold entered at h
  cases invocation with
  | loopFor c =>
    rcases covers_quiet.enterFor (Option.some.inj h) with ⟨rfl, hq⟩ | ⟨o, values, loop', rfl, hq, rfl⟩
    · exact .refused hq
    · exact .began hq _ _ values (.refl _) loop'
  | loopRange c =>
    have he : m.enterRange c = (n, loop) := Option.some.inj h
    unfold enterRange at he
    cases hl : m.enterLoop c.body c.result c.params with
    | mk o r =>
      rw [hl] at he
      rcases covers_quiet.enterLoop hl with ⟨e, rfl, hq⟩ | ⟨q, values, rfl, hq, rfl⟩
      · cases he
        exact .refused hq
      · -- The frame is on the stack when the range is read, so a failure has to take it off again.
        simp only at he
        split at he
        · next hr =>
          cases he
          exact .unwound hq _ _ values (covers_quiet.of_read hr)
        · next hr =>
          cases he
          exact .began hq _ _ values (covers_quiet.of_read hr) _
  | _ => cases h

end Machine
end Sequencer
