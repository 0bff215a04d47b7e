import Sequencer.Proofs.Bodies
import Sequencer.Proofs.Containment

/-!
# The loop with a condition is a while loop

Such a loop takes its frame off the stack at the end of each pass and puts a copy back for the next one, a break or a
return of the frame leaves a mark for the loop to find, and the scope lives by a reference that no frame has. All of
this is a while loop: one frame and one scope are there from the first pass to the last, the condition is tested before
each pass, the body runs, and the assignments follow.
-/

namespace Sequencer

/-- The frame at its beginning, in another activation. -/
def Frame.again (f : Frame) (activation : Nat) : Frame := { f with ip := 0, activation }

namespace Machine

variable {σ : Type}

/-! ## While loops

A while loop in terms of its passes: the condition is evaluated, the body is run, and the assignments are made. -/

/-- Puts a frame on the stack that a loop repeats, in a scope of its own inside the current one, and gives this scope.
The reference on the scope is not the frame's. -/
def openLoop (m : Machine σ) (action : String) (results : List String) (params : Table Value) :
    Machine σ × ScopeId :=
  let (scopes, scope) := m.scopes.alloc (some m.currentScope) params
  let activation := m.world.activations
  let frame := ⟨action, 0, results, scope, true, false, activation⟩
  let world :=
    { m.world with
      request := { m.request with scopes }
      activations := activation + 1
      journal := .entered m.thread.id activation action :: m.world.journal }
  (⟨world, { m.thread with frames := frame :: m.frames }⟩, scope)

/-- The active frame begins again, right where it is. -/
def rewind (m : Machine σ) : Machine σ :=
  match m.frames with
  | [] => m
  | f :: below =>
    let activation := m.world.activations
    { world :=
        { m.world with
          activations := activation + 1
          journal := .entered m.thread.id activation f.action :: m.world.journal }
      thread := { m.thread with frames := f.again activation :: below } }

/-- Whether a condition holds in a scope. A blank one does. -/
def holdsIn (m : Machine σ) (scope : ScopeId) (condition : String) : Except EvalError Bool :=
  let condition := Text.trimmed condition
  if condition.isEmpty then .ok true else m.testIn scope condition

/-- The implicit return of a frame that no loop repeats any more. -/
def lastReturn (m : Machine σ) : Machine σ := ((m.setLooping false).returnFrame none).1

/-- The last return always finds the frame of its loop. -/
theorem returnFrame_setLooping {m : Machine σ} (hm : 0 < m.depth) :
    (m.setLooping false).returnFrame none = (m.lastReturn, true) := by
  have hd := (setLooping_calm m false).depth.symm ▸ hm
  obtain ⟨f, below, hf⟩ := List.exists_cons_of_length_pos hd
  obtain ⟨n, -, he⟩ := returnFrame_eq hf none
  unfold lastReturn
  rw [he]

/-- The body of a loop, and the jobs that it leaves. -/
inductive RunsBody (e : Engine σ) (level : Nat) (m : Machine σ) : Machine σ → Ending → Prop
  | closed {n o ending failed} (run : Body e level (m.withBarrier (some .new)) n ending) (jobs : Joins e n 0 o failed) :
      RunsBody e level m (o.withBarrier m.thread.barrier) ending

/-- A while loop in a scope, whose frame is active and has `level` frames below it. If anything fails, this frame and
what is above it go without a result. -/
inductive Repeats (e : Engine σ) (c : ForSpec) (scope : ScopeId) (level : Nat) : Machine σ → Machine σ → Bool → Prop
  | refused {m err} (ht : m.holdsIn scope c.condition = .error err) : Repeats e c scope level m (m.unwind level) false
  | done {m} (ht : m.holdsIn scope c.condition = .ok false) : Repeats e c scope level m m.lastReturn true
  | failed {m n} (ht : m.holdsIn scope c.condition = .ok true) (body : RunsBody e level m n .failed) :
      Repeats e c scope level m (n.unwind level) false
  /-- The frame has returned, and the mark that it leaves is for nobody else. -/
  | stopped {m n} (ht : m.holdsIn scope c.condition = .ok true) (body : RunsBody e level m n .stopped) :
      Repeats e c scope level m (n.withBreak none) true
  | stuck {m n o} (ht : m.holdsIn scope c.condition = .ok true) (body : RunsBody e level m n .finished)
      (next : n.rewind.assignAll c.next = (o, false)) : Repeats e c scope level m (o.unwind level) false
  | again {m n o p ok} (ht : m.holdsIn scope c.condition = .ok true) (body : RunsBody e level m n .finished)
      (next : n.rewind.assignAll c.next = (o, true)) (rest : Repeats e c scope level o p ok) :
      Repeats e c scope level m p ok

/-- A while loop from its initial values to its end. -/
inductive WhileLoop (e : Engine σ) (c : ForSpec) (m : Machine σ) : Machine σ → Bool → Prop
  | unresolved {n err} (hr : m.resolve c.initial = (n, .error err)) : WhileLoop e c m n false
  | resolved {n params o scope p ok} (hr : m.resolve c.initial = (n, .ok params))
      (hopen : n.openLoop c.body (splitNames c.result) params = (o, scope))
      (run : Repeats e c scope m.depth o p ok) : WhileLoop e c m (p.withScopes (·.release scope)) ok

/-! ## Waiting with a frame on the stack

What is waited for at the end of a pass has stacks of its own, so that it does not matter whether the frame of the
loop is still there. -/

section

variable {e : Engine σ} {m n : Machine σ}

theorem nextJob_withFrames (m : Machine σ) (fs : List Frame) :
    (m.withFrames fs).nextJob = m.nextJob.map fun r => (r.1, r.2.withFrames fs) := by
  unfold nextJob
  have hb : (m.withFrames fs).thread.barrier = m.thread.barrier := rfl
  rw [hb]
  rcases m.thread.barrier with _ | ⟨_ | ⟨job, rest⟩⟩ <;> rfl

/-- Waiting for jobs has nothing to do with the stack of the thread that waits. -/
theorem Joins.withFrames : ∀ {m : Machine σ} {failed : Nat} {n : Machine σ} {failed' : Nat},
    Joins e m failed n failed' → ∀ fs, Joins e (m.withFrames fs) failed (n.withFrames fs) failed'
  | m, _, _, _, .done hj, fs => by
    refine .done ?_
    rw [nextJob_withFrames, hj]
    rfl
  | m, _, _, _, .next (n := n) hj run rest, fs => by
    refine .next (n := n.withFrames fs) ?_ run (rest.withFrames fs)
    rw [nextJob_withFrames, hj]
    rfl

end

/-! ## One pass

A pass of the interpreter is a body, what is left to wait for, and the frame put back. -/

section

variable {e : Engine σ} {m n o : Machine σ} {f : Frame} {below : List Frame} {ending : Ending} {ok : Bool}

theorem Atop.depth (h : Atop f below m) : m.depth = below.length + 1 := by
  obtain ⟨g, hf, -⟩ := h.frames
  exact congrArg List.length hf

theorem withFrames_self {fs : List Frame} (h : m.frames = fs) : m.withFrames fs = m := by
  subst h
  rfl

/-- Where a body has left the frame is a matter of the stack and of the mark. -/
theorem Ending.Leaves.congr (h : ending.Leaves f below m) (hf : n.frames = m.frames)
    (hb : n.thread.breakAt = m.thread.breakAt) : ending.Leaves f below n := by
  cases ending with
  | finished => exact Atop.congr h hf hb
  | stopped => exact ⟨hf.trans h.1, hb.trans h.2⟩
  | failed => trivial

/-- At the end of a pass the frame of the loop goes, but its scope stays. -/
theorem Atop.leave (h : Atop f below m) (howns : f.ownsScope = false) :
    m.leave .finished = m.withFrames below := by
  obtain ⟨g, hf, hcore, hl⟩ := h.frames
  have hg : g.ownsScope = false := (Frame.ownsScope_of_core hcore).trans howns
  show (m.returnFrame none).1 = _
  rw [returnFrame_of_looping hf hl]
  simp [releaseFrames, hg, withScopes, withRequest]

theorem Ending.Leaves.leave_withBarrier (h : ending.Leaves f below m) (howns : f.ownsScope = false)
    (b : Option (Barrier σ)) : (m.withBarrier b).leave ending = (m.leave ending).withBarrier b := by
  cases ending with
  | finished =>
    have hb : Atop f below (m.withBarrier b) := Atop.congr h rfl rfl
    rw [hb.leave howns, Atop.leave h howns]
    rfl
  | stopped => rfl
  | failed => rfl

/-- The jobs of a pass run alike before and after its frame goes. -/
theorem Ending.Leaves.joins (h : ending.Leaves f below m) (howns : f.ownsScope = false) {failed failed' : Nat} :
    Joins e (m.leave ending) failed o failed' ↔ ∃ n, Joins e m failed n failed' ∧ o = n.leave ending := by
  cases ending with
  | finished =>
    rw [Atop.leave h howns]
    constructor
    · intro hj
      -- the same jobs, with the frame of the loop still on the stack
      have hn : Joins e m failed (o.withFrames m.frames) failed' := hj.withFrames m.frames
      have hatop : Atop f below (o.withFrames m.frames) := Atop.congr h rfl hj.stack.2
      refine ⟨_, hn, ?_⟩
      rw [hatop.leave howns]
      exact (withFrames_self hj.stack.1).symm
    · rintro ⟨n, hj, rfl⟩
      have hatop : Atop f below n := Atop.congr h hj.stack.1 hj.stack.2
      rw [hatop.leave howns]
      exact hj.withFrames below
  | stopped => exact ⟨fun hj => ⟨o, hj, rfl⟩, fun ⟨_, hj, ho⟩ => ho ▸ hj⟩
  | failed => exact ⟨fun hj => ⟨o, hj, rfl⟩, fun ⟨_, hj, ho⟩ => ho ▸ hj⟩

/-- Where a body with its jobs ends. -/
theorem RunsBody.leaves (h : RunsBody e below.length m n ending) (hm : Atop f below m) (ha : n.aborted = false) :
    ending.Leaves f below n := by
  cases h with
  | @closed p o _ failed run jobs =>
    have hp : p.aborted = false := alive_of jobs.aborted ha
    have hbegin : Atop f below (m.withBarrier (some .new)) := hm.congr rfl rfl
    have hleaves : ending.Leaves f below p := run.leaves hbegin.underway hbegin.depth.le hp
    exact hleaves.congr jobs.stack.1 jobs.stack.2

/-- A cycle for the frame of a loop is the body, after which the frame goes if it is still there. -/
theorem runsCycle_iff_body (hm : Atop f below m) (howns : f.ownsScope = false) (ha : o.aborted = false) :
    RunsCycle e m below.length o ok ↔
      ∃ n ending, RunsBody e below.length m n ending ∧ o = n.leave ending ∧ ok = ending.ok := by
  have hbegin : Atop f below (m.withBarrier (some .new)) := hm.congr rfl rfl
  constructor
  · intro h
    cases h with
    | @closed _ _ q ok' p failed run jobs =>
      -- nothing was aborted while the jobs ran, and so not before either
      have hp : p.aborted = false := ha
      obtain ⟨n, ending, hbody, rfl, rfl⟩ :=
        (cycles_iff_body hbegin.depth.le (alive_of jobs.aborted hp)).1 run
      have hleaves := hbody.leaves hbegin.underway hbegin.depth.le (alive_of_leave (alive_of jobs.aborted hp))
      obtain ⟨p, hjobs, rfl⟩ := (hleaves.joins howns).1 jobs
      have hleaves' := hleaves.congr hjobs.stack.1 hjobs.stack.2
      refine ⟨_, ending, .closed hbody hjobs, (hleaves'.leave_withBarrier howns _).symm, ?_⟩
      rw [hp]
      exact Bool.and_true _
  · rintro ⟨n, ending, hbody, rfl, rfl⟩
    cases hbody with
    | @closed q p _ failed run jobs =>
      have hp : p.aborted = false := alive_of_leave (m := p.withBarrier m.thread.barrier) ha
      have hq : q.aborted = false := alive_of jobs.aborted hp
      have hleaves := run.leaves hbegin.underway hbegin.depth.le hq
      have hleaves' := hleaves.congr jobs.stack.1 jobs.stack.2
      rw [hleaves'.leave_withBarrier howns] at ha ⊢
      have hjobs : Joins e (q.leave ending) 0 (p.leave ending) failed := (hleaves.joins howns).2 ⟨p, jobs, rfl⟩
      have hrun := run.cycles hbegin.depth.le (alive_of hjobs.aborted ha)
      have h := RunsCycle.closed hrun hjobs
      have hp : (p.leave ending).aborted = false := ha
      rw [hp, Bool.not_false, Bool.and_true] at h
      exact h

end

/-! ## One pass after the other

A condition that does not hold, a break, a failure: each is an end of both loops. -/

/-- A pass is about to begin with the frame of a loop. -/
structure Heads (f : Frame) (below : List Frame) (m : Machine σ) : Prop where
  frames : ∃ activation, m.frames = f.again activation :: below
  looping : f.looping = true
  lent : f.ownsScope = false
  breakAt : m.thread.breakAt = none

section

variable {e : Engine σ} {m n o : Machine σ} {f : Frame} {below : List Frame} {c : ForSpec} {ok : Bool}

namespace Heads

theorem currentScope (h : Heads f below m) : m.currentScope = f.scope := by
  obtain ⟨activation, hf⟩ := h.frames
  rw [currentScope_eq, hf]
  rfl

theorem depth (h : Heads f below m) : m.depth = below.length + 1 := by
  obtain ⟨activation, hf⟩ := h.frames
  exact congrArg List.length hf

theorem depth_pred (h : Heads f below m) : m.depth - 1 = below.length := by
  rw [h.depth]
  rfl

theorem atop (h : Heads f below m) : ∃ activation, Atop (f.again activation) below m := by
  obtain ⟨activation, hf⟩ := h.frames
  exact ⟨activation, ⟨_, hf, rfl, h.looping⟩, h.breakAt⟩

/-- What is decided before a pass is the condition in the scope of the loop. -/
theorem beforePass (h : Heads f below m) (next : Table Value) :
    m.beforePass (.whileTrue (Text.trimmed c.condition) next) =
      match m.holdsIn f.scope c.condition with
      | .ok true => (m, .run)
      | .ok false => (m, .done)
      | .error _ => (m, .fail) := by
  unfold Machine.beforePass holdsIn
  simp only
  split_ifs
  · rfl
  · have ht : m.test (Text.trimmed c.condition) = m.testIn f.scope (Text.trimmed c.condition) := by
      unfold test
      rw [h.currentScope]
    rcases hr : m.testIn f.scope (Text.trimmed c.condition) with err | _ | _ <;> simp only [ht, hr]

theorem quiet (h : Heads f below m) (hq : m.Quiet n) : Heads f below n where
  frames := by
    rw [hq.frames]
    exact h.frames
  looping := h.looping
  lent := h.lent
  breakAt := hq.breakAt.trans h.breakAt

end Heads

/-- To begin again in place is to be put back on the stack. -/
theorem Atop.rewind {activation : Nat} (h : Atop (f.again activation) below m) (hl : f.looping = true) :
    m.rewind = (m.withFrames below).repush f := by
  obtain ⟨g, hf, hcore, hlooping⟩ := h.frames
  -- But for what beginning again resets, the frame is the one that the loop has kept.
  have hg : ∀ activation, g.again activation = f.again activation := by
    intro activation
    cases f
    cases g
    simp_all [Frame.core, Frame.again]
  have haction : g.action = f.action := by
    show g.core.action = (f.again activation).core.action
    rw [hcore]
  unfold Machine.rewind
  rw [hf]
  simp only [hg, haction]
  rfl

/-- A pass has ended, and another may follow. -/
theorem Heads.rewind (h : Heads f below m) {activation : Nat} (hn : Atop (f.again activation) below n) :
    Heads f below n.rewind where
  frames := by
    rw [hn.rewind h.looping]
    exact ⟨_, rfl⟩
  looping := h.looping
  lent := h.lent
  breakAt := by
    rw [hn.rewind h.looping]
    exact hn.breakAt

theorem unwind_of_le {level : Nat} (h : m.depth ≤ level) : m.unwind level = m := by
  have hzero : m.depth - level = 0 := Nat.sub_eq_zero_of_le h
  rw [unwind_eq, hzero]
  rfl

/-- After a pass that came to its end there is no mark to find. -/
theorem Atop.unmarked (h : Atop f below m) (howns : f.ownsScope = false) :
    ((m.leave .finished).unwind below.length).takeBreak below.length = (m.withFrames below, false) := by
  have hd : (m.withFrames below).depth ≤ below.length := le_rfl
  have hb : (m.withFrames below).thread.breakAt = none := h.breakAt
  rw [h.leave howns, unwind_of_le hd]
  exact takeBreak_eq_false_iff.2 ⟨hb ▸ nofun, rfl⟩

/-- A break and a return of the frame leave the mark of this loop. -/
theorem marked_of_stopped (hf : m.frames = below) (hb : m.thread.breakAt = some below.length) :
    (m.unwind below.length).takeBreak below.length = (m.withBreak none, true) := by
  have hd : m.depth ≤ below.length := (congrArg List.length hf).le
  rw [unwind_of_le hd]
  exact takeBreak_eq_true_iff.2 ⟨hb, rfl⟩

namespace Heads

/-- In front of a pass the condition is looked at in the scope of the loop, and nothing changes. -/
theorem beforePass_iff (h : Heads f below m) {pass : Pass} :
    m.beforePass (.whileTrue (Text.trimmed c.condition) c.next) = (n, pass) ↔
      n = m ∧ match pass with
        | .run => m.holdsIn f.scope c.condition = .ok true
        | .done => m.holdsIn f.scope c.condition = .ok false
        | .fail => ∃ err, m.holdsIn f.scope c.condition = .error err := by
  rw [h.beforePass]
  rcases m.holdsIn f.scope c.condition with err | _ | _ <;> cases pass <;> simp [eq_comm]

/-- The cycle of a pass is the body, with what its ending makes of the frame of the loop. -/
theorem runsCycle_iff (h : Heads f below m) (ha : o.aborted = false) :
    RunsCycle e m (m.depth - 1) o ok ↔
      ∃ n ending, RunsBody e below.length m n ending ∧ o = n.leave ending ∧ ok = ending.ok := by
  obtain ⟨activation, hatop⟩ := h.atop
  rw [h.depth]
  exact runsCycle_iff_body hatop h.lent ha

/-- A pass that fails. -/
theorem failed_iff (h : Heads f below m) (ha : o.aborted = false) :
    RunsCycle e m (m.depth - 1) o false ↔ RunsBody e below.length m o .failed := by
  rw [h.runsCycle_iff ha]
  constructor
  · rintro ⟨n, ending, hbody, rfl, hok⟩
    cases ending with
    | finished | stopped => cases hok
    | failed => exact hbody
  · intro hbody
    exact ⟨o, .failed, hbody, rfl, rfl⟩

/-- A pass after which the loop finds its mark. -/
theorem broken_iff (h : Heads f below m) : (∃ p, RunsCycle e m (m.depth - 1) p true ∧
      (p.unwind (m.depth - 1)).takeBreak (m.depth - 1) = (o, true)) ↔
    ∃ n, RunsBody e below.length m n .stopped ∧ n.aborted = false ∧ o = n.withBreak none := by
  obtain ⟨activation, hatop⟩ := h.atop
  constructor
  · rintro ⟨p, run, hmark⟩
    have ha := run.not_aborted
    obtain ⟨n, ending, hbody, rfl, hok⟩ := (h.runsCycle_iff ha).1 run
    have hleaves := hbody.leaves hatop (alive_of_leave ha)
    rw [h.depth_pred] at hmark
    cases ending with
    | finished =>
      -- no mark, although the loop has found one
      rw [Atop.unmarked hleaves h.lent] at hmark
      cases hmark
    | stopped =>
      have hmarked := marked_of_stopped hleaves.1 hleaves.2
      cases hmarked.symm.trans hmark
      exact ⟨n, hbody, ha, rfl⟩
    | failed => cases hok
  · rintro ⟨n, hbody, ha, rfl⟩
    obtain ⟨hf, hb⟩ := hbody.leaves hatop ha
    refine ⟨n, (h.runsCycle_iff ha).2 ⟨n, .stopped, hbody, rfl, rfl⟩, ?_⟩
    rw [h.depth_pred]
    exact marked_of_stopped hf hb

/-- A pass after which the frame of the loop is put back. -/
theorem unbroken_iff (h : Heads f below m) : (∃ p q, RunsCycle e m (m.depth - 1) p true ∧
      (p.unwind (m.depth - 1)).takeBreak (m.depth - 1) = (q, false) ∧ o = q.repush f) ↔
    ∃ n, RunsBody e below.length m n .finished ∧ n.aborted = false ∧ o = n.rewind := by
  obtain ⟨activation, hatop⟩ := h.atop
  constructor
  · rintro ⟨p, q, run, hmark, rfl⟩
    have ha := run.not_aborted
    obtain ⟨n, ending, hbody, rfl, hok⟩ := (h.runsCycle_iff ha).1 run
    have hleaves := hbody.leaves hatop (alive_of_leave ha)
    rw [h.depth_pred] at hmark
    cases ending with
    | finished =>
      -- A body that has finished leaves no mark, and the loop goes on.
      cases (Atop.unmarked hleaves h.lent).symm.trans hmark
      exact ⟨n, hbody, alive_of_leave ha, (Atop.rewind hleaves h.looping).symm⟩
    | stopped =>
      -- One that has been left has made the mark of this loop.
      have hmarked := marked_of_stopped hleaves.1 hleaves.2
      cases hmarked.symm.trans hmark
    | failed => cases hok
  · rintro ⟨n, hbody, ha, rfl⟩
    have hn : Atop (f.again activation) below n := hbody.leaves hatop ha
    have hleave := hn.leave h.lent
    have hrun : RunsCycle e m (m.depth - 1) (n.leave .finished) true := by
      refine (h.runsCycle_iff ?_).2 ⟨n, .finished, hbody, rfl, rfl⟩
      rw [hleave]
      exact ha
    refine ⟨_, _, hrun, ?_, hn.rewind h.looping⟩
    rw [h.depth_pred]
    exact hn.unmarked h.lent

/-- The assignments after a pass. -/
theorem next (h : Heads f below m) (hbody : RunsBody e below.length m n .finished) (ha : n.aborted = false)
    (vars : Table Value) : Heads f below (n.rewind.assignAll vars).1 := by
  obtain ⟨activation, hatop⟩ := h.atop
  have hn : Atop (f.again activation) below n := hbody.leaves hatop ha
  exact (h.rewind hn).quiet (covers_quiet.assignAll n.rewind vars)

/-- Where a pass could begin, the frame of the loop can return for the last time. -/
theorem returnFrame (h : Heads f below m) : (m.setLooping false).returnFrame none = (m.lastReturn, true) :=
  returnFrame_setLooping (h.depth ▸ Nat.succ_pos _)

end Heads

/-- The assignments after a pass decide whether another may follow. -/
theorem afterPass_iff {condition : String} {next : Table Value} {again : Option Loop} :
    m.afterPass (.whileTrue condition next) = (n, again) ↔
      ∃ ok, m.assignAll next = (n, ok) ∧ again = if ok then some (.whileTrue condition next) else none := by
  unfold afterPass
  simp only
  rcases m.assignAll next with ⟨o, _ | _⟩ <;> simp [eq_comm]

/-- Passes are a while loop, by recursion on them: what the loop does after each is known from `broken_iff` and
`unbroken_iff`. -/
theorem Passes.repeats : ∀ {m : Machine σ} {loop : Loop} {f : Frame} {n : Machine σ} {ok : Bool},
    Passes e m loop f n ok → ∀ {below : List Frame}, loop = .whileTrue (Text.trimmed c.condition) c.next →
      Heads f below m → n.aborted = false → Repeats e c f.scope below.length m n ok
  | m, _, f, o, ok, .done hb hr, below, hloop, h, ha => by
    subst hloop
    obtain ⟨rfl, ht⟩ := h.beforePass_iff.1 hb
    rw [h.returnFrame] at hr
    cases hr
    exact .done ht
  | m, _, f, _, _, .refused hb, below, hloop, h, ha => by
    subst hloop
    obtain ⟨rfl, err, ht⟩ := h.beforePass_iff.1 hb
    rw [h.depth]
    exact .refused ht
  | m, _, f, _, _, .failed (o := o) hb run, below, hloop, h, ha => by
    subst hloop
    obtain ⟨rfl, ht⟩ := h.beforePass_iff.1 hb
    have ho : o.aborted = false := ha
    have hbody := (h.failed_iff ho).1 run
    rw [h.depth]
    exact .failed ht hbody
  | m, _, f, _, _, .broken hb run hmark, below, hloop, h, ha => by
    subst hloop
    obtain ⟨rfl, ht⟩ := h.beforePass_iff.1 hb
    obtain ⟨n, hbody, -, rfl⟩ := h.broken_iff.1 ⟨_, run, hmark⟩
    exact .stopped ht hbody
  | m, _, f, _, _, .repeated hb run hmark hnext rest, below, hloop, h, ha => by
    obtain ⟨rfl, ht⟩ := h.beforePass_iff.1 (hloop ▸ hb)
    obtain ⟨n, hbody, hn, he⟩ := h.unbroken_iff.1 ⟨_, _, run, hmark, rfl⟩
    -- what comes after the pass is done with the frame of the loop on top again
    have hheads := h.next hbody hn c.next
    rw [he, hloop] at hnext
    obtain ⟨ok, hassign, hagain⟩ := afterPass_iff.1 hnext
    cases ok with
    | false => cases hagain
    | true =>
      rw [hassign] at hheads
      exact .again ht hbody hassign (rest.repeats (Option.some.inj hagain) hheads ha)
  | m, _, f, _, _, .stuck hb run hmark hnext, below, hloop, h, ha => by
    obtain ⟨rfl, ht⟩ := h.beforePass_iff.1 (hloop ▸ hb)
    obtain ⟨n, hbody, hn, he⟩ := h.unbroken_iff.1 ⟨_, _, run, hmark, rfl⟩
    rw [he, hloop] at hnext
    obtain ⟨ok, hassign, hstuck⟩ := afterPass_iff.1 hnext
    cases ok with
    | false =>
      rw [h.depth]
      exact .stuck ht hbody hassign
    | true => cases hstuck

theorem RunsBody.alive {ending : Ending} {level : Nat} (h : RunsBody e level m n ending) (ha : n.aborted = false) :
    m.aborted = false := by
  cases h with
  | @closed p o _ failed run jobs =>
    have hp : p.aborted = false := alive_of jobs.aborted ha
    exact run.alive (m := m.withBarrier (some .new)) hp

theorem alive_of_rewind (ha : m.rewind.aborted = false) : m.aborted = false := by
  unfold rewind at ha
  split at ha <;> exact ha

theorem alive_of_assignAll {vars : Table Value} (h : m.assignAll vars = (n, ok)) (ha : n.aborted = false) :
    m.aborted = false := by
  have hq := covers_quiet.assignAll m vars
  rw [h] at hq
  exact alive_of hq.aborted ha

/-- A loop that ends without an abort had none in any of its passes. -/
theorem Repeats.alive {scope : ScopeId} {level : Nat} (h : Repeats e c scope level m n ok) (ha : n.aborted = false) :
    m.aborted = false := by
  induction h with
  | refused ht => exact ha
  | done ht =>
    have hlast := alive_of_returnFrame ha
    exact alive_of (setLooping_calm _ false).aborted hlast
  | failed ht body => exact body.alive ha
  | stopped ht body => exact body.alive ha
  | stuck ht body next => exact body.alive (alive_of_rewind (alive_of_assignAll next ha))
  | again ht body next rest ih => exact body.alive (alive_of_rewind (alive_of_assignAll next (ih ha)))

/-- A while loop is passes one after the other. The induction is on its passes, each of which leaves the frame of the
loop where the next one expects it. -/
theorem Repeats.passes (h : Repeats e c f.scope below.length m n ok) (hm : Heads f below m)
    (ha : n.aborted = false) : Passes e m (.whileTrue (Text.trimmed c.condition) c.next) f n ok := by
  induction h with
  | refused ht =>
    rw [← hm.depth_pred]
    exact .refused (hm.beforePass_iff.2 ⟨rfl, _, ht⟩)
  | done ht => exact .done (hm.beforePass_iff.2 ⟨rfl, ht⟩) hm.returnFrame
  | @failed m n ht body =>
    have hn : n.aborted = false := ha
    rw [← hm.depth_pred]
    exact .failed (hm.beforePass_iff.2 ⟨rfl, ht⟩) ((hm.failed_iff hn).2 body)
  | stopped ht body =>
    -- The mark that the body has left is taken by the loop.
    obtain ⟨p, run, hmark⟩ := hm.broken_iff.2 ⟨_, body, ha, rfl⟩
    exact .broken (hm.beforePass_iff.2 ⟨rfl, ht⟩) run hmark
  | stuck ht body next =>
    have hn := alive_of_rewind (alive_of_assignAll next ha)
    obtain ⟨p, q, run, hmark, he⟩ := hm.unbroken_iff.2 ⟨_, body, hn, rfl⟩
    rw [he] at next
    rw [← hm.depth_pred]
    exact .stuck (hm.beforePass_iff.2 ⟨rfl, ht⟩) run hmark (afterPass_iff.2 ⟨_, next, rfl⟩)
  | again ht body next rest ih =>
    have hn := alive_of_rewind (alive_of_assignAll next (rest.alive ha))
    -- The assignments are made in the scope of the loop, which is the same for all passes.
    have hheads := hm.next body hn c.next
    obtain ⟨p, q, run, hmark, he⟩ := hm.unbroken_iff.2 ⟨_, body, hn, rfl⟩
    rw [next] at hheads
    rw [he] at next
    exact .repeated (hm.beforePass_iff.2 ⟨rfl, ht⟩) run hmark (afterPass_iff.2 ⟨_, next, rfl⟩) (ih hheads ha)

/-- With the frame of a loop at its beginning, passes are the while loop. -/
theorem passes_iff_repeats (h : Heads f below m) (ha : n.aborted = false) :
    Passes e m (.whileTrue (Text.trimmed c.condition) c.next) f n ok ↔ Repeats e c f.scope below.length m n ok :=
  ⟨fun run => run.repeats rfl h ha, fun run => run.passes h ha⟩

/-! ## The whole loop

From the command to the end of the loop. -/

/-- A loop puts its frame on the stack and keeps the reference on the scope of the frame for itself. -/
theorem disown_enterLoop (m : Machine σ) (action : String) (results : List String) (params : Table Value) :
    ((m.push action results params).setLooping true).disown = (m.openLoop action results params).1 := rfl

/-- The first pass of a loop. -/
theorem heads_openLoop (action : String) (results : List String) (params : Table Value)
    (hb : m.thread.breakAt = none) : ∃ f, (m.openLoop action results params).1.frames = f :: m.frames ∧
      (m.openLoop action results params).2 = f.scope ∧ Heads f m.frames (m.openLoop action results params).1 :=
  ⟨_, rfl, rfl, ⟨⟨_, rfl⟩, rfl, rfl, hb⟩⟩

/-- Driving the frame of the loop is repeating its body, and returning at the end. -/
theorem drives_iff_repeats (action : String) (results : List String) (params : Table Value)
    (hb : m.thread.breakAt = none) (ha : n.aborted = false) {o : Machine σ} {scope : ScopeId}
    (hopen : m.openLoop action results params = (o, scope)) :
    Drives e ((m.push action results params).setLooping true) (.whileTrue (Text.trimmed c.condition) c.next) n ok ↔
      ∃ p, Repeats e c scope m.depth o p ok ∧ n = p.withScopes (·.release scope) := by
  -- The loop has put its frame on the stack like a call would, and this is the frame of the while loop.
  obtain ⟨f, hf, hscope, hheads⟩ := heads_openLoop (m := m) action results params hb
  have hdis := disown_enterLoop m action results params
  rw [hopen] at hf hscope hheads hdis
  subst hscope
  constructor
  · intro h
    cases h with
    | frameless hnil =>
      rw [hdis, hf] at hnil
      cases hnil
    | @driven _ _ g below p _ hg run =>
      rw [hdis] at hg run
      cases hf.symm.trans hg
      have hp : p.aborted = false := ha
      exact ⟨p, (passes_iff_repeats hheads hp).1 run, rfl⟩
  · rintro ⟨p, run, rfl⟩
    have hp : p.aborted = false := ha
    have hpasses := (passes_iff_repeats hheads hp).2 run
    rw [← hdis] at hf hpasses
    exact .driven hf hpasses

theorem enterFor_of_error {err : StorageError} (hr : m.resolve c.initial = (n, .error err)) :
    m.enterFor c = (n, none) := by
  unfold enterFor enterLoop
  rw [hr]

theorem enterFor_of_ok {params : Table Value} (hr : m.resolve c.initial = (n, .ok params)) :
    m.enterFor c = ((n.push c.body (splitNames c.result) params).setLooping true,
      some (.whileTrue (Text.trimmed c.condition) c.next)) := by
  unfold enterFor enterLoop
  rw [hr]

/-- The parameters are read in the caller, before there is a frame. -/
theorem unchanged_of_resolve {params : Table Value} (hb : m.thread.breakAt = none)
    (hr : m.resolve c.initial = (n, .ok params)) : n.depth = m.depth ∧ n.thread.breakAt = none := by
  have hq := quiet_resolve m c.initial
  rw [hr] at hq
  exact ⟨hq.calm.depth, hq.breakAt.trans hb⟩

/-- A loop of the interpreter is a while loop, and each of its ends is one of the other's. -/
theorem performs_iff_whileLoop (hb : m.thread.breakAt = none) (ha : n.aborted = false) :
    Performs e m (.loopFor c) n ok ↔ WhileLoop e c m n ok := by
  constructor
  · intro h
    cases h with
    -- A loop is no immediate command, so it has entered its frame or was refused.
    | immediate hi => cases hi
    | refused hl =>
      have he : m.enterFor c = (n, none) := Option.some.inj hl
      rcases hr : m.resolve c.initial with ⟨o, err | params⟩
      · rw [enterFor_of_error hr] at he
        cases he
        exact .unresolved hr
      · rw [enterFor_of_ok hr] at he
        cases he
    | @looped _ _ o loop _ _ hl run =>
      have he : m.enterFor c = (o, some loop) := Option.some.inj hl
      rcases hr : m.resolve c.initial with ⟨q, err | params⟩
      · rw [enterFor_of_error hr] at he
        cases he
      · rw [enterFor_of_ok hr] at he
        cases he
        obtain ⟨hd, hbreak⟩ := unchanged_of_resolve hb hr
        obtain ⟨p, hloop, rfl⟩ := (drives_iff_repeats _ _ _ hbreak ha rfl).1 run
        rw [hd] at hloop
        exact .resolved hr rfl hloop
  · intro h
    cases h with
    | unresolved hr => exact .refused (congrArg some (enterFor_of_error hr))
    | resolved hr hopen run =>
      obtain ⟨hd, hbreak⟩ := unchanged_of_resolve hb hr
      rw [← hd] at run
      -- The passes of the driver are the repetitions of the loop.
      have hdrives := (drives_iff_repeats _ _ _ hbreak ha hopen).2 ⟨_, run, rfl⟩
      exact .looped (congrArg some (enterFor_of_ok hr)) hdrives

end

/-- The loop with a condition is a while loop over one scope, from its initial values to its last return. If no
break is pending, a run that does not abort the request is one of the while loop, with the same success and the same
machine at its end: stack, scopes, stores and journal. -/
theorem for_is_while {m n : Machine σ} (e : Engine σ) (c : ForSpec) (ok : Bool) (hb : m.thread.breakAt = none)
    (ha : n.aborted = false) :
    (∃ fuel, perform e fuel m (.loopFor c) = some (n, ok)) ↔ WhileLoop e c m n ok := by
  rw [← performs_iff_whileLoop hb ha]
  constructor
  · rintro ⟨fuel, hrun⟩
    exact performs_of_perform fuel hrun
  · intro h
    obtain ⟨bound, hrun⟩ := h.settles.bound
    exact ⟨bound, hrun bound le_rfl⟩

/-- An engine with one command of the host program, which does nothing. -/
def ticker : Engine Unit :=
  ⟨[("tick", .host ⟨false, fun _ _ => .ok fun _ => .simple () true⟩)], fun _ => .error .notFound⟩

/-- A thread in an activation of an action, and another action with one instruction. -/
def looper : Machine Unit :=
  (World.new (Store.ofProperties [("BODY_1", .str "tick:")]) (Request.new [] none) ()).enter.push "OUTER" [] []

/-- A loop with a condition that holds now and later, and then no more. -/
def nowAndLater : ForSpec :=
  ⟨[("now", .bool true), ("later", .bool true)], "now", [("now", .str "later"), ("later", .bool false)], "BODY", "now"⟩

/-- There are two passes, and the condition is what the caller gets. -/
theorem for_is_while_twice : looper.thread.breakAt = none ∧ ∃ n, n.aborted = false ∧
    (n.lookup "now").map Value.text = some "false" ∧ n.world.journal.count (.prepared 0 "BODY_1") = 2 ∧
    (∃ fuel, perform ticker fuel looper (.loopFor nowAndLater) = some (n, true)) ∧
    WhileLoop ticker nowAndLater looper n true := by
  have hresult : (perform ticker 40 looper (.loopFor nowAndLater)).map (fun r => (r.2, r.1.aborted,
      (r.1.lookup "now").map Value.text, r.1.world.journal.count (.prepared 0 "BODY_1"))) =
        some (true, false, some "false", 2) := by
    decide +kernel
  obtain ⟨⟨n, ok⟩, hrun, he⟩ := Option.map_eq_some_iff.1 hresult
  have hok : ok = true := congrArg Prod.fst he
  have ha : n.aborted = false := congrArg (fun r => r.2.1) he
  have hnow : (n.lookup "now").map Value.text = some "false" := congrArg (fun r => r.2.2.1) he
  have htwice : n.world.journal.count (.prepared 0 "BODY_1") = 2 := congrArg (fun r => r.2.2.2) he
  subst hok
  exact ⟨rfl, n, ha, hnow, htwice, ⟨40, hrun⟩, (for_is_while ticker nowAndLater true rfl ha).1 ⟨40, hrun⟩⟩

end Machine
end Sequencer
