import Sequencer.Proofs.Aborting
import Sequencer.Proofs.LoopResults
import Sequencer.Proofs.Nesting

/-!
# What a break does

A break leaves marks: on the frames from the active one down to that of the innermost loop, and on the thread. What
they stand for is done later, by the cycle of the body, which finds frame after frame without instructions, and by
the loop, which finds its mark when its frame has gone. Nothing else of the run takes notice of them.
-/

namespace Sequencer

variable {σ : Type} {e : Engine σ}

open Machine Snapshot

/-! ## Frames that return by themselves

After a break the frames above the loop are exhausted. Nothing is fetched from them, and each returns to the next one
by itself, down to the loop. -/

/-- Frames return by themselves, from the top down: each has its results read under their own names, and saved under
them for the frame below it. -/
inductive Machine.HandsDown : Machine σ → List Frame → Machine σ → Prop
  | nil {m} : HandsDown m [] m
  | cons {m f below o vs fs n} (hm : m.frames = f :: below) (hread : m.readResults false f.results = (o, vs))
      (rest : HandsDown (((o.withFrames below).publish f.results vs).withScopes (releaseFrames · [f])) fs n) :
      HandsDown m (f :: fs) n

/-- All that is left is that frames return by themselves, and to end. No instruction is run, no pass is begun, and no
loop decides whether there is another. -/
def Task.Ebbing (t : Task σ) : Prop := t.Closing ∨ ∃ level, t = .leave level

namespace Machine

variable {m n : Machine σ} {f : Frame} {below fs : List Frame}

/-- A frame that no loop repeats hands its results down when it returns by itself. -/
theorem returnFrame_of_not_looping (hm : m.frames = f :: below) (hf : f.looping = false) {o : Machine σ}
    {vs : List (Option Value)} (hread : m.readResults false f.results = (o, vs)) :
    (m.returnFrame none).1 = ((o.withFrames below).publish f.results vs).withScopes (releaseFrames · [f]) := by
  have hvalues : (if f.results.isEmpty then (m, ([] : List (Option Value)))
      else m.readResults false f.results) = (o, vs) := by
    split_ifs with hnil
    · rw [List.isEmpty_iff.1 hnil] at hread
      exact hread
    · exact hread
  unfold returnFrame
  rw [hm]
  simp only [hf, Bool.false_and, Bool.false_eq_true, if_false, Option.isSome_none, Option.getD_none]
  rw [hvalues]
  cases hown : f.ownsScope with
  | true => simp [releaseFrames, hown]
  | false => simp [releaseFrames, hown, withScopes, withRequest]

/-- A cycle whose frames have no instructions left lets them return, one after the other. -/
theorem exists_handsDown (hm : m.frames = fs ++ below) (hfs : ∀ f ∈ fs, f.looping = false ∧ f.exhausted = true)
    {outer : List (Caller σ)} (ha : ∀ t, Reaches e ⟨m, .cycle below.length, outer⟩ t → t.machine.aborted = false) :
    ∃ n, HandsDown m fs n ∧ n.frames = below ∧ n.thread.breakAt = m.thread.breakAt ∧
      n.thread.barrier = m.thread.barrier ∧ Throughout e (fun t => t.task.Ebbing)
        ⟨m, .cycle below.length, outer⟩ ⟨n, .cycle below.length, outer⟩ := by
  induction fs generalizing m with
  | nil => exact ⟨m, .nil, hm, rfl, rfl, .refl (.inl trivial)⟩
  | cons f fs ih =>
    obtain ⟨⟨hloop, hexhausted⟩, hrest⟩ := List.forall_mem_cons.1 hfs
    have hna : m.aborted = false := ha _ (.refl _)
    have hd : below.length < m.depth := by
      unfold depth
      rw [hm, List.cons_append, List.length_cons, List.length_append]
      omega
    have hnext : m.nextStep below.length = (m, .exhausted) := nextStep_of_exhausted hd hm hexhausted
    have hframes : (m.returnFrame none).1.frames = fs ++ below := frames_returnFrame hm none
    -- One fetch finds the frame exhausted, and the frame returns.
    have hsteps : Throughout e (fun t => t.task.Ebbing) ⟨m, .cycle below.length, outer⟩
        ⟨(m.returnFrame none).1, .cycle below.length, outer⟩ :=
      .begin (.exhausted hna hnext) (.inl trivial) (.begin .left (.inr ⟨_, rfl⟩) (.refl (.inl trivial)))
    obtain ⟨n, hdown, hn, hbreak, hbarrier, hrun⟩ := ih hframes hrest fun t ht => ha t (hsteps.reaches.trans ht)
    refine ⟨n, ?_, hn, hbreak.trans (suffix_returnFrame m none).2, hbarrier.trans (barrier_returnFrame m none), ?_⟩
    · rcases hread : m.readResults false f.results with ⟨o, vs⟩
      rw [returnFrame_of_not_looping hm hloop hread] at hdown
      exact .cons hm hread hdown
    · exact hsteps.trans hrun

/-- Waiting for work of the host program comes to its end. -/
theorem exists_joins (h : m.jobs = []) (failed : Nat) : ∃ n failed', Joins e m failed n failed' := by
  rcases hb : m.thread.barrier with _ | ⟨⟨pending⟩⟩
  · exact ⟨m, failed, .done (nextJob_of_no_barrier hb)⟩
  · induction pending generalizing m failed with
    | nil => exact ⟨m, failed, .done (nextJob_of_new hb)⟩
    | cons job rest ih =>
      have hj := nextJob_of_barrier hb
      obtain ⟨hthreads, hrest⟩ := threadless_of_nextJob h hj
      cases job with
      | instruction thread frames i key => cases hthreads
      | host work =>
        let done : Machine σ :=
          ⟨{ m.world with host := (work m.world.host).1 }, { m.thread with barrier := some ⟨rest⟩ }⟩
        have hdone : done.jobs = [] := hrest
        obtain ⟨n, failed', hjoins⟩ := ih hdone (if (work m.world.host).2 then failed else failed + 1) rfl
        exact ⟨n, failed', .next hj .host hjoins⟩

/-- The marks that a break leaves. -/
theorem marked_breakLoop {above : List Frame} (hm : m.frames = above ++ f :: below)
    (habove : ∀ g ∈ above, g.looping = false) (hf : f.looping = true) :
    m.immediate .breakLoop = some (m.breakLoop.1, true) ∧
      m.breakLoop.1.frames = (above.map Frame.exhaust ++ [{ f.exhaust with looping := false }]) ++ below ∧
      m.breakLoop.1.thread.breakAt = some below.length ∧ m.breakLoop.1.thread.barrier = m.thread.barrier := by
  have hi : m.immediate .breakLoop = some m.breakLoop := rfl
  rw [hi]
  unfold breakLoop
  rw [hm, breakInnermost_append habove hf]
  refine ⟨rfl, ?_, rfl, rfl⟩
  rw [List.append_assoc]
  rfl

variable {b : Option (Barrier σ)} {loop : Loop} {g : Frame} {outer body : List (Caller σ)}

/-- A loop whose frame has gone finds its mark and ends. -/
theorem marked_ends (hm : m.frames = below) (hb : m.thread.breakAt = some below.length) (hjobs : m.jobs = [])
    (hbody : body = .opened b :: .pass below.length loop g :: .release below.length g :: outer)
    (ha : ∀ t, Reaches e ⟨m, .cycle below.length, body⟩ t → t.machine.aborted = false) :
    ∃ n, Throughout e (fun t => t.task.Ebbing) ⟨m, .cycle below.length, body⟩ ⟨n, .done true, outer⟩ ∧
      n.frames = below ∧ n.thread.breakAt = none ∧ n.store = m.store ∧ n.scopes = m.scopes.release g.scope := by
  obtain ⟨q, failed, hjoins⟩ := exists_joins (e := e) hjobs 0
  -- The cycle finds nothing above the loop, and waits for jobs that are not there.
  have hdone : Throughout e (fun t => t.task.Ebbing) ⟨m, .cycle below.length, body⟩
      ⟨q.withBarrier b, .done (!q.aborted), .pass below.length loop g :: .release below.length g :: outer⟩ := by
    rw [hbody]
    have hle : m.depth ≤ below.length := (congrArg List.length hm).le
    refine .begin (.drained (ha _ (.refl _)) (nextStep_of_le hle)) (.inl trivial) ?_
    exact hjoins.closes hjobs (fun _ _ _ _ _ ht => .inl ht) b true _
  have hlive : q.aborted = false := ha _ hdone.reaches
  rw [hlive] at hdone
  have hframes : (q.withBarrier b).frames = below := hjoins.stack.1.trans hm
  have hmark : (q.withBarrier b).thread.breakAt = some below.length := hjoins.stack.2.trans hb
  -- The mark is the one of this loop, which takes it and stops.
  have htaken : ((q.withBarrier b).unwind below.length).takeBreak below.length =
      ((q.withBarrier b).withBreak none, true) := by
    rw [unwind_of_le (congrArg List.length hframes).le]
    exact takeBreak_eq_true_iff.2 ⟨hmark, rfl⟩
  refine ⟨_, hdone.trans (.resume (.broken htaken) (.inl trivial)
    (.resume .released (.inl trivial) (.refl (.inl trivial)))), hframes, rfl, ?_⟩
  obtain ⟨host, c, rfl⟩ := hjoins.of_jobs_eq_nil hjobs
  exact ⟨rfl, rfl⟩

/-- A break in the body of a loop ends the body, and the body ends the loop. -/
theorem breakLoop_ends {above : List Frame} (hm : m.frames = above ++ f :: below)
    (habove : ∀ g ∈ above, g.looping = false) (hf : f.looping = true) (hjobs : m.jobs = [])
    {invocation : Invocation σ} {key : String} {pause total : Int64} {strict : Bool} {inner : List (Caller σ)}
    (hbody : body = .opened b :: .pass below.length loop g :: .release below.length g :: outer)
    (hinner : inner = .attempts invocation key pause total :: .cycle below.length strict :: body)
    (ha : ∀ t, Reaches e ⟨m.breakLoop.1, .done true, inner⟩ t → t.machine.aborted = false) :
    ∃ r n, HandsDown m.breakLoop.1 (above.map Frame.exhaust ++ [{ f.exhaust with looping := false }]) r ∧
      Throughout e (fun t => t.task.Ebbing) ⟨m.breakLoop.1, .done true, inner⟩ ⟨r, .cycle below.length, body⟩ ∧
      Throughout e (fun t => t.task.Ebbing) ⟨r, .cycle below.length, body⟩ ⟨n, .done true, outer⟩ ∧
      n.frames = below ∧ n.thread.breakAt = none ∧ n.store = r.store ∧ n.scopes = r.scopes.release g.scope := by
  obtain ⟨-, hframes, hmark, hbarrier⟩ := marked_breakLoop hm habove hf
  -- The attempt and the dispatch succeed, so the cycle goes on.
  have hback : Throughout e (fun t => t.task.Ebbing) ⟨m.breakLoop.1, .done true, inner⟩
      ⟨m.breakLoop.1, .cycle below.length, body⟩ := by
    rw [hinner]
    exact .resume .succeeded (.inl trivial) (.resume (.advanced rfl) (.inl trivial) (.refl (.inl trivial)))
  -- Each frame down to the loop's is exhausted, and returns by itself.
  obtain ⟨r, hdown, hr, hbreak, hsame, hrun⟩ :=
    exists_handsDown hframes (returns_of_exhausted habove) fun t ht => ha t (hback.reaches.trans ht)
  have hreach := hback.trans hrun
  have hnone : r.jobs = [] := jobs_of_barrier (hsame.trans hbarrier) hjobs
  obtain ⟨n, hend, hn⟩ :=
    marked_ends hr (hbreak.trans hmark) hnone hbody fun t ht => ha t (hreach.reaches.trans ht)
  exact ⟨r, n, hdown, hreach, hend, hn⟩

end Machine

/-! ## The run of a loop

The break comes from an instruction in the body of a loop, with any number of calls in between. The run is followed
from there to the next instruction behind the loop. -/

namespace Snapshot

/-- The elements of a loop are read after its frame has been put on the stack. -/
theorem Reaches.ranged {s : Snapshot σ} {o : Machine σ} {c : RangeSpec} {l : Nat} {outer : List (Caller σ)}
    (h : Reaches e s ⟨o, .choose c l, outer⟩) {level : Nat} (hs : s.task = .runCycle level) :
    ∃ m, m.enterLoop c.body c.result c.params = (o, .ok ()) ∧ l = m.depth ∧
      Reaches e s ⟨m, .perform (.loopRange c), outer⟩ := by
  rcases Relation.ReflTransGen.cases_tail h with rfl | ⟨t, hreach, hstep⟩
  · cases hs
  · generalize ht : (⟨o, .choose c l, outer⟩ : Snapshot σ) = u at hstep
    cases hstep with
    | @begin m _ _ _ _ hb waiting =>
      cases hb with
      | ranged hl =>
        cases ht
        exact ⟨m, hl, rfl, hreach⟩
      | _ => cases ht
    | resume hr waiting => cases hr <;> cases ht

/-- A loop has been begun by an instruction. -/
theorem Reaches.entered {s : Snapshot σ} {o : Machine σ} {loop : Loop} {outer : List (Caller σ)}
    (h : Reaches e s ⟨o, .drive loop, outer⟩) {level : Nat} (hs : s.task = .runCycle level) :
    ∃ m invocation, m.entered invocation = some (o, some loop) ∧ Reaches e s ⟨m, .perform invocation, outer⟩ ∧
      Reaches e ⟨m, .perform invocation, []⟩ ⟨o, .drive loop, []⟩ := by
  rcases Relation.ReflTransGen.cases_tail h with rfl | ⟨t, hreach, hstep⟩
  · cases hs
  · generalize ht : (⟨o, .drive loop, outer⟩ : Snapshot σ) = u at hstep
    cases hstep with
    | @begin m _ _ _ _ hb waiting =>
      cases hb with
      -- A loop comes from its instruction at once, or by way of the range that it reads first.
      | @looped c _ _ hl =>
        cases ht
        exact ⟨m, .loopFor c, congrArg some hl, hreach, .begin (.looped hl) (.refl _)⟩
      | @chosen c l _ v hr =>
        cases ht
        obtain ⟨q, hl, rfl, hreach'⟩ := Reaches.ranged hreach hs
        refine ⟨q, .loopRange c, congrArg some ?_, hreach', .begin (.ranged hl) (.begin (.chosen hr) (.refl _))⟩
        unfold enterRange
        rw [hl]
        simp only [hr]
        cases v <;> rfl
      | _ => cases ht
    | resume hr waiting => cases hr <;> cases ht

/-- A loop that holds the scope of its frame is one that an instruction has begun, and it is still at it. -/
theorem Reaches.looping {s t : Snapshot σ} (h : Reaches e s t) (hs : s.callers = []) {level : Nat}
    (htask : s.task = .runCycle level) {inner outer : List (Caller σ)} {l : Nat} {g : Frame}
    (ht : t.callers = inner ++ .release l g :: outer) : ∃ m invocation o loop below,
      m.entered invocation = some (o, some loop) ∧ o.disown.frames = g :: below ∧
        Reaches e s ⟨m, .perform invocation, outer⟩ ∧
        Reaches e ⟨m, .perform invocation, []⟩ ⟨t.machine, t.task, inner ++ [.release l g]⟩ := by
  induction h generalizing inner with
  | refl =>
    rw [hs] at ht
    exact absurd ht (by simp)
  | tail hreach hstep ih =>
    cases hstep with
    | @begin m task n task' callers hb waiting =>
      -- Either this step has made the loop wait, or it was waiting already.
      rcases mem_or_waited ht with ⟨tail, hnew⟩ | ⟨between, rfl, hwaiting⟩
      · cases hb with
        | @driven loop f below hf =>
          obtain ⟨rfl, hrelease⟩ : inner = [] ∧ _ := by simpa [List.cons_eq_append_iff] using hnew
          obtain ⟨⟨rfl, rfl⟩, rfl⟩ := hrelease
          cases ht
          obtain ⟨q, invocation, hl, hbegun, hrun⟩ := Reaches.entered hreach htask
          exact ⟨q, invocation, m, loop, below, hl, hf, hbegun, hrun.tail (.begin (.driven hf) [])⟩
        | _ => simp [List.cons_eq_append_iff] at hnew
      · obtain ⟨q, invocation, o, loop, below, hl, hf, hbegun, hrun⟩ := ih hwaiting
        rw [List.append_assoc]
        exact ⟨q, invocation, o, loop, below, hl, hf, hbegun, hrun.tail (.begin hb _)⟩
    | @resume m ok caller n task callers hr waiting =>
      rcases mem_or_waited ht with ⟨tail, hnew⟩ | ⟨between, rfl, hwaiting⟩
      · -- A return adds no loop: whoever waits now has waited before.
        cases hr <;> simp [List.cons_eq_append_iff] at hnew
      · have hbefore : caller :: waiting = (caller :: between) ++ .release l g :: outer :=
          congrArg (caller :: ·) hwaiting
        obtain ⟨q, invocation, o, loop, below, hl, hf, hbegun, hrun⟩ := ih hbefore
        rw [List.append_assoc]
        exact ⟨q, invocation, o, loop, below, hl, hf, hbegun, hrun.tail (.resume hr _)⟩

end Snapshot

namespace Machine

/-- A stack has one innermost frame that loops. -/
theorem innermost_unique {above above' below below' : List Frame} {f f' : Frame}
    (h : above ++ f :: below = above' ++ f' :: below') (habove : ∀ g ∈ above, g.looping = false)
    (hf : f.looping = true) (habove' : ∀ g ∈ above', g.looping = false) (hf' : f'.looping = true) :
    f = f' ∧ below = below' := by
  induction above generalizing above' with
  | nil =>
    cases above' with
    | nil => exact List.cons_eq_cons.1 h
    | cons g above' =>
      obtain ⟨rfl, -⟩ := List.cons_eq_cons.1 h
      -- A frame that loops cannot be one of those above the other.
      rw [habove' f List.mem_cons_self] at hf
      cases hf
  | cons g above ih =>
    cases above' with
    | nil =>
      obtain ⟨rfl, -⟩ := List.cons_eq_cons.1 h
      rw [habove g List.mem_cons_self] at hf'
      cases hf'
    | cons g' above' =>
      exact ih (List.cons_eq_cons.1 h).2 (fun k hk => habove k (List.mem_cons_of_mem g hk))
        fun k hk => habove' k (List.mem_cons_of_mem g' hk)

theorem isLoop_of_entered {m o : Machine σ} {invocation : Invocation σ} {loop : Option Loop}
    (hl : m.entered invocation = some (o, loop)) : invocation.isLoop = true := by
  cases invocation with
  | loopFor c => rfl
  | loopRange c => rfl
  | _ => cases hl

/-- The frame of a loop keeps the names that the loop gives its results to. -/
theorem loopResults_of_entered {m o : Machine σ} {invocation : Invocation σ} {loop : Loop} {g : Frame}
    {below : List Frame} (hl : m.entered invocation = some (o, some loop)) (hg : o.disown.frames = g :: below) :
    invocation.loopResults = some g.results := by
  obtain ⟨results, hresults⟩ : ∃ results, invocation.loopResults = some results := by
    cases invocation with
    | loopFor c => exact ⟨_, rfl⟩
    | loopRange c => exact ⟨_, rfl⟩
    | _ => cases hl
  obtain ⟨f, hf, rfl⟩ := frame_of_entered hresults hl
  rw [disown_of_cons hf] at hg
  cases hg
  exact hresults

end Machine

/-- An attempt is made for an instruction that a cycle has fetched. -/
theorem Waiting.of_attempt {a : Around} {callers : List (Caller σ)} (h : Waiting .action .attempt a callers) :
    ∃ tried key pause total strict outer, callers = .attempts tried key pause total :: .cycle a.level strict :: outer ∧
      Waiting .action .cycle a outer := by
  cases h with
  | attempts h =>
    cases h with
    | cycle h => exact ⟨_, _, _, _, _, _, rfl, h⟩
    | instruction ho => cases ho
  | attempt ho => cases ho

/-- Those who wait for an attempt in the body of a loop. -/
theorem Waiting.of_loop {below : List Frame} {g : Frame} {callers : List (Caller σ)}
    (h : Waiting .action .attempt (.loop below g) callers) :
    ∃ tried key pause total strict b loop outer a, callers = .attempts tried key pause total ::
      .cycle below.length strict :: .opened b :: .pass below.length loop g :: .release below.length g :: outer ∧
      Waiting .action .attempt a outer := by
  obtain ⟨tried, key, pause, total, strict, outer, rfl, hcycle⟩ := h.of_attempt
  cases hcycle with
  | opened hrun =>
    cases hrun with
    | pass hpasses _ _ =>
      cases hpasses with
      | release houter _ => exact ⟨_, _, _, _, _, _, _, _, _, rfl, houter⟩

namespace Snapshot.Nested

variable {m n : Machine σ} {invocation : Invocation σ} {callers : List (Caller σ)}

/-- Whoever tries an instruction above a frame that loops is in the body of its loop. -/
theorem innermost {above : List Frame} {f : Frame} {below : List Frame} (h : Nested .action ⟨m, .perform invocation, callers⟩)
    (hm : m.frames = above ++ f :: below) (habove : ∀ g ∈ above, g.looping = false) (hf : f.looping = true) :
    ∃ tried key pause total strict b loop g outer a, callers = .attempts tried key pause total ::
      .cycle below.length strict :: .opened b :: .pass below.length loop g :: .release below.length g :: outer ∧
      f.results = g.results ∧ Waiting .action .attempt a outer := by
  cases h with
  | @perform _ a _ _ hwaiting _ hgoes =>
    cases a with
    -- An instruction of the action itself has no loop around it.
    | stack base => exact hwaiting.cyclic_of_action.elim
    | action =>
      have hnone := hgoes.frames f (hm ▸ List.mem_append_right above List.mem_cons_self)
      rw [hf] at hnone
      cases hnone
    | loop below' g =>
      obtain ⟨above', f', hm', habove', hf', hresults⟩ := hgoes.frames
      obtain ⟨rfl, rfl⟩ := innermost_unique (hm.symm.trans hm') habove hf habove' hf'
      obtain ⟨tried, key, pause, total, strict, b, loop, outer, a, hcallers, houter⟩ := hwaiting.of_loop
      exact ⟨tried, key, pause, total, strict, b, loop, g, outer, a, hcallers, hresults, houter⟩

/-- A loop leaves the stack as it has found it. -/
theorem frames_of_loop {ok : Bool} (h : Nested .action ⟨m, .perform invocation, callers⟩) (hl : invocation.isLoop = true)
    (run : Performs e m invocation n ok) : n.frames = m.frames := by
  cases h with
  | perform _ _ hgoes =>
    have hneutral := run.loop_neutral hl hgoes.breakAt
    exact hneutral.frames

end Snapshot.Nested

/-- How the loop of a frame ends, with some frames below it, after a break in its body: the loop is an instruction that
a machine performs for some callers. -/
structure Machine.LoopEnds (e : Engine σ) (m : Machine σ) (callers : List (Caller σ)) (above : List Frame) (f : Frame)
    (below : List Frame) (begun : Machine σ) (invocation : Invocation σ) (outer : List (Caller σ))
    (n : Machine σ) : Prop where
  /-- The loop has begun on the frames below. -/
  beginning : begun.frames = below
  /-- Its results are those of its frame. -/
  results : invocation.loopResults = some f.results
  /-- It has not ended when the break is tried. -/
  inProgress : InProgress e begun (.perform invocation) outer ⟨m, .perform .breakLoop, callers⟩
  /-- Until it has, there are no instructions, passes or decisions, but frames that return. -/
  ebbing : ∀ t, Reaches e ⟨m.breakLoop.1, .done true, callers⟩ t →
    (t.task.Ebbing ∧ Reaches e t ⟨n, .done true, outer⟩) ∨ Reaches e ⟨n, .done true, outer⟩ t
  /-- They return from the top down to that of the loop. Then the loop gives its scope back. -/
  handsDown : ∃ r b loop g,
    HandsDown m.breakLoop.1 (above.map Frame.exhaust ++ [{ f.exhaust with looping := false }]) r ∧
    Reaches e ⟨m.breakLoop.1, .done true, callers⟩
      ⟨r, .cycle below.length, .opened b :: .pass below.length loop g :: .release below.length g :: outer⟩ ∧
    Reaches e ⟨r, .cycle below.length, .opened b :: .pass below.length loop g :: .release below.length g :: outer⟩
      ⟨n, .done true, outer⟩ ∧
    n.store = r.store ∧ n.scopes = r.scopes.release g.scope
  /-- The loop has succeeded. -/
  succeeds : Enough (Machine.perform e · begun invocation) (n, true)
  /-- What is below it is as it was. -/
  frames : n.frames = below
  /-- No mark is left for another loop. -/
  breakAt : n.thread.breakAt = none
  /-- The cycle around the loop goes on with what comes next there. -/
  onward : ∃ tried key pause total level strict rest,
    outer = .attempts tried key pause total :: .cycle level strict :: rest ∧ level < n.depth ∧
      Reaches e ⟨n, .done true, outer⟩ ⟨n, .cycle level, rest⟩

namespace Engine

/-- A break ends the innermost loop around it, and no other. Outside of all loops it fails, and that is all. -/
theorem break_ends_innermost {w : World σ} {action : String} (hf : (started w action).ForkFree e) {m : Machine σ}
    {callers : List (Caller σ)} (hr : Reaches e (started w action) ⟨m, .perform .breakLoop, callers⟩)
    (ha : ∀ t, Reaches e ⟨m, .perform .breakLoop, callers⟩ t → t.machine.aborted = false) :
    ((∀ f ∈ m.frames, f.looping = false) →
      Snapshot.Step e ⟨m, .perform .breakLoop, callers⟩ ⟨m, .done false, callers⟩) ∧
    ∀ above f below, m.frames = above ++ f :: below → (∀ g ∈ above, g.looping = false) → f.looping = true →
      Snapshot.Step e ⟨m, .perform .breakLoop, callers⟩ ⟨m.breakLoop.1, .done true, callers⟩ ∧
      ∃ begun invocation outer n, Reaches e (started w action) ⟨begun, .perform invocation, outer⟩ ∧
        LoopEnds e m callers above f below begun invocation outer n := by
  have hna : m.aborted = false := ha _ (.refl _)
  have halone := hr.alone hf (alone_started w action)
  have hnested := hr.nested hf (alone_started w action) (nested_started w action)
  constructor
  · intro hloops
    have hi : m.immediate .breakLoop = some (m, false) := congrArg some (Around.breakLoop_of_not_looping hloops)
    exact .begin (.immediate hi) callers
  · intro above f below hm habove hlooping
    obtain ⟨hi, -⟩ := marked_breakLoop hm habove hlooping
    have hstep : Snapshot.Step e ⟨m, .perform .breakLoop, callers⟩ ⟨m.breakLoop.1, .done true, callers⟩ :=
      .begin (.immediate hi) callers
    refine ⟨hstep, ?_⟩
    obtain ⟨tried, key, pause, total, strict, b, loop, g, outer, a, rfl, hresults, houter⟩ :=
      hnested.innermost hm habove hlooping
    let inner : List (Caller σ) := [.attempts tried key pause total, .cycle below.length strict, .opened b,
      .pass below.length loop g, .release below.length g]
    obtain ⟨begun, invocation, o, entered, below', hl, hg, hbegun, hrun⟩ :=
      Reaches.looping hr rfl rfl (rfl : _ = inner.dropLast ++ .release below.length g :: outer)
    -- what happens inside of the loop happens whoever waits for it
    have halive : ∀ t, Reaches e ⟨m.breakLoop.1, .done true, inner⟩ t → t.machine.aborted = false :=
      fun t ht => ha ⟨t.machine, t.task, t.callers ++ outer⟩ (Relation.ReflTransGen.head hstep (ht.under outer))
    obtain ⟨r, n, hdown, hback, hrest, hframes, hbreak, hstore, hscopes⟩ :=
      breakLoop_ends hm habove hlooping halone.jobs rfl rfl halive
    have hend : Reaches e ⟨begun, .perform invocation, []⟩ ⟨n, .done true, []⟩ :=
      hrun.trans (Relation.ReflTransGen.head (.begin (.immediate hi) _) (hback.reaches.trans hrest.reaches))
    have hperforms : Performs e begun invocation n true := hend.ends
    have hlive : begun.aborted = false := Reaches.not_aborted (hrun.under outer) hna
    have hstack : begun.frames = below :=
      ((hbegun.nested hf (alone_started w action) (nested_started w action)).frames_of_loop
        (isLoop_of_entered hl) hperforms).symm.trans hframes
    have hway : Throughout e (fun t => t.task.Ebbing) ⟨m.breakLoop.1, .done true, inner ++ outer⟩
        ⟨n, .done true, outer⟩ := (hback.trans hrest).under outer fun _ h => h
    refine ⟨begun, invocation, outer, n, hbegun, ?_⟩
    constructor
    case beginning => exact hstack
    case results => rw [hresults, loopResults_of_entered hl hg]
    case inProgress => exact ⟨inner, rfl, hrun⟩
    case ebbing => exact fun t ht => hway.on_the_way ht
    case handsDown =>
      exact ⟨r, b, loop, g, hdown, hback.reaches.under outer, hrest.reaches.under outer, hstore, hscopes⟩
    case succeeds => exact hperforms.settles
    case frames => exact hframes
    case breakAt => exact hbreak
    case onward =>
      have hground : ground outer ≤ begun.depth := (hbegun.leveled (leveled_started w action)).ready
      have hdepth : n.depth = begun.depth := congrArg List.length (hframes.trans hstack.symm)
      obtain ⟨tried', key', pause', total', strict', rest, rfl, -⟩ := houter.of_attempt
      exact ⟨tried', key', pause', total', a.level, strict', rest, rfl, hground.trans hdepth.ge,
        .resume .succeeded (.resume (.advanced rfl) (.refl _))⟩

/-- An engine with a loop and what breaks it. -/
def repeating : Engine Unit :=
  ⟨[("for", .builtin .loopFor), ("call", .builtin .call), ("break", .builtin .breakLoop)],
    fun _ => .error .notFound⟩

/-- A loop without a condition. -/
def bodyLoop : ForSpec := ⟨[], "", [], "BODY", ""⟩

def bodyLoopStep : Instruction := ⟨true, false, .none, "for", "\x7b\"body\":\"BODY\"\x7d"⟩

/-- A call from its body. -/
def subCall : CallSpec := ⟨"SUB", [], ""⟩

def subCallStep : Instruction := ⟨true, false, .none, "call", "\x7b\"action\":\"SUB\"\x7d"⟩

def subBreakStep : Instruction := ⟨true, false, .none, "break", ""⟩

/-- The body of the loop calls an action that breaks it. Nothing knows the instructions after that. -/
def endless : World Unit :=
  World.new (Store.ofProperties [("RUN_1", .str "for:\x7b\"body\":\"BODY\"\x7d"),
    ("BODY_1", .str "call:\x7b\"action\":\"SUB\"\x7d"), ("BODY_2", .str "unknown:"), ("SUB_1", .str "break:"),
    ("SUB_2", .str "unknown:")]) (Request.new [] none) ()

/-- Whether a command has become the loop. -/
def isBodyLoop : Except CommandError (Invocation Unit) → Bool
  | .ok (.loopFor ⟨[], condition, [], body, result⟩) => condition == "" && body == "BODY" && result == ""
  | _ => false

theorem eq_bodyLoop_of_isBodyLoop {r : Except CommandError (Invocation Unit)} (h : isBodyLoop r = true) :
    r = .ok (.loopFor bodyLoop) := by
  unfold isBodyLoop at h
  split at h
  · simp only [Bool.and_eq_true, beq_iff_eq] at h
    obtain ⟨⟨rfl, rfl⟩, rfl⟩ := h
    rfl
  · cases h

/-- Whether a command has become the call. -/
def isSubCall : Except CommandError (Invocation Unit) → Bool
  | .ok (.call ⟨action, [], result⟩) => action == "SUB" && result == ""
  | _ => false

theorem eq_subCall_of_isSubCall {r : Except CommandError (Invocation Unit)} (h : isSubCall r = true) :
    r = .ok (.call subCall) := by
  unfold isSubCall at h
  split at h
  · simp only [Bool.and_eq_true, beq_iff_eq] at h
    obtain ⟨rfl, rfl⟩ := h
    rfl
  · cases h

/-- The machine in the body of the loop. -/
def inBody (m : Machine Unit) : Machine Unit :=
  (((m.push bodyLoop.body (splitNames bodyLoop.result) []).setLooping true).disown).withBarrier (some .new)

/-- The loop begins with its body. -/
theorem reaches_inBody (m : Machine Unit) (outer : List (Caller Unit)) : ∃ callers,
    Reaches repeating ⟨m, .perform (.loopFor bodyLoop), outer⟩ ⟨inBody m, .cycle m.depth, callers⟩ := by
  have hpass (o : Machine Unit) : o.beforePass (.whileTrue (Text.trimmed bodyLoop.condition) bodyLoop.next) =
      (o, .run) := by
    have hblank : (Text.trimmed bodyLoop.condition).isEmpty = true := by decide +kernel
    simp only [beforePass, hblank, if_true]
  exact ⟨_, .begin (.looped rfl) (.begin (.driven rfl) (.begin (.passed (hpass _)) (.begin .opened (.refl _))))⟩

/-- The machines on the way to the break. -/
def atStart : Machine Unit := (started endless "RUN").machine.withBarrier (some .new)

def atLoop : Machine Unit := (atStart.nextStep 0).1

def preparedLoop : Machine Unit := (atLoop.prepare repeating (.builtin .loopFor) bodyLoopStep "RUN_1").1

def triedLoop : Machine Unit := preparedLoop.note (.attempted preparedLoop.thread.id "RUN_1")

def atCall : Machine Unit := ((inBody triedLoop).nextStep 1).1

def preparedCall : Machine Unit := (atCall.prepare repeating (.builtin .call) subCallStep "BODY_1").1

def triedCall : Machine Unit := preparedCall.note (.attempted preparedCall.thread.id "BODY_1")

def inSub : Machine Unit := (triedCall.performCall subCall).1

def atBreak : Machine Unit := (inSub.nextStep 1).1

def preparedBreak : Machine Unit := (atBreak.prepare repeating (.builtin .breakLoop) subBreakStep "SUB_1").1

def triedBreak : Machine Unit := preparedBreak.note (.attempted preparedBreak.thread.id "SUB_1")

/-- The action begins with the loop. -/
theorem reaches_loop : ∃ callers,
    Reaches repeating (started endless "RUN") ⟨triedLoop, .perform (.loopFor bodyLoop), callers⟩ := by
  have hnext : atStart.nextStep 0 = (atLoop, .instruction "RUN_1" "for:\x7b\"body\":\"BODY\"\x7d") :=
    Prod.ext rfl (by decide +kernel)
  have hdecode : atLoop.decode repeating "for:\x7b\"body\":\"BODY\"\x7d" = some (bodyLoopStep, .builtin .loopFor) :=
    decode_of_splitMarker (by decide +kernel) (by decide +kernel) rfl
  have hprepare : atLoop.prepare repeating (.builtin .loopFor) bodyLoopStep "RUN_1" =
      (preparedLoop, .ok (.loopFor bodyLoop)) :=
    Prod.ext rfl (eq_bodyLoop_of_isBodyLoop (by decide +kernel))
  exact ⟨_, .begin .opened (.fetched rfl hnext hdecode rfl hprepare (by decide))⟩

/-- The body begins with the call, which comes back at once, with a frame on top of that of the loop. -/
theorem reaches_inSub (outer : List (Caller Unit)) :
    Reaches repeating ⟨inBody triedLoop, .cycle 1, outer⟩ ⟨inSub, .cycle 1, outer⟩ := by
  have hnext : (inBody triedLoop).nextStep 1 = (atCall, .instruction "BODY_1" "call:\x7b\"action\":\"SUB\"\x7d") :=
    Prod.ext rfl (by decide +kernel)
  have hdecode : atCall.decode repeating "call:\x7b\"action\":\"SUB\"\x7d" = some (subCallStep, .builtin .call) :=
    decode_of_splitMarker (by decide +kernel) (by decide +kernel) rfl
  have hprepare : atCall.prepare repeating (.builtin .call) subCallStep "BODY_1" = (preparedCall, .ok (.call subCall)) :=
    Prod.ext rfl (eq_subCall_of_isSubCall (by decide +kernel))
  have hcall : triedCall.performCall subCall = (inSub, true) := Prod.ext rfl (by decide +kernel)
  have htried : Reaches repeating ⟨inBody triedLoop, .cycle 1, outer⟩ ⟨triedCall, .perform (.call subCall), _⟩ :=
    .fetched (by decide +kernel) hnext hdecode rfl hprepare (by decide)
  exact htried.trans (.begin (.immediate (congrArg some hcall)) (.resume .succeeded (.resume (.advanced rfl) (.refl _))))

/-- The called action breaks the loop. -/
theorem reaches_break : ∃ callers,
    Reaches repeating (started endless "RUN") ⟨triedBreak, .perform .breakLoop, callers⟩ := by
  obtain ⟨outer, hloop⟩ := reaches_loop
  obtain ⟨callers, hbody⟩ := reaches_inBody triedLoop outer
  have hdepth : triedLoop.depth = 1 := by decide +kernel
  rw [hdepth] at hbody
  have hnext : inSub.nextStep 1 = (atBreak, .instruction "SUB_1" "break:") := Prod.ext rfl (by decide +kernel)
  have hdecode : atBreak.decode repeating "break:" = some (subBreakStep, .builtin .breakLoop) :=
    decode_of_splitMarker (by decide +kernel) (by decide +kernel) rfl
  have hprepare : atBreak.prepare repeating (.builtin .breakLoop) subBreakStep "SUB_1" = (preparedBreak, .ok .breakLoop) :=
    Prod.ext rfl rfl
  exact ⟨_, hloop.trans (hbody.trans ((reaches_inSub callers).trans
    (.fetched (by decide +kernel) hnext hdecode rfl hprepare (by decide))))⟩

/-- It has the frame of the call on top, then that of the loop, then that of the action. -/
theorem looping_triedBreak : triedBreak.frames.map (·.looping) = [false, true, false] := by decide +kernel

/-- The called action and the body are left at the break, and the run goes on to its end. -/
theorem break_ends_innermost_endless : ∃ m callers g f below begun invocation outer n,
    Reaches repeating (started endless "RUN") ⟨m, .perform .breakLoop, callers⟩ ∧ m.frames = [g] ++ f :: below ∧
      g.looping = false ∧ f.looping = true ∧ LoopEnds repeating m callers [g] f below begun invocation outer n := by
  obtain ⟨callers, hr⟩ := reaches_break
  obtain ⟨g, rest, hm, hg, hrest⟩ := List.map_eq_cons_iff.1 looping_triedBreak
  obtain ⟨f, below, rfl, hlooping, -⟩ := List.map_eq_cons_iff.1 hrest
  have hresult : (repeating.execute 30 endless "RUN").map (fun r => (r.1.request.aborted, r.1.threads, r.2)) =
      some (false, 1, true) := by decide +kernel
  obtain ⟨⟨w', ok⟩, hrun, he⟩ := Option.map_eq_some_iff.1 hresult
  have ha : w'.request.aborted = false := congrArg Prod.fst he
  have hthreads : w'.threads = 1 := congrArg (fun r => r.2.1) he
  have hf : (started endless "RUN").ForkFree repeating := forkFree_of_execute hrun hthreads
  obtain ⟨n, hn, rfl⟩ := reaches_of_execute hrun
  obtain ⟨-, hbreaks⟩ := break_ends_innermost hf hr fun t ht => (hn.to_done (hr.trans ht)).not_aborted ha
  obtain ⟨-, begun, invocation, outer, n, -, hends⟩ := hbreaks [g] f below hm (by simp [hg]) hlooping
  exact ⟨triedBreak, callers, g, f, below, begun, invocation, outer, n, hr, hm, hg, hlooping, hends⟩

end Engine
end Sequencer
