import Sequencer.Proofs.Breaking

/-!
# Whose mark it is

A thread has room for one mark only, for all of its loops and for the two ways to end one. It is enough: while a mark
stands, nothing but the rest of one cycle is left to do, the frames of the cycle have no instructions left, and no
loop is begun or asked. So the loop that has begun this cycle finds the mark, and no loop ever finds that of another
one.
-/

namespace Sequencer

variable {σ : Type} {e : Engine σ}

open Machine

/-! ## The rest of a cycle

With a break pending, the rest of the cycle is counted down: the frames above the level return one after the other,
and nothing else is done. -/

/-- What is left to do of a cycle at a level after one of its instructions has made a mark: the instruction is done,
the frames leave, and what the cycle has started on the side is waited for. -/
inductive Draining (level : Nat) : Task σ → List (Caller σ) → Prop
  | attempt {invocation key pause total strict b} :
      Draining level (.done true) [.attempts invocation key pause total, .cycle level strict, .opened b]
  | instruction {strict b} : Draining level (.done true) [.cycle level strict, .opened b]
  | cycle {b} : Draining level (.cycle level) [.opened b]
  | leave {b} : Draining level (.leave level) [.opened b]
  | body {b} : Draining level (.done true) [.opened b]
  | join {failed b} : Draining level (.join failed) [.closing b true]
  | joined {b} : Draining level (.done true) [.closing b true]
  | ended : Draining level (.done true) []

theorem Draining.ebbing {level : Nat} {t : Task σ} {callers : List (Caller σ)} (h : Draining level t callers) :
    t.Ebbing := by
  cases h with
  | leave => exact .inr ⟨level, rfl⟩
  | _ => exact .inl trivial

namespace Machine

variable {m n : Machine σ}

/-- How many jobs a machine waits for. -/
def backlog (m : Machine σ) : Nat := m.thread.barrier.elim 0 (·.pending.length)

theorem backlog_returnFrame (m : Machine σ) (explicit : Option (List String)) :
    (m.returnFrame explicit).1.backlog = m.backlog := by
  unfold backlog
  rw [barrier_returnFrame]

theorem backlog_of_nextJob {job : Job σ} (h : m.nextJob = some (job, n)) : n.backlog < m.backlog := by
  obtain ⟨rest, hbarrier, rfl⟩ := barrier_of_nextJob h
  simp [backlog, hbarrier, withBarrier]

end Machine

namespace Snapshot

/-- A mark stands, and what is left is the rest of a cycle, in which no frame has instructions left. -/
structure Drains (level : Nat) (s : Snapshot σ) : Prop where
  rest : Draining level s.task s.callers
  breakAt : s.machine.thread.breakAt = some level
  frames : ∀ f below, f :: below <:+ s.machine.frames → level ≤ below.length → f.exhausted = true ∧ f.looping = false
  /-- Who leaves is there. -/
  leaves : s.task = .leave level → level < s.machine.depth

/-- How many steps the rest of a cycle has, at most. -/
def remaining (s : Snapshot σ) : Nat :=
  match s.task, s.callers with
  | .done _, .attempts _ _ _ _ :: _ => 2 * s.machine.depth + s.machine.backlog + 6
  | .done _, .cycle _ _ :: _ => 2 * s.machine.depth + s.machine.backlog + 5
  | .cycle _, _ => 2 * s.machine.depth + s.machine.backlog + 4
  | .leave _, _ => 2 * s.machine.depth + s.machine.backlog + 3
  | .done _, .opened _ :: _ => s.machine.backlog + 3
  | .join _, _ => s.machine.backlog + 2
  | .done _, .closing _ _ :: _ => 1
  | _, _ => 0

namespace Drains

variable {level : Nat} {loop : Loop} {g : Frame} {inner outer : List (Caller σ)} {s t : Snapshot σ} {m : Machine σ}
  {task : Task σ}

/-- No instruction is fetched. -/
theorem nextStep (h : s.Drains level) : s.machine.nextStep level =
    (s.machine, if s.machine.depth ≤ level then .drained else .exhausted) := by
  split_ifs with hd
  · exact nextStep_of_le hd
  · have hlt := Nat.lt_of_not_le hd
    obtain ⟨f, below, hf, hle⟩ := exists_cons_of_lt_depth hlt
    exact nextStep_of_exhausted hlt hf (h.frames f below (hf ▸ List.suffix_rfl) hle).1

/-- Until the cycle is over there is a step, which leaves less of it. -/
theorem next (h : s.Drains level) (hjobs : s.machine.jobs = []) (ha : s.machine.aborted = false) :
    (s.task = .done true ∧ s.callers = []) ∨ ∃ t, Step e s t ∧ t.Drains level ∧ t.remaining < s.remaining := by
  obtain ⟨m, task, callers⟩ := s
  have hfetch := h.nextStep
  obtain ⟨hrest, hbreak, hframes, hleaves⟩ := h
  -- One case for each place between the break and the end of the cycle. In each there is one step, and less to do
  -- behind it.
  cases hrest with
  | attempt =>
    exact .inr ⟨_, .resume .succeeded _, ⟨.instruction, hbreak, hframes, nofun⟩, by simp [remaining]⟩
  | instruction =>
    exact .inr ⟨_, .resume (.advanced rfl) _, ⟨.cycle, hbreak, hframes, nofun⟩, by simp [remaining]⟩
  | cycle =>
    split_ifs at hfetch with hd
    · refine .inr ⟨_, .begin (.drained ha hfetch) _, ⟨.body, hbreak, hframes, nofun⟩, ?_⟩
      simp only [remaining, List.nil_append]
      omega
    · exact .inr ⟨_, .begin (.exhausted ha hfetch) _, ⟨.leave, hbreak, hframes, fun _ => Nat.lt_of_not_le hd⟩,
        by simp [remaining]⟩
  -- a frame returns, so that there is one less above the level
  | leave =>
    obtain ⟨hsuf, hsame⟩ := suffix_returnFrame m none
    have hlt : level < m.depth := hleaves rfl
    refine .inr ⟨_, .begin .left _, ⟨.cycle, hsame.trans hbreak, fun f below hf => hframes f below (hf.trans hsuf),
      nofun⟩, ?_⟩
    simp only [remaining, backlog_returnFrame, depth_returnFrame]
    omega
  | body =>
    exact .inr ⟨_, .resume .joins _, ⟨.join, hbreak, hframes, nofun⟩, by simp [remaining]⟩
  -- jobs are work of the host program only, each of which is one less to wait for
  | join =>
    cases hj : m.nextJob with
    | none =>
      refine .inr ⟨_, .begin (.joined hj) _, ⟨.joined, hbreak, hframes, nofun⟩, ?_⟩
      simp only [remaining, List.nil_append]
      omega
    | some found =>
      obtain ⟨job, n⟩ := found
      cases job with
      | instruction thread frames i key => cases (threadless_of_nextJob hjobs hj).1
      | host work =>
        have hbacklog := backlog_of_nextJob hj
        obtain ⟨b, rfl⟩ := withBarrier_of_nextJob hj
        exact .inr ⟨_, .begin (.worked hj) _, ⟨.join, hbreak, hframes, nofun⟩, Nat.add_lt_add_right hbacklog 2⟩
  -- the barrier is closed, and there is nobody behind it
  | @joined b =>
    have hclosed : Step e ⟨m, .done true, [.closing b true]⟩ ⟨m.withBarrier b, .done (true && !m.aborted), []⟩ :=
      .resume .closed []
    have hdone : (true && !m.aborted) = true := by
      rw [show m.aborted = false from ha]
      rfl
    rw [hdone] at hclosed
    exact .inr ⟨_, hclosed, ⟨.ended, hbreak, hframes, nofun⟩, by simp [remaining]⟩
  | ended => exact .inl ⟨rfl, rfl⟩

/-- The cycle comes to its end, with the mark. -/
theorem ends (h : s.Drains level) (hs : ∀ t, Reaches e s t → t.machine.jobs = [] ∧ t.machine.aborted = false) :
    ∃ r, Throughout e (Drains level) s ⟨r, .done true, []⟩ := by
  induction hn : s.remaining using Nat.strong_induction_on generalizing s with
  | _ n ih =>
    obtain ⟨hjobs, ha⟩ := hs s (.refl s)
    rcases h.next (e := e) hjobs ha with ⟨htask, hcallers⟩ | ⟨t, hstep, ht, hlt⟩
    · obtain ⟨m, task, callers⟩ := s
      obtain rfl : task = .done true := htask
      obtain rfl : callers = [] := hcallers
      exact ⟨m, .refl h⟩
    · have hrest : ∀ u, Reaches e t u → u.machine.jobs = [] ∧ u.machine.aborted = false :=
        fun u hu => hs u (Relation.ReflTransGen.head hstep hu)
      obtain ⟨r, hrun⟩ := ih t.remaining (hn ▸ hlt) ht hrest rfl
      exact ⟨r, .head h hstep hrun⟩

/-- The loop that has begun the cycle finds the mark and takes it away. -/
theorem takes (h : (⟨m, .done true, inner⟩ : Snapshot σ).Drains level) (loop : Loop) (g : Frame)
    (outer : List (Caller σ)) : Step e ⟨m, .done true, .pass level loop g :: outer⟩
      ⟨(m.unwind level).withBreak none, .done true, outer⟩ := by
  have htaken : (m.unwind level).takeBreak level = ((m.unwind level).withBreak none, true) := if_pos h.breakAt
  exact .resume (.broken htaken) outer

/-- Where a loop waits for the cycle, each step is one of the rest of the cycle, until the loop takes the mark. -/
theorem step (h : (⟨m, task, inner⟩ : Snapshot σ).Drains level) (hjobs : m.jobs = []) (ha : m.aborted = false)
    (hstep : Step e ⟨m, task, inner ++ .pass level loop g :: outer⟩ t) : t.machine.thread.breakAt = none ∨
      ∃ inner', t.callers = inner' ++ .pass level loop g :: outer ∧
        Step e ⟨m, task, inner⟩ ⟨t.machine, t.task, inner'⟩ ∧ Drains level ⟨t.machine, t.task, inner'⟩ := by
  -- a step is determined, so that it is the one that there is for the rest of the cycle
  rcases h.next (e := e) hjobs ha with ⟨htask, hcallers⟩ | ⟨u, hnext, hu, -⟩
  · obtain rfl : task = .done true := htask
    obtain rfl : inner = [] := hcallers
    rw [hstep.unique (h.takes loop g outer)]
    exact .inl rfl
  · rw [hstep.unique (hnext.under (.pass level loop g :: outer))]
    exact .inr ⟨u.callers, rfl, hnext, hu⟩

end Drains

end Snapshot

/-! ## How a mark is made

A break is made by one kind of attempt only, and is marked with the level of its loop. -/

/-- A mark is made in one of two ways: by a break, or by the early return of a frame that loops. -/
inductive Machine.Marks (m : Machine σ) : Machine σ → Prop
  | broken : Marks m m.breakLoop.1
  | returned {n f below} (h : m.Quiet n) (hf : n.frames = f :: below) (hloop : f.looping = true)
      (explicit : Option (List String)) : Marks m (n.returnEarly explicit).1

/-- Whatever else an attempt does makes no mark. -/
theorem Machine.Attempted.marks {m n : Machine σ} {ok : Bool} (h : Attempted m n ok)
    (hm : m.thread.breakAt = none) (hn : n.thread.breakAt ≠ none) : m.Marks n := by
  cases h with
  | kept hq hb hj => exact absurd (hq.breakAt.trans hm) hn
  | called hq action results params => exact absurd (hq.breakAt.trans hm) hn
  | @returned o hq explicit =>
    cases hf : o.frames with
    | nil =>
      rw [returnEarly_nil hf] at hn
      exact absurd (hq.breakAt.trans hm) hn
    | cons f below =>
      obtain ⟨o', hq', he⟩ := returnEarly_cons hf explicit
      have hbreak : (o.returnEarly explicit).1.thread.breakAt =
          if f.looping then some below.length else o.thread.breakAt :=
        (congrArg (·.1.thread.breakAt) he).trans hq'.breakAt
      cases hloop : f.looping with
      | true => exact .returned hq hf hloop explicit
      | false =>
        rw [hloop] at hbreak
        exact absurd (hbreak.trans (hq.breakAt.trans hm)) hn
  | broke => exact .broken

theorem Machine.breakAt_setLooping (m : Machine σ) (looping : Bool) :
    (m.setLooping looping).thread.breakAt = m.thread.breakAt := by
  unfold setLooping
  split <;> rfl

theorem Machine.breakAt_disown (m : Machine σ) : m.disown.thread.breakAt = m.thread.breakAt := by
  unfold disown
  split <;> rfl

/-- Nothing but an attempt that runs no instructions makes a mark. -/
theorem Task.Begins.unmarked {m n : Machine σ} {task t : Task σ} {callers : List (Caller σ)}
    (h : task.Begins e m n t callers) (hm : m.thread.breakAt = none) : n.thread.breakAt = none ∨
      ∃ invocation ok, task = .perform invocation ∧ m.immediate invocation = some (n, ok) ∧ t = .done ok ∧
        callers = [] := by
  have fetch {n : Machine σ} {level : Nat} {step : Machine.Step} (hs : m.nextStep level = (n, step)) :
      n.thread.breakAt = none := (Callee.Stage.breakAt_of_nextStep hs).trans hm
  cases h with
  | immediate hi => exact .inr ⟨_, _, rfl, hi, rfl, rfl⟩
  | aborted ha => exact .inl hm
  | drained ha hn => exact .inl (fetch hn)
  | exhausted ha hn => exact .inl (fetch hn)
  | left => exact .inl ((suffix_returnFrame m none).2.trans hm)
  | undecodable ha hn => exact .inl (fetch hn)
  | forked ha hn => exact .inl ((Callee.Stage.breakAt_of_nextStep hn).trans hm)
  | fetched ha hn => exact .inl (fetch hn)
  | opened => exact .inl hm
  | unprepared hp => exact .inl ((quiet_prepare hp).breakAt.trans hm)
  | prepared hp => exact .inl ((quiet_prepare hp).breakAt.trans hm)
  | spent ht => exact .inl hm
  | tried ht => exact .inl hm
  | refused hl => exact .inl ((covers_quiet.of_refused hl).breakAt.trans hm)
  | looped hl =>
    obtain ⟨o, values, hq, rfl⟩ := covers_quiet.of_looped hl
    exact .inl (hq.breakAt.trans hm)
  | rejected hl => exact .inl ((covers_quiet.of_rejected hl).breakAt.trans hm)
  | ranged hl =>
    obtain ⟨o, values, hq, rfl⟩ := covers_quiet.of_ranged hl
    exact .inl (hq.breakAt.trans hm)
  | unreadable hr => exact .inl ((covers_quiet.of_read hr).breakAt.trans hm)
  | chosen hr => exact .inl ((covers_quiet.of_read hr).breakAt.trans hm)
  | frameless hf => exact .inl hm
  | driven hf => exact .inl ((breakAt_disown m).trans hm)
  | @finished loop f o n ok hb hr =>
    have hret := (suffix_returnFrame (o.setLooping false) none).2
    rw [hr] at hret
    exact .inl (hret.trans ((breakAt_setLooping o false).trans ((quiet_beforePass hb).breakAt.trans hm)))
  | stopped hb => exact .inl ((quiet_beforePass hb).breakAt.trans hm)
  | passed hb => exact .inl ((quiet_beforePass hb).breakAt.trans hm)
  | again hn => exact .inl ((quiet_afterPass hn).breakAt.trans hm)
  | stuck hn => exact .inl ((quiet_afterPass hn).breakAt.trans hm)
  | joined hj => exact .inl hm
  | worked hj =>
    obtain ⟨b, rfl⟩ := withBarrier_of_nextJob hj
    exact .inl hm
  -- a thread on the side begins without a mark
  | unknown hj => exact .inl rfl
  | started hj => exact .inl rfl

theorem Caller.Resumes.unmarked {m n : Machine σ} {ok : Bool} {caller : Caller σ} {t : Task σ}
    {callers : List (Caller σ)} (h : caller.Resumes m ok n t callers) (halone : caller.Alone)
    (hm : m.thread.breakAt = none) : n.thread.breakAt = none := by
  cases h with
  | broken ht =>
    obtain ⟨-, rfl⟩ := takeBreak_eq_true_iff.1 ht
    rfl
  | put ht =>
    obtain ⟨-, rfl⟩ := takeBreak_eq_false_iff.1 ht
    exact hm
  | finished => exact halone.elim
  | waited => exact halone.elim
  | _ => exact hm

/-- A frame with as many frames below it as there are in the lower part of a stack is in the upper part. -/
theorem mem_of_suffix_append {above below rest : List Frame} {f : Frame} (h : f :: rest <:+ above ++ below)
    (hle : below.length ≤ rest.length) : f ∈ above := by
  obtain ⟨between, rfl⟩ :=
    List.suffix_of_suffix_length_le (List.suffix_append above below) ((List.suffix_cons f rest).trans h) hle
  obtain ⟨top, htop⟩ := h
  have habove : top ++ f :: between = above := List.append_cancel_right (by simpa using htop)
  exact habove ▸ List.mem_append_right top List.mem_cons_self

namespace Snapshot

/-- An instruction that makes a mark is one of the body of a loop. The mark is that of this loop, and what is left of
its cycle is the rest. -/
theorem Nested.marks {m n : Machine σ} {invocation : Invocation σ} {callers : List (Caller σ)} {ok : Bool} {level : Nat}
    (h : Nested .action ⟨m, .perform invocation, callers⟩) (hi : m.immediate invocation = some (n, ok))
    (ha : n.aborted = false) (hn : n.thread.breakAt = some level) :
    ok = true ∧ m.Marks n ∧ ∃ inner loop g outer, callers = inner ++ .pass level loop g :: outer ∧
      Drains level ⟨n, .done true, inner⟩ := by
  have hattempt := immediate_cases hi
  have hsome : n.thread.breakAt ≠ none := by simp [hn]
  cases h with
  | @perform _ a _ _ hwaiting _ hgoes =>
    have hcyclic : a.Cyclic := hwaiting.cyclic_of_action
    have hmarks : m.Marks n := hattempt.marks hgoes.breakAt hsome
    have hok : ok = true := by
      cases ok with
      | true => rfl
      | false => exact absurd (hgoes.failed hattempt ha).breakAt hsome
    cases a with
    | stack base => exact hcyclic.elim
    | action =>
      -- outside of all loops there is nothing to mark
      have hstays : Around.action.Stays n := hgoes.attempted hcyclic hattempt
      exact absurd (hstays.2 ha) hsome
    | loop below f =>
      obtain ⟨hloop, -⟩ : InLoop below n ∧ _ := hgoes.attempted hcyclic hattempt
      cases hloop with
      | @ending above hframes hends hb =>
        obtain rfl : level = below.length := Option.some.inj (hn.symm.trans hb)
        obtain ⟨tried, key, pause, total, strict, b, loop, outer, a, rfl, -⟩ := hwaiting.of_loop
        refine ⟨hok, hmarks, [.attempts tried key pause total, .cycle below.length strict, .opened b], loop, f,
          .release below.length f :: outer, rfl, .attempt, hb, fun g rest hsuf hle => ?_, nofun⟩
        exact (hends g (mem_of_suffix_append (hframes ▸ hsuf) hle)).symm
      | looping hl => exact absurd hl.breakAt hsome
      | ended _ hnone => exact absurd hnone hsome
      | stopped _ ha' => exact absurd (ha.symm.trans ha') Bool.false_ne_true

/-! ## Where a mark comes from and where it goes

From the break to its loop no other instruction is dispatched, so that the mark is never seen by another loop. -/

/-- A mark stands in a cycle with a barrier of its own. Some have begun this cycle on some machine and wait for it, with
a pass of a loop the first of them. -/
structure Marked (e : Engine σ) (origin : Snapshot σ) (level : Nat) (begun : Machine σ)
    (inner waiting : List (Caller σ)) (s : Snapshot σ) : Prop where
  callers : s.callers = inner ++ waiting
  beginning : Reaches e origin ⟨begun, .runCycle level, waiting⟩
  /-- There was no mark when an instruction of the cycle made this one. What came then is the rest of the cycle. -/
  made : ∃ m n invocation above, Reaches e ⟨begun, .runCycle level, []⟩ ⟨m, .perform invocation, above⟩ ∧
    m.thread.breakAt = none ∧ m.Marks n ∧ Step e ⟨m, .perform invocation, above⟩ ⟨n, .done true, above⟩ ∧
    Throughout e (Drains level) ⟨n, .done true, above⟩ ⟨s.machine, s.task, inner⟩

/-- A mark stands, and it is the loop that has begun the cycle of its pass which finds it. -/
def PendingFor (e : Engine σ) (origin : Snapshot σ) (level : Nat) (loop : Loop) (g : Frame) (outer : List (Caller σ))
    (s : Snapshot σ) : Prop :=
  ∃ begun inner r, Marked e origin level begun inner (.pass level loop g :: outer) s ∧
    Throughout e (Drains level) ⟨s.machine, s.task, inner⟩ ⟨r, .done true, []⟩ ∧
    Step e ⟨r, .done true, .pass level loop g :: outer⟩ ⟨(r.unwind level).withBreak none, .done true, outer⟩

section

variable {origin s t : Snapshot σ} {level : Nat} {begun : Machine σ} {inner outer : List (Caller σ)} {loop : Loop}
  {g : Frame}

theorem Marked.drains {waiting : List (Caller σ)} (h : Marked e origin level begun inner waiting s) :
    Drains level ⟨s.machine, s.task, inner⟩ := by
  obtain ⟨_, _, _, _, _, _, _, _, hrun⟩ := h.made
  exact hrun.last

/-- The mark stands until the loop takes it. -/
theorem Marked.step (h : Marked e origin level begun inner (.pass level loop g :: outer) s)
    (hjobs : s.machine.jobs = []) (ha : s.machine.aborted = false) (hstep : Step e s t) :
    t.machine.thread.breakAt = none ∨ ∃ inner', Marked e origin level begun inner' (.pass level loop g :: outer) t := by
  have hdrains := h.drains
  obtain ⟨m, task, callers⟩ := s
  obtain ⟨rfl, hbeginning, u, v, invocation, above, hrun, hclear, hmarks, hmade, hrest⟩ := h
  rcases hdrains.step hjobs ha hstep with hnone | ⟨inner', hcallers, hnext, ht⟩
  · exact .inl hnone
  · exact .inr ⟨inner', hcallers, hbeginning, u, v, invocation, above, hrun, hclear, hmarks, hmade,
      hrest.trans (.head hdrains hnext (.refl ht))⟩

/-- The loop whose turn it is, once the cycle of its pass is over, is the one that has begun this cycle. -/
theorem Marked.at_loop {m : Machine σ} {ok : Bool} {l : Nat} {loop' : Loop} {g' : Frame} {outer' : List (Caller σ)}
    (h : Marked e origin level begun inner (.pass level loop g :: outer)
      ⟨m, .done ok, .pass l loop' g' :: outer'⟩) :
    ok = true ∧ level = l ∧ loop = loop' ∧ g = g' ∧ outer = outer' := by
  have hcallers := h.callers
  have hrest := h.drains.rest
  cases hrest with
  | ended =>
    cases hcallers
    exact ⟨rfl, rfl, rfl, rfl, rfl⟩
  | _ => cases hcallers

/-- A step that makes a mark makes it for the loop around the instruction. -/
theorem Reaches.marked_of_step (h : Reaches e origin s) (horigin : origin.callers = []) (hs : s.Nested .action)
    (halone : s.Alone) (hclear : s.machine.thread.breakAt = none) (hstep : Step e s t)
    (ha : t.machine.aborted = false) : t.machine.thread.breakAt = none ∨ ∃ level begun inner loop g outer,
      Marked e origin level begun inner (.pass level loop g :: outer) t := by
  cases hstep with
  | @resume m ok caller n task callers hr waiting =>
    exact .inl (hr.unmarked (halone.callers caller List.mem_cons_self) hclear)
  | @begin m task n t callers hb waiting =>
    rcases hb.unmarked hclear with hnone | ⟨invocation, ok, rfl, hi, rfl, rfl⟩
    · exact .inl hnone
    · refine or_iff_not_imp_left.2 fun hn => ?_
      obtain ⟨level, hlevel⟩ := Option.ne_none_iff_exists'.1 hn
      obtain ⟨rfl, hmarks, inner, loop, g, outer, rfl, hdrains⟩ := hs.marks hi ha hlevel
      obtain ⟨begun, hbeginning, hrun⟩ := Reaches.passing h horigin rfl
      have hmade : Step e ⟨m, .perform invocation, inner⟩ ⟨n, .done true, inner⟩ := .begin (.immediate hi) inner
      exact ⟨level, begun, inner, loop, g, outer, rfl, hbeginning, m, n, invocation, inner, hrun, hclear, hmarks,
        hmade, .refl hdrains⟩

/-- Wherever a mark stands, it has been made in the cycle of a pass that some wait for. The induction is on the steps:
each makes the mark, or leaves the one that there is where it belongs, or takes it away. -/
theorem Reaches.marked (h : Reaches e origin s) (horigin : origin.callers = [])
    (hclear : origin.machine.thread.breakAt = none) (hf : origin.ForkFree e) (halone : origin.Alone)
    (hnested : origin.Nested .action) (ha : ∀ t, Reaches e origin t → t.machine.aborted = false) :
    s.machine.thread.breakAt = none ∨
      ∃ level begun inner loop g outer, Marked e origin level begun inner (.pass level loop g :: outer) s := by
  induction h with
  | refl => exact .inl hclear
  | @tail s t hreach hstep ih =>
    have hs : s.Alone := Reaches.alone hreach hf halone
    have hna : s.machine.aborted = false := ha s hreach
    rcases ih with hnone | ⟨level, begun, inner, loop, g, outer, hmarked⟩
    · exact Reaches.marked_of_step hreach horigin (Reaches.nested hreach hf halone hnested) hs hnone hstep
        (ha t (hreach.tail hstep))
    · rcases hmarked.step hs.jobs hna hstep with hnone | ⟨inner', ht⟩
      · exact .inl hnone
      · exact .inr ⟨level, begun, inner', loop, g, outer, ht⟩

/-- The mark will be found. -/
theorem Marked.pendingFor (h : Marked e origin level begun inner (.pass level loop g :: outer) s)
    (hs : ∀ t, Reaches e s t → t.machine.jobs = [] ∧ t.machine.aborted = false) :
    PendingFor e origin level loop g outer s := by
  have hinner : ∀ t, Reaches e ⟨s.machine, s.task, inner⟩ t → t.machine.jobs = [] ∧ t.machine.aborted = false := by
    intro t ht
    obtain ⟨m, task, callers⟩ := s
    obtain rfl : callers = inner ++ .pass level loop g :: outer := h.callers
    have hunder := hs ⟨t.machine, t.task, t.callers ++ .pass level loop g :: outer⟩
    exact hunder (ht.under (.pass level loop g :: outer))
  obtain ⟨r, hrun⟩ := h.drains.ends hinner
  exact ⟨begun, inner, r, h, hrun, hrun.last.takes loop g outer⟩

end

end Snapshot

namespace Engine

open Snapshot

/-- A mark is always that of a loop which waits for the cycle of its pass, in a run without forks for a request that is
never aborted. It has been made in this cycle, which has nothing else to do from then on: the frames that are left of it
are at their ends and repeated by no loop, and no instruction is fetched. When the cycle is over, the loop takes the
mark. So a loop finds a mark just where one has been made in its own pass, and then there is none any more. -/
theorem mark_of_own_pass {w : World σ} {action : String} (hf : (started w action).ForkFree e)
    (ha : ∀ t, Reaches e (started w action) t → t.machine.aborted = false) :
    (∀ s level, Reaches e (started w action) s → s.machine.thread.breakAt = some level →
      (∃ loop g outer, PendingFor e (started w action) level loop g outer s) ∧
      (∀ f below, f :: below <:+ s.machine.frames → level ≤ below.length →
        f.exhausted = true ∧ f.looping = false) ∧
      s.task.Ebbing ∧ ∀ l, s.task = .cycle l →
        l = level ∧ s.machine.nextStep l = (s.machine, if s.machine.depth ≤ l then .drained else .exhausted)) ∧
    ∀ m ok level loop g outer, Reaches e (started w action) ⟨m, .done ok, .pass level loop g :: outer⟩ →
      (((m.unwind level).takeBreak level).2 = true ↔
        PendingFor e (started w action) level loop g outer ⟨m, .done ok, .pass level loop g :: outer⟩) ∧
      ((m.unwind level).takeBreak level).1.thread.breakAt = none ∧ (ok = false → m.thread.breakAt = none) := by
  have hgood {s : Snapshot σ} (hs : Reaches e (started w action) s) :
      s.machine.jobs = [] ∧ s.machine.aborted = false :=
    ⟨(hs.alone hf (alone_started w action)).jobs, ha s hs⟩
  -- a mark that is found has been set in a pass of the loop that it names, and waits for it
  have hpending {s : Snapshot σ} {level : Nat} (hs : Reaches e (started w action) s)
      (hlevel : s.machine.thread.breakAt = some level) : ∃ begun inner loop g outer,
        Marked e (started w action) level begun inner (.pass level loop g :: outer) s := by
    rcases hs.marked rfl rfl hf (alone_started w action) (nested_started w action) ha with
      hnone | ⟨l, begun, inner, loop, g, outer, hmarked⟩
    · rw [hlevel] at hnone
      cases hnone
    · obtain rfl : level = l := Option.some.inj (hlevel.symm.trans hmarked.drains.breakAt)
      exact ⟨begun, inner, loop, g, outer, hmarked⟩
  constructor
  · intro s level hs hlevel
    obtain ⟨begun, inner, loop, g, outer, hmarked⟩ := hpending hs hlevel
    have hdrains := hmarked.drains
    refine ⟨⟨loop, g, outer, hmarked.pendingFor fun t ht => hgood (hs.trans ht)⟩, hdrains.frames,
      hdrains.rest.ebbing, fun l hl => ?_⟩
    have hcycle : Draining level (.cycle l) inner := hl ▸ hdrains.rest
    cases hcycle
    exact ⟨rfl, hdrains.nextStep⟩
  · intro m ok level loop g outer hs
    cases hb : m.thread.breakAt with
    | none =>
      have htake : (m.unwind level).takeBreak level = (m.unwind level, false) :=
        if_neg fun hlevel => Option.some_ne_none level (hlevel.symm.trans hb)
      rw [htake]
      refine ⟨iff_of_false Bool.false_ne_true ?_, hb, fun _ => rfl⟩
      rintro ⟨begun, inner, r, hmarked, -⟩
      have hlevel := hmarked.drains.breakAt
      rw [hb] at hlevel
      cases hlevel
    | some l =>
      obtain ⟨begun, inner, loop', g', outer', hmarked⟩ := hpending hs hb
      -- the loop that asks is the one that the mark is for
      obtain ⟨rfl, rfl, rfl, rfl, rfl⟩ := hmarked.at_loop
      have htake : (m.unwind l).takeBreak l = ((m.unwind l).withBreak none, true) := if_pos hb
      rw [htake]
      exact ⟨iff_of_true rfl (hmarked.pendingFor fun t ht => hgood (hs.trans ht)), rfl,
        fun hok => Bool.noConfusion hok⟩

/-- A run that has come to its end with one thread, for a request that is not aborted, has had no other thread and no
abort. -/
theorem undisturbed_of_execute {fuel : Nat} {w w' : World σ} {action : String} {ok : Bool}
    (h : e.execute fuel w action = some (w', ok)) (hthreads : w'.threads = w.threads + 1)
    (ha : w'.request.aborted = false) : (started w action).ForkFree e ∧
      ∀ t, Reaches e (started w action) t → t.machine.aborted = false := by
  obtain ⟨n, hn, rfl⟩ := reaches_of_execute h
  exact ⟨forkFree_of_execute h hthreads, fun t ht => (hn.to_done ht).not_aborted ha⟩

/-- When the body of the loop has been broken, its loop will find the mark. -/
theorem mark_of_own_pass_endless : (started endless "RUN").ForkFree repeating ∧
    (∀ t, Reaches repeating (started endless "RUN") t → t.machine.aborted = false) ∧
      ∃ s loop g outer, Reaches repeating (started endless "RUN") s ∧ s.machine.thread.breakAt = some 1 ∧
        PendingFor repeating (started endless "RUN") 1 loop g outer s := by
  have hresult : (repeating.execute 30 endless "RUN").map (fun r => (r.1.request.aborted, r.1.threads, r.2)) =
      some (false, 1, true) := by decide +kernel
  obtain ⟨⟨w', ok⟩, hrun, he⟩ := Option.map_eq_some_iff.1 hresult
  obtain ⟨hf, ha⟩ := undisturbed_of_execute hrun (congrArg (fun r => r.2.1) he) (congrArg Prod.fst he)
  obtain ⟨callers, hr⟩ := reaches_break
  obtain ⟨called, rest, hm, hcalled, hrest⟩ := List.map_eq_cons_iff.1 looping_triedBreak
  obtain ⟨f, below, rfl, hlooping, hbelow⟩ := List.map_eq_cons_iff.1 hrest
  have habove : triedBreak.frames = [called] ++ f :: below := hm
  obtain ⟨hi, -, hmark, -⟩ := marked_breakLoop habove (by simp [hcalled]) hlooping
  have hlevel : below.length = 1 := by simpa using congrArg List.length hbelow
  rw [hlevel] at hmark
  have hbroken : Reaches repeating (started endless "RUN") ⟨triedBreak.breakLoop.1, .done true, callers⟩ :=
    hr.trans (.begin (.immediate hi) (.refl _))
  obtain ⟨⟨loop, g, outer, hpending⟩, -⟩ := (mark_of_own_pass hf ha).1 _ 1 hbroken hmark
  exact ⟨hf, ha, _, loop, g, outer, hbroken, hmark, hpending⟩

end Engine

end Sequencer
