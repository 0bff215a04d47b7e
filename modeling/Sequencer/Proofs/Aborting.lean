import Sequencer.Proofs.Containment
import Sequencer.Proofs.Forkless
import Sequencer.Proofs.Journal

/-!
# Aborting

A request can be aborted anywhere: while a result is published, while a range is read, between two passes. Whoever
waits is not told. A cycle finds out before it fetches, the attempts of a command when one has failed, and a cycle
with a barrier once more when it ends; loops rely on the cycles of their passes. So the argument goes through
everything that may be waiting, and shows that nothing is left to it but to come to an end.
-/

namespace Sequencer

open Machine

variable {σ : Type} {e : Engine σ}

/-- An instruction is dispatched or tried. -/
def Task.Working : Task σ → Prop
  | .dispatch _ _ _ => True
  | .attempts _ _ _ _ => True
  | .perform _ => True
  | _ => False

/-- Something was done for an instruction: it was fetched, prepared or tried, or there was a wait before. -/
def Event.Working : Event → Prop
  | .entered _ _ _ => False
  | .aborted _ _ => False
  | _ => True

namespace Snapshot

/-- The request is aborted, and nobody is at work. -/
structure Ceasing (s : Snapshot σ) : Prop where
  aborted : s.machine.aborted = true
  alone : s.Alone
  idle : ¬s.task.Working

/-- As long as an instruction is at work, the request is not aborted. -/
def Alive (s : Snapshot σ) : Prop := s.task.Working → s.machine.aborted = false

end Snapshot

/-! ## Nobody works for an aborted request

A task is given out only while the request is not aborted, so that whoever is found at work is at work for a living
request. The abort itself comes from within a task that was given out before. -/

/-- In a request that is not aborted, only commands and stores can change that. -/
theorem Task.Begins.alive {m n : Machine σ} {task t : Task σ} {callers outer : List (Caller σ)}
    (h : task.Begins e m n t callers) (hs : Snapshot.Alone ⟨m, task, outer⟩) (ha : Snapshot.Alive ⟨m, task, outer⟩) :
    Snapshot.Alive ⟨n, t, callers ++ outer⟩ := by
  cases h with
  | fetched hm hn => exact fun _ => (aborted_of_nextStep hn).trans hm
  | prepared hp =>
    obtain ⟨events, -, rfl⟩ := noted_of_prepare hp
    exact fun _ => ha trivial
  | tried ht => exact fun _ => ha trivial
  | started hj => cases (threadless_of_nextJob hs.jobs hj).1
  | _ => exact False.elim

theorem Caller.Resumes.alive {m n : Machine σ} {ok : Bool} {caller : Caller σ} {t : Task σ}
    {callers outer : List (Caller σ)} (h : caller.Resumes m ok n t callers) :
    Snapshot.Alive ⟨n, t, callers ++ outer⟩ := by
  cases h with
  | retried hl => exact fun _ => not_aborted_of_lastAttempt hl
  | _ => exact False.elim

/-- No instruction is at work for a request that is aborted. -/
theorem Snapshot.Reaches.alive {s t : Snapshot σ} (h : Reaches e s t) (hf : s.ForkFree e) (hs : s.Alone)
    (ha : s.Alive) : t.Alive := by
  induction h with
  | refl => exact ha
  | tail hreach hstep ih =>
    cases hstep with
    | begin hb outer => exact hb.alive (Reaches.alone hreach hf hs) ih
    | resume hr outer => exact hr.alive

/-! ## What is left to do

From the abort on, a snapshot is ceasing: the flag stays, and no step gives out work again. Both are kept by each
step. -/

theorem Task.Begins.ceasing {m n : Machine σ} {task t : Task σ} {callers outer : List (Caller σ)}
    (h : task.Begins e m n t callers) (hs : Snapshot.Ceasing ⟨m, task, outer⟩) :
    Snapshot.Ceasing ⟨n, t, callers ++ outer⟩ := by
  obtain ⟨ha, halone, hidle⟩ := hs
  have hunforked : ¬Snapshot.Forks e ⟨m, task, outer⟩ := fun ⟨_, _, hf, _⟩ => Bool.noConfusion (hf.symm.trans ha)
  refine ⟨h.records.aborted ha, h.alone hunforked halone, ?_⟩
  cases h with
  | fetched hm => exact fun _ => Bool.noConfusion (hm.symm.trans ha)
  | prepared => exact fun _ => hidle trivial
  | tried => exact fun _ => hidle trivial
  | started hj => cases (threadless_of_nextJob halone.jobs hj).1
  | _ => exact id

theorem Caller.Resumes.ceasing {m n : Machine σ} {ok : Bool} {caller : Caller σ} {t : Task σ}
    {callers outer : List (Caller σ)} (h : caller.Resumes m ok n t callers)
    (hs : Snapshot.Ceasing ⟨m, .done ok, caller :: outer⟩) : Snapshot.Ceasing ⟨n, t, callers ++ outer⟩ := by
  obtain ⟨ha, halone, -⟩ := hs
  refine ⟨h.records.aborted ha, h.alone halone, ?_⟩
  cases h with
  | retried hl => exact fun _ => Bool.noConfusion ((not_aborted_of_lastAttempt hl).symm.trans ha)
  | _ => exact id

namespace Snapshot

/-- From an abort on, no step dispatches anything or tries it, and the flag stays. -/
theorem Step.ceasing {s t : Snapshot σ} (h : Step e s t) (hs : s.Ceasing) :
    t.Ceasing ∧ s.machine.world.Records (fun event => ¬event.Working) t.machine.world := by
  have ha := hs.aborted
  cases h with
  | begin hb outer =>
    refine ⟨hb.ceasing hs, hb.records.mono fun event hnote => ?_⟩
    cases event with
    -- A fetch looks at the flag first; the other entries are those of tasks that are over.
    | fetched thread activation key depth live =>
      obtain ⟨level, f, below, -, hm, -⟩ := hnote
      exact Bool.noConfusion (hm.symm.trans ha)
    | prepared thread key =>
      obtain ⟨c, i, rfl⟩ := hnote
      exact (hs.idle trivial).elim
    | waited thread units =>
      obtain ⟨c, i, key, rfl⟩ := hnote
      exact (hs.idle trivial).elim
    | opened path =>
      obtain ⟨c, i, key, rfl⟩ := hnote
      exact (hs.idle trivial).elim
    | attempted thread key =>
      obtain ⟨invocation, pause, total, rfl⟩ := hnote
      exact (hs.idle trivial).elim
    | entered thread activation action => exact id
    | aborted thread message => exact id
  | @resume m ok caller n task callers hr outer =>
    refine ⟨hr.ceasing hs, hr.records.mono ?_⟩
    rintro event (⟨thread, activation, action, rfl⟩ | ⟨thread, units, pause, total, rfl, hl⟩)
    · exact id
    · exact Bool.noConfusion ((not_aborted_of_lastAttempt hl).symm.trans ha)

/-- Once a request is aborted it stays so, and nothing is done for any instruction. -/
theorem Reaches.ceasing {s t : Snapshot σ} (h : Reaches e s t) (hs : s.Ceasing) :
    t.Ceasing ∧ s.machine.world.Records (fun event => ¬event.Working) t.machine.world := by
  induction h with
  | refl => exact ⟨hs, .refl _⟩
  | tail _ hstep ih =>
    obtain ⟨ht, hw⟩ := ih
    obtain ⟨hu, hw'⟩ := hstep.ceasing ht
    exact ⟨hu, hw.trans hw'⟩

/-! ## Everything comes to its end

No step refuses to be taken, so that the calls in progress return one after the other. The fuel plays no part in this:
the number of steps is bounded by the calls that are left. -/

/-- All that is left of a run comes to its end. -/
def Ceases (e : Engine σ) (s : Snapshot σ) : Prop := ∃ n ok, Reaches e s ⟨n, .done ok, []⟩

namespace Ceases

variable {m n : Machine σ} {task t : Task σ} {callers outer : List (Caller σ)}

theorem done (m : Machine σ) (ok : Bool) : Ceases e ⟨m, .done ok, []⟩ := ⟨m, ok, .refl _⟩

theorem begin (h : task.Begins e m n t callers) (hs : Ceases e ⟨n, t, callers ++ outer⟩) :
    Ceases e ⟨m, task, outer⟩ := by
  obtain ⟨o, ok, hrun⟩ := hs
  exact ⟨o, ok, .begin h hrun⟩

theorem resume {ok : Bool} {caller : Caller σ} (h : caller.Resumes m ok n t callers)
    (hs : Ceases e ⟨n, t, callers ++ outer⟩) : Ceases e ⟨m, .done ok, caller :: outer⟩ := by
  obtain ⟨o, ok', hrun⟩ := hs
  exact ⟨o, ok', .resume h hrun⟩

/-- First a part comes to its end, then the rest. -/
theorem append (h : Ceases e ⟨m, task, callers⟩) (hs : Ceasing ⟨m, task, callers ++ outer⟩)
    (hrest : ∀ n ok, Ceasing ⟨n, .done ok, outer⟩ → Reaches e ⟨m, task, callers⟩ ⟨n, .done ok, []⟩ →
      Ceases e ⟨n, .done ok, outer⟩) : Ceases e ⟨m, task, callers ++ outer⟩ := by
  obtain ⟨n, ok, hrun⟩ := h
  have hunder : Reaches e ⟨m, task, callers ++ outer⟩ ⟨n, .done ok, outer⟩ := hrun.under outer
  obtain ⟨o, ok', hend⟩ := hrest n ok (hunder.ceasing hs).1 hrun
  exact ⟨o, ok', hunder.trans hend⟩

end Ceases

/-- What has to cease with others around it has to cease by itself. -/
theorem Ceasing.inner {m : Machine σ} {task : Task σ} {callers outer : List (Caller σ)}
    (h : Ceasing ⟨m, task, callers ++ outer⟩) : Ceasing ⟨m, task, callers⟩ :=
  ⟨h.aborted, ⟨h.alone.jobs, fun caller hmem => h.alone.callers caller (List.mem_append_left _ hmem)⟩, h.idle⟩

/-- A task by itself, with nobody that waits for it. -/
theorem Ceasing.bare {m : Machine σ} {task : Task σ} {callers : List (Caller σ)} (h : Ceasing ⟨m, task, callers⟩) :
    Ceasing ⟨m, task, []⟩ :=
  ⟨h.aborted, ⟨h.alone.jobs, nofun⟩, h.idle⟩

variable {m : Machine σ} {ok : Bool}

/-- A cycle looks at the flag first, and fails. -/
theorem ceases_cycle {level : Nat} (h : Ceasing ⟨m, .cycle level, []⟩) : Ceases e ⟨m, .cycle level, []⟩ :=
  .begin (.aborted h.aborted) (.done m false)

/-- What a barrier still has is work of the host program. -/
theorem ceases_join {failed : Nat} (h : Ceasing ⟨m, .join failed, []⟩) : Ceases e ⟨m, .join failed, []⟩ := by
  cases hb : m.thread.barrier with
  | none => exact .begin (.joined (nextJob_of_no_barrier hb)) (.done m true)
  | some b =>
    obtain ⟨pending⟩ := b
    induction pending generalizing m failed with
    | nil => exact .begin (.joined (nextJob_of_new hb)) (.done m true)
    | cons job rest ih =>
      have hj := nextJob_of_barrier hb
      cases job with
      | host work =>
        have hstep : (Task.join failed).Begins e m _ _ [] := .worked hj
        exact .begin hstep (ih (hstep.ceasing h) rfl)
      | instruction thread frames i key => cases (threadless_of_nextJob h.alone.jobs hj).1

theorem ceases_closing {outer : Option (Barrier σ)} (h : Ceasing ⟨m, .done ok, [.opened outer]⟩) :
    Ceases e ⟨m, .done ok, [.opened outer]⟩ := by
  have hjoin := Caller.Resumes.joins.ceasing h
  exact .resume .joins ((ceases_join hjoin.bare).append hjoin fun n ok' _ _ => .resume .closed (.done _ _))

theorem ceases_runCycle {level : Nat} (h : Ceasing ⟨m, .runCycle level, []⟩) : Ceases e ⟨m, .runCycle level, []⟩ := by
  have hcycle := Task.Begins.opened (e := e).ceasing h
  exact .begin .opened ((ceases_cycle hcycle.bare).append hcycle fun n ok' hn _ => ceases_closing hn)

/-- A cycle with a barrier of its own does not succeed if the request is aborted when it ends. -/
theorem runCycle_fails {n : Machine σ} {level : Nat} (h : Reaches e ⟨m, .runCycle level, []⟩ ⟨n, .done ok, []⟩)
    (ha : n.aborted = true) : ok = false := by
  cases ok with
  | true => exact Bool.noConfusion ((runsCycle_iff.2 h).not_aborted.symm.trans ha)
  | false => rfl

theorem ceases_passes {loop : Loop} {f : Frame} (h : Ceasing ⟨m, .passes loop f, []⟩) :
    Ceases e ⟨m, .passes loop f, []⟩ := by
  cases hb : m.beforePass loop with
  | mk n pass =>
    cases pass with
    | done => exact .begin (.finished hb rfl) (.done _ _)
    | fail => exact .begin (.stopped hb) (.done _ _)
    | run =>
      have hrun := (Task.Begins.passed (e := e) (f := f) hb).ceasing h
      refine .begin (.passed hb) ((ceases_runCycle hrun.bare).append hrun fun o ok' ho hreach => ?_)
      cases runCycle_fails hreach ho.aborted
      exact .resume .unwound (.done _ _)

theorem ceases_between {level : Nat} {loop : Loop} {f : Frame} (h : Ceasing ⟨m, .between level loop f, []⟩) :
    Ceases e ⟨m, .between level loop f, []⟩ := by
  cases hn : m.afterPass loop with
  | mk n next =>
    cases next with
    | none => exact .begin (.stuck hn) (.done _ _)
    | some loop' => exact .begin (.again hn) (ceases_passes ((Task.Begins.again (e := e) hn).ceasing h))

theorem ceases_drive {loop : Loop} (h : Ceasing ⟨m, .drive loop, []⟩) : Ceases e ⟨m, .drive loop, []⟩ := by
  cases hf : m.disown.frames with
  | nil => exact .begin (.frameless hf) (.done _ _)
  | cons f below =>
    have hdriven : (Task.drive loop).Begins e m m.disown (.passes loop f) [.release below.length f] := .driven hf
    have hpasses := hdriven.ceasing h
    exact .begin (.driven hf) ((ceases_passes hpasses.bare).append hpasses fun _ _ _ _ => .resume .released (.done _ _))

theorem ceases_task {task : Task σ} (h : Ceasing ⟨m, task, []⟩) : Ceases e ⟨m, task, []⟩ := by
  cases task with
  | cycle level => exact ceases_cycle h
  | leave level => exact .begin .left (ceases_cycle (Task.Begins.left (e := e).ceasing h))
  | runCycle level => exact ceases_runCycle h
  -- What tries a command is not at work in an aborted request.
  | dispatch c i key => exact (h.idle trivial).elim
  | attempts invocation key pause total => exact (h.idle trivial).elim
  | perform invocation => exact (h.idle trivial).elim
  | choose c level =>
    cases hr : m.read c.range with
    | mk n r =>
      cases r with
      | error err => exact .begin (.unreadable hr) (.done _ _)
      | ok v => exact .begin (.chosen hr) (ceases_drive ((Task.Begins.chosen (e := e) hr).ceasing h))
  | drive loop => exact ceases_drive h
  | passes loop f => exact ceases_passes h
  | between level loop f => exact ceases_between h
  | join failed => exact ceases_join h
  | done ok => exact .done m ok

/-- Whoever has waited comes to an end, too. -/
theorem ceases_caller {caller : Caller σ} (h : Ceasing ⟨m, .done ok, [caller]⟩) :
    Ceases e ⟨m, .done ok, [caller]⟩ := by
  cases caller with
  | cycle level strict =>
    cases hgo : ok || !strict with
    | true => exact .resume (.advanced hgo) (ceases_cycle ((Caller.Resumes.advanced hgo).ceasing h))
    | false => exact .resume (.failed hgo) (.done _ _)
  | opened outer => exact ceases_closing h
  | closing outer ok' => exact .resume .closed (.done _ _)
  | attempts invocation key pause total =>
    cases ok with
    | true => exact .resume .succeeded (.done _ _)
    | false =>
      -- In an aborted request every attempt is the last one.
      have hlast : m.lastAttempt pause total = true := by
        have ha : m.aborted = true := h.aborted
        unfold lastAttempt
        rw [ha, Bool.or_true]
      exact .resume (.gaveUp hlast) (.done _ _)
  | release level f => exact .resume .released (.done _ _)
  | pass level loop f =>
    cases ok with
    | false => exact .resume .unwound (.done _ _)
    | true =>
      cases ht : (m.unwind level).takeBreak level with
      | mk n broken =>
        cases broken with
        | true => exact .resume (.broken ht) (.done _ _)
        | false => exact .resume (.put ht) (ceases_between ((Caller.Resumes.put ht).ceasing h))
  -- Forks are left, and there are none.
  | job base => exact (h.alone.callers _ (List.mem_singleton.2 rfl)).elim
  | started base => exact (h.alone.callers _ (List.mem_singleton.2 rfl)).elim
  | waiting thread failed => exact (h.alone.callers _ (List.mem_singleton.2 rfl)).elim
  | joiner => exact (h.alone.callers _ (List.mem_singleton.2 rfl)).elim

/-- They end one after the other, from the inside to the outside. -/
theorem ceases_callers {callers : List (Caller σ)} (h : Ceasing ⟨m, .done ok, callers⟩) :
    Ceases e ⟨m, .done ok, callers⟩ := by
  induction callers generalizing m ok with
  | nil => exact .done m ok
  | cons caller outer ih =>
    have hcaller : Ceasing ⟨m, .done ok, [caller] ++ outer⟩ := h
    exact (ceases_caller hcaller.inner).append hcaller fun n ok' hn _ => ih hn

/-- From the time when the request is aborted a run comes to its end. -/
theorem Ceasing.ceases {s : Snapshot σ} (h : s.Ceasing) : Ceases e s :=
  (ceases_task h.bare).append h fun _ _ hn _ => ceases_callers hn

/-! ## What is in progress

A call is in progress while its caller is among those who wait. What has been shown about ends applies to it as it
stands there, under all the others. -/

/-- At some point of a run a machine has begun a task that is not done yet, and `outer` wait for it. -/
def InProgress (e : Engine σ) (m : Machine σ) (task : Task σ) (outer : List (Caller σ)) (s : Snapshot σ) : Prop :=
  ∃ inner, s.callers = inner ++ outer ∧ Reaches e ⟨m, task, []⟩ ⟨s.machine, s.task, inner⟩

/-- What is in progress when the request is aborted comes to its end. -/
theorem InProgress.ends {m : Machine σ} {task : Task σ} {outer : List (Caller σ)} {s : Snapshot σ} (hs : s.Ceasing)
    (h : InProgress e m task outer s) : ∃ n ok, n.aborted = true ∧ Reaches e ⟨m, task, []⟩ ⟨n, .done ok, []⟩ ∧
      Reaches e s ⟨n, .done ok, outer⟩ := by
  obtain ⟨inner, hcallers, hrun⟩ := h
  obtain ⟨n, t, callers⟩ := s
  obtain rfl : callers = inner ++ outer := hcallers
  obtain ⟨o, ok, hend⟩ := hs.inner.ceases
  exact ⟨o, ok, (hend.ceasing hs.inner).1.aborted, hrun.trans hend, hend.under outer⟩

theorem InProgress.runCycle_fails {m : Machine σ} {level : Nat} {outer : List (Caller σ)} {s : Snapshot σ}
    (hs : s.Ceasing) (h : InProgress e m (.runCycle level) outer s) : ∃ n, n.aborted = true ∧
      Reaches e ⟨m, .runCycle level, []⟩ ⟨n, .done false, []⟩ ∧ Reaches e s ⟨n, .done false, outer⟩ := by
  obtain ⟨n, ok, ha, hrun, hend⟩ := h.ends hs
  cases Snapshot.runCycle_fails hrun ha
  exact ⟨n, ha, hrun, hend⟩

/-- Whoever waits is one of the new callers or has waited before. -/
theorem mem_or_waited {callers outer inner rest : List (Caller σ)} {caller : Caller σ}
    (h : callers ++ outer = inner ++ caller :: rest) : (∃ tail, callers = inner ++ caller :: tail) ∨
      ∃ between, inner = callers ++ between ∧ outer = between ++ caller :: rest := by
  rcases List.append_eq_append_iff.1 h with ⟨between, hinner, houter⟩ | ⟨tail, hcallers, hrest⟩
  · exact .inr ⟨between, hinner, houter⟩
  · cases tail with
    | nil => exact .inr ⟨[], by simp [hcallers], hrest.symm⟩
    | cons first tail =>
      cases hrest
      exact .inl ⟨tail, hcallers⟩

/-- A loop that waits for its body has begun a cycle for it, and this cycle is still at work. -/
theorem Reaches.passing {s t : Snapshot σ} (h : Reaches e s t) (hs : s.callers = []) {inner outer : List (Caller σ)}
    {level : Nat} {loop : Loop} {f : Frame} (ht : t.callers = inner ++ .pass level loop f :: outer) :
    ∃ m, Reaches e s ⟨m, .runCycle level, .pass level loop f :: outer⟩ ∧
      Reaches e ⟨m, .runCycle level, []⟩ ⟨t.machine, t.task, inner⟩ := by
  induction h generalizing inner with
  | refl =>
    rw [hs] at ht
    exact absurd ht (by simp)
  | tail hreach hstep ih =>
    have hafter := hreach.tail hstep
    cases hstep with
    | @begin m task n task' callers hb waiting =>
      rcases mem_or_waited ht with ⟨tail, hnew⟩ | ⟨between, rfl, hwaiting⟩
      · cases hb with
        | passed hb' =>
          -- the body has just begun
          obtain ⟨rfl, hpass⟩ : inner = [] ∧ _ := by simpa [List.cons_eq_append_iff] using hnew
          obtain ⟨⟨rfl, rfl, rfl⟩, rfl⟩ := hpass
          have houter : waiting = outer := (List.cons_eq_cons.1 ht).2
          exact ⟨n, houter ▸ hafter, .refl _⟩
        | _ => simp [List.cons_eq_append_iff] at hnew
      · obtain ⟨o, hbegun, ho⟩ := ih hwaiting
        exact ⟨o, hbegun, ho.tail (.begin hb between)⟩
    | @resume m ok caller n task callers hr waiting =>
      rcases mem_or_waited ht with ⟨tail, hnew⟩ | ⟨between, rfl, hwaiting⟩
      · cases hr <;> simp [List.cons_eq_append_iff] at hnew
      · have hbefore : caller :: waiting = (caller :: between) ++ .pass level loop f :: outer :=
          congrArg (caller :: ·) hwaiting
        obtain ⟨o, hbegun, ho⟩ := ih hbefore
        exact ⟨o, hbegun, ho.tail (.resume hr between)⟩

/-- A loop that waits for its body waits for a cycle with a barrier of its own. -/
theorem Reaches.body {s t : Snapshot σ} (h : Reaches e s t) (hs : s.callers = []) {inner outer : List (Caller σ)}
    {level : Nat} {loop : Loop} {f : Frame} (ht : t.callers = inner ++ .pass level loop f :: outer) :
    ∃ m, Reaches e ⟨m, .runCycle level, []⟩ ⟨t.machine, t.task, inner⟩ := by
  obtain ⟨m, -, hrun⟩ := Reaches.passing h hs ht
  exact ⟨m, hrun⟩

end Snapshot

/-! ## Runs of an action

All of it is put together for the runs of an action from its beginning, with an example in which a session store fails
to give up a key. -/

namespace Engine

open Snapshot

/-- A run for a request that is aborted ends before its first instruction. -/
theorem reaches_of_aborted {w : World σ} (ha : w.request.aborted = true) (action : String) :
    Reaches e (started w action) ⟨(started w action).machine.withBarrier none, .done false, []⟩ :=
  .begin .opened (.begin (.aborted ha) (.resume .joins (.begin (.joined rfl) (.resume .closed (.refl _)))))

/-- An abort is final. From the time on when the request of a run without forks is aborted, no instruction is
dispatched or tried, and the request stays aborted. Every cycle with a barrier of its own that is in progress fails,
every loop whose body is running fails, and so does the run as a whole. A later run for the request fails before its
first instruction. -/
theorem abort_is_final {w : World σ} {action : String} (hf : (started w action).ForkFree e) {t : Snapshot σ}
    (ht : Reaches e (started w action) t) (ha : t.machine.aborted = true) :
    (∀ u, Reaches e t u → u.machine.aborted = true ∧ ¬u.task.Working ∧
      ∃ events, u.machine.world.journal = events ++ t.machine.world.journal ∧ ∀ event ∈ events, ¬event.Working) ∧
    (∀ m level outer, InProgress e m (.runCycle level) outer t → ∃ n, n.aborted = true ∧
      Enough (Machine.runCycle e · m level) (n, false) ∧ Reaches e t ⟨n, .done false, outer⟩) ∧
    (∀ m loop inner level next f level' f' outer, InProgress e m (.drive loop) outer t →
      t.callers = inner ++ .pass level next f :: .release level' f' :: outer → ∃ n, n.aborted = true ∧
      Enough (Machine.drive e · m loop) (n, false) ∧ Reaches e t ⟨n, .done false, outer⟩) ∧
    (∃ w', w'.request.aborted = true ∧ Enough (e.execute · w action) (w', false)) ∧
    ∀ (v : World σ) (later : String), v.request.aborted = true → ∃ v', Enough (e.execute · v later) (v', false) ∧
      v'.request.aborted = true ∧ v'.store = v.store ∧ v'.host = v.host ∧
      v'.journal = .entered v.threads v.activations later :: v.journal := by
  have hs : t.Ceasing :=
    ⟨ha, ht.alone hf (alone_started w action), fun hwork =>
      Bool.noConfusion ((ht.alive hf (alone_started w action) False.elim hwork).symm.trans ha)⟩
  refine ⟨fun u hu => ?_, fun m level outer h => ?_, fun m loop inner level next f level' f' outer h hpass => ?_,
    ?_, ?_⟩
  · obtain ⟨hu, hw⟩ := hu.ceasing hs
    exact ⟨hu.aborted, hu.idle, hw.journal⟩
  · obtain ⟨n, hn, hrun, hend⟩ := h.runCycle_fails hs
    exact ⟨n, hn, (runsCycle_iff.2 hrun).settles, hend⟩
  · obtain ⟨n, task, callers⟩ := t
    obtain ⟨inner', hcallers, hrun⟩ := h
    obtain rfl : callers = inner' ++ outer := hcallers
    obtain rfl : inner' = inner ++ [.pass level next f, .release level' f'] :=
      List.append_cancel_right (hpass.trans (by simp))
    -- the cycle of the pass fails, and the loop with it
    obtain ⟨o, hbody⟩ := Reaches.body hrun rfl rfl
    have hprogress : InProgress e o (.runCycle level) [.pass level next f, .release level' f']
        ⟨n, task, inner ++ [.pass level next f, .release level' f']⟩ := ⟨inner, rfl, hbody⟩
    obtain ⟨p, hp, -, hpassed⟩ := hprogress.runCycle_fails hs.inner
    have hend := hpassed.trans (.resume .unwound (.resume .released (.refl _)))
    refine ⟨(p.unwind level).withScopes (·.release f'.scope), hp, ?_, hend.under outer⟩
    exact (drives_iff.2 (hrun.trans hend)).settles
  · have hprogress : InProgress e (started w action).machine (.runCycle 0) [] t :=
      ⟨t.callers, (List.append_nil _).symm, ht⟩
    obtain ⟨n, hn, hrun, -⟩ := hprogress.runCycle_fails hs
    exact ⟨n.finish.world, hn, execute_of_reaches hrun⟩
  · intro v later hv
    exact ⟨_, execute_of_reaches (reaches_of_aborted hv later), hv, rfl, rfl, rfl⟩

/-- An engine with the command that deletes variables. -/
def halting : Engine Unit := ⟨[("var", .builtin .var)], fun _ => .error .notFound⟩

/-- A step that may be tried six times, and deletes a variable of the session. -/
def logout : Instruction := ⟨false, false, ⟨0, 1, 5⟩, "var", "\x7b\"remove\":[\"session:token\"]\x7d"⟩

/-- A world with an action that goes on after failures, and a request without a session. -/
def halted : World Unit :=
  World.new (Store.ofProperties [("RUN_1", .str "?0,1,5,var:\x7b\"remove\":[\"session:token\"]\x7d"),
    ("RUN_2", .str "?var:\x7b\"remove\":[\"token\"]\x7d")]) (Request.new [] none) ()

/-- Whether a command has become the deletion. -/
def isLogout : Except CommandError (Invocation Unit) → Bool
  | .ok (.var ⟨[], [name]⟩) => name == "session:token"
  | _ => false

theorem eq_of_isLogout {r : Except CommandError (Invocation Unit)} (h : isLogout r = true) :
    r = .ok (.var ⟨[], ["session:token"]⟩) := by
  unfold isLogout at h
  split at h
  · rw [eq_of_beq h]
  · cases h

/-- The store of the session fails the first attempt, which aborts the request. -/
theorem reaches_halted : ∃ t, Reaches halting (started halted "RUN") t ∧ t.machine.aborted = true := by
  let m := (started halted "RUN").machine.withBarrier (some .new)
  let n := (m.nextStep 0).1
  let o := (n.prepare halting (.builtin .var) logout "RUN_1").1
  let tried := o.note (.attempted o.thread.id "RUN_1")
  have hfetch : m.nextStep 0 = (n, .instruction "RUN_1" "?0,1,5,var:\x7b\"remove\":[\"session:token\"]\x7d") :=
    Prod.ext rfl (by decide +kernel)
  have hdecode : n.decode halting "?0,1,5,var:\x7b\"remove\":[\"session:token\"]\x7d" =
      some (logout, .builtin .var) :=
    decode_of_splitMarker (by decide +kernel) (by decide +kernel) rfl
  have hprepare : n.prepare halting (.builtin .var) logout "RUN_1" = (o, .ok (.var ⟨[], ["session:token"]⟩)) :=
    Prod.ext rfl (eq_of_isLogout (by decide +kernel))
  have haborted : (tried.performVar ⟨[], ["session:token"]⟩).1.aborted = true := by decide +kernel
  exact ⟨_, .begin .opened ((Snapshot.Reaches.fetched rfl hfetch hdecode rfl hprepare (by decide)).trans
    (.begin (.immediate rfl) (.refl _))), haborted⟩

/-- There is no other attempt, and no other instruction. -/
theorem abort_is_final_halted : ∃ t, Reaches halting (started halted "RUN") t ∧
    (∀ u, Reaches halting t u → ¬u.task.Working) ∧
    ∃ w', w'.request.aborted = true ∧ Enough (halting.execute · halted "RUN") (w', false) := by
  have hresult : (halting.execute 40 halted "RUN").map (fun r => r.1.threads) = some 1 := by decide +kernel
  obtain ⟨⟨w', ok⟩, hrun, hthreads⟩ := Option.map_eq_some_iff.1 hresult
  obtain ⟨t, ht, ha⟩ := reaches_halted
  obtain ⟨hidle, -, -, hend, -⟩ := abort_is_final (forkFree_of_execute hrun hthreads) ht ha
  exact ⟨t, ht, fun u hu => (hidle u hu).2.1, hend⟩

end Engine
end Sequencer
