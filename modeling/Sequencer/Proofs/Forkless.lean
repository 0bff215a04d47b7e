import Sequencer.Engine
import Sequencer.Proofs.Decoding
import Sequencer.Proofs.Journal
import Sequencer.Proofs.Levels
import Sequencer.Proofs.Moments

/-!
# Runs without forks

A run of an action begins with its frame on the stack of a new thread. As long as no instruction is started on the
side, this thread is the only one: what a barrier waits for is work of the host program, and no job of the run has
callers of its own.
-/

namespace Sequencer

open Machine

variable {σ : Type} {e : Engine σ}

/-! ## Runs of an action

The runs of an action from its beginning, as snapshots and as the interpreter returns them. -/

namespace Engine

/-- A run of an action at its beginning. -/
def started (w : World σ) (action : String) : Snapshot σ :=
  ⟨w.enter.push action (splitNames actionResult) [], .runCycle 0, []⟩

/-- An action is started with one frame, at the level below. -/
theorem leveled_started (w : World σ) (action : String) : (started w action).Leveled :=
  ⟨trivial, ⟨Nat.le_refl 0, Nat.zero_le _⟩, fun _ _ _ => trivial⟩

/-- A run of an action that is done gives a result, which it gives with any more fuel. -/
theorem execute_of_reaches {w : World σ} {action : String} {n : Machine σ} {ok : Bool}
    (h : Snapshot.Reaches e (started w action) ⟨n, .done ok, []⟩) :
    Enough (e.execute · w action) (n.finish.world, ok) := by
  obtain ⟨bound, hrun⟩ := (runsCycle_iff.2 h).settles.bound
  exact ⟨bound, fun fuel hfuel => by simp only [execute, hrun fuel hfuel]⟩

/-- A result is that of a run that is done. -/
theorem reaches_of_execute {fuel : Nat} {w w' : World σ} {action : String} {ok : Bool}
    (h : e.execute fuel w action = some (w', ok)) :
    ∃ n, Snapshot.Reaches e (started w action) ⟨n, .done ok, []⟩ ∧ w' = n.finish.world := by
  unfold execute at h
  split at h
  · cases h
  · next n ok' hrun =>
    cases h
    exact ⟨n, runsCycle_iff.1 (runsCycle_of_runCycle fuel hrun), rfl⟩

end Engine

/-! ## One thread

Without forks no thread is ever on the side, so that all steps are taken by the first one. -/

/-- A caller with nobody else to wait for. -/
def Caller.Alone : Caller σ → Prop
  | .opened outer => Barrier.jobs outer = []
  | .closing outer _ => Barrier.jobs outer = []
  | .job _ => False
  | .started _ => False
  | .waiting _ _ => False
  | .joiner => False
  | _ => True

namespace Snapshot

/-- An instruction is about to be started on the side. -/
def Forks (e : Engine σ) (s : Snapshot σ) : Prop :=
  ∃ level, s.task = .cycle level ∧ (Moment.cycle s.machine level).Forks e

/-- The job that is waited for next is an instruction on the side. -/
def Awaits (s : Snapshot σ) : Prop :=
  ∃ failed thread frames i key n, s.task = .join failed ∧ s.machine.nextJob = some (.instruction thread frames i key, n)

/-- No instruction is ever started on the side. -/
def ForkFree (e : Engine σ) (s : Snapshot σ) : Prop := ∀ t, Reaches e s t → ¬t.Forks e

/-- A run without forks has none from any later state on. -/
theorem ForkFree.reaches {s t : Snapshot σ} (hs : s.ForkFree e) (h : Reaches e s t) : t.ForkFree e :=
  fun u hu => hs u (h.trans hu)

/-- There is one thread only. -/
structure Alone (s : Snapshot σ) : Prop where
  jobs : s.machine.jobs = []
  callers : ∀ caller ∈ s.callers, caller.Alone

end Snapshot

theorem jobs_of_barrier {m n : Machine σ} (h : n.thread.barrier = m.thread.barrier) (hm : m.jobs = []) :
    n.jobs = [] := (congrArg Barrier.jobs h).trans hm

namespace Machine

/-- From one machine to another the thread is the same, and waits for the same instructions. -/
structure Minds (m n : Machine σ) : Prop extends Awaits m n where
  id : n.thread.id = m.thread.id

namespace Minds

variable {m n o : Machine σ}

theorem of_thread (hid : n.thread.id = m.thread.id) (hb : n.thread.barrier = m.thread.barrier) : m.Minds n :=
  ⟨.of_eq hb, hid⟩

theorem trans (h : m.Minds n) (h' : n.Minds o) : m.Minds o := ⟨h.toAwaits.trans h'.toAwaits, h'.id.trans h.id⟩

end Minds

variable {m n : Machine σ}

theorem Quiet.minds (h : m.Quiet n) : m.Minds n := .of_thread (congrArg Thread.id h.thread) h.barrier

/-- Fetching leaves the barrier alone. -/
theorem minds_of_nextStep {level : Nat} {step : Step} (h : m.nextStep level = (n, step)) : m.Minds n := by
  cases nextStep_cases h with
  | drained => exact .of_thread rfl rfl
  | exhausted => exact .of_thread rfl rfl
  | advanced _ _ _ hq =>
    have hid := congrArg Thread.id hq.thread
    exact .of_thread hid hq.barrier

theorem minds_returnFrame (m : Machine σ) (explicit : Option (List String)) : m.Minds (m.returnFrame explicit).1 := by
  refine .of_thread ?_ (barrier_returnFrame m explicit)
  cases hf : m.frames with
  | nil => rw [returnFrame_nil hf]
  | cons f below =>
    obtain ⟨o, hq, he⟩ := returnFrame_eq hf explicit
    have hid := congrArg Thread.id hq.thread
    rw [he]
    exact hid

theorem minds_returnEarly (m : Machine σ) (explicit : Option (List String)) : m.Minds (m.returnEarly explicit).1 := by
  cases hf : m.frames with
  | nil =>
    rw [returnEarly_nil hf]
    exact .of_thread rfl rfl
  | cons f below =>
    cases hl : f.looping with
    | true =>
      have hreturn := minds_returnFrame ((m.withFrames ({ f with looping := false } :: below)).withBreak
        (some below.length)) explicit
      rw [returnEarly_of_looping hf hl]
      exact ⟨⟨hreturn.jobs, hreturn.barrier⟩, hreturn.id⟩
    | false =>
      rw [returnEarly_of_not_looping hf hl]
      exact minds_returnFrame m explicit

theorem minds_setLooping (m : Machine σ) (looping : Bool) : m.Minds (m.setLooping looping) := by
  unfold setLooping
  split <;> exact .of_thread rfl rfl

/-- The frame of a loop comes on the stack. -/
theorem minds_push (m : Machine σ) (action : String) (results : List String) (params : Table Value) :
    m.Minds ((m.push action results params).setLooping true) := by
  have hset := minds_setLooping (m.push action results params) true
  exact ⟨⟨hset.jobs, hset.barrier⟩, hset.id⟩

theorem minds_disown (m : Machine σ) : m.Minds m.disown := by
  unfold disown
  split <;> exact .of_thread rfl rfl

theorem minds_breakLoop (m : Machine σ) : m.Minds m.breakLoop.1 := by
  unfold breakLoop
  split <;> exact .of_thread rfl rfl

theorem minds_of_takeBreak {index : Nat} {broken : Bool} (h : m.takeBreak index = (n, broken)) : m.Minds n := by
  unfold takeBreak at h
  split_ifs at h <;> cases h <;> exact .of_thread rfl rfl

theorem minds_of_immediate {invocation : Invocation σ} {ok : Bool} (h : m.immediate invocation = some (n, ok)) :
    m.Minds n := by
  cases covers_quiet.tried_immediate h with
  | kept hq works => exact hq.minds.trans ⟨⟨Barrier.jobs_works _ works, Option.isSome_map ..⟩, rfl⟩
  | called hq => exact hq.minds.trans (.of_thread rfl rfl)
  | returned hq explicit => exact hq.minds.trans (minds_returnEarly _ explicit)
  | broke => exact minds_breakLoop m

/-- Work of the host program that is done was no instruction. -/
theorem minds_of_nextJob {work : σ → σ × Bool} (h : m.nextJob = some (.host work, n)) : m.Minds n := by
  have hjobs := (jobs_of_nextJob h).1
  obtain ⟨rest, hb, rfl⟩ := barrier_of_nextJob h
  refine ⟨⟨hjobs.symm, ?_⟩, rfl⟩
  rw [hb]
  rfl

/-- As long as there is no instruction to wait for, the next job is none. -/
theorem not_awaits (h : m.jobs = []) (task : Task σ) (callers : List (Caller σ)) :
    ¬Snapshot.Awaits ⟨m, task, callers⟩ := by
  rintro ⟨failed, thread, frames, i, key, n, -, hj⟩
  cases (threadless_of_nextJob h hj).1

end Machine

/-- Where a thread takes a step by itself, it goes on to wait for the same instructions, unless it begins a cycle with a
barrier of its own. -/
theorem Task.Begins.minds {m n : Machine σ} {task t : Task σ} {callers outer : List (Caller σ)}
    (h : task.Begins e m n t callers) (hf : ¬Snapshot.Forks e ⟨m, task, outer⟩)
    (hj : ¬Snapshot.Awaits ⟨m, task, outer⟩) (ho : ∀ level, task ≠ .runCycle level) : m.Minds n := by
  -- A fork and a join are excluded, and so is the beginning of a cycle, which puts a barrier in place.
  cases h with
  | aborted => exact .of_thread rfl rfl
  | drained ha hn => exact minds_of_nextStep hn
  | exhausted ha hn => exact minds_of_nextStep hn
  | left => exact minds_returnFrame m none
  | undecodable ha hn => exact minds_of_nextStep hn
  | forked ha hn hd hp => exact absurd ⟨_, rfl, ha, _, _, _, _, _, hn, hd, hp⟩ hf
  | fetched ha hn => exact minds_of_nextStep hn
  | opened => exact absurd rfl (ho _)
  | unprepared hp => exact (quiet_prepare hp).minds
  | prepared hp => exact (quiet_prepare hp).minds
  | spent => exact .of_thread rfl rfl
  | tried => exact .of_thread rfl rfl
  | immediate hi => exact minds_of_immediate hi
  | refused hl => exact (covers_quiet.of_refused hl).minds
  | looped hl =>
    obtain ⟨o, values, hq, rfl⟩ := covers_quiet.of_looped hl
    exact hq.minds.trans (minds_push o _ _ values)
  | rejected hl => exact (covers_quiet.of_rejected hl).minds
  | ranged hl =>
    obtain ⟨o, values, hq, rfl⟩ := covers_quiet.of_ranged hl
    exact hq.minds.trans (minds_push o _ _ values)
  | unreadable hr => exact (covers_quiet.of_read hr).minds.trans (.of_thread rfl rfl)
  | chosen hr => exact (covers_quiet.of_read hr).minds
  | frameless => exact .of_thread rfl rfl
  | driven => exact minds_disown m
  | @finished loop f o n ok hb hr =>
    have hreturn := minds_returnFrame (o.setLooping false) none
    rw [hr] at hreturn
    exact (quiet_beforePass hb).minds.trans ((minds_setLooping o false).trans hreturn)
  | stopped hb => exact (quiet_beforePass hb).minds.trans (.of_thread rfl rfl)
  | passed hb => exact (quiet_beforePass hb).minds
  | again hn => exact (quiet_afterPass hn).minds
  | stuck hn => exact (quiet_afterPass hn).minds.trans (.of_thread rfl rfl)
  | joined => exact .of_thread rfl rfl
  | worked hw =>
    have hnext := minds_of_nextJob hw
    exact ⟨⟨hnext.jobs, hnext.barrier⟩, hnext.id⟩
  | unknown hn => exact absurd ⟨_, _, _, _, _, _, rfl, hn⟩ hj
  | started hn => exact absurd ⟨_, _, _, _, _, _, rfl, hn⟩ hj

/-- Where nothing is forked, nobody comes to wait for a fork. -/
theorem Task.Begins.alone {m n : Machine σ} {task t : Task σ} {callers outer : List (Caller σ)}
    (h : task.Begins e m n t callers) (hf : ¬Snapshot.Forks e ⟨m, task, outer⟩)
    (hs : Snapshot.Alone ⟨m, task, outer⟩) : Snapshot.Alone ⟨n, t, callers ++ outer⟩ := by
  obtain ⟨hjobs, hcallers⟩ := hs
  by_cases ho : ∃ level, task = .runCycle level
  · -- a cycle with a barrier of its own begins with an empty one, and sets the old one aside
    obtain ⟨level, rfl⟩ := ho
    cases h
    exact ⟨rfl, List.forall_mem_cons.2 ⟨hjobs, hcallers⟩⟩
  · have hminds := h.minds hf (not_awaits hjobs task outer) (not_exists.1 ho)
    have keep (hnew : ∀ caller ∈ callers, caller.Alone) : Snapshot.Alone ⟨n, t, callers ++ outer⟩ :=
      ⟨hminds.jobs.trans hjobs, List.forall_mem_append.2 ⟨hnew, hcallers⟩⟩
    cases h with
    | opened => exact absurd ⟨_, rfl⟩ ho
    | fetched => exact keep (List.forall_mem_singleton.2 trivial)
    | tried => exact keep (List.forall_mem_singleton.2 trivial)
    | driven => exact keep (List.forall_mem_singleton.2 trivial)
    | passed => exact keep (List.forall_mem_singleton.2 trivial)
    | unknown hj => cases (threadless_of_nextJob hjobs hj).1
    | started hj => cases (threadless_of_nextJob hjobs hj).1
    | _ => exact keep (List.forall_mem_nil _)

theorem Caller.Resumes.alone {m n : Machine σ} {ok : Bool} {caller : Caller σ} {t : Task σ}
    {callers outer : List (Caller σ)} (h : caller.Resumes m ok n t callers)
    (hs : Snapshot.Alone ⟨m, .done ok, caller :: outer⟩) : Snapshot.Alone ⟨n, t, callers ++ outer⟩ := by
  obtain ⟨hjobs, hcallers⟩ := hs
  obtain ⟨hcaller, houter⟩ := List.forall_mem_cons.1 hcallers
  cases h with
  | joins => exact ⟨hjobs, List.forall_mem_cons.2 ⟨hcaller, houter⟩⟩
  -- The barrier that was set aside is in use again, and it was empty, too.
  | closed => exact ⟨hcaller, houter⟩
  | broken hbreak =>
    have hb := barrier_of_takeBreak hbreak
    exact ⟨jobs_of_barrier hb hjobs, houter⟩
  | put hbreak =>
    have hb := barrier_of_takeBreak hbreak
    exact ⟨jobs_of_barrier hb hjobs, houter⟩
  | called => exact hcaller.elim
  | simple => exact hcaller.elim
  | finished => exact hcaller.elim
  | waited => exact hcaller.elim
  | _ => exact ⟨hjobs, houter⟩

namespace Snapshot

/-- Where nothing is started on the side, there is one thread for the whole run. -/
theorem Reaches.alone {s t : Snapshot σ} (h : Reaches e s t) (hf : s.ForkFree e) (hs : s.Alone) : t.Alone := by
  induction h with
  | refl => exact hs
  | tail hreach hstep ih =>
    cases hstep with
    | begin hb outer => exact hb.alone (hf _ hreach) ih
    | resume hr outer => exact hr.alone ih

end Snapshot

/-- At its start an action has no fork to wait for. -/
theorem Engine.alone_started (w : World σ) (action : String) : (started w action).Alone := ⟨rfl, nofun⟩

/-- An instruction on the side gets a thread of its own. -/
theorem Snapshot.Forks.step {s : Snapshot σ} (h : s.Forks e) :
    ∃ t, Step e s t ∧ t.machine.world.threads = s.machine.world.threads + 1 := by
  obtain ⟨m, task, callers⟩ := s
  obtain ⟨level, rfl, hna, n, key, text, i, c, hn, hd, hp⟩ := h
  refine ⟨_, .begin (.forked hna hn hd hp) callers, ?_⟩
  show n.world.threads + 1 = m.world.threads + 1
  cases offered_of_nextStep hn with
  | found => rfl

/-- A run that has had one thread only has started nothing on the side. -/
theorem Engine.forkFree_of_execute {fuel : Nat} {w w' : World σ} {action : String} {ok : Bool}
    (h : e.execute fuel w action = some (w', ok)) (hw : w'.threads = w.threads + 1) :
    (started w action).ForkFree e := by
  intro t ht hforks
  obtain ⟨n, hn, rfl⟩ := reaches_of_execute h
  obtain ⟨u, step, hu⟩ := hforks.step
  have hreach : Snapshot.Reaches e (started w action) u := ht.tail step
  have hbefore : w.threads + 1 ≤ t.machine.world.threads := ht.threads_le
  have hlast : t.machine.world.threads + 1 ≤ w.threads + 1 := calc
    t.machine.world.threads + 1 = u.machine.world.threads := hu.symm
    _ ≤ n.world.threads := (hn.to_done hreach).threads_le
    _ = w.threads + 1 := hw
  omega

end Sequencer
