import Sequencer.Proofs.Forkless

/-!
# Threads in any order

`Machine.join` runs what was started on the side when it is waited for. That is one order of many: a thread on the side
is at work as soon as it has been started, next to the one that has started it and to all others. A scene is a world with
the threads that are at work in it, and any of them may take the next step.

A thread takes the steps of its own run, as `Snapshot.Step` has them, but for two: it starts an instruction as another
thread, and it waits for that thread where the run by itself would have the instruction done in between. What is read in
a step is read in the world as it is then, so that an attempt of a command sees one world. Between two steps anything may
have happened to what the threads share, and not by their doing only: a drift is what other requests, the host program or
the clients of a session may do meanwhile.
-/

namespace Sequencer

open Machine

variable {σ : Type} {e : Engine σ}

/-! ## Scenes

An actor is a thread with what it is doing and who waits for it on the stack of calls. A scene is a world with all
actors in it. -/

/-- A thread at work, with its task and those that wait for the task to be done. -/
structure Actor (σ : Type) where
  thread : Thread σ
  task : Task σ
  callers : List (Caller σ)

/-- A world with the threads that are at work in it. -/
structure Scene (σ : Type) where
  world : World σ
  actors : Multiset (Actor σ)

namespace Actor

/-- A thread by itself. -/
def snapshot (a : Actor σ) (w : World σ) : Snapshot σ := ⟨⟨w, a.thread⟩, a.task, a.callers⟩

/-- The thread of an instruction on the side, which is to be joined. -/
def side (t : Thread σ) (c : Command σ) (i : Instruction) (key : String) : Actor σ :=
  ⟨t, .dispatch c i key, [.job t.frames.length, .started t.frames.length, .joiner]⟩

end Actor

namespace Snapshot

def actor (s : Snapshot σ) : Actor σ := ⟨s.machine.thread, s.task, s.callers⟩

/-- A thread among others. -/
def among (s : Snapshot σ) (others : Multiset (Actor σ)) : Scene σ := ⟨s.machine.world, s.actor ::ₘ others⟩

end Snapshot

/-- The next instruction of a machine is one for a thread on the side. -/
structure Machine.Sends (e : Engine σ) (m : Machine σ) (level : Nat) (n : Machine σ) (c : Command σ) (i : Instruction)
    (key : String) : Prop where
  alive : m.aborted = false
  fetched : ∃ text, m.nextStep level = (n, .instruction key text) ∧ n.decode e text = some (i, c)
  aside : (i.parallel && !c.isAsync) = true

/-- What may happen to a world at any time without a step of its threads: variables, stores and the data of the host
program change, and the request may be aborted. Scopes do not come or go. -/
structure World.Drifts (w v : World σ) : Prop extends w.Marks Event.IsAborted v where
  scopes : v.request.scopes.bare = w.request.scopes.bare
  root : v.request.root = w.request.root

namespace Scene

/-- What can happen next. -/
inductive Step (e : Engine σ) : Scene σ → Scene σ → Prop
  /-- A thread does something that concerns no other thread. -/
  | act {s t : Snapshot σ} (h : s.Step e t) (hf : ¬s.Forks e) (hj : ¬s.Awaits) (others : Multiset (Actor σ)) :
      Step e (s.among others) (t.among others)
  /-- A thread starts an instruction on the side: another thread has a copy of the stack, and is at work from now on. -/
  | fork {m level n c i key} (h : m.Sends e level n c i key) (outer : List (Caller σ)) (others : Multiset (Actor σ)) :
      Step e (Snapshot.among ⟨m, .cycle level, outer⟩ others)
        (Snapshot.among ⟨n.forkInstruction i key, .cycle level, outer⟩ (.side n.fork.2 c i key ::ₘ others))
  /-- The operating system has no other thread to give: the copy of the stack is given up, and the instruction with it.
  The cycle goes on. -/
  | refuse {m level n c i key} (h : m.Sends e level n c i key) (outer : List (Caller σ))
      (others : Multiset (Actor σ)) :
      Step e (Snapshot.among ⟨m, .cycle level, outer⟩ others)
        (Snapshot.among ⟨⟨(⟨n.fork.1.world, n.fork.2⟩ : Machine σ).finish.world, n.thread⟩, .cycle level, outer⟩ others)
  /-- A thread that waits for another one learns that it is done. -/
  | join {m n : Machine σ} {failed id frames i key} {t : Thread σ} {ok : Bool}
      (h : m.nextJob = some (.instruction id frames i key, n)) (hid : t.id = id) (outer : List (Caller σ))
      (others : Multiset (Actor σ)) :
      Step e (Snapshot.among ⟨m, .join failed, outer⟩ (⟨t, .done ok, [.joiner]⟩ ::ₘ others))
        (Snapshot.among ⟨n, .join (if ok then failed else failed + 1), outer⟩ others)
  | drift {w v : World σ} (h : w.Drifts v) (actors : Multiset (Actor σ)) : Step e ⟨w, actors⟩ ⟨v, actors⟩

/-- What threads come to in some order of their steps. -/
def Reaches (e : Engine σ) : Scene σ → Scene σ → Prop := Relation.ReflTransGen (Step e)

end Scene

/-! ## Steps of one thread

Who takes a step by itself does so in a scene, whatever the others are doing. -/

namespace Snapshot

/-- What concerns one thread only. -/
theorem not_forks {s : Snapshot σ} (h : ∀ level, s.task ≠ .cycle level) : ¬s.Forks e :=
  fun ⟨level, ht, _⟩ => h level ht

/-- Only a join waits for others. -/
theorem not_awaits_of_task {s : Snapshot σ} (h : ∀ failed, s.task ≠ .join failed) : ¬s.Awaits :=
  fun ⟨failed, _, _, _, _, _, ht, _⟩ => h failed ht

/-- A cycle that does not go on at once has started nothing on the side. -/
theorem not_forks_of_begins {m n : Machine σ} {level : Nat} {t : Task σ} {callers : List (Caller σ)}
    (h : (Task.cycle level).Begins e m n t callers) (ht : ∀ level, t ≠ .cycle level) (outer : List (Caller σ)) :
    ¬Forks e ⟨m, .cycle level, outer⟩ := by
  rintro ⟨level', he, ha, o, key, text, i, c, hs, hd, hp⟩
  cases he
  obtain ⟨-, rfl, -⟩ := h.unique (.forked ha hs hd hp)
  exact ht level rfl

end Snapshot

/-- What is sent to the side is registered by a step of the cycle. -/
theorem Machine.Sends.begins {m n : Machine σ} {level : Nat} {c : Command σ} {i : Instruction} {key : String}
    (h : m.Sends e level n c i key) : (Task.cycle level).Begins e m (n.forkInstruction i key) (.cycle level) [] := by
  obtain ⟨ha, ⟨text, hs, hd⟩, hp⟩ := h
  exact .forked ha hs hd hp

namespace Scene

variable {s t u : Scene σ}

namespace Reaches

/-- Nothing happens. -/
theorem refl (s : Scene σ) : Reaches e s s := Relation.ReflTransGen.refl

/-- Steps follow one another. -/
theorem trans (h : Reaches e s t) (h' : Reaches e t u) : Reaches e s u := Relation.ReflTransGen.trans h h'

/-- A step first. -/
theorem head (h : Step e s t) (h' : Reaches e t u) : Reaches e s u := Relation.ReflTransGen.head h h'

/-- A step last. -/
theorem tail (h : Reaches e s t) (h' : Step e t u) : Reaches e s u := Relation.ReflTransGen.tail h h'

section

variable {m n : Machine σ} {task t : Task σ} {callers outer : List (Caller σ)} {others : Multiset (Actor σ)} {ok : Bool}
  {caller : Caller σ}

/-- A task begins that neither fetches nor waits for others. -/
theorem begin (h : task.Begins e m n t callers) (hc : ∀ level, task ≠ .cycle level) (hj : ∀ failed, task ≠ .join failed)
    (rest : Reaches e (Snapshot.among ⟨n, t, callers ++ outer⟩ others) u) :
    Reaches e (Snapshot.among ⟨m, task, outer⟩ others) u :=
  head (.act (.begin h outer) (Snapshot.not_forks hc) (Snapshot.not_awaits_of_task hj) others) rest

/-- A cycle fetches, and does not go on at once. -/
theorem cycle {level : Nat} (h : (Task.cycle level).Begins e m n t callers) (ht : ∀ level, t ≠ .cycle level)
    (rest : Reaches e (Snapshot.among ⟨n, t, callers ++ outer⟩ others) u) :
    Reaches e (Snapshot.among ⟨m, .cycle level, outer⟩ others) u :=
  head (.act (.begin h outer) (Snapshot.not_forks_of_begins h ht outer) (Snapshot.not_awaits_of_task nofun) others) rest

/-- A caller goes on. -/
theorem resume (h : caller.Resumes m ok n t callers)
    (rest : Reaches e (Snapshot.among ⟨n, t, callers ++ outer⟩ others) u) :
    Reaches e (Snapshot.among ⟨m, .done ok, caller :: outer⟩ others) u :=
  head (.act (.resume h outer) (Snapshot.not_forks nofun) (Snapshot.not_awaits_of_task nofun) others) rest

end
end Reaches
end Scene

/-! ## What each thread keeps

Something that each thread keeps for itself is kept in all scenes, if it holds for those that begin. -/

namespace Scene

/-- Something about each thread at work in a world that steps keep: its own steps do, it holds for a thread that begins
on the side, and besides it is a matter of the stack and its mark only. -/
structure Invariant (e : Engine σ) (P : World σ → Actor σ → Prop) : Prop where
  act : ∀ {s t : Snapshot σ}, s.Step e t → ¬s.Awaits → P s.machine.world s.actor → P t.machine.world t.actor
  side : ∀ {m n : Machine σ} {level c i key} {outer : List (Caller σ)} (w : World σ), m.Sends e level n c i key →
    P m.world ⟨m.thread, .cycle level, outer⟩ → P w (.side n.fork.2 c i key)
  joins : ∀ {w : World σ} {t : Thread σ} {failed} {callers : List (Caller σ)} (failed' : Nat),
    P w ⟨t, .join failed, callers⟩ → P w ⟨t, .join failed', callers⟩
  still : ∀ {w v : World σ} {t t' : Thread σ} {task : Task σ} {callers : List (Caller σ)},
    P w ⟨t, task, callers⟩ → t'.frames = t.frames → t'.breakAt = t.breakAt →
      (w.request.aborted = true → v.request.aborted = true) → P v ⟨t', task, callers⟩

namespace Invariant

variable {P : World σ → Actor σ → Prop} {s t : Scene σ}

/-- Only an abort is seen in the world of a thread, and an abort stays. -/
theorem world (h : Invariant e P) {w v : World σ} {actors : Multiset (Actor σ)} (hs : ∀ a ∈ actors, P w a)
    (ha : w.request.aborted = true → v.request.aborted = true) : ∀ a ∈ actors, P v a :=
  fun a hmem => h.still (hs a hmem) rfl rfl ha

/-- One thread has taken a step, and the others are where they were. -/
theorem among (h : Invariant e P) {u v : Snapshot σ} {others : Multiset (Actor σ)}
    (hs : ∀ a ∈ (u.among others).actors, P u.machine.world a) (hv : P v.machine.world v.actor)
    (ha : u.machine.aborted = true → v.machine.aborted = true) :
    ∀ a ∈ (v.among others).actors, P v.machine.world a :=
  Multiset.forall_mem_cons.2 ⟨hv, h.world (Multiset.forall_mem_cons.1 hs).2 ha⟩

/-- A step of one thread keeps what the others have, to whom only an abort would matter in the world that they share.
-/
theorem step (h : Invariant e P) (hstep : Step e s t) (hs : ∀ a ∈ s.actors, P s.world a) :
    ∀ a ∈ t.actors, P t.world a := by
  cases hstep with
  | act hact hf hj others =>
    exact h.among hs (h.act hact hj (Multiset.forall_mem_cons.1 hs).1) (Snapshot.Reaches.aborted (.single hact))
  | @fork m level n c i key hsends outer others =>
    have hparent := (Multiset.forall_mem_cons.1 hs).1
    -- The fork is a step of the parent, too.
    have hact : Snapshot.Step e ⟨m, .cycle level, outer⟩ _ := .begin hsends.begins outer
    have ha := Snapshot.Reaches.aborted (.single hact)
    refine h.among (Multiset.forall_mem_cons.2 ⟨hparent, Multiset.forall_mem_cons.2 ⟨?_, ?_⟩⟩)
      (h.act hact (Snapshot.not_awaits_of_task nofun) hparent) ha
    · exact h.side m.world hsends hparent
    · exact (Multiset.forall_mem_cons.1 hs).2
  | @refuse m level n c i key hsends outer others =>
    have hparent := (Multiset.forall_mem_cons.1 hs).1
    have hact : Snapshot.Step e ⟨m, .cycle level, outer⟩ _ := .begin hsends.begins outer
    have ha := Snapshot.Reaches.aborted (.single hact)
    have hforked := h.act hact (Snapshot.not_awaits_of_task nofun) hparent
    exact h.among hs (h.still hforked rfl rfl fun ha => ha) ha
  | @join m n failed id frames i key t ok hj hid outer others =>
    -- The parent loses a handle, and the thread that was joined is gone.
    obtain ⟨hparent, hrest⟩ := Multiset.forall_mem_cons.1 hs
    obtain ⟨rest, -, rfl⟩ := barrier_of_nextJob hj
    exact Multiset.forall_mem_cons.2
      ⟨h.joins _ (h.still hparent rfl rfl fun ha => ha), (Multiset.forall_mem_cons.1 hrest).2⟩
  | drift hdrift actors => exact h.world hs hdrift.aborted

/-- So does a whole run. -/
theorem reaches (h : Invariant e P) (hreach : Reaches e s t) (hs : ∀ a ∈ s.actors, P s.world a) :
    ∀ a ∈ t.actors, P t.world a := by
  induction hreach with
  | refl => exact hs
  | tail _ hstep ih => exact h.step hstep ih

end Invariant

/-- The stack of each thread is as deep as its task and those that wait for it need it to be, whoever else may wait for
the thread. -/
theorem invariant_leveled {bottom : List (Caller σ)} (hbottom : Layered bottom) :
    Invariant e fun w a => Snapshot.Leveled ⟨⟨w, a.thread⟩, a.task, a.callers ++ bottom⟩ where
  act h _ hs := (h.under bottom).leveled hs
  side {m n level c i key outer} w _ _ := by
    exact ⟨⟨rfl, hbottom⟩, Nat.le_refl _, fun d ok _ d' ok' hok => ⟨hok, trivial⟩⟩
  joins failed' hs := ⟨hs.layered, trivial, hs.accepts⟩
  still {w v t t' task callers} hs hframes _ _ := by
    have hdepth : (⟨v, t'⟩ : Machine σ).depth = (⟨w, t⟩ : Machine σ).depth := congrArg List.length hframes
    refine ⟨hs.layered, ?_, ?_⟩
    · show task.Ready _ (⟨v, t'⟩ : Machine σ).depth
      rw [hdepth]
      exact hs.ready
    · show ∀ d ok, task.Yields (⟨v, t'⟩ : Machine σ).depth d ok → Accepts _ d ok
      rw [hdepth]
      exact hs.accepts

/-- A first thread with nothing below it is such a thread. -/
theorem invariant_leveled_alone : Invariant e fun w (a : Actor σ) => (a.snapshot w).Leveled := by
  have h := @invariant_leveled σ e [] trivial
  simp only [List.append_nil] at h
  exact h

end Scene

/-! ## Whose run it is

The first thread of a scene is the one that waits for nobody above it. -/

/-- The number of the thread that waits for all others in a run by itself, or else of the one at work. -/
def owner (id : Nat) : List (Caller σ) → Nat
  | [] => id
  | .waiting thread _ :: outer => owner thread.id outer
  | .cycle _ _ :: outer => owner id outer
  | .opened _ :: outer => owner id outer
  | .closing _ _ :: outer => owner id outer
  | .attempts _ _ _ _ :: outer => owner id outer
  | .release _ _ :: outer => owner id outer
  | .pass _ _ _ :: outer => owner id outer
  | .job _ :: outer => owner id outer
  | .started _ :: outer => owner id outer
  | .joiner :: outer => owner id outer

/-- Calls inside of a task belong to whom the task belongs to. -/
theorem Task.Begins.owner {m n : Machine σ} {task t : Task σ} {callers : List (Caller σ)}
    (h : task.Begins e m n t callers) (outer : List (Caller σ)) :
    owner n.thread.id (callers ++ outer) = owner m.thread.id outer := by
  -- A thread keeps its number in all steps of its own.
  have hminds : ¬Snapshot.Forks e ⟨m, task, outer⟩ → ¬Snapshot.Awaits ⟨m, task, outer⟩ →
      (∀ level, task ≠ .runCycle level) → m.Minds n := h.minds
  have same (hid : n.thread.id = m.thread.id) : Sequencer.owner n.thread.id outer = Sequencer.owner m.thread.id outer :=
    congrArg (Sequencer.owner · outer) hid
  cases h with
  | aborted => rfl
  | drained ha hs => exact same (minds_of_nextStep hs).id
  | exhausted ha hs => exact same (minds_of_nextStep hs).id
  | undecodable ha hs => exact same (minds_of_nextStep hs).id
  | forked ha hs => exact same (minds_of_nextStep hs).id
  | fetched ha hs => exact same (minds_of_nextStep hs).id
  | opened => rfl
  | joined => rfl
  | worked hj =>
    obtain ⟨rest, -, rfl⟩ := barrier_of_nextJob hj
    rfl
  | unknown hj =>
    obtain ⟨rest, -, rfl⟩ := barrier_of_nextJob hj
    rfl
  | started hj =>
    obtain ⟨rest, -, rfl⟩ := barrier_of_nextJob hj
    rfl
  | _ => exact same (hminds (Snapshot.not_forks nofun) (Snapshot.not_awaits_of_task nofun) nofun).id

/-- And whoever goes on behind them is the same. -/
theorem Caller.Resumes.owner {m n : Machine σ} {ok : Bool} {caller : Caller σ} {t : Task σ}
    {callers : List (Caller σ)} (h : caller.Resumes m ok n t callers) (outer : List (Caller σ)) :
    owner n.thread.id (callers ++ outer) = owner m.thread.id (caller :: outer) := by
  cases h with
  | broken ht => exact congrArg (Sequencer.owner · outer) (minds_of_takeBreak ht).id
  | put ht => exact congrArg (Sequencer.owner · outer) (minds_of_takeBreak ht).id
  | _ => rfl

/-- A run comes back to its thread. -/
theorem Snapshot.Reaches.owner {s t : Snapshot σ} (h : Reaches e s t) :
    owner t.machine.thread.id t.callers = owner s.machine.thread.id s.callers := by
  induction h with
  | refl => rfl
  | tail _ hstep ih =>
    cases hstep with
    | begin hb outer => exact (hb.owner outer).trans ih
    | resume hr outer => exact (hr.owner outer).trans ih

namespace Machine

variable {m n : Machine σ} {ok : Bool}

/-- A dispatch is one by the same thread. -/
theorem Dispatches.id {c : Command σ} {i : Instruction} {key : String} (h : Dispatches e m c i key n ok) :
    n.thread.id = m.thread.id := (h.reaches []).owner

/-- A cycle is one by the same thread. -/
theorem RunsCycle.id {level : Nat} (h : RunsCycle e m level n ok) : n.thread.id = m.thread.id := (h.reaches []).owner

end Machine

/-! ## One order of many

The interpreter lets the threads on the side run one after the other when they are joined. This is one of the orders,
so that its runs are runs of scenes. -/

/-- The thread of a job that has not done anything yet. -/
def Job.actors (e : Engine σ) : Job σ → List (Actor σ)
  | .instruction id frames i key =>
    let t : Thread σ := { Thread.new id with frames }
    match e.registry.get? i.command with
    | some c => [.side t c i key]
    | none => [⟨t, .done false, [.started frames.length, .joiner]⟩]
  | .host _ => []

namespace Machine

/-- The threads that a machine has to wait for, as long as none has done anything. -/
def sides (e : Engine σ) (m : Machine σ) : Multiset (Actor σ) := ↑(m.jobs.flatMap (Job.actors e))

/-- Those who wait for the same threads have the same ones on the side. -/
theorem Awaits.sides {m n : Machine σ} (h : m.Awaits n) : n.sides e = m.sides e := by
  unfold Machine.sides
  rw [h.jobs]

/-- A job that is taken is no longer on the side. -/
theorem sides_of_nextJob {m n : Machine σ} {job : Job σ} (h : m.nextJob = some (job, n)) :
    m.sides e = ↑(job.actors e) + n.sides e := by
  have hjob : job.instructions.flatMap (Job.actors e) = job.actors e := by
    cases job with
    | instruction id frames i key => exact List.append_nil _
    | host work => rfl
  unfold sides
  rw [(jobs_of_nextJob h).1, List.flatMap_append, hjob, ← Multiset.coe_add]

/-- An instruction that is started on the side has a command. -/
theorem Sends.sides {m n : Machine σ} {level : Nat} {c : Command σ} {i : Instruction} {key : String}
    (h : m.Sends e level n c i key) (hb : n.thread.barrier.isSome) :
    (n.forkInstruction i key).sides e = .side n.fork.2 c i key ::ₘ n.sides e := by
  obtain ⟨-, ⟨text, -, hd⟩, -⟩ := h
  have hjob : Job.actors e (.instruction n.fork.2.id n.fork.2.frames i key) = [.side n.fork.2 c i key] := by
    simp only [Job.actors, registered_of_decode hd]
    rfl
  unfold Machine.sides
  rw [jobs_forkInstruction hb, List.flatMap_append, List.flatMap_singleton, hjob, ← Multiset.coe_add, add_comm]
  rfl

open Scene (Reaches)

/-- How a loop begins. -/
theorem plays_of_entered {m n : Machine σ} {invocation : Invocation σ} {loop : Option Loop}
    (h : m.entered invocation = some (n, loop)) (outer : List (Caller σ)) (others : Multiset (Actor σ)) :
    Reaches e (Snapshot.among ⟨m, .perform invocation, outer⟩ others)
      (Snapshot.among ⟨n, loop.elim (.done false) .drive, outer⟩ others) := by
  unfold entered at h
  cases invocation with
  | loopFor c =>
    have hl : m.enterFor c = (n, loop) := Option.some.inj h
    cases loop with
    | none => exact .begin (.refused hl) (by rintro _ ⟨⟩) (by rintro _ ⟨⟩) (.refl _)
    | some loop => exact .begin (.looped hl) (by rintro _ ⟨⟩) (by rintro _ ⟨⟩) (.refl _)
  | loopRange c =>
    have hl : m.enterRange c = (n, loop) := Option.some.inj h
    unfold enterRange at hl
    simp only at hl
    split at hl
    · next he =>
      cases hl
      exact .begin (.rejected he) (by rintro _ ⟨⟩) (by rintro _ ⟨⟩) (.refl _)
    · next he =>
      refine .begin (.ranged he) (by rintro _ ⟨⟩) (by rintro _ ⟨⟩) ?_
      split at hl
      · next hr =>
        cases hl
        exact .begin (.unreadable hr) (by rintro _ ⟨⟩) (by rintro _ ⟨⟩) (.refl _)
      · next v hr =>
        cases hl
        refine .begin (.chosen hr) (by rintro _ ⟨⟩) (by rintro _ ⟨⟩) ?_
        cases v <;> exact .refl _
  | _ => cases h

/-- Once a thread on the side is done, the one that waits for it goes on. -/
theorem joined_of_side {w v : World σ} {id : Nat} {frames : List Frame} {i : Instruction} {key : String}
    {m : Machine σ} {thread t : Thread σ} {ok : Bool} (hj : m.nextJob = some (.instruction id frames i key, ⟨w, thread⟩))
    (hid : t.id = id) (hside : ∀ others, Reaches e ⟨w, ↑(Job.actors e (.instruction id frames i key)) + others⟩
      ⟨v, ⟨t, .done ok, [.joiner]⟩ ::ₘ others⟩) (failed : Nat) (outer : List (Caller σ)) (others : Multiset (Actor σ)) :
    Reaches e
      (Snapshot.among ⟨m, .join failed, outer⟩ (↑(Job.actors e (.instruction id frames i key)) + others))
      (Snapshot.among ⟨⟨v, thread⟩, .join (if ok then failed else failed + 1), outer⟩ others) := by
  obtain ⟨rest, hb, he⟩ := barrier_of_nextJob hj
  cases he
  have hrun := hside (⟨m.thread, .join failed, outer⟩ ::ₘ others)
  rw [Multiset.add_cons, Multiset.cons_swap] at hrun
  have hnext : (⟨v, m.thread⟩ : Machine σ).nextJob = some (.instruction id frames i key, ⟨v, _⟩) := nextJob_of_barrier hb
  exact hrun.trans (.head (.join hnext hid outer others) (.refl _))

mutual

/-- A run is what there is to see if each thread on the side waits with its first step until it is waited for. -/
theorem Cycles.plays : ∀ {m : Machine σ} {level : Nat} {n : Machine σ} {ok : Bool}, Cycles e m level n ok →
    m.thread.barrier.isSome → ∀ outer others, Reaches e (Snapshot.among ⟨m, .cycle level, outer⟩ (m.sides e + others))
      (Snapshot.among ⟨n, .done ok, outer⟩ (n.sides e + others))
  | _, _, _, _, .aborted ha, _, _, _ => .cycle (.aborted ha) nofun (.refl _)
  | m, level, n, _, .drained ha hs, _, _, _ => by
    rw [← (minds_of_nextStep hs).sides]
    exact .cycle (.drained ha hs) nofun (.refl _)
  | m, _, _, _, .exhausted (n := n) ha hs rest, hb, _, _ => by
    have hminds := (minds_of_nextStep hs).trans (minds_returnFrame n none)
    rw [← hminds.sides]
    refine .cycle (.exhausted ha hs) nofun (.begin .left nofun nofun ?_)
    exact rest.plays (hminds.barrier ▸ hb) _ _
  | m, _, n, _, .undecodable ha hs hd, _, _, _ => by
    rw [← (minds_of_nextStep hs).sides]
    exact .cycle (.undecodable ha hs hd) nofun (.refl _)
  | m, level, _, _, @Cycles.forked _ _ _ _ n key _ i c _ _ ha hs hd hp rest, hb, outer, others => by
    -- The new thread joins the threads on the side, and takes none of its steps yet.
    have hsends : m.Sends e level n c i key := ⟨ha, ⟨_, hs, hd⟩, hp⟩
    have hminds := minds_of_nextStep hs
    have hn : n.thread.barrier.isSome := hminds.barrier ▸ hb
    have hrest := rest.plays ((isSome_forkInstruction n i key).trans hn) outer others
    rw [hsends.sides hn, hminds.sides, Multiset.cons_add] at hrest
    exact .head (.fork hsends outer _) hrest
  | m, _, _, _, .dispatched (n := n) ha hs hd hp step hgo rest, hb, outer, others => by
    have hminds := minds_of_nextStep hs
    have hawaits := hminds.toAwaits.trans (step.leads (Stance.free n) (Nat.zero_le _)).2
    have hrest := rest.plays (hawaits.barrier ▸ hb) outer others
    rw [hawaits.sides] at hrest
    exact .cycle (.fetched ha hs hd hp) nofun ((step.plays _ _).trans (.resume (.advanced hgo) hrest))
  | m, _, _, _, .failed (n := n) ha hs hd hp step hstop, _, outer, others => by
    have hawaits := (minds_of_nextStep hs).toAwaits.trans (step.leads (Stance.free n) (Nat.zero_le _)).2
    rw [hawaits.sides]
    exact .cycle (.fetched ha hs hd hp) nofun ((step.plays _ _).trans (.resume (.failed hstop) (.refl _)))

/-- The threads that the cycle starts have all been joined when it is closed. -/
theorem RunsCycle.plays : ∀ {m : Machine σ} {level : Nat} {n : Machine σ} {ok : Bool}, RunsCycle e m level n ok →
    ∀ outer others, Reaches e (Snapshot.among ⟨m, .runCycle level, outer⟩ others)
      (Snapshot.among ⟨n, .done ok, outer⟩ others)
  | m, _, _, _, .closed run jobs, outer, others => by
    have hrun := run.plays rfl (.opened m.thread.barrier :: outer) others
    have hnew : (m.withBarrier (some .new)).sides e = 0 := rfl
    rw [hnew, zero_add] at hrun
    exact .begin .opened nofun nofun
      (hrun.trans (.resume .joins ((jobs.plays _ others).trans (.resume .closed (.refl _)))))

/-- One thread takes all the steps of an instruction. -/
theorem Dispatches.plays : ∀ {m : Machine σ} {c : Command σ} {i : Instruction} {key : String} {n : Machine σ} {ok : Bool},
    Dispatches e m c i key n ok → ∀ outer others, Reaches e (Snapshot.among ⟨m, .dispatch c i key, outer⟩ others)
      (Snapshot.among ⟨n, .done ok, outer⟩ others)
  | _, _, _, _, _, _, .unprepared hp, _, _ => .begin (.unprepared hp) nofun nofun (.refl _)
  | _, _, _, _, _, _, .prepared hp run, _, _ => .begin (.prepared hp) nofun nofun (run.plays _ _)

/-- One thread takes all the steps of the attempts. -/
theorem Attempts.plays : ∀ {m : Machine σ} {invocation : Invocation σ} {key : String} {pause total : Int64}
    {n : Machine σ} {ok : Bool}, Attempts e m invocation key pause total n ok → ∀ outer others,
      Reaches e (Snapshot.among ⟨m, .attempts invocation key pause total, outer⟩ others)
        (Snapshot.among ⟨n, .done ok, outer⟩ others)
  | _, _, _, _, _, _, _, .spent ht, _, _ => .begin (.spent ht) nofun nofun (.refl _)
  | _, _, _, _, _, _, _, .succeeded ht run, _, _ =>
    .begin (.tried ht) nofun nofun ((run.plays _ _).trans (.resume .succeeded (.refl _)))
  | _, _, _, _, _, _, _, .gaveUp ht run hl, _, _ =>
    .begin (.tried ht) nofun nofun ((run.plays _ _).trans (.resume (.gaveUp hl) (.refl _)))
  | _, _, _, _, _, _, _, .retried ht run hl rest, _, _ =>
    .begin (.tried ht) nofun nofun ((run.plays _ _).trans (.resume (.retried hl) (rest.plays _ _)))

/-- One thread takes all the steps of a command. -/
theorem Performs.plays : ∀ {m : Machine σ} {invocation : Invocation σ} {n : Machine σ} {ok : Bool},
    Performs e m invocation n ok → ∀ outer others, Reaches e (Snapshot.among ⟨m, .perform invocation, outer⟩ others)
      (Snapshot.among ⟨n, .done ok, outer⟩ others)
  | _, _, _, _, .immediate hi, _, _ => .begin (.immediate hi) nofun nofun (.refl _)
  | _, _, _, _, .refused hl, outer, others => plays_of_entered hl outer others
  | _, _, _, _, .looped hl run, outer, others => (plays_of_entered hl outer others).trans (run.plays outer others)

/-- One thread takes all the steps of a loop. -/
theorem Drives.plays : ∀ {m : Machine σ} {loop : Loop} {n : Machine σ} {ok : Bool}, Drives e m loop n ok →
    ∀ outer others, Reaches e (Snapshot.among ⟨m, .drive loop, outer⟩ others)
      (Snapshot.among ⟨n, .done ok, outer⟩ others)
  | _, _, _, _, .frameless hf, _, _ => .begin (.frameless hf) nofun nofun (.refl _)
  | _, _, _, _, .driven hf run, _, _ =>
    .begin (.driven hf) nofun nofun ((run.plays _ _).trans (.resume .released (.refl _)))

/-- One thread takes all the steps of its passes. -/
theorem Passes.plays : ∀ {m : Machine σ} {loop : Loop} {f : Frame} {n : Machine σ} {ok : Bool}, Passes e m loop f n ok →
    ∀ outer others, Reaches e (Snapshot.among ⟨m, .passes loop f, outer⟩ others)
      (Snapshot.among ⟨n, .done ok, outer⟩ others)
  | _, _, _, _, _, .done hb hr, _, _ => .begin (.finished hb hr) nofun nofun (.refl _)
  | _, _, _, _, _, .refused hb, _, _ => .begin (.stopped hb) nofun nofun (.refl _)
  | _, _, _, _, _, .failed hb run, _, _ =>
    .begin (.passed hb) nofun nofun ((run.plays _ _).trans (.resume .unwound (.refl _)))
  | _, _, _, _, _, .broken hb run ht, _, _ =>
    .begin (.passed hb) nofun nofun ((run.plays _ _).trans (.resume (.broken ht) (.refl _)))
  | _, _, _, _, _, .repeated hb run ht hn rest, _, _ =>
    .begin (.passed hb) nofun nofun ((run.plays _ _).trans (.resume (.put ht)
      (.begin (.again hn) nofun nofun (rest.plays _ _))))
  | _, _, _, _, _, .stuck hb run ht hn, _, _ =>
    .begin (.passed hb) nofun nofun ((run.plays _ _).trans (.resume (.put ht)
      (.begin (.stuck hn) nofun nofun (.refl _))))

/-- The threads on the side run one after the other, each when it is joined. -/
theorem Joins.plays : ∀ {m : Machine σ} {failed : Nat} {n : Machine σ} {failed' : Nat}, Joins e m failed n failed' →
    ∀ outer others, Reaches e (Snapshot.among ⟨m, .join failed, outer⟩ (m.sides e + others))
      (Snapshot.among ⟨n, .done true, outer⟩ others)
  | m, failed, _, _, .done hj, outer, others => by
    have hjobs : m.jobs = [] := jobs_of_nextJob_none hj
    have hnone : m.sides e = 0 := by
      unfold sides
      rw [hjobs]
      rfl
    rw [hnone, zero_add]
    have hawaits := not_awaits hjobs (.join failed) outer
    exact .head (.act (.begin (.joined hj) outer) (Snapshot.not_forks nofun) hawaits others) (.refl _)
  | m, _, _, _, .next (n := n) hj run rest, outer, others => by
    rw [sides_of_nextJob hj, add_assoc]
    exact (run.plays hj _ outer _).trans (rest.plays outer others)

/-- The thread of a job goes on to its end while the one that waits for it does nothing. -/
theorem RunsJob.plays : ∀ {w : World σ} {job : Job σ} {v : World σ} {ok : Bool}, RunsJob e w job v ok →
    ∀ {m : Machine σ} {thread : Thread σ}, m.nextJob = some (job, ⟨w, thread⟩) → ∀ failed outer others,
      Reaches e (Snapshot.among ⟨m, .join failed, outer⟩ (↑(job.actors e) + others))
        (Snapshot.among ⟨⟨v, thread⟩, .join (if ok then failed else failed + 1), outer⟩ others)
  | _, _, _, _, .host, m, _, hj, failed, outer, others => by
    have hawaits : ¬Snapshot.Awaits (⟨m, .join failed, outer⟩ : Snapshot σ) := by
      rintro ⟨_, _, _, _, _, _, -, hj'⟩
      cases hj.symm.trans hj'
    rw [show (↑(Job.actors e (.host _)) : Multiset (Actor σ)) + others = others from zero_add _]
    exact .head (.act (.begin (.worked hj) outer) (Snapshot.not_forks nofun) hawaits _) (.refl _)
  | w, _, _, _, @RunsJob.unknown _ _ _ id frames _ _ hc, _, _, hj, failed, outer, others => by
    let n : Machine σ := ⟨w, { Thread.new id with frames }⟩
    have hid : n.finish.thread.id = id := rfl
    refine joined_of_side hj hid ?_ failed outer others
    intro rest
    simp only [Job.actors, hc]
    exact .resume (m := n) .finished (.refl _)
  | _, _, _, _, @RunsJob.simple _ _ _ id _ _ _ _ n _ hc step hd, _, _, hj, failed, outer, others => by
    have hid : n.finish.thread.id = id := step.id
    refine joined_of_side hj hid ?_ failed outer others
    intro rest
    simp only [Job.actors, hc]
    exact (step.plays _ rest).trans (.resume (.simple hd) (.resume .finished (.refl _)))
  | _, _, _, _, @RunsJob.called _ _ _ id _ _ _ _ _ _ o _ hc step hd run, _, _, hj, failed, outer, others => by
    have hid : o.finish.thread.id = id := run.id.trans step.id
    refine joined_of_side hj hid ?_ failed outer others
    intro rest
    simp only [Job.actors, hc]
    exact (step.plays _ rest).trans
      (.resume (.called hd) ((run.plays _ rest).trans (.resume .finished (.refl _))))

end

end Machine
end Sequencer
