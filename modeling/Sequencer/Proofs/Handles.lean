import Sequencer.Proofs.Scenes

/-!
# Nobody is left behind

A cycle registers each thread that it starts with a barrier of its own, and does not end before the barrier is empty. So
a thread on the side is always waited for by another one: the one that has started it, which was there before it. When
the thread that all began with is done, there is no other.
-/

namespace Sequencer

open Machine

variable {σ : Type} {e : Engine σ}

/-! ## Barriers of a thread

Each cycle of a thread has put the barrier of the cycle around it aside, so that the barriers are found along those
who wait. -/

/-- The numbers of the threads that a barrier waits for. -/
def Barrier.ids (b : Option (Barrier σ)) : List Nat := ((Barrier.jobs b).flatMap Job.threads).map (·.id)

/-- The numbers of the threads that the cycles of a thread wait for. Only a cycle has a barrier of its own, so that the
one that there is outside of all cycles does not count. -/
def handles (b : Option (Barrier σ)) : List (Caller σ) → List Nat
  | [] => []
  | .opened outer :: callers => Barrier.ids b ++ handles outer callers
  | .closing outer _ :: callers => Barrier.ids b ++ handles outer callers
  | .cycle _ _ :: callers => handles b callers
  | .attempts _ _ _ _ :: callers => handles b callers
  | .release _ _ :: callers => handles b callers
  | .pass _ _ _ :: callers => handles b callers
  | .job _ :: callers => handles b callers
  | .started _ :: callers => handles b callers
  | .waiting _ _ :: _ => []
  | .joiner :: _ => []

/-- Every cycle of a thread has its barrier. -/
def Manned (b : Option (Barrier σ)) : List (Caller σ) → Prop
  | [] => True
  | .opened outer :: callers => b.isSome ∧ Manned outer callers
  | .closing outer _ :: callers => b.isSome ∧ Manned outer callers
  | .cycle _ _ :: callers => Manned b callers
  | .attempts _ _ _ _ :: callers => Manned b callers
  | .release _ _ :: callers => Manned b callers
  | .pass _ _ _ :: callers => Manned b callers
  | .job _ :: callers => Manned b callers
  | .started _ :: callers => Manned b callers
  | .waiting _ _ :: _ => True
  | .joiner :: _ => True

theorem handles_congr {b c : Option (Barrier σ)} (h : Barrier.jobs c = Barrier.jobs b) (callers : List (Caller σ)) :
    handles c callers = handles b callers := by
  have hids : Barrier.ids c = Barrier.ids b := by
    unfold Barrier.ids
    rw [h]
  induction callers with
  | nil => rfl
  | cons caller callers ih =>
    cases caller with
    | opened outer => exact congrArg (· ++ handles outer callers) hids
    | closing outer ok => exact congrArg (· ++ handles outer callers) hids
    | waiting thread failed => rfl
    | joiner => rfl
    | _ => exact ih

theorem Manned.congr {b c : Option (Barrier σ)} {callers : List (Caller σ)} (h : Manned b callers)
    (hsome : c.isSome = b.isSome) : Manned c callers := by
  induction callers with
  | nil => trivial
  | cons caller callers ih =>
    cases caller with
    | opened outer => exact ⟨hsome ▸ h.1, h.2⟩
    | closing outer ok => exact ⟨hsome ▸ h.1, h.2⟩
    | waiting thread failed => trivial
    | joiner => trivial
    | _ => exact ih h

/-! ## Those who wait for a thread

Which callers a thread can have when it is at some task, and how a thread on the side is known by them. -/

/-- Nobody waits for jobs. A cycle that waits for an instruction is one with a barrier of its own, and only another thread
waits for the end of a thread. -/
def Plain : List (Caller σ) → Prop
  | [] => True
  | .cycle _ _ :: callers => (∃ outer rest, callers = .opened outer :: rest) ∧ Plain callers
  | .started _ :: callers => callers = [.joiner]
  | .opened _ :: callers => Plain callers
  | .attempts _ _ _ _ :: callers => Plain callers
  | .release _ _ :: callers => Plain callers
  | .pass _ _ _ :: callers => Plain callers
  | .job _ :: callers => Plain callers
  | .closing _ _ :: _ => False
  | .waiting _ _ :: _ => False
  | .joiner :: _ => False

/-- A thread that others are to join. -/
def Caller.isJoiner : Caller σ → Bool
  | .joiner => true
  | _ => false

namespace Actor

/-- A thread on the side. -/
def isSide (a : Actor σ) : Bool := a.callers.any Caller.isJoiner

def handles (a : Actor σ) : List Nat := Sequencer.handles a.thread.barrier a.callers

/-- The first of those who wait for a thread is one who can wait for its task. -/
def Fits (a : Actor σ) : Prop :=
  match a.task with
  | .cycle _ => (∃ outer rest, a.callers = .opened outer :: rest) ∧ Plain a.callers
  | .leave _ => (∃ outer rest, a.callers = .opened outer :: rest) ∧ Plain a.callers
  | .join _ => ∃ outer ok rest, a.callers = .closing outer ok :: rest ∧ Plain rest
  | .done _ => Plain a.callers ∨
      (∃ outer ok rest, a.callers = .closing outer ok :: rest ∧ Plain rest ∧ Barrier.jobs a.thread.barrier = []) ∨
      (a.callers = [.joiner] ∧ a.thread.frames = [])
  | _ => Plain a.callers

/-- A thread whose cycles have their barriers and wait for them. -/
structure Orderly (a : Actor σ) : Prop where
  fits : a.Fits
  manned : Manned a.thread.barrier a.callers

/-- A thread has gone on. -/
structure GoesOn (a b : Actor σ) : Prop where
  id : b.thread.id = a.thread.id
  isSide : b.isSide = a.isSide
  handles : b.handles = a.handles

theorem orderly_side (t : Thread σ) (c : Command σ) (i : Instruction) (key : String) : (side t c i key).Orderly :=
  ⟨rfl, trivial⟩

end Actor

/-! ## Steps of one thread

A step of a thread changes the numbers that it waits for only where it forks or joins. -/

theorem Task.Begins.isSide {m n : Machine σ} {task t : Task σ} {callers outer : List (Caller σ)}
    (h : task.Begins e m n t callers) : (callers ++ outer).any Caller.isJoiner = outer.any Caller.isJoiner := by
  cases h <;> rfl

theorem Caller.Resumes.isSide {m n : Machine σ} {ok : Bool} {caller : Caller σ} {t : Task σ}
    {callers outer : List (Caller σ)} (h : caller.Resumes m ok n t callers) :
    (callers ++ outer).any Caller.isJoiner = (caller :: outer).any Caller.isJoiner := by
  cases h <;> rfl

/-- A step that concerns no other thread lets those wait in front who can wait for the next task. -/
theorem Task.Begins.fits {m n : Machine σ} {task t : Task σ} {callers outer : List (Caller σ)}
    (h : task.Begins e m n t callers) (hf : ¬Snapshot.Forks e ⟨m, task, outer⟩) (hj : ¬Snapshot.Awaits ⟨m, task, outer⟩)
    (hs : Actor.Fits ⟨m.thread, task, outer⟩) : Actor.Fits ⟨n.thread, t, callers ++ outer⟩ := by
  cases h with
  | aborted => exact .inl hs.2
  | drained => exact .inl hs.2
  | exhausted => exact hs
  | left => exact hs
  | undecodable => exact .inl hs.2
  | forked => exact hs
  | fetched => exact hs
  -- A cycle is opened with its barrier, and its caller is the first who waits.
  | opened => exact ⟨⟨_, _, rfl⟩, hs⟩
  | joined hnone =>
    obtain ⟨b, ok, rest, rfl, hrest⟩ := hs
    exact .inr (.inl ⟨b, ok, rest, rfl, hrest, jobs_of_nextJob_none hnone⟩)
  | worked => exact hs
  -- To wait for a thread is a step of its own.
  | unknown hn => exact absurd ⟨_, _, _, _, _, _, rfl, hn⟩ hj
  | started hn => exact absurd ⟨_, _, _, _, _, _, rfl, hn⟩ hj
  | unprepared => exact .inl hs
  | spent => exact .inl hs
  | immediate => exact .inl hs
  | refused => exact .inl hs
  | rejected => exact .inl hs
  | unreadable => exact .inl hs
  | frameless => exact .inl hs
  | finished => exact .inl hs
  | stopped => exact .inl hs
  | stuck => exact .inl hs
  | _ => exact hs

/-- A caller goes on that is not among those who wait for jobs. -/
theorem Actor.Fits.plain_of_done {t : Thread σ} {ok : Bool} {caller : Caller σ} {outer : List (Caller σ)}
    (h : Fits ⟨t, .done ok, caller :: outer⟩) (hclosing : ∀ b r, caller ≠ .closing b r) (hjoiner : caller ≠ .joiner) :
    Plain (caller :: outer) := by
  rcases h with h | ⟨b, r, rest, he, -⟩ | ⟨he, -⟩
  · exact h
  · exact absurd (List.cons_eq_cons.1 he).1 (hclosing b r)
  · exact absurd (List.cons_eq_cons.1 he).1 hjoiner

/-- So does a task that is done, for the one who has waited for it. -/
theorem Caller.Resumes.fits {m n : Machine σ} {ok : Bool} {caller : Caller σ} {t : Task σ}
    {callers outer : List (Caller σ)} (h : caller.Resumes m ok n t callers)
    (hs : Actor.Fits ⟨m.thread, .done ok, caller :: outer⟩) : Actor.Fits ⟨n.thread, t, callers ++ outer⟩ := by
  cases h with
  | closed =>
    obtain hs | ⟨b, r, rest, he, hrest, -⟩ | ⟨he, -⟩ := hs
    · exact hs.elim
    · cases he
      exact .inl hrest
    · cases he
  | advanced => exact hs.plain_of_done nofun nofun
  | failed => exact .inl (hs.plain_of_done nofun nofun).2
  | joins => exact ⟨_, _, _, rfl, hs.plain_of_done nofun nofun⟩
  | succeeded => exact .inl (hs.plain_of_done nofun nofun)
  | gaveUp => exact .inl (hs.plain_of_done nofun nofun)
  | retried => exact hs.plain_of_done nofun nofun
  | released => exact .inl (hs.plain_of_done nofun nofun)
  | unwound => exact .inl (hs.plain_of_done nofun nofun)
  | broken => exact .inl (hs.plain_of_done nofun nofun)
  | put => exact hs.plain_of_done nofun nofun
  | called => exact hs.plain_of_done nofun nofun
  | simple => exact .inl (hs.plain_of_done nofun nofun)
  | finished =>
    have houter : outer = [.joiner] := hs.plain_of_done nofun nofun
    exact .inr (.inr ⟨houter, List.drop_length⟩)
  | waited => exact (hs.plain_of_done nofun nofun).elim

/-- What a thread that goes on by itself does to its barriers: a cycle begins with one of its own, and otherwise they
wait for the same threads. -/
theorem Task.Begins.barriers {m n : Machine σ} {task t : Task σ} {callers outer : List (Caller σ)}
    (h : task.Begins e m n t callers) (hf : ¬Snapshot.Forks e ⟨m, task, outer⟩) (hj : ¬Snapshot.Awaits ⟨m, task, outer⟩)
    (hs : Manned m.thread.barrier outer) : n.thread.id = m.thread.id ∧ Manned n.thread.barrier (callers ++ outer) ∧
      handles n.thread.barrier (callers ++ outer) = handles m.thread.barrier outer := by
  have hminds := h.minds hf hj
  have keep (hn : m.Minds n) (hmanned : Manned n.thread.barrier outer → Manned n.thread.barrier (callers ++ outer))
      (hhandles : handles n.thread.barrier (callers ++ outer) = handles n.thread.barrier outer) :
      n.thread.id = m.thread.id ∧ Manned n.thread.barrier (callers ++ outer) ∧
        handles n.thread.barrier (callers ++ outer) = handles m.thread.barrier outer :=
    ⟨hn.id, hmanned (hs.congr hn.barrier), hhandles.trans (handles_congr hn.jobs outer)⟩
  cases h with
  | opened => exact ⟨rfl, ⟨rfl, hs⟩, rfl⟩
  | unknown hn => exact absurd ⟨_, _, _, _, _, _, rfl, hn⟩ hj
  | started hn => exact absurd ⟨_, _, _, _, _, _, rfl, hn⟩ hj
  | _ => exact keep (hminds nofun) id rfl

theorem Caller.Resumes.barriers {m n : Machine σ} {ok : Bool} {caller : Caller σ} {t : Task σ}
    {callers outer : List (Caller σ)} (h : caller.Resumes m ok n t callers)
    (hs : Actor.Orderly ⟨m.thread, .done ok, caller :: outer⟩) : n.thread.id = m.thread.id ∧
      Manned n.thread.barrier (callers ++ outer) ∧
      handles n.thread.barrier (callers ++ outer) = handles m.thread.barrier (caller :: outer) := by
  obtain ⟨hfits, hmanned⟩ := hs
  cases h with
  | closed =>
    obtain hfits | ⟨b, r, rest, he, -, hjobs⟩ | ⟨he, -⟩ := hfits
    · exact hfits.elim
    · cases he
      -- A barrier is given up when all of its handles have been joined.
      have hnone : Barrier.ids m.thread.barrier = [] := by
        unfold Barrier.ids
        rw [hjobs]
        rfl
      refine ⟨rfl, hmanned.2, ?_⟩
      show _ = Barrier.ids m.thread.barrier ++ _
      rw [hnone]
      rfl
    · cases he
  | broken ht =>
    have hn := minds_of_takeBreak ht
    exact ⟨hn.id, hmanned.congr hn.barrier, handles_congr hn.jobs outer⟩
  | put ht =>
    have hn := minds_of_takeBreak ht
    exact ⟨hn.id, hmanned.congr hn.barrier, handles_congr hn.jobs outer⟩
  | waited => exact (hfits.plain_of_done nofun nofun).elim
  | _ => exact ⟨rfl, hmanned, rfl⟩

/-- A step that concerns one thread only. -/
theorem Snapshot.Step.stays_orderly {s t : Snapshot σ} (h : s.Step e t) (hf : ¬s.Forks e) (hj : ¬s.Awaits)
    (hs : s.actor.Orderly) : t.actor.Orderly ∧ s.actor.GoesOn t.actor := by
  cases h with
  | begin hb outer =>
    obtain ⟨hid, hmanned, hhandles⟩ := hb.barriers hf hj hs.manned
    exact ⟨⟨hb.fits hf hj hs.fits, hmanned⟩, hid, hb.isSide, hhandles⟩
  | resume hr outer =>
    obtain ⟨hid, hmanned, hhandles⟩ := hr.barriers hs
    exact ⟨⟨hr.fits hs.fits, hmanned⟩, hid, hr.isSide, hhandles⟩

/-! ## Scenes

In a scene each thread on the side is registered once, with somebody who was started earlier. So there is always one
that nobody waits for. -/

namespace Machine

variable {m n : Machine σ} {level : Nat} {c : Command σ} {i : Instruction} {key : String}

theorem Sends.minds (h : m.Sends e level n c i key) : m.Minds n := by
  obtain ⟨-, ⟨text, hs, -⟩, -⟩ := h
  exact minds_of_nextStep hs

theorem Sends.threads (h : m.Sends e level n c i key) : n.world.threads = m.world.threads := by
  obtain ⟨-, ⟨text, hs, -⟩, -⟩ := h
  cases offered_of_nextStep hs with
  | found => rfl

/-- A cycle that starts a thread on the side has it to wait for. -/
theorem ids_forkInstruction (hb : m.thread.barrier.isSome) (i : Instruction) (key : String) :
    Barrier.ids (m.forkInstruction i key).thread.barrier = Barrier.ids m.thread.barrier ++ [m.world.threads] := by
  have hjobs : Barrier.jobs (m.forkInstruction i key).thread.barrier = Barrier.jobs m.thread.barrier ++ _ :=
    jobs_forkInstruction hb i key
  unfold Barrier.ids
  rw [hjobs, List.flatMap_append, List.map_append]
  rfl

/-- A thread that is done is one less to wait for. -/
theorem ids_of_nextJob {id : Nat} {frames : List Frame} (h : m.nextJob = some (.instruction id frames i key, n)) :
    Barrier.ids m.thread.barrier = id :: Barrier.ids n.thread.barrier := by
  have hjobs : Barrier.jobs m.thread.barrier = _ ++ Barrier.jobs n.thread.barrier := (jobs_of_nextJob h).1
  unfold Barrier.ids
  rw [hjobs]
  rfl

end Machine

namespace Scene

/-- The numbers of the threads on the side. -/
def sides (s : Scene σ) : Multiset Nat := (s.actors.filter (·.isSide)).map (·.thread.id)

/-- One thread is on no side. All others have numbers of their own, and another thread waits for each, which was there
before it. -/
structure Orderly (s : Scene σ) : Prop where
  actors : ∀ a ∈ s.actors, a.Orderly
  one : s.actors.countP (·.isSide = false) = 1
  distinct : s.sides.Nodup
  numbered : ∀ a ∈ s.actors, a.isSide → a.thread.id < s.world.threads
  held : ∀ a ∈ s.actors, a.isSide → ∃ p ∈ s.actors, a.thread.id ∈ p.handles ∧ (p.isSide → p.thread.id < a.thread.id)

theorem sides_cons_of_pos {w : World σ} {a : Actor σ} (h : a.isSide) (others : Multiset (Actor σ)) :
    sides ⟨w, a ::ₘ others⟩ = a.thread.id ::ₘ sides ⟨w, others⟩ := by
  unfold sides
  rw [Multiset.filter_cons_of_pos others h, Multiset.map_cons]

theorem sides_cons_of_neg {w : World σ} {a : Actor σ} (h : a.isSide = false) (others : Multiset (Actor σ)) :
    sides ⟨w, a ::ₘ others⟩ = sides ⟨w, others⟩ := by
  unfold sides
  rw [Multiset.filter_cons_of_neg others (by simp [h])]

/-- A thread on the side is counted among the sides. -/
theorem mem_sides {s : Scene σ} {a : Actor σ} (ha : a ∈ s.actors) (h : a.isSide) : a.thread.id ∈ s.sides :=
  Multiset.mem_map_of_mem _ (Multiset.mem_filter.2 ⟨ha, h⟩)

namespace Orderly

variable {w v : World σ} {a b c : Actor σ} {others : Multiset (Actor σ)}

/-- A thread has gone on, and still waits for the threads that there are. -/
theorem replace (h : Orderly ⟨w, a ::ₘ others⟩) (hb : b.Orderly) (hid : b.thread.id = a.thread.id)
    (hside : b.isSide = a.isSide) (hhandles : ∀ id ∈ sides ⟨w, a ::ₘ others⟩, id ∈ a.handles → id ∈ b.handles)
    (hw : w.threads ≤ v.threads) : Orderly ⟨v, b ::ₘ others⟩ := by
  obtain ⟨hactors, hone, hdistinct, hnumbered, hheld⟩ := h
  -- Who has waited for a thread still does, be it the actor that has gone on or another one.
  have waits {q : Nat} (hmem : q ∈ sides ⟨w, a ::ₘ others⟩)
      (hq : ∃ p ∈ a ::ₘ others, q ∈ p.handles ∧ (p.isSide → p.thread.id < q)) :
      ∃ p ∈ b ::ₘ others, q ∈ p.handles ∧ (p.isSide → p.thread.id < q) := by
    obtain ⟨p, hp, hq, hlt⟩ := hq
    rcases Multiset.mem_cons.1 hp with rfl | hp
    · exact ⟨b, Multiset.mem_cons_self b others, hhandles q hmem hq, fun hb => hid ▸ hlt (hside ▸ hb)⟩
    · exact ⟨p, Multiset.mem_cons_of_mem hp, hq, hlt⟩
  have hrest := (Multiset.forall_mem_cons.1 hactors).2
  constructor
  case actors => exact Multiset.forall_mem_cons.2 ⟨hb, hrest⟩
  -- The first thread is the only one that is not on the side.
  case one =>
    rw [Multiset.countP_cons] at hone ⊢
    rw [hside]
    exact hone
  -- the numbers on the side are the same as before
  case distinct =>
    cases ha : a.isSide with
    | true =>
      rw [sides_cons_of_pos ha] at hdistinct
      rw [sides_cons_of_pos (hside.trans ha), hid]
      exact hdistinct
    | false =>
      rw [sides_cons_of_neg ha] at hdistinct
      rw [sides_cons_of_neg (hside.trans ha)]
      exact hdistinct
  case numbered =>
    obtain ⟨ha, hothers⟩ := Multiset.forall_mem_cons.1 hnumbered
    refine Multiset.forall_mem_cons.2 ⟨fun hb => ?_, fun p hp hs => (hothers p hp hs).trans_le hw⟩
    exact (hid ▸ ha (hside ▸ hb)).trans_le hw
  case held =>
    obtain ⟨ha, hothers⟩ := Multiset.forall_mem_cons.1 hheld
    refine Multiset.forall_mem_cons.2 ⟨fun hb => ?_, fun p hp hs => ?_⟩
    · rw [hid]
      exact waits (mem_sides (Multiset.mem_cons_self a others) (hside ▸ hb)) (ha (hside ▸ hb))
    · exact waits (mem_sides (Multiset.mem_cons_of_mem hp) hs) (hothers p hp hs)

/-- A thread begins on the side that one of the others waits for. -/
theorem insert (h : Orderly ⟨w, a ::ₘ others⟩) (hb : b.Orderly) (hside : b.isSide) (hid : b.thread.id = w.threads)
    (hheld : b.thread.id ∈ a.handles) (hw : w.threads < v.threads) : Orderly ⟨v, a ::ₘ b ::ₘ others⟩ := by
  obtain ⟨hactors, hone, hdistinct, hnumbered, hheldby⟩ := h
  rw [Multiset.cons_swap]
  constructor
  case actors => exact Multiset.forall_mem_cons.2 ⟨hb, hactors⟩
  case one =>
    rw [Multiset.countP_cons_of_neg _ (by simp [hside])]
    exact hone
  case distinct =>
    rw [sides_cons_of_pos hside]
    refine Multiset.nodup_cons.2 ⟨fun hmem => ?_, hdistinct⟩
    obtain ⟨p, hp, he⟩ := Multiset.mem_map.1 hmem
    obtain ⟨hp, hs⟩ := Multiset.mem_filter.1 hp
    -- All numbers that there are come before the new one.
    exact Nat.lt_irrefl _ (hid ▸ he ▸ hnumbered p hp hs)
  case numbered =>
    exact Multiset.forall_mem_cons.2 ⟨fun _ => hid ▸ hw, fun p hp hs => (hnumbered p hp hs).trans hw⟩
  case held =>
    refine Multiset.forall_mem_cons.2 ⟨fun _ => ⟨a, ?_, hheld, fun ha => ?_⟩, fun p hp hs => ?_⟩
    · exact Multiset.mem_cons_of_mem (Multiset.mem_cons_self a others)
    · exact hid ▸ hnumbered a (Multiset.mem_cons_self a others) ha
    · obtain ⟨q, hq, hheld⟩ := hheldby p hp hs
      exact ⟨q, Multiset.mem_cons_of_mem hq, hheld⟩

/-- A thread on the side goes that waits for no other. -/
theorem erase (h : Orderly ⟨w, c ::ₘ others⟩) (hc : c.isSide) (hnone : c.handles = []) :
    Orderly ⟨w, others⟩ ∧ c.thread.id ∉ sides ⟨w, others⟩ := by
  obtain ⟨hactors, hone, hdistinct, hnumbered, hheld⟩ := h
  rw [sides_cons_of_pos hc] at hdistinct
  obtain ⟨hnew, hdistinct⟩ := Multiset.nodup_cons.1 hdistinct
  refine ⟨?_, hnew⟩
  constructor
  case actors => exact (Multiset.forall_mem_cons.1 hactors).2
  case one =>
    rw [Multiset.countP_cons_of_neg _ (by simp [hc])] at hone
    exact hone
  case distinct => exact hdistinct
  case numbered => exact (Multiset.forall_mem_cons.1 hnumbered).2
  case held =>
    intro a ha hs
    -- Nobody was waited for by the thread that goes, since it has no handles left.
    obtain ⟨p, hp, hid, hlt⟩ := (Multiset.forall_mem_cons.1 hheld).2 a ha hs
    rcases Multiset.mem_cons.1 hp with rfl | hp
    · rw [hnone] at hid
      cases hid
    · exact ⟨p, hp, hid, hlt⟩

/-- Where the thread that is on no side waits for none, there is no other. Each of the others is waited for by one that
was there before it, and so on down to none. -/
theorem alone (h : Orderly ⟨w, a ::ₘ others⟩) (ha : a.isSide = false) (hnone : a.handles = []) : others = 0 := by
  obtain ⟨-, hone, -, -, hheld⟩ := h
  have hcount := (Multiset.countP_cons_of_pos (p := fun p : Actor σ => p.isSide = false) others ha).symm.trans hone
  rw [Nat.add_eq_right, Multiset.countP_eq_zero] at hcount
  have hsides : ∀ p ∈ others, p.isSide := fun p hp => Bool.eq_true_of_not_eq_false (hcount p hp)
  have none (n : Nat) : ∀ p ∈ others, p.thread.id ≠ n := by
    induction n using Nat.strong_induction_on with
    | _ n ih =>
      rintro p hp rfl
      obtain ⟨q, hq, hid, hlt⟩ := hheld p (Multiset.mem_cons_of_mem hp) (hsides p hp)
      rcases Multiset.mem_cons.1 hq with rfl | hq
      · rw [hnone] at hid
        cases hid
      · exact ih q.thread.id (hlt (hsides q hq)) q hq rfl
  exact Multiset.eq_zero_of_forall_notMem fun p hp => none _ p hp rfl

end Orderly

theorem forall_singleton {w : World σ} {a : Actor σ} {P : Actor σ → Prop} (h : P a) :
    ∀ b ∈ (⟨w, {a}⟩ : Scene σ).actors, P b := fun _ hb => Multiset.mem_singleton.1 hb ▸ h

/-- A thread that is by itself in a world. -/
theorem orderly_singleton {a : Actor σ} (ha : a.Orderly) (hside : a.isSide = false) (w : World σ) :
    Orderly ⟨w, {a}⟩ := by
  have hnot : ¬a.isSide = true := by simp [hside]
  constructor
  case actors => exact forall_singleton ha
  case one => exact (Multiset.countP_cons_of_pos 0 hside).trans rfl
  case distinct =>
    show (sides ⟨w, a ::ₘ 0⟩).Nodup
    rw [sides_cons_of_neg hside]
    exact Multiset.nodup_zero
  case numbered => exact forall_singleton fun h => absurd h hnot
  case held => exact forall_singleton fun h => absurd h hnot

/-- Every handle belongs to one thread after a step, if it did before: forks make new ones, and joins take both
away. -/
theorem Step.stays_orderly {s t : Scene σ} (h : Step e s t) (hs : s.Orderly) : t.Orderly := by
  cases h with
  -- one actor goes on, and waits for the same threads as before
  | @act u v hact hf hj others =>
    obtain ⟨hv, hgoes⟩ := hact.stays_orderly hf hj (hs.actors _ (Multiset.mem_cons_self _ _))
    have hw : u.machine.world.threads ≤ v.machine.world.threads := Snapshot.Reaches.threads_le (.single hact)
    exact hs.replace hv hgoes.id hgoes.isSide (fun id _ hid => hgoes.handles ▸ hid) hw
  -- the new thread gets a number that nobody had, and the parent has it to wait for
  | @fork m level n c i key hsends outer others =>
    obtain ⟨hfits, hmanned⟩ := hs.actors _ (Multiset.mem_cons_self _ _)
    obtain ⟨⟨b, rest, rfl⟩, hplain⟩ := hfits
    have hminds := hsends.minds
    have hsome : n.thread.barrier.isSome := hminds.barrier ▸ hmanned.1
    have hids := ids_forkInstruction hsome i key
    have hnew : (n.forkInstruction i key).thread.barrier.isSome := (isSome_forkInstruction n i key).trans hsome
    have hhandles : handles (n.forkInstruction i key).thread.barrier (.opened b :: rest) =
        Barrier.ids m.thread.barrier ++ ([m.world.threads] ++ handles b rest) := by
      show Barrier.ids (n.forkInstruction i key).thread.barrier ++ handles b rest = _
      rw [hids, hsends.threads, show Barrier.ids n.thread.barrier = Barrier.ids m.thread.barrier from
        congrArg (fun jobs => (jobs.flatMap Job.threads).map (·.id)) hminds.jobs, List.append_assoc]
    have hparent : Orderly
        ⟨m.world, ⟨(n.forkInstruction i key).thread, .cycle level, .opened b :: rest⟩ ::ₘ others⟩ := by
      refine hs.replace ⟨⟨⟨b, rest, rfl⟩, hplain⟩, hnew, hmanned.2⟩ hminds.id rfl (fun q _ hq => ?_) le_rfl
      have hq : q ∈ Barrier.ids m.thread.barrier ++ handles b rest := hq
      show q ∈ handles (n.forkInstruction i key).thread.barrier (.opened b :: rest)
      rw [hhandles]
      exact (List.mem_append.1 hq).elim (List.mem_append_left _)
        fun hq => List.mem_append_right _ (List.mem_append_right _ hq)
    refine hparent.insert (Actor.orderly_side _ _ _ _) rfl hsends.threads ?_ (hsends.threads ▸ Nat.lt_succ_self _)
    show n.world.threads ∈ handles (n.forkInstruction i key).thread.barrier (.opened b :: rest)
    rw [hhandles, hsends.threads]
    exact List.mem_append_right _ (List.mem_append_left _ (List.mem_singleton_self _))
  -- the number is used up, although nobody has it
  | @refuse m level n c i key hsends outer others =>
    obtain ⟨hfits, hmanned⟩ := hs.actors _ (Multiset.mem_cons_self _ _)
    have hminds := hsends.minds
    have hhandles : handles n.thread.barrier outer = handles m.thread.barrier outer := handles_congr hminds.jobs outer
    refine hs.replace ⟨hfits, hmanned.congr hminds.barrier⟩ hminds.id rfl (fun q _ hq => ?_) ?_
    · show q ∈ handles n.thread.barrier outer
      rw [hhandles]
      exact hq
    · exact hsends.threads ▸ Nat.le_succ _
  -- the parent has one less to wait for, and the thread with this number is gone
  | @join m n failed id frames i key t ok hj hid outer others =>
    have hswap : Orderly ⟨m.world, ⟨t, .done ok, [.joiner]⟩ ::ₘ ⟨m.thread, .join failed, outer⟩ ::ₘ others⟩ := by
      rw [Multiset.cons_swap]
      exact hs
    obtain ⟨hrest, hnew⟩ := hswap.erase rfl rfl
    obtain ⟨hfits, hmanned⟩ := hs.actors _ (Multiset.mem_cons_self _ _)
    obtain ⟨b, r, rest, rfl, hplain⟩ := hfits
    have hids := ids_of_nextJob hj
    obtain ⟨pending, -, rfl⟩ := barrier_of_nextJob hj
    refine hrest.replace ⟨⟨b, r, rest, rfl, hplain⟩, rfl, hmanned.2⟩ rfl rfl (fun q hq hmem => ?_) le_rfl
    have hmem : q ∈ Barrier.ids m.thread.barrier ++ handles b rest := hmem
    rw [hids, List.cons_append] at hmem
    -- no other thread had the number of the one that was joined
    refine (List.mem_cons.1 hmem).resolve_left ?_
    rintro rfl
    exact hnew (hid ▸ hq)
  | drift hdrift actors =>
    obtain ⟨hactors, hone, hdistinct, hnumbered, hheld⟩ := hs
    exact ⟨hactors, hone, hdistinct, fun a ha hside => hdrift.threads ▸ hnumbered a ha hside, hheld⟩

theorem Reaches.stays_orderly {s t : Scene σ} (h : Reaches e s t) (hs : s.Orderly) : t.Orderly := by
  induction h with
  | refl => exact hs
  | tail _ hstep ih => exact hstep.stays_orderly ih

end Scene

end Sequencer
