import Sequencer.Proofs.Schedule
import Sequencer.Proofs.Snapshots

/-!
# What goes into the journal

Reading, saving and deleting leave the journal alone, unless a store fails and aborts the request. What else a step of
a run notes is in its rule: entering, fetching, preparing, attempting and waiting are noted where they happen.
-/

namespace Sequencer

variable {σ : Type}

/-- The request was aborted. -/
def Event.IsAborted : Event → Prop
  | .aborted _ _ => True
  | _ => False

/-! ## Worlds

Some events are written down in front of the journal, and nothing else in it changes. -/

namespace World

/-- From one world to another only events of some kind are noted, a request that is aborted stays so, and no number of
a thread is given back. -/
structure Records (P : Event → Prop) (w w' : World σ) : Prop where
  aborted : w.request.aborted = true → w'.request.aborted = true
  journal : ∃ events, w'.journal = events ++ w.journal ∧ ∀ event ∈ events, P event
  threads_le : w.threads ≤ w'.threads

/-- Besides, no activation and no thread begins. -/
structure Marks (P : Event → Prop) (w w' : World σ) : Prop extends Records P w w' where
  threads : w'.threads = w.threads
  activations : w'.activations = w.activations

variable {P Q : Event → Prop} {w v u : World σ}

namespace Records

theorem of_eq (ha : v.request.aborted = w.request.aborted) (hj : v.journal = w.journal)
    (ht : v.threads = w.threads) : w.Records P v :=
  ⟨fun h => ha.trans h, ⟨[], hj, nofun⟩, Nat.le_of_eq ht.symm⟩

theorem refl (w : World σ) : w.Records P w := of_eq rfl rfl rfl

theorem trans (h : w.Records P v) (h' : v.Records P u) : w.Records P u := by
  refine ⟨fun ha => h'.aborted (h.aborted ha), ?_, h.threads_le.trans h'.threads_le⟩
  obtain ⟨events, he, hp⟩ := h.journal
  obtain ⟨events', he', hp'⟩ := h'.journal
  refine ⟨events' ++ events, by rw [he', he, List.append_assoc], fun event hmem => ?_⟩
  exact (List.mem_append.1 hmem).elim (hp' event) (hp event)

theorem mono (h : w.Records P v) (hpq : ∀ event, P event → Q event) : w.Records Q v := by
  obtain ⟨events, he, hp⟩ := h.journal
  exact ⟨h.aborted, ⟨events, he, fun event hmem => hpq event (hp event hmem)⟩, h.threads_le⟩

/-- One event is noted. -/
theorem note (event : Event) (h : P event) (ha : w.request.aborted = true → v.request.aborted = true)
    (hj : v.journal = event :: w.journal) (ht : v.threads = w.threads) : w.Records P v :=
  ⟨ha, ⟨[event], hj, fun _ hmem => List.mem_singleton.1 hmem ▸ h⟩, Nat.le_of_eq ht.symm⟩

end Records

namespace Marks

theorem refl (w : World σ) : w.Marks P w := ⟨.refl w, rfl, rfl⟩

theorem trans (h : w.Marks P v) (h' : v.Marks P u) : w.Marks P u :=
  ⟨h.toRecords.trans h'.toRecords, h'.threads.trans h.threads, h'.activations.trans h.activations⟩

end Marks
end World

/-! ## Machines

What an operation notes is no more than that the request was aborted. -/

namespace Machine

/-- From one machine to another the thread stays as it is, and nothing is noted but that the request was aborted. -/
structure Notes (m n : Machine σ) : Prop where
  thread : n.thread = m.thread
  world : m.world.Marks Event.IsAborted n.world

theorem covers_notes : Covers (Notes (σ := σ)) where
  refl m := ⟨rfl, .refl m.world⟩
  trans h h' := ⟨h'.thread.trans h.thread, h.world.trans h'.world⟩
  withHost _ _ := ⟨rfl, .of_eq rfl rfl rfl, rfl, rfl⟩
  withStore _ _ := ⟨rfl, .of_eq rfl rfl rfl, rfl, rfl⟩
  withScopes _ _ _ := ⟨rfl, .of_eq rfl rfl rfl, rfl, rfl⟩
  record _ _ := ⟨rfl, .of_eq rfl rfl rfl, rfl, rfl⟩
  abort m message := ⟨rfl, .note (.aborted m.thread.id message) trivial (fun _ => rfl) rfl rfl, rfl, rfl⟩

variable (m : Machine σ)

theorem marks_withScopes (P : Event → Prop) (f : Arena → Arena) : m.world.Marks P (m.withScopes f).world :=
  ⟨.of_eq rfl rfl rfl, rfl, rfl⟩

/-- A return takes the active frame off, and nothing else of the thread changes. -/
theorem notes_returnFrame (explicit : Option (List String)) :
    (m.withFrames m.frames.tail).Notes (m.returnFrame explicit).1 := by
  cases hf : m.frames with
  | nil =>
    rw [returnFrame_nil hf]
    refine ⟨?_, .refl m.world⟩
    show m.thread = { m.thread with frames := [] }
    rw [← hf]
    rfl
  | cons f below =>
    rw [List.tail_cons]
    obtain ⟨o, targets, vs, hread, -, he⟩ := returnFrame_parts hf explicit
    -- The values are read while the frame is still there.
    have hr : m.Notes o := by
      rcases hread with rfl | ⟨asked, names, rfl⟩
      · exact covers_notes.refl _
      · exact covers_notes.readResults m asked names
    have hr' : (m.withFrames below).Notes (o.withFrames below) :=
      ⟨congrArg (fun t : Thread σ => { t with frames := below }) hr.thread, hr.world⟩
    -- What is published without the frame may abort the request.
    have hpublish := covers_notes.trans hr' (covers_notes.publish _ targets vs)
    rw [he]
    exact ⟨hpublish.thread, hpublish.world.trans (marks_withScopes _ _ _)⟩

/-- An early return takes the frame off the stack, may mark a loop, and publishes values. -/
theorem notes_returnEarly (explicit : Option (List String)) :
    ∃ breakAt, ((m.withFrames m.frames.tail).withBreak breakAt).Notes (m.returnEarly explicit).1 := by
  have plain : ((m.withFrames m.frames.tail).withBreak m.thread.breakAt).Notes (m.returnFrame explicit).1 :=
    notes_returnFrame m explicit
  cases hf : m.frames with
  | nil =>
    rw [returnFrame_nil hf, hf] at plain
    rw [returnEarly_nil hf]
    exact ⟨_, plain⟩
  | cons f below =>
    rw [hf] at plain
    cases hl : f.looping with
    -- A loop is returned from as one that is over, with its mark.
    | true =>
      rw [returnEarly_of_looping hf hl]
      exact ⟨_, notes_returnFrame ((m.withFrames ({ f with looping := false } :: below)).withBreak
        (some below.length)) explicit⟩
    | false =>
      rw [returnEarly_of_not_looping hf hl]
      exact ⟨_, plain⟩

/-! ## Fetching

A fetch is noted with the frame that it is from, before anything is done with the text. -/

variable {m}

/-- The trimmed text of an instruction, empty where there is none. -/
def textOf (m : Machine σ) (key : String) : String :=
  match m.lookup key with
  | some v => Text.trimmed v.text
  | none => ""

/-- The machine whose active frame `f` has moved on to its next instruction. -/
def fetched (m : Machine σ) (f : Frame) (below : List Frame) : Machine σ :=
  (m.withFrames (f.advance :: below)).note
    (.fetched m.thread.id f.activation f.advance.key (below.length + 1) m.scopes.live)

/-- What the stack offers: nothing where it is drained or its active frame exhausted, and otherwise the next
instruction of the active frame, unless its text is blank. -/
inductive Offered (m : Machine σ) (level : Nat) : Machine σ → Step → Prop
  | drained (hd : m.depth ≤ level) : Offered m level m .drained
  | exhausted {f below} (hd : level < m.depth) (hf : m.frames = f :: below) (he : f.exhausted = true) :
      Offered m level m .exhausted
  | blank {f below} (hd : level < m.depth) (hf : m.frames = f :: below) (he : f.exhausted = false)
      (ht : (m.fetched f below).textOf f.advance.key = "") : Offered m level (m.fetched f below) .exhausted
  | found {f below} (hd : level < m.depth) (hf : m.frames = f :: below) (he : f.exhausted = false)
      (ht : (m.fetched f below).textOf f.advance.key ≠ "") :
      Offered m level (m.fetched f below) (.instruction f.advance.key ((m.fetched f below).textOf f.advance.key))

/-- A fetch offers one of these, and notes no more than that in the journal. -/
theorem offered_of_nextStep {n : Machine σ} {level : Nat} {step : Step} (h : m.nextStep level = (n, step)) :
    Offered m level n step := by
  unfold nextStep at h
  by_cases hd : m.depth ≤ level
  · rw [if_pos hd] at h
    cases h
    exact .drained hd
  · have hlt := Nat.lt_of_not_le hd
    rw [if_neg hd] at h
    split at h
    · next hf =>
      unfold depth at hlt
      rw [hf] at hlt
      cases hlt
    · next f below hf =>
      cases he : f.exhausted with
      | true =>
        rw [if_pos he] at h
        cases h
        exact .exhausted hlt hf he
      | false =>
        rw [if_neg (by simp [he])] at h
        simp only at h
        split_ifs at h with ht
        · cases h
          exact .blank hlt hf he (String.isEmpty_iff.1 ht)
        · cases h
          exact .found hlt hf he fun hempty => ht (String.isEmpty_iff.2 hempty)

theorem aborted_of_nextStep {n : Machine σ} {level : Nat} {step : Step} (h : m.nextStep level = (n, step)) :
    n.aborted = m.aborted := by
  cases offered_of_nextStep h <;> rfl

/-! ## Preparing

A preparation is noted with its key, and so is the file that its payload may come from. -/

/-- The events of preparing a command. -/
def Prepares (thread : Nat) (key : String) : List Event → Prop := fun events =>
  ∃ before after, events = after ++ .prepared thread key :: before ∧
    (∀ event ∈ before, ∃ units, event = .waited thread units) ∧ ∀ event ∈ after, ∃ path, event = .opened path

/-- Preparing a command does nothing but note it. -/
theorem noted_of_prepare {e : Engine σ} {c : Command σ} {i : Instruction} {key : String} {n : Machine σ}
    {r : Except CommandError (Invocation σ)} (h : m.prepare e c i key = (n, r)) :
    ∃ events, Prepares m.thread.id key events ∧
      n = { m with world := { m.world with journal := events ++ m.world.journal } } := by
  unfold prepare at h
  -- The wait in front of the first attempt is noted, if there is one.
  have hidle : ∃ before : List Event, (∀ event ∈ before, ∃ units, event = .waited m.thread.id units) ∧
      (if i.timing.idle > 0 then m.wait i.timing.idle else m) =
        { m with world := { m.world with journal := before ++ m.world.journal } } := by
    split_ifs
    · exact ⟨[.waited m.thread.id i.timing.idle], fun _ hmem => ⟨_, List.mem_singleton.1 hmem⟩, rfl⟩
    · exact ⟨[], nofun, rfl⟩
  obtain ⟨before, hbefore, hm⟩ := hidle
  rw [hm] at h
  simp only at h
  split at h
  · next path _ =>
    cases h
    exact ⟨_, ⟨before, [.opened path], rfl, hbefore, fun _ hmem => ⟨_, List.mem_singleton.1 hmem⟩⟩, rfl⟩
  · cases h
    exact ⟨_, ⟨before, [], rfl, hbefore, nofun⟩, rfl⟩

/-! ## What changes the stack only

Marks on frames are not written down. -/

@[simp] theorem world_setLooping (m : Machine σ) (looping : Bool) : (m.setLooping looping).world = m.world := by
  unfold setLooping
  split <;> rfl

@[simp] theorem world_disown (m : Machine σ) : m.disown.world = m.world := by
  unfold disown
  split <;> rfl

@[simp] theorem world_breakLoop (m : Machine σ) : m.breakLoop.1.world = m.world := by
  unfold breakLoop
  split <;> rfl

theorem world_of_takeBreak {n : Machine σ} {index : Nat} {broken : Bool} (h : m.takeBreak index = (n, broken)) :
    n.world = m.world := by
  unfold takeBreak at h
  split_ifs at h <;> cases h <;> rfl

end Machine

open Machine

/-! ## Steps of a run

Each task may note events of its own kind only. So what a run has written down says which tasks were done in it. -/

/-- What the first step of a task may note. -/
def Task.MayNote (m : Machine σ) (task : Task σ) : Event → Prop
  | .fetched thread activation key depth live => ∃ level f below, task = .cycle level ∧ m.aborted = false ∧
      level < m.depth ∧ m.frames = f :: below ∧ thread = m.thread.id ∧ activation = f.activation ∧ key = f.advance.key ∧
      depth = m.depth ∧ live = m.scopes.live
  | .prepared _ key => ∃ c i, task = .dispatch c i key
  | .waited _ _ => ∃ c i key, task = .dispatch c i key
  | .opened _ => ∃ c i key, task = .dispatch c i key
  | .attempted _ key => ∃ invocation pause total, task = .attempts invocation key pause total
  | .entered _ _ _ => True
  | .aborted _ _ => True

theorem World.Marks.mayNote {w w' : World σ} (h : w.Marks Event.IsAborted w') (m : Machine σ) (task : Task σ) :
    w.Records (task.MayNote m) w' := by
  refine h.toRecords.mono fun event hevent => ?_
  cases event with
  | aborted thread message => exact hevent
  | _ => exact hevent.elim

theorem World.Records.of_world {P : Event → Prop} {w w' : World σ} (h : w' = w) : w.Records P w' :=
  h.symm ▸ .refl w

/-- A fetch is noted, and nothing else. -/
theorem Machine.records_of_nextStep {m n : Machine σ} {level : Nat} {step : Step} (ha : m.aborted = false)
    (h : m.nextStep level = (n, step)) : m.world.Records ((Task.cycle level).MayNote m) n.world := by
  have fetched {f : Frame} {below : List Frame} (hd : level < m.depth) (hf : m.frames = f :: below) :
      m.world.Records ((Task.cycle level).MayNote m) (m.fetched f below).world := by
    refine .note (.fetched m.thread.id f.activation f.advance.key (below.length + 1) m.scopes.live) ?_ id rfl rfl
    exact ⟨level, f, below, rfl, ha, hd, hf, rfl, rfl, rfl, (congrArg List.length hf).symm, rfl⟩
  cases offered_of_nextStep h with
  | drained => exact .refl _
  | exhausted => exact .refl _
  | blank hd hf => exact fetched hd hf
  | found hd hf => exact fetched hd hf

theorem Machine.records_of_prepare {e : Engine σ} {m n : Machine σ} {c : Command σ} {i : Instruction} {key : String}
    {r : Except CommandError (Invocation σ)} (h : m.prepare e c i key = (n, r)) :
    m.world.Records ((Task.dispatch c i key).MayNote m) n.world := by
  obtain ⟨events, ⟨before, after, rfl, hbefore, hafter⟩, rfl⟩ := noted_of_prepare h
  refine ⟨id, ⟨_, rfl, fun event hmem => ?_⟩, Nat.le_refl _⟩
  rcases List.mem_append.1 hmem with hmem | hmem
  · obtain ⟨path, rfl⟩ := hafter event hmem
    exact ⟨c, i, key, rfl⟩
  · rcases List.mem_cons.1 hmem with rfl | hmem
    · exact ⟨c, i, rfl⟩
    · obtain ⟨units, rfl⟩ := hbefore event hmem
      exact ⟨c, i, key, rfl⟩

/-- What a step notes when it begins a task. -/
theorem Task.Begins.records {e : Engine σ} {m n : Machine σ} {task t : Task σ} {callers : List (Caller σ)}
    (h : task.Begins e m n t callers) : m.world.Records (task.MayNote m) n.world := by
  -- a frame that is pushed is noted once, whoever pushes it
  have entered {o : Machine σ} {task : Task σ} (ho : m.Notes o) (action : String) (results : List String)
      (params : Table Value) : m.world.Records (task.MayNote m) (o.push action results params).world :=
    (ho.world.mayNote m task).trans
      (.note (.entered o.thread.id o.world.activations action) trivial id rfl rfl)
  -- What a step notes is said by the operation that it consists of: an abort, or an event of the task's own.
  cases h with
  | aborted => exact .refl _
  | drained ha hn => exact records_of_nextStep ha hn
  | exhausted ha hn => exact records_of_nextStep ha hn
  | @left level => exact World.Marks.mayNote (notes_returnFrame m none).world m (.leave level)
  | undecodable ha hn => exact records_of_nextStep ha hn
  -- a thread that is started has a number, but no event
  | forked ha hn => exact (records_of_nextStep ha hn).trans ⟨id, ⟨[], rfl, nofun⟩, Nat.le_succ _⟩
  | fetched ha hn => exact records_of_nextStep ha hn
  | opened => exact .of_eq rfl rfl rfl
  | unprepared hp => exact records_of_prepare hp
  | prepared hp => exact records_of_prepare hp
  | spent => exact .refl _
  | @tried invocation key pause total =>
    exact .note (.attempted m.thread.id key) ⟨invocation, pause, total, rfl⟩ id rfl rfl
  | immediate hi =>
    cases covers_notes.tried_immediate hi with
    | kept ho => exact (ho.world.mayNote m _).trans (.of_eq rfl rfl rfl)
    | called ho action results params => exact entered ho action results params
    -- a return publishes to the scope of the caller, and may abort where a store fails
    | @returned o ho explicit =>
      obtain ⟨breakAt, hreturn⟩ := notes_returnEarly o explicit
      exact (ho.world.mayNote m _).trans (hreturn.world.mayNote m _)
    | broke => exact .of_world (world_breakLoop m)
  | refused hl => exact (covers_notes.of_refused hl).world.mayNote m _
  | looped hl =>
    obtain ⟨o, values, ho, rfl⟩ := covers_notes.of_looped hl
    exact (entered ho _ _ _).trans (.of_world (world_setLooping _ _))
  | rejected hl => exact (covers_notes.of_rejected hl).world.mayNote m _
  | ranged hl =>
    obtain ⟨o, values, ho, rfl⟩ := covers_notes.of_ranged hl
    exact (entered ho _ _ _).trans (.of_world (world_setLooping _ _))
  | unreadable hr => exact ((covers_notes.of_read hr).world.mayNote m _).trans (.of_eq rfl rfl rfl)
  | chosen hr => exact (covers_notes.of_read hr).world.mayNote m _
  | frameless => exact .refl _
  | driven => exact .of_world (world_disown m)
  | @finished loop f o _ ok hb hr =>
    have hreturn : (o.setLooping false).world.Marks Event.IsAborted _ :=
      (notes_returnFrame (o.setLooping false) none).world
    rw [hr, world_setLooping] at hreturn
    exact ((covers_notes.beforePass hb).world.mayNote m _).trans (hreturn.mayNote m _)
  | stopped hb => exact ((covers_notes.beforePass hb).world.mayNote m _).trans (.of_eq rfl rfl rfl)
  | passed hb => exact (covers_notes.beforePass hb).world.mayNote m _
  | again hl => exact (covers_notes.afterPass hl).world.mayNote m _
  | stuck hl => exact ((covers_notes.afterPass hl).world.mayNote m _).trans (.of_eq rfl rfl rfl)
  | joined => exact .refl _
  | worked hj =>
    have hw := (jobs_of_nextJob hj).2.2
    exact .of_eq (congrArg (·.request.aborted) hw) (congrArg (·.journal) hw) (congrArg (·.threads) hw)
  | unknown hj => exact .of_world (jobs_of_nextJob hj).2.2
  | started hj => exact .of_world (jobs_of_nextJob hj).2.2

/-- What a step notes when it goes on with a caller: that a pass begins, or the wait before another attempt. -/
theorem Caller.Resumes.records {m n : Machine σ} {ok : Bool} {caller : Caller σ} {t : Task σ}
    {callers : List (Caller σ)} (h : caller.Resumes m ok n t callers) :
    m.world.Records (fun event => (∃ thread activation action, event = .entered thread activation action) ∨
      ∃ thread units pause total, event = .waited thread units ∧ m.lastAttempt pause total = false) n.world := by
  cases h with
  | closed => exact .of_eq rfl rfl rfl
  | @retried invocation key pause total hl =>
    exact .note (.waited m.thread.id pause) (.inr ⟨_, _, pause, total, rfl, hl⟩) id rfl rfl
  | released => exact .of_eq rfl rfl rfl
  | unwound => exact .of_eq rfl rfl rfl
  | @broken level loop f n ht =>
    have hw : n.world = (m.unwind level).world := world_of_takeBreak ht
    exact .of_eq (congrArg (·.request.aborted) hw) (congrArg (·.journal) hw) (congrArg (·.threads) hw)
  -- The frame that is put back enters its action anew.
  | @put level loop f o ht =>
    have hw := world_of_takeBreak ht
    refine .note (.entered o.thread.id o.world.activations f.action) (.inl ⟨_, _, _, rfl⟩) ?_ ?_
      (congrArg (·.threads) hw)
    · exact fun h => (congrArg (·.request.aborted) hw).trans h
    · exact congrArg (fun w : World σ => .entered o.thread.id o.world.activations f.action :: w.journal) hw
  | finished => exact .of_eq rfl rfl rfl
  | _ => exact .refl _

namespace Snapshot

variable {e : Engine σ} {s t : Snapshot σ}

/-- An abort is never taken back. -/
theorem Reaches.aborted (h : Reaches e s t) (ha : s.machine.aborted = true) : t.machine.aborted = true := by
  induction h with
  | refl => exact ha
  | tail _ hstep ih =>
    cases hstep with
    | begin hb outer => exact hb.records.aborted ih
    | resume hr outer => exact hr.records.aborted ih

/-- A request that is not aborted has never been. -/
theorem Reaches.not_aborted (h : Reaches e s t) (ha : t.machine.aborted = false) : s.machine.aborted = false := by
  by_contra hne
  have ht := h.aborted (Bool.eq_true_of_not_eq_false hne)
  rw [ha] at ht
  cases ht

/-- The number of a thread is given once. -/
theorem Reaches.threads_le (h : Reaches e s t) : s.machine.world.threads ≤ t.machine.world.threads := by
  induction h with
  | refl => exact Nat.le_refl _
  | tail _ hstep ih =>
    cases hstep with
    | begin hb outer => exact ih.trans hb.records.threads_le
    | resume hr outer => exact ih.trans hr.records.threads_le

end Snapshot

end Sequencer
