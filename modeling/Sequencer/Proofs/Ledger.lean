import Mathlib.Data.Multiset.Bind
import Mathlib.Data.Multiset.Count
import Mathlib.Logic.Relation
import Sequencer.Properties
import Sequencer.Run

/-!
# A ledger of activations

What the journal of a run says of its activations, apart from the stacks: who has begun them, which instructions were
fetched for them and which of these are still to be dispatched. The ledger keeps the frames that may fetch and the
threads that they belong to. A run makes a few kinds of moves on it, and what the moves keep is told here.
-/

namespace Sequencer

/-! ## Logs

What can be read off a log: which activations began, what was fetched for each, and how often each key was fetched and
prepared. -/

namespace Event

/-- The activation that has begun. -/
def entered? : Event → Option Nat
  | .entered _ activation _ => some activation
  | _ => none

/-- The key that was fetched for an activation. -/
def fetchedFor? (activation : Nat) : Event → Option String
  | .fetched _ a key _ _ => if a = activation then some key else none
  | _ => none

/-- The key that was fetched. -/
def fetched? : Event → Option String
  | .fetched _ _ key _ _ => some key
  | _ => none

/-- The key of the instruction whose command was prepared. -/
def prepared? : Event → Option String
  | .prepared _ key => some key
  | _ => none

/-- Nothing has begun, was fetched or prepared. -/
def Minor : Event → Prop
  | .entered _ _ _ => False
  | .fetched _ _ _ _ _ => False
  | .prepared _ _ => False
  | _ => True

end Event

/-- The activations that have begun, the latest first. -/
def begun (log : List Event) : List Nat := log.filterMap Event.entered?

/-- The keys that were fetched for an activation, in order. -/
def fetchedFor (log : List Event) (activation : Nat) : List String :=
  log.reverse.filterMap (Event.fetchedFor? activation)

/-- How often an instruction was fetched. -/
def timesFetched (log : List Event) (key : String) : Nat := (log.filterMap Event.fetched?).count key

/-- How often the command of an instruction was prepared. -/
def timesPrepared (log : List Event) (key : String) : Nat := (log.filterMap Event.prepared?).count key

theorem fetchedFor_cons (event : Event) (log : List Event) (activation : Nat) :
    fetchedFor (event :: log) activation = fetchedFor log activation ++ (event.fetchedFor? activation).toList := by
  unfold fetchedFor
  rw [List.reverse_cons, List.filterMap_append]
  congr 1

theorem mem_begun {log : List Event} {activation : Nat} :
    activation ∈ begun log ↔ ∃ thread action, .entered thread activation action ∈ log := by
  unfold begun
  rw [List.mem_filterMap]
  constructor
  · rintro ⟨event, hmem, hevent⟩
    cases event with
    | entered thread a action =>
      cases hevent
      exact ⟨thread, action, hmem⟩
    | _ => cases hevent
  · rintro ⟨thread, action, hmem⟩
    exact ⟨_, hmem, rfl⟩

theorem begun_append (events : List Event) {log : List Event} {activation : Nat} (h : activation ∈ begun log) :
    activation ∈ begun (events ++ log) := by
  unfold begun
  rw [List.filterMap_append]
  exact List.mem_append_right _ h

/-- An activation that begins once has begun on one thread. -/
theorem entered_unique {log : List Event} (h : (begun log).Nodup) {thread thread' activation : Nat}
    {action action' : String}
    (hmem : .entered thread activation action ∈ log) (hmem' : .entered thread' activation action' ∈ log) :
    thread = thread' ∧ action = action' := by
  induction log with
  | nil => cases hmem
  | cons event log ih =>
    have hlog : (begun log).Nodup := by
      refine h.sublist ?_
      exact (List.sublist_cons_self event log).filterMap _
    -- An activation that begins in the newest entry has not begun in an older one.
    have fresh {thread : Nat} {action : String} (he : event = .entered thread activation action)
        {thread' : Nat} {action' : String} (hlater : .entered thread' activation action' ∈ log) : False := by
      subst he
      exact (List.nodup_cons.1 h).1 (mem_begun.2 ⟨thread', action', hlater⟩)
    rcases List.mem_cons.1 hmem with he | hmem <;> rcases List.mem_cons.1 hmem' with he' | hmem'
    · cases he.trans he'.symm
      exact ⟨rfl, rfl⟩
    · exact (fresh he.symm hmem').elim
    · exact (fresh he'.symm hmem).elim
    · exact ih hlog hmem hmem'

/-- Minor events say nothing of activations. -/
theorem append_minor {events : List Event} (h : ∀ event ∈ events, event.Minor) (log : List Event) :
    begun (events ++ log) = begun log ∧
      (∀ activation, fetchedFor (events ++ log) activation = fetchedFor log activation) ∧
      (∀ key, timesFetched (events ++ log) key = timesFetched log key) ∧
      ∀ key, timesPrepared (events ++ log) key = timesPrepared log key := by
  induction events with
  | nil => exact ⟨rfl, fun _ => rfl, fun _ => rfl, fun _ => rfl⟩
  | cons event events ih =>
    obtain ⟨hevent, hrest⟩ := List.forall_mem_cons.1 h
    obtain ⟨hbegun, hfor, hfetched, hprepared⟩ := ih hrest
    -- Entries like these belong to no activation.
    have hfetch (activation : Nat) :
        fetchedFor (event :: (events ++ log)) activation = fetchedFor (events ++ log) activation := by
      rw [fetchedFor_cons]
      cases event <;> first | exact hevent.elim | exact List.append_nil _
    cases event with
    | entered => exact hevent.elim
    | fetched => exact hevent.elim
    | prepared => exact hevent.elim
    | _ => exact ⟨hbegun, fun a => (hfetch a).trans (hfor a), hfetched, hprepared⟩

/-! ## Frames

A frame fades when it is used up without another instruction. Whatever fades has no more to offer than before. -/

/-- A frame stays in its activation, and no instruction is offered again. -/
structure Frame.FadesTo (f g : Frame) : Prop where
  activation : g.activation = f.activation
  action : g.action = f.action
  ip : g.exhausted = false → g.ip = f.ip

namespace Frame.FadesTo

variable {f g k : Frame}

theorem refl (f : Frame) : f.FadesTo f := ⟨rfl, rfl, fun _ => rfl⟩

theorem exhausted (h : f.FadesTo g) (hg : g.exhausted = false) : f.exhausted = false := by
  have hip := h.ip hg
  unfold Frame.exhausted at hg ⊢
  rwa [hip] at hg

theorem trans (h : f.FadesTo g) (h' : g.FadesTo k) : f.FadesTo k :=
  ⟨h'.activation.trans h.activation, h'.action.trans h.action, fun hk => (h'.ip hk).trans (h.ip (h'.exhausted hk))⟩

end Frame.FadesTo

/-- What some threads have on their stacks, with the threads, is left in part. -/
structure Fades (before after : Multiset (Nat × Frame)) : Prop where
  activations : after.map (·.2.activation) ≤ before.map (·.2.activation)
  frames : ∀ p ∈ after, ∃ q ∈ before, p.1 = q.1 ∧ q.2.FadesTo p.2

namespace Fades

variable {ps qs ps' qs' : Multiset (Nat × Frame)}

theorem of_le (h : qs ≤ ps) : Fades ps qs :=
  ⟨Multiset.map_le_map h, fun p hp => ⟨p, Multiset.mem_of_le h hp, rfl, .refl _⟩⟩

theorem add (h : Fades ps qs) (h' : Fades ps' qs') : Fades (ps + ps') (qs + qs') := by
  constructor
  · rw [Multiset.map_add, Multiset.map_add]
    exact add_le_add h.activations h'.activations
  · intro p hp
    rcases Multiset.mem_add.1 hp with hp | hp
    · obtain ⟨q, hq, hfade⟩ := h.frames p hp
      exact ⟨q, Multiset.mem_add.2 (.inl hq), hfade⟩
    · obtain ⟨q, hq, hfade⟩ := h'.frames p hp
      exact ⟨q, Multiset.mem_add.2 (.inr hq), hfade⟩

end Fades

/-! ## Ledgers

A ledger is what is left to come: the frames that may fetch, the keys that are to be prepared, and the numbers that
are to be given out. A log is sound for it if it fits up to here. -/

/-- What the threads at work have to do with activations. -/
structure Ledger where
  /-- How many threads and activations there have been. -/
  threads : Nat
  activations : Nat
  journal : List Event
  /-- The frames that may fetch, with their threads. -/
  standing : Multiset (Nat × Frame)
  /-- The activations that are on any stack. -/
  known : Multiset Nat
  /-- The threads that are at work. -/
  crew : Multiset Nat
  /-- The instructions that are still to be dispatched. -/
  due : Multiset String

namespace Ledger

/-- What threads do to their ledger. -/
inductive Move : Ledger → Ledger → Prop
  /-- Frames are left or marked, threads are done, instructions are given up, and numbers for threads are used up. -/
  | wane {l l' : Ledger} (threads : l.threads ≤ l'.threads) (activations : l'.activations = l.activations)
      (journal : ∃ events, l'.journal = events ++ l.journal ∧ ∀ event ∈ events, event.Minor)
      (standing : Fades l.standing l'.standing) (known : l'.known ⊆ l.known) (crew : l'.crew ≤ l.crew)
      (due : l'.due ≤ l.due) : Move l l'
  /-- A thread begins an activation. -/
  | enter {l : Ledger} {thread : Nat} {f : Frame} (crew : thread ∈ l.crew) (fresh : f.activation = l.activations)
      (ip : f.ip = 0) :
      Move l { l with
        activations := l.activations + 1
        journal := .entered thread f.activation f.action :: l.journal
        standing := (thread, f) ::ₘ l.standing
        known := f.activation ::ₘ l.known }
  /-- A thread fetches the next instruction of a frame. -/
  | fetch {l : Ledger} {thread depth live : Nat} {f : Frame} {rest : Multiset (Nat × Frame)}
      (standing : l.standing = (thread, f) ::ₘ rest) (more : f.exhausted = false) :
      Move l { l with
        journal := .fetched thread f.activation f.advance.key depth live :: l.journal
        standing := (thread, f.advance) ::ₘ rest
        due := f.advance.key ::ₘ l.due }
  /-- The command of an instruction is prepared. -/
  | prepare {l : Ledger} {thread : Nat} {key : String} {due : Multiset String} (first : l.due = key ::ₘ due) :
      Move l { l with journal := .prepared thread key :: l.journal, due }
  /-- A thread begins with a copy of a stack, and puts no frame on it. -/
  | fork {l : Ledger} {known : Multiset Nat} (copied : known ⊆ l.known) :
      Move l { l with threads := l.threads + 1, crew := l.threads ::ₘ l.crew, known }

/-- The log is right about the activations of the ledger. -/
structure Sound (log : List Event) (l : Ledger) : Prop where
  /-- Every activation begins once. -/
  begun_nodup : (begun log).Nodup
  entered_lt : ∀ {thread activation action}, .entered thread activation action ∈ log →
    thread < l.threads ∧ activation < l.activations
  /-- Whoever fetches has begun the activation. -/
  fetched : ∀ {thread activation key depth live}, .fetched thread activation key depth live ∈ log →
    ∃ action, .entered thread activation action ∈ log
  /-- Instructions are fetched in order. -/
  keys : ∀ {thread activation action}, .entered thread activation action ∈ log →
    fetchedFor log activation =
      (List.range (fetchedFor log activation).length).map fun k => Properties.instructionKey action (k + 1)
  standing : ∀ p ∈ l.standing, .entered p.1 p.2.activation p.2.action ∈ log ∧
    (p.2.exhausted = false → p.2.ip = (fetchedFor log p.2.activation).length)
  standing_nodup : (l.standing.map (·.2.activation)).Nodup
  known : ∀ a ∈ l.known, a ∈ begun log
  crew_nodup : l.crew.Nodup
  crew_lt : ∀ thread ∈ l.crew, thread < l.threads
  due : ∀ key, timesPrepared log key + l.due.count key ≤ timesFetched log key

/-- An activation is open as long as it may fetch. -/
def Open (l : Ledger) (activation : Nat) : Prop :=
  ∃ p ∈ l.standing, p.2.activation = activation ∧ p.2.exhausted = false

/-- A log grows with its ledger: whatever begins is new, and what is closed stays closed. -/
structure Follows (log : List Event) (l : Ledger) (log' : List Event) (l' : Ledger) : Prop where
  events : ∃ events, log' = events ++ log ∧ l'.journal = events ++ l.journal
  activations : l.activations ≤ l'.activations
  begins : ∀ activation ∈ begun log', activation ∈ begun log ∨ l.activations ≤ activation
  closed : ∀ activation ∈ begun log, ¬l.Open activation →
    ¬l'.Open activation ∧ fetchedFor log' activation = fetchedFor log activation

variable {l l' : Ledger} {log : List Event}

/-- What only takes away leaves a sound ledger: frames end or go on, threads are joined, entries of the log say
nothing of actions. -/
theorem Sound.wane (h : l.Sound log) {events : List Event} (hevents : ∀ event ∈ events, event.Minor)
    (hthreads : l.threads ≤ l'.threads) (hactivations : l'.activations = l.activations)
    (hstanding : Fades l.standing l'.standing) (hknown : l'.known ⊆ l.known) (hcrew : l'.crew ≤ l.crew)
    (hdue : l'.due ≤ l.due) : l'.Sound (events ++ log) := by
  obtain ⟨hbegun, hfor, htimes, hprepared⟩ := append_minor hevents log
  have later {event : Event} (hmem : event ∈ log) : event ∈ events ++ log := List.mem_append_right events hmem
  have earlier {event : Event} (hmem : event ∈ events ++ log) (hminor : ¬event.Minor) : event ∈ log :=
    (List.mem_append.1 hmem).resolve_left fun hnew => hminor (hevents event hnew)
  constructor
  case begun_nodup => exact hbegun ▸ h.begun_nodup
  case entered_lt =>
    intro thread activation action hmem
    obtain ⟨hthread, hactivation⟩ := h.entered_lt (earlier hmem id)
    exact ⟨hthread.trans_le hthreads, hactivations ▸ hactivation⟩
  case fetched =>
    intro thread activation key depth live hmem
    obtain ⟨action, hentered⟩ := h.fetched (earlier hmem id)
    exact ⟨action, later hentered⟩
  case keys =>
    intro thread activation action hmem
    rw [hfor]
    exact h.keys (earlier hmem id)
  case standing =>
    -- a frame that faded has the place of the old one, as long as it fetches on
    intro p hp
    obtain ⟨q, hq, hthread, hfade⟩ := hstanding.frames p hp
    obtain ⟨hentered, hip⟩ := h.standing q hq
    rw [hthread, hfade.activation, hfade.action]
    refine ⟨later hentered, fun hmore => ?_⟩
    rw [hfor, hfade.ip hmore]
    exact hip (hfade.exhausted hmore)
  case standing_nodup => exact Multiset.nodup_of_le hstanding.activations h.standing_nodup
  case known => exact fun a ha => hbegun ▸ h.known a (hknown ha)
  case crew_nodup => exact Multiset.nodup_of_le hcrew h.crew_nodup
  case crew_lt => exact fun thread hthread => (h.crew_lt thread (Multiset.mem_of_le hcrew hthread)).trans_le hthreads
  case due =>
    intro key
    rw [hprepared, htimes]
    exact Nat.le_trans (Nat.add_le_add_left (Multiset.count_le_of_le key hdue) _) (h.due key)

/-- An activation that has not begun has no instructions. -/
theorem Sound.fetchedFor_eq_nil (h : l.Sound log) {activation : Nat} (hfresh : activation ∉ begun log) :
    fetchedFor log activation = [] := by
  unfold fetchedFor
  rw [List.filterMap_eq_nil_iff]
  intro event hmem
  cases event with
  | fetched thread a key depth live =>
    obtain ⟨action, hentered⟩ := h.fetched (List.mem_reverse.1 hmem)
    refine if_neg ?_
    rintro rfl
    exact hfresh (mem_begun.2 ⟨thread, action, hentered⟩)
  | _ => rfl

theorem Sound.begun_of_open (h : l.Sound log) {activation : Nat} (hopen : l.Open activation) :
    activation ∈ begun log := by
  obtain ⟨p, hp, rfl, -⟩ := hopen
  exact mem_begun.2 ⟨_, _, (h.standing p hp).1⟩

theorem Sound.not_begun (h : l.Sound log) : l.activations ∉ begun log := by
  intro hmem
  obtain ⟨thread, action, hentered⟩ := mem_begun.1 hmem
  exact Nat.lt_irrefl _ (h.entered_lt hentered).2

/-- A frame that enters an action has an activation that was not there before, and starts with the first
instruction. -/
theorem Sound.enter (h : l.Sound log) {thread : Nat} {f : Frame} (hcrew : thread ∈ l.crew)
    (hfresh : f.activation = l.activations) (hip : f.ip = 0) :
    Sound (.entered thread f.activation f.action :: log)
      { l with
        activations := l.activations + 1
        journal := .entered thread f.activation f.action :: l.journal
        standing := (thread, f) ::ₘ l.standing
        known := f.activation ::ₘ l.known } := by
  -- activations are numbered as they begin, so that the number is new
  have hnew : f.activation ∉ begun log := hfresh ▸ h.not_begun
  have hfor (activation : Nat) :
      fetchedFor (.entered thread f.activation f.action :: log) activation = fetchedFor log activation := by
    rw [fetchedFor_cons]
    exact List.append_nil _
  have later {event : Event} (hmem : event ∈ log) : event ∈ .entered thread f.activation f.action :: log :=
    List.mem_cons_of_mem _ hmem
  constructor
  case begun_nodup => exact List.nodup_cons.2 ⟨hnew, h.begun_nodup⟩
  case entered_lt =>
    intro thread' activation action hmem
    rcases List.mem_cons.1 hmem with he | hmem
    · cases he
      exact ⟨h.crew_lt thread hcrew, Nat.lt_succ_of_le (Nat.le_of_eq hfresh)⟩
    · exact ⟨(h.entered_lt hmem).1, Nat.lt_succ_of_lt (h.entered_lt hmem).2⟩
  case fetched =>
    intro thread' activation key depth live hmem
    rcases List.mem_cons.1 hmem with he | hmem
    · cases he
    · obtain ⟨action, hentered⟩ := h.fetched hmem
      exact ⟨action, later hentered⟩
  case keys =>
    intro thread' activation action hmem
    rw [hfor]
    rcases List.mem_cons.1 hmem with he | hmem
    · cases he
      rw [h.fetchedFor_eq_nil hnew]
      rfl
    · exact h.keys hmem
  case standing =>
    intro p hp
    rw [hfor]
    rcases Multiset.mem_cons.1 hp with rfl | hp
    · refine ⟨List.mem_cons_self, fun _ => ?_⟩
      rw [h.fetchedFor_eq_nil hnew, hip]
      rfl
    · exact ⟨later (h.standing p hp).1, (h.standing p hp).2⟩
  case standing_nodup =>
    rw [Multiset.map_cons]
    refine Multiset.nodup_cons.2 ⟨fun hmem => ?_, h.standing_nodup⟩
    obtain ⟨p, hp, he⟩ := Multiset.mem_map.1 hmem
    have hsame : p.2.activation = f.activation := he
    refine hnew (mem_begun.2 ⟨p.1, p.2.action, ?_⟩)
    rw [← hsame]
    exact (h.standing p hp).1
  case known =>
    intro a ha
    rcases Multiset.mem_cons.1 ha with rfl | ha
    · exact mem_begun.2 ⟨thread, f.action, List.mem_cons_self⟩
    · exact List.mem_cons_of_mem _ (h.known a ha)
  case crew_nodup => exact h.crew_nodup
  case crew_lt => exact h.crew_lt
  case due => exact h.due

/-- The key of the next instruction is the one after those that were fetched. -/
theorem key_advance {f : Frame} {k : Nat} (hip : f.ip = k) :
    f.advance.key = Properties.instructionKey f.action (k + 1) := by
  have hnext : f.advance.ip = ((k + 1 : Nat) : Int) := congrArg (· + 1) hip
  unfold Frame.key Properties.instructionKey
  rw [hnext]
  rfl

/-- The instruction that is fetched is the next one of its activation, and there is no other frame that could fetch
it. -/
theorem Sound.fetch (h : l.Sound log) {thread depth live : Nat} {f : Frame} {rest : Multiset (Nat × Frame)}
    (hs : l.standing = (thread, f) ::ₘ rest) (hmore : f.exhausted = false) :
    Sound (.fetched thread f.activation f.advance.key depth live :: log)
      { l with
        journal := .fetched thread f.activation f.advance.key depth live :: l.journal
        standing := (thread, f.advance) ::ₘ rest
        due := f.advance.key ::ₘ l.due } := by
  have hfor (activation : Nat) : fetchedFor (.fetched thread f.activation f.advance.key depth live :: log) activation =
      fetchedFor log activation ++ if f.activation = activation then [f.advance.key] else [] := by
    rw [fetchedFor_cons]
    congr 1
    show (if f.activation = activation then some f.advance.key else none).toList = _
    split_ifs <;> rfl
  have hlater {event : Event} (hmem : event ∈ log) :
      event ∈ .fetched thread f.activation f.advance.key depth live :: log := List.mem_cons_of_mem _ hmem
  have hf : (thread, f) ∈ l.standing := hs ▸ Multiset.mem_cons_self _ rest
  obtain ⟨hentered, hip⟩ := h.standing _ hf
  -- no other frame that stands is of the same activation
  have hrest {p : Nat × Frame} (hp : p ∈ rest) : f.activation ≠ p.2.activation := by
    have hnodup := h.standing_nodup
    rw [hs, Multiset.map_cons] at hnodup
    exact fun he => (Multiset.nodup_cons.1 hnodup).1 (Multiset.mem_map.2 ⟨p, hp, he.symm⟩)
  constructor
  case begun_nodup => exact h.begun_nodup
  case entered_lt =>
    intro thread' activation action hmem
    rcases List.mem_cons.1 hmem with he | hmem
    · cases he
    · exact h.entered_lt hmem
  case fetched =>
    intro thread' activation key depth' live' hmem
    rcases List.mem_cons.1 hmem with he | hmem
    · cases he
      exact ⟨f.action, hlater hentered⟩
    · obtain ⟨action, hentered'⟩ := h.fetched hmem
      exact ⟨action, hlater hentered'⟩
  case keys =>
    intro thread' activation action hmem
    have hold : .entered thread' activation action ∈ log := by
      rcases List.mem_cons.1 hmem with he | hmem
      · cases he
      · exact hmem
    rw [hfor]
    -- one more key of this activation, which is the next one, and no more of the others
    by_cases ha : f.activation = activation
    · subst ha
      obtain ⟨-, rfl⟩ := entered_unique h.begun_nodup hentered hold
      rw [if_pos rfl, List.length_append, List.length_singleton, List.range_succ, List.map_append, ← h.keys hold,
        key_advance (hip hmore)]
      rfl
    · rw [if_neg ha, List.append_nil]
      exact h.keys hold
  case standing =>
    intro p hp
    rw [hfor]
    rcases Multiset.mem_cons.1 hp with rfl | hp
    · refine ⟨hlater hentered, fun _ => ?_⟩
      have hnext : f.advance.ip = f.ip + 1 := rfl
      show f.advance.ip = ((fetchedFor log f.activation ++ if f.activation = f.activation then _ else _).length : Int)
      rw [if_pos rfl, List.length_append, hnext, hip hmore]
      rfl
    · rw [if_neg (hrest hp), List.append_nil]
      have hp' : p ∈ l.standing := hs ▸ Multiset.mem_cons_of_mem hp
      exact ⟨hlater (h.standing p hp').1, (h.standing p hp').2⟩
  case standing_nodup =>
    have hnodup := h.standing_nodup
    rw [hs, Multiset.map_cons] at hnodup
    rw [Multiset.map_cons]
    exact hnodup
  case known => exact h.known
  case crew_nodup => exact h.crew_nodup
  case crew_lt => exact h.crew_lt
  case due =>
    intro key
    have hdue := h.due key
    show timesPrepared log key + (f.advance.key ::ₘ l.due).count key ≤
      (f.advance.key :: log.filterMap Event.fetched?).count key
    rw [Multiset.count_cons, List.count_cons]
    simp only [beq_iff_eq, eq_comm (a := key)]
    unfold timesFetched at hdue
    omega

/-- An instruction is dispatched on behalf of a fetch that has not been answered yet. -/
theorem Sound.prepare (h : l.Sound log) {thread : Nat} {key : String} {due : Multiset String}
    (hdue : l.due = key ::ₘ due) :
    Sound (.prepared thread key :: log) { l with journal := .prepared thread key :: l.journal, due } := by
  have hfor (activation : Nat) : fetchedFor (.prepared thread key :: log) activation = fetchedFor log activation := by
    rw [fetchedFor_cons]
    exact List.append_nil _
  have later {event : Event} (hmem : event ∈ log) : event ∈ .prepared thread key :: log :=
    List.mem_cons_of_mem _ hmem
  have earlier {event : Event} (hmem : event ∈ .prepared thread key :: log) (hne : event ≠ .prepared thread key) :
      event ∈ log := (List.mem_cons.1 hmem).resolve_left hne
  constructor
  case begun_nodup => exact h.begun_nodup
  case entered_lt => exact fun hmem => h.entered_lt (earlier hmem nofun)
  case fetched =>
    intro thread' activation key' depth live hmem
    obtain ⟨action, hentered⟩ := h.fetched (earlier hmem nofun)
    exact ⟨action, later hentered⟩
  case keys =>
    intro thread' activation action hmem
    rw [hfor]
    exact h.keys (earlier hmem nofun)
  case standing =>
    intro p hp
    rw [hfor]
    exact ⟨later (h.standing p hp).1, (h.standing p hp).2⟩
  case standing_nodup => exact h.standing_nodup
  case known => exact h.known
  case crew_nodup => exact h.crew_nodup
  case crew_lt => exact h.crew_lt
  case due =>
    -- the key that is prepared is one of those that are due
    intro other
    have hother := h.due other
    rw [hdue, Multiset.count_cons] at hother
    show (key :: log.filterMap Event.prepared?).count other + due.count other ≤ timesFetched log other
    rw [List.count_cons]
    simp only [beq_iff_eq, eq_comm (a := key)]
    unfold timesPrepared at hother
    omega

/-- A fork takes the next number of a thread. The frames of its copy are those of its parent that it never fetches
from. -/
theorem Sound.fork (h : l.Sound log) {known : Multiset Nat} (hknown : known ⊆ l.known) :
    Sound log { l with threads := l.threads + 1, crew := l.threads ::ₘ l.crew, known } where
  begun_nodup := h.begun_nodup
  entered_lt hmem := ⟨Nat.lt_succ_of_lt (h.entered_lt hmem).1, (h.entered_lt hmem).2⟩
  fetched := h.fetched
  keys := h.keys
  standing := h.standing
  standing_nodup := h.standing_nodup
  known a ha := h.known a (hknown ha)
  crew_nodup := Multiset.nodup_cons.2 ⟨fun hmem => Nat.lt_irrefl _ (h.crew_lt _ hmem), h.crew_nodup⟩
  crew_lt thread hmem := by
    rcases Multiset.mem_cons.1 hmem with rfl | hmem
    · exact Nat.lt_succ_self _
    · exact Nat.lt_succ_of_lt (h.crew_lt thread hmem)
  due := h.due

/-- A thread that has not begun yet will fetch nothing for an activation that is on a stack by now. -/
theorem Sound.not_fetched (h : l.Sound log) {log' : List Event} {l' : Ledger} (h' : l'.Sound log') {events : List Event}
    (hlog : log' = events ++ log) {a : Nat} (ha : a ∈ l.known) {thread : Nat} (hthread : l.threads ≤ thread)
    {key : String} {depth live : Nat} : .fetched thread a key depth live ∉ log' := by
  intro hfetched
  obtain ⟨other, action, hentered⟩ := mem_begun.1 (h.known a ha)
  obtain ⟨action', hentered'⟩ := h'.fetched hfetched
  have hlater : .entered other a action ∈ log' := hlog ▸ List.mem_append_right events hentered
  obtain ⟨rfl, -⟩ := entered_unique h'.begun_nodup hlater hentered'
  exact absurd (h.entered_lt hentered).1 (Nat.not_lt.2 hthread)

theorem Follows.refl (log : List Event) (l : Ledger) : Follows log l log l :=
  ⟨⟨[], rfl, rfl⟩, Nat.le_refl _, fun _ ha => .inl ha, fun _ _ hclosed => ⟨hclosed, rfl⟩⟩

theorem Follows.trans {log' log'' : List Event} {l'' : Ledger} (h : Follows log l log' l')
    (h' : Follows log' l' log'' l'') : Follows log l log'' l'' := by
  obtain ⟨events, rfl, hjournal⟩ := h.events
  obtain ⟨events', rfl, hjournal'⟩ := h'.events
  refine ⟨⟨events' ++ events, ?_, ?_⟩, Nat.le_trans h.activations h'.activations, fun a ha => ?_,
    fun a ha hclosed => ?_⟩
  · rw [List.append_assoc]
  · rw [hjournal', hjournal, List.append_assoc]
  · rcases h'.begins a ha with ha | hle
    · exact h.begins a ha
    · exact .inr (Nat.le_trans h.activations hle)
  · obtain ⟨hclosed', hsame⟩ := h.closed a ha hclosed
    obtain ⟨hclosed'', hsame'⟩ := h'.closed a (begun_append events ha) hclosed'
    exact ⟨hclosed'', hsame'.trans hsame⟩

/-- What a move keeps: there is a log that goes on, and is right again. -/
theorem Move.sound (h : Move l l') (hl : l.Sound log) : ∃ log', l'.Sound log' ∧ Follows log l log' l' := by
  cases h with
  | wane threads activations journal standing known crew due =>
    obtain ⟨events, hjournal, hminor⟩ := journal
    obtain ⟨hbegun, hfor, -⟩ := append_minor hminor log
    refine ⟨_, hl.wane hminor threads activations standing known crew due, ⟨events, rfl, hjournal⟩,
      Nat.le_of_eq activations.symm, fun a ha => .inl (hbegun ▸ ha), fun a _ hclosed => ⟨?_, hfor a⟩⟩
    -- a frame that still fetches was one that fetched before
    rintro ⟨p, hp, rfl, hmore⟩
    obtain ⟨q, hq, -, hfade⟩ := standing.frames p hp
    exact hclosed ⟨q, hq, hfade.activation.symm, hfade.exhausted hmore⟩
  | @enter thread f crew fresh ip =>
    refine ⟨_, hl.enter crew fresh ip, ⟨[_], rfl, rfl⟩, Nat.le_succ _, fun a ha => ?_, fun a ha hclosed => ⟨?_, ?_⟩⟩
    · rcases List.mem_cons.1 ha with rfl | ha
      · exact .inr (Nat.le_of_eq fresh.symm)
      · exact .inl ha
    · rintro ⟨p, hp, rfl, hmore⟩
      rcases Multiset.mem_cons.1 hp with rfl | hp
      · exact hl.not_begun (fresh ▸ ha)
      · exact hclosed ⟨p, hp, rfl, hmore⟩
    · exact (fetchedFor_cons _ log a).trans (List.append_nil _)
  | @fetch thread depth live f rest standing more =>
    refine ⟨_, hl.fetch standing more, ⟨[_], rfl, rfl⟩, Nat.le_refl _, fun a ha => .inl ha, fun a ha hclosed => ?_⟩
    have hne : f.activation ≠ a := fun he => hclosed ⟨(thread, f), standing ▸ Multiset.mem_cons_self _ rest, he, more⟩
    refine ⟨?_, ?_⟩
    · rintro ⟨p, hp, rfl, hmore⟩
      rcases Multiset.mem_cons.1 hp with rfl | hp
      · exact hne rfl
      · exact hclosed ⟨p, standing ▸ Multiset.mem_cons_of_mem hp, rfl, hmore⟩
    · refine (fetchedFor_cons _ log a).trans ?_
      show fetchedFor log a ++ (if f.activation = a then some f.advance.key else none).toList = _
      rw [if_neg hne]
      exact List.append_nil _
  | prepare first =>
    refine ⟨_, hl.prepare first, ⟨[_], rfl, rfl⟩, Nat.le_refl _, fun a ha => .inl ha,
      fun a _ hclosed => ⟨hclosed, ?_⟩⟩
    exact (fetchedFor_cons _ log a).trans (List.append_nil _)
  | fork copied =>
    exact ⟨log, hl.fork copied, ⟨[], rfl, rfl⟩, Nat.le_refl _, fun a ha => .inl ha,
      fun a _ hclosed => ⟨hclosed, rfl⟩⟩

/-- What all moves of a run keep. -/
theorem sound_of_moves (h : Relation.ReflTransGen Move l l') (hl : l.Sound log) :
    ∃ log', l'.Sound log' ∧ Follows log l log' l' := by
  induction h with
  | refl => exact ⟨log, hl, .refl log l⟩
  | tail _ hmove ih =>
    obtain ⟨log', hl', hfollows⟩ := ih
    obtain ⟨log'', hl'', hfollows'⟩ := hmove.sound hl'
    exact ⟨log'', hl'', hfollows.trans hfollows'⟩

end Ledger

end Sequencer
