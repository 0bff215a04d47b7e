import Mathlib.Data.List.Forall2
import Sequencer.Proofs.Ledger
import Sequencer.Proofs.Handles

/-!
# Who may fetch

The ledger of a scene. A thread fetches from the frames that it has put on its stack itself. These are above the ones that
it has begun with, which are copies of the frames of another thread. A frame that is about to be left fetches no more.
Whatever a thread does is a move on the ledger of all threads, or a few of them: what the others have in it stays as it is.
-/

namespace Sequencer

open Machine Relation

variable {σ : Type} {e : Engine σ}

/-! ## Stacks that fade

Frames may be taken off, and those that are left may fade. -/

/-- What is left of a stack: its lower part, where no instruction is offered again. -/
def Faded (fs gs : List Frame) : Prop := ∃ k, List.Forall₂ Frame.FadesTo (fs.drop k) gs

namespace Faded

variable {fs gs hs : List Frame}

/-- Frames that have faded where they are form such a stack, with nothing taken off. -/
theorem of_forall₂ (h : List.Forall₂ Frame.FadesTo fs gs) : Faded fs gs := ⟨0, h⟩

/-- Taking frames off is one way of fading. -/
theorem drop (fs : List Frame) (k : Nat) : Faded fs (fs.drop k) := ⟨k, List.forall₂_same.2 fun f _ => .refl f⟩

theorem refl (fs : List Frame) : Faded fs fs := drop fs 0

theorem tail (fs : List Frame) : Faded fs fs.tail := by
  rw [← List.drop_one]
  exact drop fs 1

/-- The top may fade by itself. -/
theorem cons {f g : Frame} (h : f.FadesTo g) (below : List Frame) : Faded (f :: below) (g :: below) :=
  of_forall₂ (.cons h (List.forall₂_same.2 fun f _ => .refl f))

/-- Fading twice is fading, frame by frame. -/
private theorem forall₂_trans {fs gs hs : List Frame} (h : List.Forall₂ Frame.FadesTo fs gs)
    (h' : List.Forall₂ Frame.FadesTo gs hs) : List.Forall₂ Frame.FadesTo fs hs := by
  induction h generalizing hs with
  | nil =>
    cases h'
    exact .nil
  | cons hfirst _ ih =>
    cases h' with
    | cons hfirst' hrest => exact .cons (hfirst.trans hfirst') (ih hrest)

/-- What was taken off first and what was taken off later were above what is left. -/
theorem trans (h : Faded fs gs) (h' : Faded gs hs) : Faded fs hs := by
  obtain ⟨k, h⟩ := h
  obtain ⟨k', h'⟩ := h'
  refine ⟨k + k', forall₂_trans ?_ h'⟩
  rw [← List.drop_drop]
  exact List.forall₂_drop k' h

/-- A frame that is left comes from one that was there. -/
theorem exists_of_mem (h : Faded fs gs) {g : Frame} (hg : g ∈ gs) : ∃ f ∈ fs, f.FadesTo g := by
  obtain ⟨k, h⟩ := h
  obtain ⟨i, hi, rfl⟩ := List.mem_iff_getElem.1 hg
  have hlen := h.length_eq
  exact ⟨_, List.mem_of_mem_drop (List.getElem_mem (hlen ▸ hi)), h.get (hlen ▸ hi) hi⟩

/-- An activation keeps its number while its frame fades. -/
private theorem activations_of_forall₂ {fs gs : List Frame} (h : List.Forall₂ Frame.FadesTo fs gs) :
    gs.map (·.activation) = fs.map (·.activation) := by
  induction h with
  | nil => rfl
  | cons hfirst _ ih => rw [List.map_cons, List.map_cons, ih, hfirst.activation]

/-- With their thread, what is left of the frames fades. -/
theorem fades (h : Faded fs gs) (thread : Nat) : Fades ↑(fs.map (thread, ·)) ↑(gs.map (thread, ·)) := by
  constructor
  · obtain ⟨k, h⟩ := h
    rw [Multiset.map_coe, Multiset.map_coe, List.map_map, List.map_map]
    show (↑(gs.map (·.activation)) : Multiset Nat) ≤ ↑(fs.map (·.activation))
    rw [activations_of_forall₂ h]
    exact Multiset.coe_le.2 ((List.drop_sublist k fs).map _).subperm
  · intro p hp
    obtain ⟨g, hg, rfl⟩ := List.mem_map.1 (Multiset.mem_coe.1 hp)
    obtain ⟨f, hf, hfade⟩ := h.exists_of_mem hg
    exact ⟨(thread, f), Multiset.mem_coe.2 (List.mem_map.2 ⟨f, hf, rfl⟩), rfl, hfade⟩

end Faded

/-! ## Frames of one's own

A thread on the side looks at the frames of its copy, but fetches only from those above. -/

/-- The frames above a number of others. -/
def own (base : Nat) (fs : List Frame) : List Frame := fs.take (fs.length - base)

/-- A frame that is pushed on the stack is one's own, as long as the floor was reached. -/
theorem own_cons {base : Nat} {below : List Frame} (h : base ≤ below.length) (f : Frame) :
    own base (f :: below) = f :: own base below := by
  unfold own
  rw [List.length_cons, Nat.succ_sub h, List.take_succ_cons]

/-- Below the floor there is nothing of one's own. -/
theorem own_eq_nil {base : Nat} {fs : List Frame} (h : fs.length ≤ base) : own base fs = [] := by
  unfold own
  rw [Nat.sub_eq_zero_of_le h, List.take_zero]

/-- Taking the top off takes the top off one's own frames, or finds none of them. -/
theorem own_tail (base : Nat) (fs : List Frame) : own base fs.tail = (own base fs).tail := by
  cases fs with
  | nil => rw [List.tail_nil, own_eq_nil (Nat.zero_le base), List.tail_nil]
  | cons f below =>
    rcases Nat.lt_or_ge below.length base with h | h
    · have hnone : own base (f :: below) = [] := own_eq_nil h
      rw [hnone]
      exact own_eq_nil h.le
    · rw [own_cons h]
      rfl

/-- What fades on the whole stack fades on the part that is one's own. -/
theorem Faded.own {fs gs : List Frame} (h : Faded fs gs) (base : Nat) : Faded (own base fs) (own base gs) := by
  obtain ⟨k, h⟩ := h
  refine ⟨k, ?_⟩
  have hlen : gs.length - base = fs.length - base - k := by
    rw [← h.length_eq, List.length_drop, Nat.sub_right_comm]
  unfold Sequencer.own
  rw [List.drop_take, hlen]
  exact List.forall₂_take _ h

/-! ## The ledger of a scene

The ledger of a scene is put together from its threads. -/

/-- That a request was aborted says nothing about any activation. -/
theorem Event.IsAborted.minor {event : Event} (h : event.IsAborted) : event.Minor := by
  cases event with
  | aborted thread message => trivial
  | _ => exact h.elim

/-- The frames that may fetch for a task, among those of the thread. One that is about to be left does not. -/
def Task.offers : Task σ → List Frame → List Frame
  | .leave _, fs => fs.tail
  | _, fs => fs

/-- The instruction that a task is to dispatch. -/
def Task.keys : Task σ → List String
  | .dispatch _ _ key => [key]
  | _ => []

/-- The frames that a thread may fetch from. -/
def Actor.offers (a : Actor σ) : List Frame := a.task.offers (own (base a.callers) a.thread.frames)

namespace Scene

def standing (actors : Multiset (Actor σ)) : Multiset (Nat × Frame) :=
  actors.bind fun a => ↑(a.offers.map (a.thread.id, ·))

def known (actors : Multiset (Actor σ)) : Multiset Nat := actors.bind fun a => ↑(a.thread.frames.map (·.activation))

def crew (actors : Multiset (Actor σ)) : Multiset Nat := actors.map (·.thread.id)

def due (actors : Multiset (Actor σ)) : Multiset String := actors.bind fun a => ↑a.task.keys

/-- What the threads of a scene have to do with activations. -/
def ledger (s : Scene σ) : Ledger :=
  ⟨s.world.threads, s.world.activations, s.world.journal, standing s.actors, known s.actors, crew s.actors, due s.actors⟩

end Scene

namespace Machine

/-- The ledger of a machine among other threads, where its own thread may fetch from some frames and is to dispatch some
instructions. -/
def ledger (m : Machine σ) (offers : List Frame) (keys : List String) (others : Multiset (Actor σ)) : Ledger where
  threads := m.world.threads
  activations := m.world.activations
  journal := m.world.journal
  standing := ↑(offers.map (m.thread.id, ·)) + Scene.standing others
  known := ↑(m.frames.map (·.activation)) + Scene.known others
  crew := m.thread.id ::ₘ Scene.crew others
  due := ↑keys + Scene.due others

end Machine

/-- The ledger of a scene is that of the thread that steps, beside the accounts of the others. -/
theorem Snapshot.ledger_among (s : Snapshot σ) (others : Multiset (Actor σ)) :
    (s.among others).ledger = s.machine.ledger s.actor.offers s.task.keys others := by
  unfold Scene.ledger Machine.ledger Scene.standing Scene.known Scene.crew Scene.due
  simp only [Snapshot.among, Multiset.cons_bind, Multiset.map_cons]
  rfl

namespace Machine

/-- A key that is added to one's own is added to those of all. -/
theorem coe_cons_add {α : Type} (a : α) (l : List α) (s : Multiset α) :
    (↑(a :: l) : Multiset α) + s = a ::ₘ (↑l + s) := Multiset.cons_add a ↑l s

/-! ## Waning

A thread wanes if it does nothing that a ledger would grow by. -/

/-- From one machine to another nothing is fetched and no frame is put on the stack. -/
structure Wanes (m n : Machine σ) : Prop where
  id : n.thread.id = m.thread.id
  world : m.world.Marks Event.Minor n.world
  frames : Faded m.frames n.frames

variable {m n o : Machine σ}

namespace Wanes

/-- Nothing happens. -/
theorem refl (m : Machine σ) : m.Wanes m := ⟨rfl, .refl m.world, .refl m.frames⟩

/-- Waning goes on for as long as the parts of it do. -/
theorem trans (h : m.Wanes n) (h' : n.Wanes o) : m.Wanes o :=
  ⟨h'.id.trans h.id, h.world.trans h'.world, h.frames.trans h'.frames⟩

/-- Only the stack and its marks have changed. -/
theorem of_frames (hw : n.world = m.world) (hid : n.thread.id = m.thread.id) (hf : Faded m.frames n.frames) : m.Wanes n :=
  ⟨hid, ⟨.of_eq (congrArg (·.request.aborted) hw) (congrArg (·.journal) hw) (congrArg (·.threads) hw),
    congrArg (·.threads) hw, congrArg (·.activations) hw⟩, hf⟩

/-- A thread that wanes leaves a smaller ledger, whatever the others stand for. -/
theorem move (h : m.Wanes n) {fs gs : List Frame} (hoffers : Faded fs gs) {keys keys' : List String}
    (hkeys : keys'.Sublist keys) (others : Multiset (Actor σ)) :
    Ledger.Move (m.ledger fs keys others) (n.ledger gs keys' others) := by
  refine .wane h.world.threads.ge h.world.activations h.world.journal ?_ (fun a ha => ?_) ?_ ?_
  · show Fades (↑(fs.map (m.thread.id, ·)) + _) (↑(gs.map (n.thread.id, ·)) + _)
    rw [h.id]
    exact (hoffers.fades _).add (.of_le le_rfl)
  · refine Multiset.mem_add.2 ((Multiset.mem_add.1 ha).imp_left fun ha => ?_)
    obtain ⟨g, hg, rfl⟩ := List.mem_map.1 (Multiset.mem_coe.1 ha)
    obtain ⟨f, hf, hfade⟩ := h.frames.exists_of_mem hg
    exact Multiset.mem_coe.2 (List.mem_map.2 ⟨f, hf, hfade.activation.symm⟩)
  · exact (congrArg (· ::ₘ Scene.crew others) h.id).le
  · exact add_le_add_left (Multiset.coe_le.2 hkeys.subperm) _

end Wanes

/-- Notes that open nothing, and a stack as it was. -/
theorem Notes.wanes (h : m.Notes n) : m.Wanes n := by
  have hminor : m.world.Marks Event.Minor n.world :=
    ⟨h.world.toRecords.mono fun _ hevent => hevent.minor, h.world.threads, h.world.activations⟩
  have hframes : n.frames = m.frames := congrArg Thread.frames h.thread
  refine ⟨congrArg Thread.id h.thread, hminor, ?_⟩
  rw [hframes]
  exact .refl _

/-- A single note of this kind. -/
theorem wanes_note (m : Machine σ) (event : Event) (h : event.Minor) : m.Wanes (m.note event) :=
  ⟨rfl, ⟨.note event h (fun ha => ha) rfl rfl, rfl, rfl⟩, .refl _⟩

/-- Scopes are no part of the ledger. -/
theorem wanes_withScopes (m : Machine σ) (f : Arena → Arena) : m.Wanes (m.withScopes f) :=
  ⟨rfl, ⟨.of_eq rfl rfl rfl, rfl, rfl⟩, .refl _⟩

/-- Frames that are unwound are gone, and their activations with them. -/
theorem wanes_unwind (m : Machine σ) (level : Nat) : m.Wanes (m.unwind level) :=
  ⟨rfl, ⟨.of_eq rfl rfl rfl, rfl, rfl⟩, .drop _ _⟩

/-- A frame that returns leaves the stack; what it publishes is not written to the ledger. -/
theorem wanes_returnFrame (m : Machine σ) (explicit : Option (List String)) : m.Wanes (m.returnFrame explicit).1 := by
  have htail : m.Wanes (m.withFrames m.frames.tail) := .of_frames rfl rfl (.tail m.frames)
  exact htail.trans (notes_returnFrame m explicit).wanes

/-- A frame that returns early has nothing to offer any more. -/
theorem wanes_returnEarly (m : Machine σ) (explicit : Option (List String)) : m.Wanes (m.returnEarly explicit).1 := by
  obtain ⟨breakAt, h⟩ := notes_returnEarly m explicit
  have htail : m.Wanes ((m.withFrames m.frames.tail).withBreak breakAt) := .of_frames rfl rfl (.tail m.frames)
  exact htail.trans h.wanes

/-- A frame that takes a loop up or puts it down stays the same activation. -/
theorem wanes_setLooping (m : Machine σ) (looping : Bool) : m.Wanes (m.setLooping looping) := by
  unfold setLooping
  split
  · next f below hf =>
    refine .of_frames rfl rfl ?_
    rw [hf]
    exact Faded.cons (f := f) (g := { f with looping }) ⟨rfl, rfl, fun _ => rfl⟩ below
  · exact .refl m

/-- A thread that lets its scopes go keeps its frames. -/
theorem wanes_disown (m : Machine σ) : m.Wanes m.disown := by
  unfold disown
  split
  · next f below hf =>
    refine .of_frames rfl rfl ?_
    rw [hf]
    exact Faded.cons (f := f) (g := { f with ownsScope := false }) ⟨rfl, rfl, fun _ => rfl⟩ below
  · exact .refl m

/-- A frame that is used up fades, whether it is looping or not. -/
theorem fadesTo_exhaust (f : Frame) (looping : Bool) : f.FadesTo { f.exhaust with looping } :=
  ⟨rfl, rfl, nofun⟩

/-- A break uses up the frames above the loop and the loop's own, and leaves the others. -/
theorem faded_breakInnermost {fs gs : List Frame} {index : Nat} (h : breakInnermost fs = some (gs, index)) :
    List.Forall₂ Frame.FadesTo fs gs := by
  induction fs generalizing gs with
  | nil => cases h
  | cons f below ih =>
    unfold breakInnermost at h
    split_ifs at h
    · cases h
      exact .cons (fadesTo_exhaust f false) (List.forall₂_same.2 fun f _ => .refl f)
    · obtain ⟨⟨gs', j⟩, hb, he⟩ := Option.map_eq_some_iff.1 h
      cases he
      exact .cons (fadesTo_exhaust f f.looping) (ih hb)

/-- So that a break makes the ledger no larger. -/
theorem wanes_breakLoop (m : Machine σ) : m.Wanes m.breakLoop.1 := by
  unfold breakLoop
  split
  · next hb => exact .of_frames rfl rfl (.of_forall₂ (faded_breakInnermost hb))
  · exact .refl m

/-- Taking a break up changes the mark only. -/
theorem wanes_takeBreak {index : Nat} {broken : Bool} (h : m.takeBreak index = (n, broken)) : m.Wanes n := by
  cases broken with
  | true =>
    obtain ⟨-, rfl⟩ := takeBreak_eq_true_iff.1 h
    exact .of_frames rfl rfl (.refl _)
  | false =>
    obtain ⟨-, rfl⟩ := takeBreak_eq_false_iff.1 h
    exact .refl _

/-- Whom a thread waits for is no part of its ledger. -/
theorem wanes_withBarrier (m : Machine σ) (b : Option (Barrier σ)) : m.Wanes (m.withBarrier b) :=
  .of_frames rfl rfl (.refl _)

/-! ## Fetching, entering and preparing

The few things that a ledger does grow by. -/

/-- A fetch from a frame of one's own. -/
theorem move_fetched {f : Frame} {below : List Frame} (hf : m.frames = f :: below) (hmore : f.exhausted = false)
    {base : Nat} (hbase : base ≤ below.length) (keys : List String) (others : Multiset (Actor σ)) :
    Ledger.Move (m.ledger (own base m.frames) keys others)
      ((m.fetched f below).ledger (own base (f.advance :: below)) (f.advance.key :: keys) others) := by
  have hstanding (g : Frame) : (↑((g :: own base below).map (m.thread.id, ·)) : Multiset (Nat × Frame)) +
      Scene.standing others = (m.thread.id, g) ::ₘ (↑((own base below).map (m.thread.id, ·)) + Scene.standing others) :=
    coe_cons_add _ _ _
  have hmove := @Ledger.Move.fetch (m.ledger (own base m.frames) keys others) m.thread.id (below.length + 1)
    m.scopes.live f (↑((own base below).map (m.thread.id, ·)) + Scene.standing others)
    (by rw [← hstanding, ← own_cons hbase, ← hf]; rfl) hmore
  rw [← hstanding] at hmove
  -- A fetch changes no activation, and makes its key due.
  have hknown : (m.fetched f below).frames.map (·.activation) = m.frames.map (·.activation) := by
    rw [hf]
    rfl
  have hdue : (↑(f.advance.key :: keys) : Multiset String) + Scene.due others =
      f.advance.key ::ₘ (↑keys + Scene.due others) := coe_cons_add _ _ _
  unfold ledger at hmove ⊢
  rw [hknown, hdue, own_cons hbase]
  exact hmove

/-- Another frame comes onto the stack. -/
theorem move_entered {f : Frame} (hthread : n.thread = { m.thread with frames := f :: m.frames })
    (hthreads : n.world.threads = m.world.threads) (hactivations : n.world.activations = m.world.activations + 1)
    (hjournal : n.world.journal = .entered m.thread.id f.activation f.action :: m.world.journal)
    (hfresh : f.activation = m.world.activations) (hip : f.ip = 0) {base : Nat} (hbase : base ≤ m.depth)
    (keys : List String) (others : Multiset (Actor σ)) :
    Ledger.Move (m.ledger (own base m.frames) keys others) (n.ledger (own base n.frames) keys others) := by
  have hmove := @Ledger.Move.enter (m.ledger (own base m.frames) keys others) m.thread.id f
    (Multiset.mem_cons_self _ _) hfresh hip
  have hframes : n.frames = f :: m.frames := congrArg Thread.frames hthread
  have hid : n.thread.id = m.thread.id := by rw [hthread]
  have hstanding : (↑((f :: own base m.frames).map (m.thread.id, ·)) : Multiset (Nat × Frame)) +
      Scene.standing others = (m.thread.id, f) ::ₘ (↑((own base m.frames).map (m.thread.id, ·)) + Scene.standing others) :=
    coe_cons_add _ _ _
  have hknown : (↑((f :: m.frames).map (·.activation)) : Multiset Nat) + Scene.known others =
      f.activation ::ₘ (↑(m.frames.map (·.activation)) + Scene.known others) := coe_cons_add _ _ _
  unfold ledger at hmove ⊢
  rw [hthreads, hactivations, hjournal, hframes, hid, own_cons hbase, hstanding, hknown]
  exact hmove

/-- An activation that begins takes a number that was not used before, and offers its first instruction. -/
theorem move_push (m : Machine σ) (action : String) (results : List String) (params : Table Value) {base : Nat}
    (hbase : base ≤ m.depth) (keys : List String) (others : Multiset (Actor σ)) :
    Ledger.Move (m.ledger (own base m.frames) keys others)
      ((m.push action results params).ledger (own base (m.push action results params).frames) keys others) :=
  move_entered (n := m.push action results params) (f := (m.push action results params).frames.head nofun) rfl rfl rfl
    rfl rfl rfl hbase keys others

/-- A frame that is put back for the next pass offers its instructions once more, under a new number. -/
theorem move_repush (m : Machine σ) (f : Frame) {base : Nat} (hbase : base ≤ m.depth) (keys : List String)
    (others : Multiset (Actor σ)) :
    Ledger.Move (m.ledger (own base m.frames) keys others)
      ((m.repush f).ledger (own base (m.repush f).frames) keys others) :=
  move_entered (n := m.repush f) (f := { f with ip := 0, activation := m.world.activations }) rfl rfl rfl rfl rfl rfl
    hbase keys others

/-- A key that was fetched is used up by its preparation. -/
theorem move_prepared (m : Machine σ) (fs : List Frame) (key : String) (keys : List String)
    (others : Multiset (Actor σ)) :
    Ledger.Move (m.ledger fs (key :: keys) others) ((m.note (.prepared m.thread.id key)).ledger fs keys others) :=
  .prepare (coe_cons_add _ _ _)

/-- A preparation is noted once, and so is an abort that it may lead to. -/
theorem moves_prepare {c : Command σ} {i : Instruction} {key : String} {r : Except CommandError (Invocation σ)}
    (h : m.prepare e c i key = (n, r)) (fs : List Frame) (keys : List String) (others : Multiset (Actor σ)) :
    ReflTransGen Ledger.Move (m.ledger fs (key :: keys) others) (n.ledger fs keys others) := by
  obtain ⟨events, ⟨before, after, rfl, hbefore, hafter⟩, rfl⟩ := noted_of_prepare h
  have noting {o : Machine σ} {events : List Event} (hevents : ∀ event ∈ events, event.Minor) :
      o.Wanes { o with world := { o.world with journal := events ++ o.world.journal } } :=
    ⟨rfl, ⟨⟨fun ha => ha, ⟨events, rfl, hevents⟩, Nat.le_refl _⟩, rfl, rfl⟩, .refl _⟩
  have hwaits : ∀ event ∈ before, event.Minor := fun event hmem => by
    obtain ⟨units, rfl⟩ := hbefore event hmem
    trivial
  have hopens : ∀ event ∈ after, event.Minor := fun event hmem => by
    obtain ⟨path, rfl⟩ := hafter event hmem
    trivial
  refine .head ((noting hwaits).move (.refl fs) (.refl _) others) (.head (move_prepared _ fs key keys others) ?_)
  rw [List.append_assoc]
  exact .single ((noting hopens).move (.refl fs) (.refl keys) others)

/-- A fetch takes what the top frame offers, unwinds what is used up above the level, and holds the key until it is
prepared. -/
theorem move_found {level : Nat} {key text : String} (h : m.nextStep level = (n, .instruction key text)) {base : Nat}
    (hbase : base ≤ level) (others : Multiset (Actor σ)) :
    Ledger.Move (m.ledger (own base m.frames) [] others) (n.ledger (own base n.frames) [key] others) := by
  cases offered_of_nextStep h with
  | @found f below hd hf hmore =>
    have hlen : m.depth = below.length + 1 := congrArg List.length hf
    exact move_fetched hf hmore (hbase.trans (Nat.le_of_lt_succ (hd.trans_eq hlen))) [] others

end Machine

/-! ## Steps of one thread

Any other step of a thread is waning, or one of these. -/

/-- What a thread begins is a move of the ledger, a fork and a join apart. -/
theorem Task.Begins.moves {m n : Machine σ} {task t : Task σ} {callers outer : List (Caller σ)}
    (h : task.Begins e m n t callers) (hf : ¬Snapshot.Forks e ⟨m, task, outer⟩)
    (hj : ¬Snapshot.Awaits ⟨m, task, outer⟩) (hs : Snapshot.Leveled ⟨m, task, outer⟩) (others : Multiset (Actor σ)) :
    ReflTransGen Ledger.Move (Snapshot.among ⟨m, task, outer⟩ others).ledger
      (Snapshot.among ⟨n, t, callers ++ outer⟩ others).ledger := by
  have hfloor := hs.layered.base_le_floor
  have hready := hs.ready
  have wane {m n : Machine σ} {keys keys' : List String} (hn : m.Wanes n) (hkeys : keys'.Sublist keys) :
      ReflTransGen Ledger.Move (m.ledger (own (base outer) m.frames) keys others)
        (n.ledger (own (base outer) n.frames) keys' others) :=
    .single (hn.move (hn.frames.own _) hkeys others)
  have quiet {m n : Machine σ} (hn : m.Wanes n) :
      ReflTransGen Ledger.Move (m.ledger (own (base outer) m.frames) [] others)
        (n.ledger (own (base outer) n.frames) [] others) := wane hn (.refl [])
  -- a command or a loop works with the stack of the thread, which has all of the frames that it has begun with
  have enters {o : Machine σ} (ho : m.Notes o) (hle : base outer ≤ m.depth) (action : String) (results : List String)
      (params : Table Value) :
      ReflTransGen Ledger.Move (m.ledger (own (base outer) m.frames) [] others)
        ((o.push action results params).ledger (own (base outer) (o.push action results params).frames) [] others) := by
    have hdepth : o.depth = m.depth := congrArg (·.frames.length) ho.thread
    exact (quiet ho.wanes).tail (move_push o action results params (hdepth ▸ hle) [] others)
  rw [Snapshot.ledger_among, Snapshot.ledger_among]
  cases h with
  | aborted => exact .refl
  | drained ha hn =>
    cases offered_of_nextStep hn with
    | drained => exact .refl
  | @exhausted level n ha hn =>
    have hbase : base outer ≤ level := hfloor.trans hready.1
    have leave {o : Machine σ} {keys : List String} :
        ReflTransGen Ledger.Move (o.ledger (own (base outer) o.frames) keys others)
          (o.ledger (own (base outer) o.frames).tail [] others) :=
      .single ((Wanes.refl o).move (.tail _) (List.nil_sublist _) others)
    cases offered_of_nextStep hn with
    | exhausted => exact leave
    | @blank f below hd hf hmore =>
      have hlen : m.depth = below.length + 1 := congrArg List.length hf
      have hle : base outer ≤ below.length := hbase.trans (Nat.le_of_lt_succ (hd.trans_eq hlen))
      exact .head (move_fetched hf hmore hle [] others) leave
  | @left level =>
    have htail : (m.returnFrame none).1.frames = m.frames.tail := by
      have hthread := (notes_returnFrame m none).thread
      exact congrArg Thread.frames hthread
    have hoffers : own (base outer) (m.returnFrame none).1.frames = (own (base outer) m.frames).tail := by
      rw [htail, own_tail]
    refine .single ((wanes_returnFrame m none).move ?_ (.refl []) others)
    show Faded (own (base outer) m.frames).tail (own (base outer) (m.returnFrame none).1.frames)
    rw [hoffers]
    exact .refl _
  | undecodable ha hn =>
    exact .head (move_found hn (hfloor.trans hready.1) others) (wane (Wanes.refl n) (List.nil_sublist _))
  | forked ha hn hd hp => exact absurd ⟨_, rfl, ha, _, _, _, _, _, hn, hd, hp⟩ hf
  | fetched ha hn => exact .single (move_found hn (hfloor.trans hready.1) others)
  | opened => exact .refl
  | unprepared hp =>
    obtain ⟨events, -, rfl⟩ := noted_of_prepare hp
    exact moves_prepare hp _ [] others
  | prepared hp =>
    obtain ⟨events, -, rfl⟩ := noted_of_prepare hp
    exact moves_prepare hp _ [] others
  | spent => exact .refl
  | @tried invocation key pause total ht => exact quiet (wanes_note m (.attempted m.thread.id key) trivial)
  | immediate hi =>
    have hle : base outer ≤ m.depth := hfloor.trans ((floor_le_ground outer).trans hready)
    cases covers_notes.tried_immediate hi with
    | kept ho works => exact quiet (ho.wanes.trans (wanes_withBarrier _ _))
    | called ho action results params => exact enters ho hle action results params
    | returned ho explicit => exact quiet (ho.wanes.trans (wanes_returnEarly _ explicit))
    | broke => exact quiet (wanes_breakLoop m)
  | refused hl => exact quiet (covers_notes.of_refused hl).wanes
  | looped hl =>
    have hle : base outer ≤ m.depth := hfloor.trans ((floor_le_ground outer).trans hready)
    obtain ⟨o, values, ho, rfl⟩ := covers_notes.of_looped hl
    exact (enters ho hle _ _ _).trans (quiet (wanes_setLooping _ true))
  | rejected hl => exact quiet (covers_notes.of_rejected hl).wanes
  | ranged hl =>
    have hle : base outer ≤ m.depth := hfloor.trans ((floor_le_ground outer).trans hready)
    obtain ⟨o, values, ho, rfl⟩ := covers_notes.of_ranged hl
    exact (enters ho hle _ _ _).trans (quiet (wanes_setLooping _ true))
  | unreadable hr => exact quiet ((covers_notes.of_read hr).wanes.trans (wanes_unwind _ _))
  | chosen hr => exact quiet (covers_notes.of_read hr).wanes
  | frameless => exact .refl
  | driven => exact quiet (wanes_disown m)
  | @finished loop f o _ ok hb hr =>
    have hreturn := wanes_returnFrame (o.setLooping false) none
    rw [hr] at hreturn
    exact quiet ((covers_notes.beforePass hb).wanes.trans ((wanes_setLooping o false).trans hreturn))
  | stopped hb => exact quiet ((covers_notes.beforePass hb).wanes.trans (wanes_unwind _ _))
  | passed hb => exact quiet (covers_notes.beforePass hb).wanes
  | again hn => exact quiet (covers_notes.afterPass hn).wanes
  | stuck hn => exact quiet ((covers_notes.afterPass hn).wanes.trans (wanes_unwind _ _))
  | joined => exact .refl
  | @worked failed work o hw =>
    obtain ⟨rest, hb, rfl⟩ := barrier_of_nextJob hw
    exact quiet ⟨rfl, ⟨.of_eq rfl rfl rfl, rfl, rfl⟩, .refl _⟩
  | unknown hn => exact absurd ⟨_, _, _, _, _, _, rfl, hn⟩ hj
  | started hn => exact absurd ⟨_, _, _, _, _, _, rfl, hn⟩ hj

/-- What a thread goes on with, when the task inside of it is done, is one too. -/
theorem Caller.Resumes.moves {m n : Machine σ} {ok : Bool} {caller : Caller σ} {t : Task σ}
    {callers outer : List (Caller σ)} (h : caller.Resumes m ok n t callers)
    (hs : Snapshot.Leveled ⟨m, .done ok, caller :: outer⟩) (hfits : Actor.Fits ⟨m.thread, .done ok, caller :: outer⟩)
    (others : Multiset (Actor σ)) :
    ReflTransGen Ledger.Move (Snapshot.among ⟨m, .done ok, caller :: outer⟩ others).ledger
      (Snapshot.among ⟨n, t, callers ++ outer⟩ others).ledger := by
  have haccepts := hs.accepts _ _ ⟨rfl, rfl⟩
  have quiet {m n : Machine σ} (hn : m.Wanes n) :
      ReflTransGen Ledger.Move (m.ledger (own (base outer) m.frames) [] others)
        (n.ledger (own (base outer) n.frames) [] others) :=
    .single (hn.move (hn.frames.own _) (.refl []) others)
  rw [Snapshot.ledger_among, Snapshot.ledger_among]
  cases h with
  | @retried invocation key pause total hl => exact quiet (wanes_note m (.waited m.thread.id pause) trivial)
  | @released _ level f => exact quiet (wanes_withScopes m (·.release f.scope))
  | unwound => exact quiet (wanes_unwind m _)
  | broken ht => exact quiet ((wanes_unwind m _).trans (wanes_takeBreak ht))
  | @put level loop f o ht =>
    have hdepth : o.depth = level := (depth_of_takeBreak ht).trans (depth_unwind_of_le haccepts.1)
    have hlayered : Layered outer := hs.layered.2
    obtain ⟨rest, rfl⟩ := hs.layered.1
    have hbase : base (.release level f :: rest) ≤ o.depth := hdepth ▸ hlayered.base_le_floor
    exact (quiet ((wanes_unwind m _).trans (wanes_takeBreak ht))).tail (move_repush o f hbase [] _)
  | @finished _ b =>
    -- the stack of a thread that is done is empty
    refine .single ((wanes_unwind m 0).move ?_ (.refl []) others)
    have hnone : m.finish.frames = [] := List.drop_length
    show Faded _ (own (base outer) m.finish.frames)
    rw [hnone, own_eq_nil (Nat.zero_le _)]
    have hdrop := Faded.drop (own b m.frames) (own b m.frames).length
    rwa [List.drop_length] at hdrop
  | waited => exact (hfits.plain_of_done nofun nofun).elim
  | _ => exact .refl

/-- What is sent to the side leaves the sender's activations where they were. -/
theorem Machine.Sends.activations {m n : Machine σ} {level : Nat} {c : Command σ} {i : Instruction} {key : String}
    (h : m.Sends e level n c i key) : n.frames.map (·.activation) = m.frames.map (·.activation) := by
  obtain ⟨-, ⟨text, hn, -⟩, -⟩ := h
  cases offered_of_nextStep hn with
  | found _ hf =>
    rw [hf]
    rfl

/-- A thread fetches the instruction that it is to start on the side. -/
theorem Machine.Sends.move_found {m n : Machine σ} {level : Nat} {c : Command σ} {i : Instruction} {key : String}
    {outer : List (Caller σ)} (h : m.Sends e level n c i key) (hs : Snapshot.Leveled ⟨m, .cycle level, outer⟩)
    (others : Multiset (Actor σ)) :
    Ledger.Move (m.ledger (own (base outer) m.frames) [] others) (n.ledger (own (base outer) n.frames) [key] others) := by
  obtain ⟨-, ⟨text, hn, -⟩, -⟩ := h
  exact Machine.move_found hn (hs.layered.base_le_floor.trans hs.ready.1) others

/-! ## Scenes

And any step of a scene is one of its threads, with a thread more where it forks and one less where it joins. -/

namespace Scene

variable {s t : Scene σ}

/-- A thread on the side has put no frame on its stack yet. -/
theorem offers_side (t : Thread σ) (c : Command σ) (i : Instruction) (key : String) :
    (Actor.side t c i key).offers = [] := own_eq_nil (Nat.le_refl _)

/-- The copy of the stack has the same activations, which it may look at but does not offer. -/
theorem activations_fork (n : Machine σ) : n.fork.2.frames.map (·.activation) = n.frames.map (·.activation) := by
  unfold fork
  rw [List.map_map]
  rfl

/-- The other thread has nothing to fetch from, and the instruction is still to be dispatched. -/
theorem move_forked (n : Machine σ) (c : Command σ) (i : Instruction) (key : String) (offers : List Frame)
    (others : Multiset (Actor σ)) :
    Ledger.Move (n.ledger offers [key] others)
      ((n.forkInstruction i key).ledger offers [] (.side n.fork.2 c i key ::ₘ others)) := by
  have hstanding : standing (.side n.fork.2 c i key ::ₘ others) = standing others := by
    unfold standing
    rw [Multiset.cons_bind, offers_side]
    exact zero_add _
  have hknown : known (.side n.fork.2 c i key ::ₘ others) = ↑(n.frames.map (·.activation)) + known others :=
    (Multiset.cons_bind _ _ _).trans (congrArg (↑· + known others) (activations_fork n))
  -- The key that was due to the parent is due to the new thread.
  have hdue : ↑([] : List String) + due (.side n.fork.2 c i key ::ₘ others) = ↑[key] + due others :=
    (zero_add _).trans (Multiset.cons_bind _ _ _)
  have hcrew : (n.forkInstruction i key).thread.id ::ₘ crew (.side n.fork.2 c i key ::ₘ others) =
      n.world.threads ::ₘ n.thread.id ::ₘ crew others := by
    unfold crew
    rw [Multiset.map_cons, Multiset.cons_swap]
    rfl
  -- The copies belong to activations that are known already.
  have hcopied : ↑(n.frames.map (·.activation)) + (↑(n.frames.map (·.activation)) + known others) ⊆
      ↑(n.frames.map (·.activation)) + known others := fun a ha =>
    (Multiset.mem_add.1 ha).elim (fun ha => Multiset.mem_add.2 (.inl ha)) id
  unfold Machine.ledger
  rw [hstanding, hknown, hdue, hcrew]
  exact .fork hcopied

/-- One more thread adds to what may be fetched from. -/
theorem standing_le_cons (a : Actor σ) (others : Multiset (Actor σ)) : standing others ≤ standing (a ::ₘ others) :=
  (Multiset.le_add_left _ _).trans_eq (Multiset.cons_bind _ _ _).symm

/-- It adds to the activations that some thread knows. -/
theorem known_le_cons (a : Actor σ) (others : Multiset (Actor σ)) : known others ≤ known (a ::ₘ others) :=
  (Multiset.le_add_left _ _).trans_eq (Multiset.cons_bind _ _ _).symm

/-- It adds to the threads. -/
theorem crew_le_cons (a : Actor σ) (others : Multiset (Actor σ)) : crew others ≤ crew (a ::ₘ others) :=
  Multiset.map_le_map (Multiset.le_cons_self others a)

/-- It adds to the keys that are due. -/
theorem due_le_cons (a : Actor σ) (others : Multiset (Actor σ)) : due others ≤ due (a ::ₘ others) :=
  (Multiset.le_add_left _ _).trans_eq (Multiset.cons_bind _ _ _).symm

/-- Every step of a scene is a row of moves of its ledger: the step of one thread, a fork, or a join. -/
theorem Step.moves (h : Step e s t) (hs : ∀ a ∈ s.actors, (a.snapshot s.world).Leveled) (horderly : s.Orderly) :
    ReflTransGen Ledger.Move s.ledger t.ledger := by
  cases h with
  | act hact hf hj others =>
    have hleveled := hs _ (Multiset.mem_cons_self _ _)
    have hfits := (horderly.actors _ (Multiset.mem_cons_self _ _)).fits
    cases hact with
    | begin hb outer => exact hb.moves hf hj hleveled others
    | resume hr outer => exact hr.moves hleveled hfits others
  -- To start a fork is two moves: the fetch of its instruction, and the new thread.
  | @fork m level n c i key hsends outer others =>
    have hfound := hsends.move_found (hs _ (Multiset.mem_cons_self _ _)) others
    rw [Snapshot.ledger_among, Snapshot.ledger_among]
    exact .tail (.single hfound) (move_forked n c i key _ others)
  | @refuse m level n c i key hsends outer others =>
    have hfound := hsends.move_found (hs _ (Multiset.mem_cons_self _ _)) others
    rw [Snapshot.ledger_among, Snapshot.ledger_among]
    refine .tail (.single hfound) ?_
    exact .wane (Nat.le_succ _) rfl ⟨[], rfl, nofun⟩ (.of_le le_rfl) (Multiset.Subset.refl _) le_rfl
      (add_le_add_left (Multiset.zero_le _) _)
  -- The thread that is joined leaves the crew with all that stood on its account.
  | @join m n failed id frames i key t ok hj hid outer others =>
    obtain ⟨rest, -, rfl⟩ := barrier_of_nextJob hj
    refine .single ?_
    rw [Snapshot.ledger_among, Snapshot.ledger_among]
    refine .wane le_rfl rfl ⟨[], rfl, nofun⟩ (.of_le ?_) (Multiset.subset_of_le ?_) ?_ ?_
    · exact add_le_add_right (standing_le_cons _ others) _
    · exact add_le_add_right (known_le_cons _ others) _
    · exact Multiset.cons_le_cons _ (crew_le_cons _ others)
    · exact add_le_add_right (due_le_cons _ others) _
  | @drift w v hdrift actors =>
    obtain ⟨events, hjournal, hevents⟩ := hdrift.journal
    refine .single (.wane hdrift.threads.ge hdrift.activations ⟨events, hjournal, fun event hmem => ?_⟩
      (.of_le le_rfl) (Multiset.Subset.refl _) le_rfl le_rfl)
    exact (hevents event hmem).minor

end Scene
end Sequencer
