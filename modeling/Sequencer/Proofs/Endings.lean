import Sequencer.Proofs.Standing

/-!
# How activations end

An activation is open as long as a thread may fetch for it. It opens when it begins, and closes in one of a few ways:
a blank instruction is fetched, a command returns from it or breaks a loop around it, something fails, or it is the
frame of a loop that makes no further pass. In each of these it is the thread with the frame that has taken the step:
what other threads do, and what happens to the world meanwhile, ends no activation.
-/

namespace Sequencer

open Machine

variable {σ : Type} {e : Engine σ}

/-! ## Frames with instructions to offer

The frames of a thread from which an instruction may still be fetched, with the activations that they belong to. -/

/-- Some frame of an activation is not exhausted. -/
def Offers (fs : List Frame) (activation : Nat) : Prop :=
  ∃ f ∈ fs, f.activation = activation ∧ f.exhausted = false

namespace Offers

variable {fs : List Frame} {f g : Frame} {b activation : Nat} {below : List Frame}

/-- Who offers instructions stands above the base. -/
theorem base_le (h : Offers (own b fs) activation) : b ≤ fs.length := by
  obtain ⟨f, hf, -⟩ := h
  rcases Nat.lt_or_ge fs.length b with hlen | hlen
  · rw [own_eq_nil hlen.le] at hf
    cases hf
  · exact hlen

/-- A frame on top does not take them away. -/
theorem push (h : Offers (own b fs) activation) (f : Frame) : Offers (own b (f :: fs)) activation := by
  rw [own_cons h.base_le]
  obtain ⟨g, hg, hg'⟩ := h
  exact ⟨g, List.mem_cons_of_mem _ hg, hg'⟩

/-- A frame with instructions left offers them. -/
theorem top (hb : b ≤ fs.length) (hmore : f.exhausted = false) : Offers (own b (f :: fs)) f.activation := by
  rw [own_cons hb]
  exact ⟨f, List.mem_cons_self, rfl, hmore⟩

/-- The top of a stack, or what is below it. -/
theorem pop (h : Offers (own b (f :: below)) activation) :
    (b ≤ below.length ∧ f.activation = activation ∧ f.exhausted = false) ∨ Offers (own b below) activation := by
  obtain ⟨g, hg, hactivation, hmore⟩ := h
  rcases Nat.lt_or_ge below.length b with hlen | hlen
  · have hnone : own b (f :: below) = [] := own_eq_nil hlen
    rw [hnone] at hg
    cases hg
  · rw [own_cons hlen] at hg
    rcases List.mem_cons.1 hg with rfl | hg
    · exact .inl ⟨hlen, hactivation, hmore⟩
    · exact .inr ⟨g, hg, hactivation, hmore⟩

/-- Another frame for the same activation is on top. -/
theorem replace (hactivation : g.activation = f.activation) (hmore : f.exhausted = false → g.exhausted = false)
    (h : Offers (own b (f :: below)) activation) : Offers (own b (g :: below)) activation := by
  rcases h.pop with ⟨hb, hf, hf'⟩ | h
  · rw [← hf, ← hactivation]
    exact top hb (hmore hf')
  · exact h.push g

/-- A break leaves the frames below its loop alone. -/
theorem breakInnermost {fs gs : List Frame} {index : Nat} (hbreak : breakInnermost fs = some (gs, index))
    (h : Offers (own b fs) activation) :
    Offers (own b gs) activation ∨ ∃ f ∈ fs.take (fs.length - index), f.activation = activation := by
  induction fs generalizing gs with
  | nil => cases hbreak
  | cons f below ih =>
    have hindex : index ≤ below.length := Nat.le_of_lt_succ (breakInnermost_length hbreak).2
    have htake : (f :: below).take ((f :: below).length - index) = f :: below.take (below.length - index) := by
      rw [List.length_cons, Nat.succ_sub hindex, List.take_succ_cons]
    rw [htake]
    -- The frame with this activation is the top one, or below it.
    rcases h.pop with ⟨-, hf, -⟩ | h
    · exact .inr ⟨f, List.mem_cons_self, hf⟩
    · unfold Sequencer.breakInnermost at hbreak
      split_ifs at hbreak
      · cases hbreak
        exact .inl (h.push _)
      · obtain ⟨⟨gs', j⟩, hb, he⟩ := Option.map_eq_some_iff.1 hbreak
        cases he
        rcases ih hb h with h | ⟨g, hg, hg'⟩
        · exact .inl (h.push _)
        · exact .inr ⟨g, List.mem_cons_of_mem _ hg, hg'⟩

end Offers

/-! ## Open activations

An activation is open while its frame may offer an instruction. What closes it is one of a few steps, each with its
reason. -/

/-- The frame of a loop is on top of the stack, and no pass with it has begun. -/
def Task.Looping : Task σ → Prop
  | .choose _ _ => True
  | .drive _ => True
  | .passes _ _ => True
  | .between _ _ _ => True
  | _ => False

/-- A thread may still fetch instructions for an activation: it has put a frame of it on its stack, and the frame is not
exhausted. -/
def Actor.Open (a : Actor σ) (activation : Nat) : Prop := Offers a.offers activation

namespace Snapshot

/-- The next step fetches an instruction of a frame. -/
structure Fetches (s : Snapshot σ) (level : Nat) (f : Frame) (below : List Frame) : Prop where
  task : s.task = .cycle level
  aborted : s.machine.aborted = false
  level : level < s.machine.depth
  frames : s.machine.frames = f :: below
  more : f.exhausted = false

/-- Nothing has been fetched yet for a loop with its frame on top. -/
def Fresh (s : Snapshot σ) : Prop := s.task.Looping → ∀ f ∈ s.machine.frames.head?, f.ip = 0

/-- Why an activation ends with the next step. -/
inductive Ending (s : Snapshot σ) (activation : Nat) : Prop
  /-- The text of the instruction that is fetched is blank. -/
  | blank {level f below} (fetch : s.Fetches level f below) (of : f.activation = activation)
      (text : (s.machine.fetched f below).textOf f.advance.key = "")
  /-- A command returns. -/
  | returned {invocation f below o explicit} (task : s.task = .perform invocation)
      (frames : s.machine.frames = f :: below) (of : f.activation = activation) (before : s.machine.Notes o)
      (result : s.machine.immediate invocation = some (o.returnEarly explicit))
  /-- A command breaks a loop, and the frame is that of the loop or above it. -/
  | broken {invocation frames index} (task : s.task = .perform invocation)
      (result : s.machine.immediate invocation = some s.machine.breakLoop)
      (loop : breakInnermost s.machine.frames = some (frames, index))
      (above : ∃ f ∈ s.machine.frames.take (s.machine.depth - index), f.activation = activation)
  /-- What was done has failed, for one reason or another, and frames are dropped. -/
  | failed (task : s.task = .done false)
  /-- A loop is done or fails before a pass with its frame has begun, so that nothing was fetched. -/
  | unused {f below} (task : s.task.Looping) (frames : s.machine.frames = f :: below) (of : f.activation = activation)
      (ip : f.ip = 0)

/-- What one step does to open activations: those that close have a reason, and those that begin are open. -/
structure Passage (s u : Snapshot σ) : Prop where
  ends : ∀ activation, s.actor.Open activation → u.actor.Open activation ∨ s.Ending activation
  opens : ∀ activation, s.machine.world.activations ≤ activation → activation < u.machine.world.activations →
    u.actor.Open activation

namespace Passage

/-- No activation begins. -/
theorem of_activations {s u : Snapshot σ} (hactivations : u.machine.world.activations = s.machine.world.activations)
    (h : ∀ activation, s.actor.Open activation → u.actor.Open activation ∨ s.Ending activation) : Passage s u := by
  refine ⟨h, fun a hle hlt => absurd (hle.trans_lt hlt) ?_⟩
  rw [hactivations]
  exact Nat.lt_irrefl _

/-- The stack stays as it is. -/
theorem of_eq {m n : Machine σ} {task t : Task σ} {callers callers' : List (Caller σ)}
    (hbase : base callers' = base callers) (hactivations : n.world.activations = m.world.activations)
    (hframes : n.frames = m.frames) (hoffers : ∀ fs, task.offers fs = t.offers fs) :
    Passage ⟨m, task, callers⟩ ⟨n, t, callers'⟩ := by
  refine of_activations hactivations fun a ha => .inl ?_
  show Offers (t.offers (own (base callers') n.frames)) a
  rw [hframes, hbase, ← hoffers]
  exact ha

/-- A frame is put on the stack. -/
theorem of_push {m n : Machine σ} {task t : Task σ} {callers callers' : List (Caller σ)} {f : Frame}
    (hbase : base callers' = base callers) (hactivations : n.world.activations = m.world.activations + 1)
    (hframes : n.frames = f :: m.frames) (htask : ∀ fs, task.offers fs = fs) (ht : ∀ fs, t.offers fs = fs)
    (hdepth : base callers ≤ m.depth) (hfresh : f.activation = m.world.activations) (hmore : f.exhausted = false) :
    Passage ⟨m, task, callers⟩ ⟨n, t, callers'⟩ := by
  have hoffers : (Snapshot.actor ⟨n, t, callers'⟩).offers = own (base callers) (f :: m.frames) := by
    show t.offers (own (base callers') n.frames) = _
    rw [ht, hbase, hframes]
  constructor
  case ends =>
    intro a ha
    have ha : Offers (task.offers (own (base callers) m.frames)) a := ha
    rw [htask] at ha
    refine .inl ?_
    unfold Actor.Open
    rw [hoffers]
    exact ha.push f
  case opens =>
    intro a hle hlt
    have hnew : a = f.activation := by
      rw [hfresh]
      exact Nat.le_antisymm (Nat.le_of_lt_succ (hlt.trans_eq hactivations)) hle
    unfold Actor.Open
    rw [hoffers, hnew]
    exact .top hdepth hmore

/-- The top of the stack is taken off. -/
theorem of_pop {m n : Machine σ} {task t : Task σ} {callers : List (Caller σ)}
    (hactivations : n.world.activations = m.world.activations) (hframes : n.frames = m.frames.tail)
    (hoffers : ∀ fs, task.offers fs = fs) (hoffers' : ∀ fs, t.offers fs = fs)
    (h : ∀ f below, m.frames = f :: below → Ending ⟨m, task, callers⟩ f.activation) :
    Passage ⟨m, task, callers⟩ ⟨n, t, callers⟩ := by
  refine of_activations hactivations fun a ha => ?_
  have ha : Offers (task.offers (own (base callers) m.frames)) a := ha
  show Offers (t.offers (own (base callers) n.frames)) a ∨ _
  rw [hoffers] at ha
  rw [hoffers', hframes]
  cases hf : m.frames with
  | nil =>
    rw [hf] at ha
    exact .inl ha
  | cons f below =>
    rw [hf] at ha
    -- The only activation that is lost is that of the frame on top.
    rcases ha.pop with ⟨-, rfl, -⟩ | ha
    · exact .inr (h f below hf)
    · exact .inl ha

/-- A loop ends with its frame on top, before a pass with it has begun. -/
theorem of_loop {m n : Machine σ} {task : Task σ} {ok : Bool} {callers : List (Caller σ)}
    (hactivations : n.world.activations = m.world.activations) (hframes : n.frames = m.frames.tail)
    (hloop : task.Looping) (hoffers : ∀ fs, task.offers fs = fs) (hfresh : Fresh ⟨m, task, callers⟩) :
    Passage ⟨m, task, callers⟩ ⟨n, .done ok, callers⟩ := by
  refine of_pop hactivations hframes hoffers (fun _ => rfl) fun f below hf => ?_
  exact .unused hloop hf rfl (hfresh hloop f (by rw [hf]; rfl))

end Passage

end Snapshot

/-! ## Steps

What the operations of a step do to the stack, as far as it matters here: which frames are gone, and which are
exhausted. -/

open Snapshot

namespace Machine

variable {m n : Machine σ}

/-- Notes begin nothing. -/
theorem Notes.activations (h : m.Notes n) : n.world.activations = m.world.activations := h.world.activations

/-- Notes move no frame. -/
theorem Notes.frames (h : m.Notes n) : n.frames = m.frames := congrArg Thread.frames h.thread

/-- A return takes one frame off. -/
theorem tail_returnFrame (m : Machine σ) (explicit : Option (List String)) :
    (m.returnFrame explicit).1.frames = m.frames.tail := (notes_returnFrame m explicit).frames

/-- So does one before the end. -/
theorem tail_returnEarly (m : Machine σ) (explicit : Option (List String)) :
    (m.returnEarly explicit).1.frames = m.frames.tail := by
  obtain ⟨breakAt, h⟩ := notes_returnEarly m explicit
  exact h.frames

/-- Nothing begins by it. -/
theorem activations_returnEarly (m : Machine σ) (explicit : Option (List String)) :
    (m.returnEarly explicit).1.world.activations = m.world.activations := by
  obtain ⟨breakAt, h⟩ := notes_returnEarly m explicit
  exact h.activations

/-- A mark on the top is none on the others. -/
theorem tail_setLooping (m : Machine σ) (looping : Bool) : (m.setLooping looping).frames.tail = m.frames.tail := by
  unfold setLooping
  split
  · next f below hf =>
    rw [hf]
    rfl
  · rfl

/-- Unwinding one frame takes one off. -/
theorem tail_unwind {level : Nat} (h : m.depth = level + 1) : (m.unwind level).frames = m.frames.tail := by
  show m.frames.drop (m.depth - level) = m.frames.tail
  rw [h, Nat.add_sub_cancel_left, List.drop_one]

/-- Where there is none above the level, none is taken off. -/
theorem frames_unwind {level : Nat} (h : m.depth = level) : (m.unwind level).frames = m.frames := by
  show m.frames.drop (m.depth - level) = m.frames
  rw [h, Nat.sub_self, List.drop_zero]

/-- A break is taken without moving a frame. -/
theorem frames_of_takeBreak {index : Nat} {broken : Bool} (h : m.takeBreak index = (n, broken)) :
    n.frames = m.frames := by
  unfold takeBreak at h
  split_ifs at h <;> cases h <;> rfl

/-- A frame that gives up its reference may still offer instructions. -/
theorem offers_disown {b activation : Nat} (h : Offers (own b m.frames) activation) :
    Offers (own b m.disown.frames) activation := by
  unfold disown
  split
  · next f below hf =>
    rw [hf] at h
    exact Offers.replace (f := f) (g := { f with ownsScope := false }) rfl id h
  · exact h

/-- A break ends what the frames down to its loop offer, and nothing else. -/
theorem offers_breakLoop {b activation : Nat} (h : Offers (own b m.frames) activation) :
    Offers (own b m.breakLoop.1.frames) activation ∨ ∃ frames index, breakInnermost m.frames = some (frames, index) ∧
      ∃ f ∈ m.frames.take (m.depth - index), f.activation = activation := by
  unfold breakLoop
  cases hb : breakInnermost m.frames with
  | none => exact .inl h
  | some r =>
    obtain ⟨frames, index⟩ := r
    exact (h.breakInnermost hb).imp id fun hf => ⟨frames, index, rfl, hf⟩

/-- The frame of a fetch goes on to offer instructions. -/
theorem offers_of_found {level : Nat} {key text : String} (h : m.nextStep level = (n, .instruction key text)) :
    n.world.activations = m.world.activations ∧
      ∀ b activation, Offers (own b m.frames) activation → Offers (own b n.frames) activation := by
  cases offered_of_nextStep h with
  | @found f below hd hf hmore =>
    refine ⟨rfl, fun b a ha => ?_⟩
    rw [hf] at ha
    refine Offers.replace (f := f) (g := f.advance) rfl (fun _ => ?_) ha
    have hnext : f.advance.ip = f.ip + 1 := rfl
    have hip : ¬f.ip < 0 := of_decide_eq_false hmore
    exact decide_eq_false (by omega)

/-- A blank instruction exhausts its frame. -/
theorem nextStep_of_blank {level : Nat} {f : Frame} {below : List Frame} (hd : level < m.depth)
    (hf : m.frames = f :: below) (hmore : f.exhausted = false) (ht : (m.fetched f below).textOf f.advance.key = "") :
    m.nextStep level = (m.fetched f below, .exhausted) := by
  cases h : m.nextStep level with
  | mk n step =>
    cases offered_of_nextStep h with
    | drained hle => exact absurd hd (Nat.not_lt.2 hle)
    | exhausted _ hf' he =>
      cases hf.symm.trans hf'
      exact absurd (hmore.symm.trans he) nofun
    | blank _ hf' =>
      cases hf.symm.trans hf'
      rfl
    | found _ hf' _ ht' =>
      cases hf.symm.trans hf'
      exact absurd ht ht'

end Machine

/-! ## What a step does to open activations

Case by case: a step opens at most one activation, and every one that closes does so with one of the endings. -/

namespace Snapshot

variable {m n : Machine σ} {outer : List (Caller σ)}

/-- A cycle that finds nothing to dispatch leaves the frame on top, or is done. -/
theorem passage_exhausted {level : Nat} (ha : m.aborted = false) (hn : m.nextStep level = (n, .exhausted)) :
    Passage ⟨m, .cycle level, outer⟩ ⟨n, .leave level, outer⟩ := by
  cases offered_of_nextStep hn with
  | @exhausted f below hd hf he =>
    refine .of_activations rfl fun a hopen => .inl ?_
    have hopen : Offers (own (base outer) m.frames) a := hopen
    show Offers (own (base outer) m.frames).tail a
    rw [hf] at hopen ⊢
    rw [← own_tail]
    rcases hopen.pop with ⟨-, -, hmore⟩ | hopen
    · -- A frame at its end has been closed before.
      exact absurd (hmore.symm.trans he) nofun
    · exact hopen
  | @blank f below hd hf hmore ht =>
    refine .of_activations rfl fun a hopen => ?_
    have hopen : Offers (own (base outer) m.frames) a := hopen
    rw [hf] at hopen
    rcases hopen.pop with ⟨-, rfl, -⟩ | hopen
    · -- This one has an instruction left, but a blank one, which ends the action.
      exact .inr (.blank ⟨rfl, ha, hd, hf, hmore⟩ rfl ht)
    · refine .inl ?_
      show Offers (own (base outer) (f.advance :: below)).tail a
      rw [← own_tail]
      exact hopen

/-- A cycle that finds an instruction keeps all activations open. -/
theorem passage_found {level : Nat} {key text : String} {t : Task σ} {callers : List (Caller σ)}
    (hn : m.nextStep level = (n, .instruction key text)) (hbase : base callers = base outer)
    (ht : ∀ fs, t.offers fs = fs) : Passage ⟨m, .cycle level, outer⟩ ⟨n, t, callers⟩ := by
  obtain ⟨hactivations, hoffers⟩ := offers_of_found hn
  refine .of_activations hactivations fun a ha => .inl ?_
  show Offers (t.offers (own (base callers) n.frames)) a
  rw [ht, hbase]
  exact hoffers _ a ha

/-- A frame that was left has closed before. -/
theorem passage_left (m : Machine σ) (level : Nat) (outer : List (Caller σ)) :
    Passage ⟨m, .leave level, outer⟩ ⟨(m.returnFrame none).1, .cycle level, outer⟩ := by
  refine .of_activations (notes_returnFrame m none).activations fun a hopen => .inl ?_
  show Offers (own (base outer) (m.returnFrame none).1.frames) a
  rw [tail_returnFrame, own_tail]
  exact hopen

/-- The frame of a call or of a loop comes on top of the stack. -/
theorem passage_entered {o : Machine σ} {task t : Task σ} {f : Frame} (ho : m.Notes o) (hframes : n.frames = f :: o.frames)
    (hactivations : n.world.activations = o.world.activations + 1) (hnew : f.activation = o.world.activations)
    (hmore : f.exhausted = false) (htask : ∀ fs, task.offers fs = fs) (ht : ∀ fs, t.offers fs = fs)
    (hdepth : base outer ≤ m.depth) : Passage ⟨m, task, outer⟩ ⟨n, t, outer⟩ := by
  refine .of_push (f := f) rfl ?_ ?_ htask ht hdepth (hnew.trans ho.activations) hmore
  · exact hactivations.trans (congrArg (· + 1) ho.activations)
  · rw [hframes, ho.frames]

/-- A command that is no loop calls, returns, breaks or leaves the stack alone. -/
theorem passage_immediate {invocation : Invocation σ} {ok : Bool} (hi : m.immediate invocation = some (n, ok))
    (hdepth : base outer ≤ m.depth) : Passage ⟨m, .perform invocation, outer⟩ ⟨n, .done ok, outer⟩ := by
  cases covers_notes.tried_immediate hi with
  | kept ho works => exact .of_eq rfl ho.activations ho.frames fun _ => rfl
  | called ho action results params =>
    exact passage_entered ho rfl rfl rfl rfl (fun _ => rfl) (fun _ => rfl) hdepth
  | @returned o ho explicit =>
    refine .of_pop ((activations_returnEarly o explicit).trans ho.activations) ?_ (fun _ => rfl) (fun _ => rfl) ?_
    · rw [tail_returnEarly, ho.frames]
    · exact fun f below hf => .returned rfl hf rfl ho hi
  | broke =>
    refine .of_activations (congrArg (·.activations) (world_breakLoop m)) fun a hopen => ?_
    refine (offers_breakLoop hopen).imp id ?_
    rintro ⟨frames, index, hloop, habove⟩
    exact .broken rfl hi hloop habove

/-- A loop has no further pass, or fails to have one. -/
theorem passage_finished {loop : Loop} {f : Frame} {o : Machine σ} {ok : Bool} (hb : m.beforePass loop = (o, .done))
    (hr : (o.setLooping false).returnFrame none = (n, ok)) (hfresh : Fresh ⟨m, .passes loop f, outer⟩) :
    Passage ⟨m, .passes loop f, outer⟩ ⟨n, .done ok, outer⟩ := by
  have ho := covers_notes.beforePass hb
  have hreturn := notes_returnFrame (o.setLooping false) none
  have htail := tail_returnFrame (o.setLooping false) none
  rw [hr] at hreturn htail
  rw [tail_setLooping, ho.frames] at htail
  refine .of_loop (hreturn.activations.trans ?_) htail trivial (fun _ => rfl) hfresh
  exact (congrArg (·.activations) (world_setLooping o false)).trans ho.activations

/-- A loop fails with its frame on top, and drops it. -/
theorem passage_dropped {task : Task σ} {o : Machine σ} {level : Nat} (ho : m.Notes o) (hdepth : m.depth = level + 1)
    (hloop : task.Looping) (htask : ∀ fs, task.offers fs = fs) (hfresh : Fresh ⟨m, task, outer⟩) :
    Passage ⟨m, task, outer⟩ ⟨o.unwind level, .done false, outer⟩ := by
  have hlen : o.depth = level + 1 := (congrArg List.length ho.frames).trans hdepth
  refine .of_loop ho.activations ?_ hloop htask hfresh
  rw [tail_unwind hlen, ho.frames]

end Snapshot

/-- A step of a thread opens an activation, or ends some in one of the ways that there are, or does neither. -/
theorem Task.Begins.passage {m n : Machine σ} {task t : Task σ} {callers outer : List (Caller σ)}
    (h : task.Begins e m n t callers) (hf : ¬Forks e ⟨m, task, outer⟩) (hj : ¬Awaits ⟨m, task, outer⟩)
    (hs : Leveled ⟨m, task, outer⟩) (hfresh : Fresh ⟨m, task, outer⟩) :
    Passage ⟨m, task, outer⟩ ⟨n, t, callers ++ outer⟩ := by
  have hready := hs.ready
  have hground : base outer ≤ ground outer := hs.layered.base_le_floor.trans (floor_le_ground outer)
  -- Most tasks leave all activations as they are. The steps that do not are covered by the lemmas above.
  cases h with
  | drained ha hn =>
    cases offered_of_nextStep hn with
    | drained => exact .of_eq rfl rfl rfl fun _ => rfl
  | exhausted ha hn => exact passage_exhausted ha hn
  | left => exact passage_left m _ outer
  | undecodable ha hn => exact passage_found hn rfl fun _ => rfl
  | forked ha hn hd hp => exact absurd ⟨_, rfl, ha, _, _, _, _, _, hn, hd, hp⟩ hf
  | fetched ha hn => exact passage_found hn rfl fun _ => rfl
  | unprepared hp =>
    obtain ⟨events, -, rfl⟩ := noted_of_prepare hp
    exact .of_eq rfl rfl rfl fun _ => rfl
  | prepared hp =>
    obtain ⟨events, -, rfl⟩ := noted_of_prepare hp
    exact .of_eq rfl rfl rfl fun _ => rfl
  | immediate hi => exact passage_immediate hi (hground.trans hready)
  | refused hl =>
    have ho := covers_notes.of_refused hl
    exact .of_eq rfl ho.activations ho.frames fun _ => rfl
  -- a loop pushes a frame, which opens its activation
  | looped hl =>
    obtain ⟨o, values, ho, rfl⟩ := covers_notes.of_looped hl
    exact passage_entered ho rfl rfl rfl rfl (fun _ => rfl) (fun _ => rfl) (hground.trans hready)
  | rejected hl =>
    have ho := covers_notes.of_rejected hl
    exact .of_eq rfl ho.activations ho.frames fun _ => rfl
  | ranged hl =>
    obtain ⟨o, values, ho, rfl⟩ := covers_notes.of_ranged hl
    exact passage_entered ho rfl rfl rfl rfl (fun _ => rfl) (fun _ => rfl) (hground.trans hready)
  -- a loop that does not come to its first pass drops its frame unused
  | unreadable hr => exact passage_dropped (covers_notes.of_read hr) hready.2 trivial (fun _ => rfl) hfresh
  | chosen hr =>
    have hread := covers_notes.of_read hr
    exact .of_eq rfl hread.activations hread.frames fun _ => rfl
  | driven =>
    exact .of_activations (congrArg (·.activations) (world_disown m)) fun a hopen => .inl (offers_disown hopen)
  | finished hb hr => exact passage_finished hb hr hfresh
  | stopped hb =>
    -- where the condition of a loop does not hold, the frame of the next pass is unused as well
    obtain ⟨level, rest, -, hlevel⟩ := hready
    have hdepth : m.depth = m.depth - 1 + 1 := (Nat.succ_pred_eq_of_pos (hlevel ▸ Nat.succ_pos level)).symm
    exact passage_dropped (covers_notes.beforePass hb) hdepth trivial (fun _ => rfl) hfresh
  | passed hb =>
    have ho := covers_notes.beforePass hb
    exact .of_eq rfl ho.activations ho.frames fun _ => rfl
  | again hn =>
    have ho := covers_notes.afterPass hn
    exact .of_eq rfl ho.activations ho.frames fun _ => rfl
  | stuck hn => exact passage_dropped (covers_notes.afterPass hn) hready.2 trivial (fun _ => rfl) hfresh
  | worked hw =>
    obtain ⟨rest, hb, rfl⟩ := barrier_of_nextJob hw
    exact .of_eq rfl rfl rfl fun _ => rfl
  -- joins and forks are steps of scenes
  | unknown hn => exact absurd ⟨_, _, _, _, _, _, rfl, hn⟩ hj
  | started hn => exact absurd ⟨_, _, _, _, _, _, rfl, hn⟩ hj
  | _ => exact .of_eq rfl rfl rfl fun _ => rfl

/-- The same where a task is done and the one around it goes on. -/
theorem Caller.Resumes.passage {m n : Machine σ} {ok : Bool} {caller : Caller σ} {t : Task σ}
    {callers outer : List (Caller σ)} (h : caller.Resumes m ok n t callers)
    (hs : Leveled ⟨m, .done ok, caller :: outer⟩) (hfits : Actor.Fits ⟨m.thread, .done ok, caller :: outer⟩) :
    Passage ⟨m, .done ok, caller :: outer⟩ ⟨n, t, callers ++ outer⟩ := by
  have haccepts := hs.accepts _ _ ⟨rfl, rfl⟩
  cases h with
  | unwound => exact .of_activations rfl fun a _ => .inr (.failed rfl)
  | @broken level loop f _ ht =>
    have hdepth : m.depth = level := haccepts.2.1 rfl
    exact .of_eq rfl (congrArg (·.activations) (world_of_takeBreak ht))
      ((frames_of_takeBreak ht).trans (frames_unwind hdepth)) fun _ => rfl
  | @put level loop f o ht =>
    have hdepth : m.depth = level := haccepts.2.1 rfl
    have hactivations : o.world.activations = m.world.activations := congrArg (·.activations) (world_of_takeBreak ht)
    have hframes : o.frames = m.frames := (frames_of_takeBreak ht).trans (frames_unwind hdepth)
    have hbase : base outer ≤ m.depth := by
      have hlayered := hs.layered.2
      obtain ⟨rest, rfl⟩ := hs.layered.1
      exact hlayered.base_le_floor.trans hdepth.ge
    refine .of_push (f := { f with ip := 0, activation := o.world.activations }) rfl ?_ ?_ (fun _ => rfl) (fun _ => rfl)
      hbase hactivations rfl
    · exact congrArg (· + 1) hactivations
    · show _ :: o.frames = _
      rw [hframes]
  | @finished _ b =>
    refine .of_activations rfl fun a ha => ?_
    cases ok with
    | false => exact .inr (.failed rfl)
    | true =>
      -- a thread that is done has left all frames that it has put on its stack
      have hnone : own b m.frames = [] := own_eq_nil (haccepts.1 rfl)
      obtain ⟨f, hf, -⟩ := ha
      have hf : f ∈ own b m.frames := hf
      rw [hnone] at hf
      cases hf
  | waited => exact (hfits.plain_of_done nofun nofun).elim
  | _ => exact .of_eq rfl rfl rfl fun _ => rfl

/-! ## Fresh loops

A loop that ends before its first pass has an activation of which nothing was fetched. To say so, the frame has to be
known as unused until then. -/

namespace Machine

/-- A loop that begins has run nothing of its body yet. -/
theorem ip_of_disown {m : Machine σ} (h : ∀ f ∈ m.frames.head?, f.ip = 0) : ∀ f ∈ m.disown.frames.head?, f.ip = 0 := by
  unfold disown
  split
  · next f below hf =>
    rw [hf] at h
    intro g hg
    cases hg
    exact h f rfl
  · exact h

end Machine

/-- A loop begins with its frame on top, and nothing runs before its first pass. -/
theorem Task.Begins.fresh {m n : Machine σ} {task t : Task σ} {callers outer : List (Caller σ)}
    (h : task.Begins e m n t callers) (hs : Fresh ⟨m, task, outer⟩) : Fresh ⟨n, t, callers ++ outer⟩ := by
  cases h with
  -- The frame of a loop has just been pushed, and its first instruction is still to come.
  | looped hl =>
    obtain ⟨o, values, ho, rfl⟩ := covers_notes.of_looped hl
    intro _ f hf
    cases hf
    rfl
  | ranged hl =>
    obtain ⟨o, values, ho, rfl⟩ := covers_notes.of_ranged hl
    intro _ f hf
    cases hf
    rfl
  | chosen hr => exact fun _ f hf => hs trivial f ((covers_notes.of_read hr).frames ▸ hf)
  | driven => exact fun _ => ip_of_disown (hs trivial)
  | again hn => exact fun _ f hf => hs trivial f ((covers_notes.afterPass hn).frames ▸ hf)
  | _ => exact False.elim

/-- Behind a task that is done, a loop goes on only with its frame put back for the next pass. -/
theorem Caller.Resumes.fresh {m n : Machine σ} {ok : Bool} {caller : Caller σ} {t : Task σ}
    {callers outer : List (Caller σ)} (h : caller.Resumes m ok n t callers) : Fresh ⟨n, t, callers ++ outer⟩ := by
  cases h with
  | put =>
    intro _ f hf
    cases hf
    rfl
  | _ => exact False.elim

namespace Snapshot

variable {s u : Snapshot σ}

/-- Any step of a thread that is neither a fork nor a join. -/
theorem Step.passage (h : Step e s u) (hf : ¬s.Forks e) (hj : ¬s.Awaits) (hs : s.Leveled) (hfresh : s.Fresh)
    (hfits : s.actor.Fits) : Passage s u := by
  cases h with
  | begin hb outer => exact hb.passage hf hj hs hfresh
  | resume hr outer => exact hr.passage hs hfits

/-- Steps keep loops fresh. -/
theorem Step.fresh (h : Step e s u) (hfresh : s.Fresh) : u.Fresh := by
  cases h with
  | begin hb outer => exact hb.fresh hfresh
  | resume hr outer => exact hr.fresh

/-- What fetches is above the floor of its thread. -/
theorem Fetches.base_le {level : Nat} {f : Frame} {below : List Frame} (h : s.Fetches level f below) (hs : s.Leveled) :
    base s.callers ≤ below.length := by
  have hready := hs.ready
  rw [h.task] at hready
  have hlen : s.machine.depth = below.length + 1 := congrArg List.length h.frames
  exact (hs.layered.base_le_floor.trans hready.1).trans (Nat.le_of_lt_succ (h.level.trans_eq hlen))

/-- Instructions are fetched for open activations. -/
theorem Fetches.open {level : Nat} {f : Frame} {below : List Frame} (h : s.Fetches level f below) (hs : s.Leveled) :
    s.actor.Open f.activation := by
  show Offers (s.task.offers (own (base s.callers) s.machine.frames)) f.activation
  rw [h.task, h.frames]
  exact .top (h.base_le hs) h.more

end Snapshot

/-! ## Scenes

The other threads stay as they are while one takes a step, so that what is said of the one is said of all. -/

namespace Scene

variable {s t : Scene σ}

/-- Instructions may still be fetched for an activation. -/
def Open (s : Scene σ) (activation : Nat) : Prop := ∃ a ∈ s.actors, a.Open activation

/-- What the ledger calls open is open in the scene. -/
theorem open_ledger {activation : Nat} : s.ledger.Open activation ↔ s.Open activation := by
  constructor
  · rintro ⟨p, hp, hactivation, hmore⟩
    obtain ⟨a, ha, hp⟩ := Multiset.mem_bind.1 hp
    obtain ⟨f, hf, rfl⟩ := List.mem_map.1 (Multiset.mem_coe.1 hp)
    exact ⟨a, ha, f, hf, hactivation, hmore⟩
  · rintro ⟨a, ha, f, hf, hactivation, hmore⟩
    refine ⟨(a.thread.id, f), Multiset.mem_bind.2 ⟨a, ha, ?_⟩, hactivation, hmore⟩
    exact Multiset.mem_coe.2 (List.mem_map.2 ⟨f, hf, rfl⟩)

/-- An activation is open on one's own stack or on that of another thread. -/
theorem open_among {u : Snapshot σ} {others : Multiset (Actor σ)} {activation : Nat} :
    (u.among others).Open activation ↔ u.actor.Open activation ∨ ∃ a ∈ others, a.Open activation := by
  constructor
  · rintro ⟨a, ha, hopen⟩
    rcases Multiset.mem_cons.1 ha with rfl | ha
    · exact .inl hopen
    · exact .inr ⟨a, ha, hopen⟩
  · rintro (hopen | ⟨a, ha, hopen⟩)
    · exact ⟨u.actor, Multiset.mem_cons_self _ _, hopen⟩
    · exact ⟨a, Multiset.mem_cons_of_mem ha, hopen⟩

/-- A thread takes a step with which one of its activations ends, for a reason. -/
inductive Ends (e : Engine σ) (activation : Nat) : Scene σ → Scene σ → Prop
  | intro {u v : Snapshot σ} (others : Multiset (Actor σ)) (step : u.Step e v) (before : u.actor.Open activation)
      (why : u.Ending activation) (after : ¬(v.among others).Open activation) :
      Ends e activation (u.among others) (v.among others)

/-- What one step of all does to open activations. -/
structure Passage (e : Engine σ) (s t : Scene σ) : Prop where
  ends : ∀ activation, s.Open activation → t.Open activation ∨ Ends e activation s t
  opens : ∀ activation, s.world.activations ≤ activation → activation < t.world.activations → t.Open activation

/-- No activation begins or ends. -/
theorem Passage.of_open (hactivations : t.world.activations = s.world.activations)
    (h : ∀ activation, s.Open activation → t.Open activation) : Passage e s t := by
  refine ⟨fun a ha => .inl (h a ha), fun a hle hlt => absurd (hle.trans_lt hlt) ?_⟩
  rw [hactivations]
  exact Nat.lt_irrefl _

/-- Nothing has been fetched yet for the loops with their frames on top, whatever happens elsewhere. -/
theorem invariant_fresh : Invariant e fun w (a : Actor σ) => (a.snapshot w).Fresh where
  act h _ hs := h.fresh hs
  side _ _ _ := nofun
  joins _ _ := nofun
  still {w v t t' task callers} hs hframes _ _ := by
    intro hloop f hf
    have hf : f ∈ t'.frames.head? := hf
    rw [hframes] at hf
    exact hs hloop f hf

/-- A step of one thread among others. -/
theorem Step.passage (h : Step e s t) (hleveled : ∀ a ∈ s.actors, (a.snapshot s.world).Leveled)
    (hfresh : ∀ a ∈ s.actors, (a.snapshot s.world).Fresh) (horderly : s.Orderly) : Passage e s t := by
  -- a thread that sends something to the side has fetched it from an open frame, and keeps the frame
  have still {m n : Machine σ} {level : Nat} {c : Command σ} {i : Instruction} {key : String}
      (hsends : m.Sends e level n c i key) (outer : List (Caller σ)) :
      n.world.activations = m.world.activations ∧ ∀ activation, Actor.Open ⟨m.thread, .cycle level, outer⟩ activation →
        Offers (own (base outer) n.frames) activation := by
    obtain ⟨-, ⟨text, hn, -⟩, -⟩ := hsends
    obtain ⟨hactivations, hoffers⟩ := offers_of_found hn
    exact ⟨hactivations, fun a ha => hoffers _ a ha⟩
  cases h with
  | @act u v hact hf hj others =>
    -- one thread steps, and what was open with others is still
    have hmem : u.actor ∈ (u.among others).actors := Multiset.mem_cons_self _ _
    have hpassage := hact.passage hf hj (hleveled _ hmem) (hfresh _ hmem) (horderly.actors _ hmem).fits
    constructor
    case ends =>
      intro a ha
      by_cases hv : (v.among others).Open a
      · exact .inl hv
      · rw [open_among, not_or] at hv
        have hopen := (open_among.1 ha).resolve_right hv.2
        have hwhy := (hpassage.ends a hopen).resolve_left hv.1
        exact .inr (.intro others hact hopen hwhy fun h => (open_among.1 h).elim hv.1 hv.2)
    case opens => exact fun a hle hlt => open_among.2 (.inl (hpassage.opens a hle hlt))
  | @fork m level n c i key hsends outer others =>
    obtain ⟨hactivations, hoffers⟩ := still hsends outer
    refine .of_open hactivations fun a ha => ?_
    rcases open_among.1 ha with ha | ⟨b, hb, ha⟩
    · exact open_among.2 (.inl (hoffers a ha))
    · exact open_among.2 (.inr ⟨b, Multiset.mem_cons_of_mem hb, ha⟩)
  | @refuse m level n c i key hsends outer others =>
    obtain ⟨hactivations, hoffers⟩ := still hsends outer
    refine .of_open hactivations fun a ha => ?_
    exact open_among.2 ((open_among.1 ha).imp_left (hoffers a))
  -- a thread that has been joined had nothing open
  | @join m n failed id frames i key thread ok hj hid outer others =>
    obtain ⟨rest, -, rfl⟩ := barrier_of_nextJob hj
    refine .of_open rfl fun a ha => ?_
    rcases open_among.1 ha with ha | ⟨b, hb, ha⟩
    · exact open_among.2 (.inl ha)
    · rcases Multiset.mem_cons.1 hb with rfl | hb
      · -- the stack of a thread that is done is empty
        have hfits := (horderly.actors _ (Multiset.mem_cons_of_mem (Multiset.mem_cons_self _ _))).fits
        rcases hfits with hplain | ⟨_, _, _, he, -⟩ | ⟨-, hframes⟩
        · exact hplain.elim
        · cases he
        · obtain ⟨f, hf, -⟩ := ha
          have hf : f ∈ own 0 thread.frames := hf
          rw [hframes] at hf
          cases hf
      · exact open_among.2 (.inr ⟨b, hb, ha⟩)
  | drift hdrift actors => exact .of_open hdrift.activations fun a ha => ha

end Scene

end Sequencer
