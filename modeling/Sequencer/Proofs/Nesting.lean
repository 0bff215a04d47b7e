import Sequencer.Proofs.Breaks
import Sequencer.Proofs.Containment
import Sequencer.Proofs.Forkless
import Sequencer.Proofs.Journal

/-!
# Loops inside of one another

A frame that loops is on the stack from the time when its loop begins to the time when the loop ends, and its loop
is among those who wait. So the frames that loop and the loops that wait are the same, in the same order, wherever an
instruction is about to run. The innermost of them is the one that a break ends.
-/

namespace Sequencer

variable {σ : Type} {e : Engine σ}

open Machine

/-! ## The innermost loop

What the innermost loop around a machine is, and what its stack looks like while the loop goes on: its frame stands on
those below, or has been left. -/

/-- What there is around an instruction: a loop, with some stack below it and a frame that it repeats, or no loop but
only the action that has been started. An instruction that is looked at by itself has a stack around it. -/
inductive Around where
  | action
  | loop (below : List Frame) (f : Frame)
  | stack (base : List Frame)

/-- The frame that has some frames below it, if there is one, has some names for its results. -/
def Machine.Names (level : Nat) (results : List String) (m : Machine σ) : Prop :=
  ∀ g rest, g :: rest <:+ m.frames → rest.length = level → g.results = results

namespace Machine.Names

variable {level : Nat} {results : List String} {m n : Machine σ}

theorem calm (h : m.Names level results) (hc : m.Calm n) : n.Names level results := by
  intro g rest hsuf hlen
  obtain ⟨g', rest', hsuf', hg, hrest⟩ := cons_suffix_of_core hc.frames hsuf
  rw [← Frame.results_of_core hg]
  exact h g' rest' hsuf' ((Frame.length_of_core hrest).trans hlen)

/-- Fewer frames. -/
theorem suffix (h : m.Names level results) (hn : n.frames <:+ m.frames) : n.Names level results :=
  fun g rest hsuf => h g rest (hsuf.trans hn)

/-- Another frame on top. -/
theorem cons (h : m.Names level results) {f : Frame} (hn : n.frames = f :: m.frames) (hlevel : level < m.depth) :
    n.Names level results := by
  intro g rest hsuf hlen
  rw [hn] at hsuf
  rcases List.suffix_cons_iff.1 hsuf with he | hsuf
  · cases he
    exact absurd hlen hlevel.ne'
  · exact h g rest hsuf hlen

end Machine.Names

namespace Around

/-- The level of a cycle in which instructions run. -/
def level : Around → Nat
  | .action => 0
  | .loop below _ => below.length
  | .stack base => base.length

/-- A cycle runs there. -/
def Cyclic : Around → Prop
  | .stack _ => False
  | _ => True

/-- Of the frames on a stack that loop, the innermost is that of the loop. -/
def Over : Around → List Frame → Prop
  | .action, fs => ∀ f ∈ fs, f.looping = false
  | .loop below f, fs => ∃ above g, fs = above ++ g :: below ∧ (∀ g ∈ above, g.looping = false) ∧ g.looping = true ∧
      g.results = f.results
  | .stack base, fs => fs = base

/-- A cycle goes on, and no break is pending. -/
structure Goes (a : Around) (m : Machine σ) : Prop where
  frames : a.Over m.frames
  breakAt : m.thread.breakAt = none

/-- What is on the stack while the body of the loop runs, until the loop has seen that it is over. -/
def Stays : Around → Machine σ → Prop
  | .loop below f, m => InLoop below m ∧ m.Names below.length f.results
  | a, m => a.Over m.frames ∧ (m.aborted = false → m.thread.breakAt = none)

/-- The break that may be pending when a cycle has succeeded. -/
def Pending : Around → Option Nat → Prop
  | .loop below _, mark => mark = none ∨ mark = some below.length
  | _, _ => True

variable {i : Around} {m n o : Machine σ} {below : List Frame} {f : Frame}

theorem goes_of_frames (h : i.Over below) (hm : m.frames = below) (hb : m.thread.breakAt = none) : i.Goes m :=
  ⟨hm.symm ▸ h, hb⟩

theorem Goes.looping (h : (Around.loop below f).Goes m) : Looping below m := by
  obtain ⟨⟨above, g, hm, habove, hg, -⟩, hb⟩ := h
  exact ⟨⟨above, g, hm, habove, hg⟩, hb⟩

theorem names_of_over (h : (Around.loop below f).Over m.frames) : m.Names below.length f.results := by
  obtain ⟨above, g, hm, -, -, hresults⟩ := h
  intro g' rest hsuf hlen
  have hown : g :: below <:+ m.frames := hm ▸ List.suffix_append above (g :: below)
  have hle : (g' :: rest).length = (g :: below).length := congrArg (· + 1) hlen
  have he : g' :: rest = g :: below := (List.suffix_of_suffix_length_le hsuf hown hle.le).eq_of_length hle
  cases he
  exact hresults

theorem Goes.names (h : (Around.loop below f).Goes m) : m.Names below.length f.results := names_of_over h.frames

/-- Where the frame of a loop is on top, and is looping, the run goes on inside of the loop. -/
theorem goes_of_looping (h : Looping below m) (hn : m.Names below.length f.results) :
    (Around.loop below f).Goes m := by
  obtain ⟨⟨above, g, hm, habove, hg⟩, hb⟩ := h
  exact ⟨⟨above, g, hm, habove, hg, hn g below (hm ▸ List.suffix_append above (g :: below)) rfl⟩, hb⟩

theorem Goes.stays (h : i.Goes m) : i.Stays m := by
  cases i with
  | action => exact ⟨h.frames, fun _ => h.breakAt⟩
  | loop below f => exact ⟨.looping h.looping, h.names⟩
  | stack base => exact ⟨h.frames, fun _ => h.breakAt⟩

theorem Goes.pending (h : i.Goes m) : i.Pending m.thread.breakAt := by
  cases i with
  | loop below f => exact .inl h.breakAt
  | _ => trivial

theorem Stays.pending (h : i.Stays m) (ha : m.aborted = false) : i.Pending m.thread.breakAt := by
  cases i with
  | loop below f => exact h.1.breakAt ha
  | _ => trivial

/-- On the stack around it a loop is over, and a break is pending only if the request was aborted. -/
theorem stays_of_frames (h : i.Over below) (hm : m.frames = below)
    (hb : m.aborted = false → m.thread.breakAt = none) : i.Stays m := by
  cases ha : m.aborted with
  | false => exact Goes.stays ⟨hm ▸ h, hb ha⟩
  | true =>
    subst hm
    cases i with
    | action => exact ⟨h, hb⟩
    | stack base => exact ⟨h, hb⟩
    | loop below f =>
      obtain ⟨above, g, hframes, habove, hg, hresults⟩ := h
      have hstack : m.frames = (above ++ [g]) ++ below := by
        rw [hframes, List.append_assoc]
        rfl
      exact ⟨.stopped hstack ha, names_of_over ⟨above, g, hframes, habove, hg, hresults⟩⟩

theorem Goes.congr (h : i.Goes m) (hf : n.frames = m.frames) (hb : n.thread.breakAt = m.thread.breakAt) :
    i.Goes n := ⟨hf ▸ h.frames, hb.trans h.breakAt⟩

theorem Goes.quiet (h : i.Goes m) (hq : m.Quiet n) : i.Goes n := h.congr hq.frames hq.breakAt

theorem Stays.congr (h : i.Stays m) (hf : n.frames = m.frames) (hb : n.thread.breakAt = m.thread.breakAt)
    (ha : m.aborted = true → n.aborted = true) : i.Stays n := by
  cases i with
  | action => exact ⟨hf ▸ h.1, fun hn => hb.trans (h.2 (alive_of ha hn))⟩
  | loop below f => exact ⟨h.1.congr hf hb ha, h.2.suffix (hf ▸ List.suffix_rfl)⟩
  | stack base => exact ⟨hf ▸ h.1, fun hn => hb.trans (h.2 (alive_of ha hn))⟩

/-- Where an instruction has been fetched, the cycle goes on. -/
theorem Stays.instruction (h : i.Stays m) (hi : i.Cyclic) (ha : m.aborted = false) {key text : String}
    (hs : m.nextStep i.level = (n, .instruction key text)) : i.Goes n := by
  cases i with
  | stack base => exact hi.elim
  | action =>
    obtain ⟨hlooping, hb⟩ := h
    cases nextStep_cases hs with
    | @advanced f rest _ _ _ hf he hq hne =>
      have hn : n.frames = f.advance :: rest := hq.frames
      rw [hf] at hlooping
      refine ⟨?_, hq.breakAt.trans (hb ha)⟩
      rw [hn]
      exact List.forall_mem_cons.2 (List.forall_mem_cons.1 hlooping)
  | loop below f => exact goes_of_looping (h.1.instruction le_rfl ha hs) (h.2.calm (nextStep_calm hs nofun).1)

/-- What is left without a frame that has no further instructions. -/
theorem Stays.leave (h : i.Stays m) (hi : i.Cyclic) (ha : m.aborted = false)
    (hs : m.nextStep i.level = (n, .exhausted)) : i.Stays (n.withFrames n.frames.tail) := by
  cases i with
  | stack base => exact hi.elim
  | action =>
    obtain ⟨hlooping, hb⟩ := h
    -- A fetch moves the instruction pointer only, and marks nothing.
    have hn : (∀ f ∈ n.frames, f.looping = false) ∧ n.thread.breakAt = none := by
      cases nextStep_cases hs with
      | exhausted => exact ⟨hlooping, hb ha⟩
      | @advanced f rest _ _ _ hf he hq hne =>
        have hframes : n.frames = f.advance :: rest := hq.frames
        rw [hf] at hlooping
        refine ⟨?_, hq.breakAt.trans (hb ha)⟩
        rw [hframes]
        exact List.forall_mem_cons.2 (List.forall_mem_cons.1 hlooping)
    exact ⟨fun f hf => hn.1 f (List.mem_of_mem_tail hf), fun _ => hn.2⟩
  | loop below f =>
    exact ⟨h.1.leave le_rfl ha hs, (h.2.calm (nextStep_calm hs nofun).1).suffix (List.tail_suffix _)⟩

/-- Outside of all loops a return is one of the active frame only. -/
theorem returnEarly_action (h : Around.action.Goes m) (explicit : Option (List String)) :
    Around.action.Goes (m.returnEarly explicit).1 := by
  obtain ⟨hlooping, hb⟩ := h
  cases hf : m.frames with
  | nil =>
    rw [returnEarly_nil hf]
    exact ⟨hlooping, hb⟩
  | cons f rest =>
    obtain ⟨o, hq, he⟩ := returnEarly_cons hf explicit
    have hloop : f.looping = false := hlooping f (hf ▸ List.mem_cons_self)
    rw [if_neg (by simp [hloop])] at hq
    have hframes : o.frames = rest := hq.frames
    rw [he]
    refine ⟨fun g hg => hlooping g ?_, hq.breakAt.trans hb⟩
    rw [hf]
    exact List.mem_cons_of_mem f (hframes ▸ hg)

/-- Without a looping frame there is nothing to break. -/
theorem breakInnermost_eq_none {fs : List Frame} (h : ∀ f ∈ fs, f.looping = false) :
    breakInnermost fs = none := by
  induction fs with
  | nil => rfl
  | cons f rest ih =>
    obtain ⟨hf, hrest⟩ := List.forall_mem_cons.1 h
    unfold breakInnermost
    rw [if_neg (by simp [hf]), ih hrest]
    rfl

/-- Outside of all loops a break changes nothing. -/
theorem breakLoop_of_not_looping (h : ∀ f ∈ m.frames, f.looping = false) : m.breakLoop = (m, false) := by
  unfold breakLoop
  rw [breakInnermost_eq_none h]

/-- What an attempt that runs no instructions leaves. -/
theorem Goes.attempted {ok : Bool} (h : i.Goes m) (hi : i.Cyclic) (ha : Attempted m n ok) : i.Stays n := by
  cases i with
  | stack base => exact hi.elim
  | action =>
    refine Goes.stays ?_
    cases ha with
    | kept hq hb hj => exact (h.quiet hq).congr rfl rfl
    | @called o hq action results params =>
      obtain ⟨hlooping, hb⟩ := h.quiet hq
      exact ⟨List.forall_mem_cons.2 ⟨rfl, hlooping⟩, hb⟩
    | returned hq explicit => exact returnEarly_action (h.quiet hq) explicit
    | broke =>
      rw [breakLoop_of_not_looping h.1]
      exact h
  | loop below f =>
    refine ⟨h.looping.attempted ha, ?_⟩
    -- Inside of a loop there is its frame, at least.
    have hlevel : ∀ {o : Machine σ}, m.Quiet o → below.length < o.depth := by
      intro o hq
      obtain ⟨above, g, hm, -⟩ := h.frames
      unfold depth
      rw [hq.frames, hm, List.length_append, List.length_cons]
      omega
    cases ha with
    | kept hq hb hj => exact (h.quiet hq).names.suffix List.suffix_rfl
    | called hq action results params => exact (h.quiet hq).names.cons rfl (hlevel hq)
    | @returned o hq explicit =>
      refine (h.quiet hq).names.suffix ?_
      cases hf : o.frames with
      | nil => exact absurd (hlevel hq) (by unfold depth; rw [hf]; exact Nat.not_lt_zero _)
      | cons g rest =>
        rw [frames_returnEarly hf explicit]
        exact List.suffix_cons g rest
    | broke => exact h.names.calm (breakLoop_calm m)

/-- A failed attempt leaves the cycle going. -/
theorem Goes.failed (h : i.Goes m) (ha : Attempted m n false) (hna : n.aborted = false) : i.Goes n :=
  h.congr ha.stays (((ha.neutral h.breakAt).breakAt hna).trans h.breakAt.symm)

end Around

/-- The active frame is that of a loop which goes on, above some stack. -/
structure Machine.AtFrame (below : List Frame) (results : List String) (m : Machine σ) : Prop where
  top : ∃ g, m.frames = g :: below ∧ g.looping = true ∧ g.results = results
  breakAt : m.thread.breakAt = none

namespace Machine.AtFrame

variable {below : List Frame} {results : List String} {m n : Machine σ} {f : Frame} {a : Around}

theorem quiet (h : m.AtFrame below results) (hq : m.Quiet n) : n.AtFrame below results :=
  ⟨hq.frames ▸ h.top, hq.breakAt.trans h.breakAt⟩

theorem depth (h : m.AtFrame below results) : m.depth = below.length + 1 := by
  obtain ⟨g, hm, -⟩ := h.top
  exact congrArg List.length hm

/-- A pass begins with nothing but the frame of its loop. -/
theorem goes (h : m.AtFrame below f.results) : (Around.loop below f).Goes m := by
  obtain ⟨g, hm, hg, hresults⟩ := h.top
  exact ⟨⟨[], g, hm, nofun, hg, hresults⟩, h.breakAt⟩

theorem unwind (h : m.AtFrame below results) (ha : a.Over below) : a.Goes (m.unwind below.length) := by
  obtain ⟨g, hm, -⟩ := h.top
  have hframes : (m.unwind below.length).frames = below := unwind_suffix (hm ▸ List.suffix_cons g below)
  exact Around.goes_of_frames ha hframes h.breakAt

theorem disown (h : m.AtFrame below results) : m.disown.AtFrame below results := by
  obtain ⟨g, hm, hg, hresults⟩ := h.top
  rw [disown_of_cons hm]
  exact ⟨⟨_, rfl, hg, hresults⟩, h.breakAt⟩

/-- The last return of a loop leaves what is around it. -/
theorem returned (h : m.AtFrame below results) (ha : a.Over below) {ok : Bool}
    (hr : (m.setLooping false).returnFrame none = (n, ok)) : a.Goes n := by
  obtain ⟨g, hg, -⟩ := h.top
  have hlast : (m.setLooping false).frames = { g with looping := false } :: below ∧
      (m.setLooping false).thread.breakAt = none := by
    rw [setLooping_of_cons hg]
    exact ⟨rfl, h.breakAt⟩
  have hframes := frames_returnFrame hlast.1 none
  have hbreak := (suffix_returnFrame (m.setLooping false) none).2.trans hlast.2
  rw [hr] at hframes hbreak
  exact Around.goes_of_frames ha hframes hbreak

end Machine.AtFrame

/-! ## Those who wait

Those who wait are read from the inside outwards, each with the loop that it is in. A cycle belongs to the innermost
loop around it, or to the action. -/

/-- What is waited for. -/
inductive Awaited where
  | run
  | cycle
  | instruction
  | attempt
  | passes (below : List Frame) (f : Frame)

/-- Those who wait in the middle of a run, by what the first of them waits for and what there is around it. The run is
that of an action, or of an instruction that is looked at by itself. -/
inductive Waiting (origin : Around) : Awaited → Around → List (Caller σ) → Prop
  | action (h : origin = .action) : Waiting origin .run .action []
  | instruction {base} (h : origin = .stack base) : Waiting origin .instruction (.stack base) []
  | attempt {base} (h : origin = .stack base) : Waiting origin .attempt (.stack base) []
  | opened {a b outer} (h : Waiting origin .run a outer) : Waiting origin .cycle a (.opened b :: outer)
  | cycle {a strict outer} (h : Waiting origin .cycle a outer) :
      Waiting origin .instruction a (.cycle a.level strict :: outer)
  | attempts {a invocation key pause total outer} (h : Waiting origin .instruction a outer)
      (hi : a.Cyclic ∨ invocation.isLoop = true) :
      Waiting origin .attempt a (.attempts invocation key pause total :: outer)
  | release {a below f outer} (h : Waiting origin .attempt a outer) (ha : a.Over below) :
      Waiting origin (.passes below f) a (.release below.length f :: outer)
  | pass {a below f loop outer} (h : Waiting origin (.passes below f) a outer) (hf : f.looping = true)
      (ha : a.Over below) : Waiting origin .run (.loop below f) (.pass below.length loop f :: outer)

/-- Only an instruction that is looked at by itself has nothing but a stack around it. -/
theorem Waiting.cyclic {origin a : Around} {outer : List (Caller σ)} (h : Waiting origin .run a outer) : a.Cyclic := by
  cases h with
  | action => trivial
  | pass => trivial

theorem Waiting.cyclic_of_cycle {origin a : Around} {outer : List (Caller σ)} (h : Waiting origin .cycle a outer) :
    a.Cyclic := by
  cases h with
  | opened h => exact h.cyclic

/-- In the run of an action there is no such instruction. -/
theorem Waiting.cyclic_of_action {a : Around} {place : Awaited} {outer : List (Caller σ)}
    (h : Waiting .action place a outer) : a.Cyclic := by
  induction h with
  | action => trivial
  | instruction ho => cases ho
  | attempt ho => cases ho
  | opened _ ih => exact ih
  | cycle _ ih => exact ih
  | attempts _ _ ih => exact ih
  | release _ _ ih => exact ih
  | pass => trivial

/-- The frames that loop are those of the loops that wait. -/
inductive Snapshot.Nested (origin : Around) : Snapshot σ → Prop
  | runCycle {m a outer} (h : Waiting origin .run a outer) (hm : a.Stays m) : Nested origin ⟨m, .runCycle a.level, outer⟩
  | cycle {m a outer} (h : Waiting origin .cycle a outer) (hm : a.Stays m) : Nested origin ⟨m, .cycle a.level, outer⟩
  | leave {m a outer} (h : Waiting origin .cycle a outer) (hm : a.Stays (m.withFrames m.frames.tail)) :
      Nested origin ⟨m, .leave a.level, outer⟩
  | dispatch {m a c i key outer} (h : Waiting origin .instruction a outer) (hi : a.Cyclic) (hm : a.Goes m) :
      Nested origin ⟨m, .dispatch c i key, outer⟩
  | attempts {m a invocation key pause total outer} (h : Waiting origin .instruction a outer)
      (hi : a.Cyclic ∨ invocation.isLoop = true) (hm : a.Goes m) :
      Nested origin ⟨m, .attempts invocation key pause total, outer⟩
  | perform {m a invocation outer} (h : Waiting origin .attempt a outer) (hi : a.Cyclic ∨ invocation.isLoop = true)
      (hm : a.Goes m) : Nested origin ⟨m, .perform invocation, outer⟩
  | choose {m a below results c outer} (h : Waiting origin .attempt a outer) (ha : a.Over below)
      (hm : m.AtFrame below results) : Nested origin ⟨m, .choose c below.length, outer⟩
  | drive {m a below results loop outer} (h : Waiting origin .attempt a outer) (ha : a.Over below)
      (hm : m.AtFrame below results) : Nested origin ⟨m, .drive loop, outer⟩
  | passes {m a below f loop outer} (h : Waiting origin (.passes below f) a outer) (hf : f.looping = true)
      (ha : a.Over below) (hm : m.AtFrame below f.results) : Nested origin ⟨m, .passes loop f, outer⟩
  | between {m a below f loop outer} (h : Waiting origin (.passes below f) a outer) (hf : f.looping = true)
      (ha : a.Over below) (hm : m.AtFrame below f.results) : Nested origin ⟨m, .between below.length loop f, outer⟩
  | join {m a b ok failed outer} (h : Waiting origin .run a outer) (hm : a.Stays m)
      (hfailed : ok = false → m.aborted = false → a.Goes m) : Nested origin ⟨m, .join failed, .closing b ok :: outer⟩
  | joined {m a b ok outer} (h : Waiting origin .run a outer) (hm : a.Stays m)
      (hfailed : ok = false → m.aborted = false → a.Goes m) : Nested origin ⟨m, .done true, .closing b ok :: outer⟩
  | done {m a place ok outer} (h : Waiting origin place a outer) (hm : a.Stays m)
      (hfailed : ok = false → m.aborted = false → a.Goes m)
      (hdone : place = .run → ok = true → a.Pending m.thread.breakAt) : Nested origin ⟨m, .done ok, outer⟩

/-! ## Steps

A step keeps all this, case by case. Calls and returns stay within a loop, entering one adds a loop, and a pass that
ends takes it away or begins again. -/

namespace Snapshot.Nested

variable {m n : Machine σ} {ok : Bool} {origin a : Around} {place : Awaited} {outer : List (Caller σ)}

/-- A task that is done without a break leaves those who wait where they are. -/
theorem done_of_goes (h : Waiting origin place a outer) (hm : a.Goes m) (ok : Bool) :
    Nested origin ⟨m, .done ok, outer⟩ := .done h hm.stays (fun _ _ => hm) fun _ _ => hm.pending

/-- It is only the stack and its mark that matter, and whether the request was aborted. -/
theorem congr {task : Task σ} (h : Nested origin ⟨m, task, outer⟩) (hf : n.frames = m.frames)
    (hb : n.thread.breakAt = m.thread.breakAt) (ha : m.aborted = true → n.aborted = true) :
    Nested origin ⟨n, task, outer⟩ := by
  -- All that is said of a machine is about its frames, the mark and the flag.
  have stays {a : Around} (hm : a.Stays m) : a.Stays n := hm.congr hf hb ha
  have goes {a : Around} (hm : a.Goes m) : a.Goes n := hm.congr hf hb
  have top {below : List Frame} {results : List String} (hm : m.AtFrame below results) : n.AtFrame below results :=
    ⟨hf ▸ hm.top, hb.trans hm.breakAt⟩
  have failed {a : Around} {ok : Bool} (hm : ok = false → m.aborted = false → a.Goes m) (hok : ok = false)
      (hn : n.aborted = false) : a.Goes n := goes (hm hok (alive_of ha hn))
  cases h with
  | runCycle h hm => exact .runCycle h (stays hm)
  | cycle h hm => exact .cycle h (stays hm)
  | leave h hm => exact .leave h (hm.congr (congrArg List.tail hf) hb ha)
  | dispatch h hi hm => exact .dispatch h hi (goes hm)
  | attempts h hi hm => exact .attempts h hi (goes hm)
  | perform h hi hm => exact .perform h hi (goes hm)
  | choose h hbelow hm => exact .choose h hbelow (top hm)
  | drive h hbelow hm => exact .drive h hbelow (top hm)
  | passes h hf hbelow hm => exact .passes h hf hbelow (top hm)
  | between h hf hbelow hm => exact .between h hf hbelow (top hm)
  | join h hm hfailed => exact .join h (stays hm) (failed hfailed)
  | joined h hm hfailed => exact .joined h (stays hm) (failed hfailed)
  | done h hm hfailed hdone => exact .done h (stays hm) (failed hfailed) fun hp hok => hb ▸ hdone hp hok

end Snapshot.Nested

namespace Waiting

variable {m n : Machine σ} {t : Task σ} {callers outer : List (Caller σ)} {origin a : Around} {below : List Frame}
  {f : Frame}

/-- What a cycle begins with. An instruction that is fetched finds no break pending, since none is fetched then. -/
theorem nested_cycle (hw : Waiting origin .cycle a outer) (hm : a.Stays m)
    (h : (Task.cycle a.level).Begins e m n t callers) : Snapshot.Nested origin ⟨n, t, callers ++ outer⟩ := by
  cases h with
  | aborted ha =>
    refine .done hw hm (fun _ hna => ?_) (by rintro ⟨⟩)
    rw [ha] at hna
    cases hna
  | drained hna hn =>
    cases nextStep_cases hn with
    | drained _ => exact .done hw hm (by rintro ⟨⟩) (by rintro ⟨⟩)
    | advanced _ _ _ _ hne => exact absurd rfl hne
  | exhausted hna hn => exact .leave hw (hm.leave hw.cyclic_of_cycle hna hn)
  | undecodable hna hn => exact .done_of_goes hw (hm.instruction hw.cyclic_of_cycle hna hn) false
  | @forked _ n key text i c hna hn =>
    have hfork : a.Goes (n.forkInstruction i key) := (hm.instruction hw.cyclic_of_cycle hna hn).congr rfl rfl
    exact .cycle hw hfork.stays
  -- An instruction is at work inside of the same loop as its cycle.
  | fetched hna hn => exact .dispatch (.cycle hw) hw.cyclic_of_cycle (hm.instruction hw.cyclic_of_cycle hna hn)

/-- What a command begins with. The frame of a loop comes on top of what there is around the command. -/
theorem nested_perform {invocation : Invocation σ} (hw : Waiting origin .attempt a outer)
    (hloop : a.Cyclic ∨ invocation.isLoop = true) (hm : a.Goes m)
    (h : (Task.perform invocation).Begins e m n t callers) : Snapshot.Nested origin ⟨n, t, callers ++ outer⟩ := by
  cases h with
  | @immediate _ _ ok hi =>
    -- Where a loop is looked at without a cycle around it, no other command is tried.
    have hcyclic := hloop.resolve_right fun hl => by
      cases invocation with
      | loopFor c => cases hi
      | loopRange c => cases hi
      | _ => cases hl
    refine .done hw (hm.attempted hcyclic (immediate_cases hi)) ?_ nofun
    rintro rfl hna
    exact hm.failed (immediate_cases hi) hna
  | refused hl => exact .done_of_goes hw (hm.quiet (covers_quiet.of_refused hl)) false
  | looped hl =>
    obtain ⟨o, values, hq, rfl⟩ := covers_quiet.of_looped hl
    obtain ⟨hframes, hb⟩ := hm.quiet hq
    exact .drive hw hframes ⟨⟨_, rfl, rfl, rfl⟩, hb⟩
  | rejected hl => exact .done_of_goes hw (hm.quiet (covers_quiet.of_rejected hl)) false
  | ranged hl =>
    obtain ⟨o, values, hq, rfl⟩ := covers_quiet.of_ranged hl
    obtain ⟨hframes, hb⟩ := hm.quiet hq
    have hlen : m.depth = o.frames.length := hq.calm.depth.symm
    rw [hlen]
    exact .choose hw hframes ⟨⟨_, rfl, rfl, rfl⟩, hb⟩

/-- What the passes of a loop begin with. -/
theorem nested_passes {loop : Loop} (hw : Waiting origin (.passes below f) a outer) (hf : f.looping = true)
    (hbelow : a.Over below) (hm : m.AtFrame below f.results) (h : (Task.passes loop f).Begins e m n t callers) :
    Snapshot.Nested origin ⟨n, t, callers ++ outer⟩ := by
  have hd : m.depth - 1 = below.length := Nat.sub_eq_of_eq_add hm.depth
  cases h with
  | finished hb hr => exact .done_of_goes hw ((hm.quiet (quiet_beforePass hb)).returned hbelow hr) _
  | stopped hb =>
    rw [hd]
    exact .done_of_goes hw ((hm.quiet (quiet_beforePass hb)).unwind hbelow) false
  | passed hb =>
    rw [hd]
    exact .runCycle (a := .loop below f) (.pass hw hf hbelow) (hm.quiet (quiet_beforePass hb)).goes.stays

end Waiting

/-- Loops stay inside of one another when a task begins, other than a wait for a fork. -/
theorem Task.Begins.nested {m n : Machine σ} {task t : Task σ} {callers outer : List (Caller σ)} {origin : Around}
    (h : task.Begins e m n t callers) (hs : Snapshot.Nested origin ⟨m, task, outer⟩)
    (hj : ¬Snapshot.Awaits ⟨m, task, outer⟩) : Snapshot.Nested origin ⟨n, t, callers ++ outer⟩ := by
  -- One case for each task. A cycle, an attempt and a pass have lemmas of their own.
  cases hs with
  | cycle hw hm => exact hw.nested_cycle hm h
  | perform hw hi hm => exact hw.nested_perform hi hm h
  | passes hw hf hbelow hm => exact hw.nested_passes hf hbelow hm h
  | runCycle hw hm =>
    cases h
    exact .cycle (.opened hw) (hm.congr rfl rfl id)
  | leave hw hm =>
    cases h
    obtain ⟨hframes, hbreak, haborted⟩ := returnFrame_pops m
    exact .cycle hw (hm.congr hframes hbreak haborted)
  | dispatch hw hi hm =>
    cases h with
    | unprepared hp => exact .done_of_goes hw (hm.quiet (quiet_prepare hp)) false
    | prepared hp => exact .attempts hw (.inl hi) (hm.quiet (quiet_prepare hp))
  | attempts hw hi hm =>
    cases h with
    | spent ht => exact .done_of_goes hw hm false
    | tried ht => exact .perform (.attempts hw hi) hi (hm.quiet (quiet_note m _))
  | choose hw hbelow hm =>
    cases h with
    | unreadable hr => exact .done_of_goes hw ((hm.quiet (covers_quiet.of_read hr)).unwind hbelow) false
    | chosen hr => exact .drive hw hbelow (hm.quiet (covers_quiet.of_read hr))
  | drive hw hbelow hm =>
    -- the loop was entered with its frame on top
    obtain ⟨g, hg, hlooping, hresults⟩ := hm.disown.top
    cases h with
    | frameless hf => cases hg.symm.trans hf
    | driven hf =>
      obtain ⟨rfl, rfl⟩ := List.cons_eq_cons.1 (hg.symm.trans hf)
      exact .passes (.release hw hbelow) hlooping hbelow ⟨⟨g, hg, hlooping, rfl⟩, hm.disown.breakAt⟩
  | between hw hf hbelow hm =>
    cases h with
    | again hn => exact .passes hw hf hbelow (hm.quiet (quiet_afterPass hn))
    | stuck hn => exact .done_of_goes hw ((hm.quiet (quiet_afterPass hn)).unwind hbelow) false
  | join hw hm hfailed =>
    cases h with
    | joined hn => exact .joined hw hm hfailed
    | worked hn =>
      obtain ⟨b, rfl⟩ := withBarrier_of_nextJob hn
      exact .join hw (hm.congr rfl rfl id) fun hok hna => (hfailed hok hna).congr rfl rfl
    | unknown hn => exact absurd ⟨_, _, _, _, _, _, rfl, hn⟩ hj
    | started hn => exact absurd ⟨_, _, _, _, _, _, rfl, hn⟩ hj
  | joined => cases h
  | done => cases h

/-- A loop goes on from the end of its body. Whatever the body has left above the stack below the loop is unwound, and
a mark that is still there is the one for this loop. -/
theorem Waiting.nested_pass {m n : Machine σ} {ok : Bool} {t : Task σ} {callers outer : List (Caller σ)}
    {origin a : Around} {below : List Frame} {f : Frame} {loop : Loop} (hw : Waiting origin (.passes below f) a outer)
    (hf : f.looping = true) (hbelow : a.Over below) (hm : (Around.loop below f).Stays m)
    (hfailed : ok = false → m.aborted = false → (Around.loop below f).Goes m)
    (hdone : ok = true → (Around.loop below f).Pending m.thread.breakAt)
    (h : (Caller.pass below.length loop f).Resumes m ok n t callers) :
    Snapshot.Nested origin ⟨n, t, callers ++ outer⟩ := by
  -- Whatever the pass has left above the loop is gone.
  have hframes : (m.unwind below.length).frames = below := unwind_suffix hm.1.suffix
  cases h with
  | unwound =>
    have hbreak : (m.unwind below.length).aborted = false → (m.unwind below.length).thread.breakAt = none :=
      fun hna => (hfailed rfl hna).breakAt
    exact .done hw (Around.stays_of_frames hbelow hframes hbreak)
      (fun _ hna => Around.goes_of_frames hbelow hframes (hbreak hna)) nofun
  | broken ht =>
    obtain ⟨-, rfl⟩ := takeBreak_eq_true_iff.1 ht
    have hgoes : a.Goes ((m.unwind below.length).withBreak none) := Around.goes_of_frames hbelow hframes rfl
    exact .done_of_goes hw hgoes true
  -- Without a mark of its own the loop goes on, and other marks cannot be pending here.
  | put ht =>
    obtain ⟨hmark, rfl⟩ := takeBreak_eq_false_iff.1 ht
    exact .between hw hf hbelow ⟨⟨_, congrArg _ hframes, hf, rfl⟩, (hdone rfl).resolve_right hmark⟩

/-- Loops stay inside of one another when those who wait go on. -/
theorem Caller.Resumes.nested {m n : Machine σ} {ok : Bool} {caller : Caller σ} {t : Task σ}
    {callers outer : List (Caller σ)} {origin : Around} (h : caller.Resumes m ok n t callers)
    (hs : Snapshot.Nested origin ⟨m, .done ok, caller :: outer⟩) : Snapshot.Nested origin ⟨n, t, callers ++ outer⟩ := by
  cases hs with
  | @joined _ _ _ ok _ hw hm hfailed =>
    cases h with
    | closed =>
      -- A cycle that has succeeded was not aborted by its forks either.
      have hclose : (ok && !m.aborted) = true → m.aborted = false := fun hok => by
        simpa using (Bool.and_eq_true_iff.1 hok).2
      refine .done hw (hm.congr rfl rfl id) (fun hok hna => (hfailed ?_ hna).congr rfl rfl) fun _ hok =>
        hm.pending (hclose hok)
      have hna : m.aborted = false := hna
      rwa [hna, Bool.not_false, Bool.and_true] at hok
  | done hw hm hfailed hdone =>
    cases hw with
    | opened hw =>
      cases h
      exact .join hw hm hfailed
    | cycle hw =>
      cases h with
      | advanced => exact .cycle hw hm
      | failed hstop => exact .done hw hm (fun _ => hfailed (Bool.or_eq_false_iff.1 hstop).1) (by rintro ⟨⟩)
    | attempts hw hi =>
      cases h with
      | succeeded => exact .done hw hm (by rintro ⟨⟩) (by rintro ⟨⟩)
      | gaveUp => exact .done hw hm hfailed (by rintro ⟨⟩)
      | retried hl =>
        have hgoes := hfailed rfl (not_aborted_of_lastAttempt hl)
        exact .attempts hw hi (hgoes.quiet (quiet_wait m _))
    | release hw =>
      cases h
      exact .done hw (hm.congr rfl rfl id) (fun hok hna => (hfailed hok hna).congr rfl rfl) (by rintro ⟨⟩)
    | pass hw hf hbelow => exact hw.nested_pass hf hbelow hm hfailed (hdone rfl) h

namespace Snapshot

/-- No step leaves the loops out of order. Waiting for a fork is not among them, since the fork has frames of its
own. -/
theorem Step.nested {s t : Snapshot σ} {origin : Around} (h : Step e s t) (hs : s.Nested origin) (hj : ¬s.Awaits) :
    t.Nested origin := by
  cases h with
  | begin hb outer => exact hb.nested hs hj
  | resume hr outer => exact hr.nested hs

/-- Loops are inside of one another all along a run without forks. -/
theorem Reaches.nested {s t : Snapshot σ} {origin : Around} (h : Reaches e s t) (hf : s.ForkFree e) (halone : s.Alone)
    (hs : s.Nested origin) : t.Nested origin := by
  induction h with
  | refl => exact hs
  | @tail t u hreach hstep ih => exact hstep.nested ih (not_awaits (Reaches.alone hreach hf halone).jobs _ _)

end Snapshot

/-- The run of an action begins outside of all loops. -/
theorem Engine.nested_started (w : World σ) (action : String) : (Engine.started w action).Nested .action := by
  refine .runCycle (a := .action) (.action rfl) ⟨?_, fun _ => rfl⟩
  exact List.forall_mem_cons.2 ⟨rfl, nofun⟩

end Sequencer
