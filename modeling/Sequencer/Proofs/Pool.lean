import Mathlib.Data.Multiset.Bind
import Mathlib.Logic.Relation
import Sequencer.Proofs.Quiet

/-!
# Threads on one request

Any number of threads work on a request at the same time. Each owns its stack and drives its own loops;
the world, and with it the scopes, is shared. A `Pool` is a world with the threads that work in it, and
`Step` lets any one of them do any one thing: threads take turns in every order.

A loop takes the reference of its frame over when it begins (`disown`), puts the frame back before each
pass (`repush`) and gives the reference up when it leaves. In between its thread does not touch the frames
below the loop, because a cycle ends at its level. That is the floor of a turn; all else is unrestricted.
-/

namespace Sequencer

variable {σ : Type}

/-! ## Leaving frames

A return takes a frame off and publishes its results to the scope below, and both happen in one go. -/

namespace Machine

/-- A return reads the results under the names that it is given, if anything is to be handed on, takes one
frame off, hands the values on, and then gives the frame's hold up. -/
theorem returnFrame_parts {m : Machine σ} {f : Frame} {below : List Frame} (hf : m.frames = f :: below)
    (explicit : Option (List String)) : ∃ o targets vs,
      (o = m ∨ ∃ asked names, o = (m.readResults asked names).1) ∧ targets ⊆ f.results ∧
      m.returnFrame explicit =
        (((o.withFrames below).publish targets vs).withScopes (releaseFrames · [f]), true) := by
  unfold returnFrame
  rw [hf]
  simp only
  have htargets : (if f.looping && explicit.isNone then [] else f.results) ⊆ f.results := by
    split_ifs
    · exact List.nil_subset _
    · exact List.Subset.refl _
  generalize (if f.looping && explicit.isNone then [] else f.results) = targets at htargets
  have hread : (if targets.isEmpty then (m, ([] : List (Option Value)))
      else m.readResults explicit.isSome (explicit.getD targets)).1 = m ∨
      ∃ asked names, (if targets.isEmpty then (m, ([] : List (Option Value)))
        else m.readResults explicit.isSome (explicit.getD targets)).1 = (m.readResults asked names).1 := by
    split_ifs
    · exact .inl rfl
    · exact .inr ⟨_, _, rfl⟩
  -- The values are read from the machine with the frame, so that reading may already mark the request.
  generalize (if targets.isEmpty then (m, ([] : List (Option Value)))
      else m.readResults explicit.isSome (explicit.getD targets)) = read at hread
  refine ⟨read.1, targets, read.2, hread, htargets, ?_⟩
  cases ho : f.ownsScope with
  | true => simp [releaseFrames, ho]
  | false => simp [releaseFrames, ho, withScopes, withRequest]

/-- A return takes one frame off, may change variables, and then gives the frame's hold up. -/
theorem returnFrame_eq {m : Machine σ} {f : Frame} {below : List Frame} (hf : m.frames = f :: below)
    (explicit : Option (List String)) : ∃ n, (m.withFrames below).Quiet n ∧
      m.returnFrame explicit = (n.withScopes (releaseFrames · [f]), true) := by
  obtain ⟨o, targets, vs, hread, -, he⟩ := returnFrame_parts hf explicit
  have hq : m.Quiet o := by
    rcases hread with rfl | ⟨asked, names, rfl⟩
    · exact .refl _
    · exact quiet_readResults m asked names
  exact ⟨_, (hq.withFrames below).trans (quiet_publish _ targets vs), he⟩

theorem frames_returnFrame {m : Machine σ} {f : Frame} {below : List Frame} (hf : m.frames = f :: below)
    (explicit : Option (List String)) : (m.returnFrame explicit).1.frames = below := by
  obtain ⟨n, hq, he⟩ := returnFrame_eq hf explicit
  rw [he]
  exact hq.frames

/-- An early return is a return after a mark. -/
theorem returnEarly_eq (m : Machine σ) (explicit : Option (List String)) :
    ∃ n, m.Calm n ∧ m.returnEarly explicit = n.returnFrame explicit := by
  cases hf : m.frames with
  | nil => exact ⟨m, (Quiet.refl m).calm, (returnEarly_nil hf explicit).trans (returnFrame_nil hf explicit).symm⟩
  | cons f below =>
    cases hl : f.looping with
    | true =>
      refine ⟨_, Calm.of_thread m ?_, returnEarly_of_looping hf hl explicit⟩
      rw [hf]
      rfl
    | false => exact ⟨m, (Quiet.refl m).calm, returnEarly_of_not_looping hf hl explicit⟩

/-- A call resolves its parameters and then, if it can, pushes a frame. -/
theorem call_eq (m : Machine σ) (action : String) (results : List String) (params : Table Value) :
    ∃ n, m.Quiet n ∧ ((m.call action results params).1 = n ∨
      ∃ values, (m.call action results params).1 = n.push action results values) := by
  have hq := quiet_resolve m params
  unfold call
  split
  · next n values hres =>
    rw [hres] at hq
    exact ⟨n, hq, .inr ⟨values, rfl⟩⟩
  · next n e hres =>
    rw [hres] at hq
    exact ⟨n, hq, .inl rfl⟩

theorem unwind_eq (m : Machine σ) (level : Nat) :
    m.unwind level = (m.withFrames (m.frames.drop (m.depth - level))).withScopes
      (releaseFrames · (m.frames.take (m.depth - level))) := rfl

theorem depth_unwind (m : Machine σ) (level : Nat) : (m.unwind level).depth = min m.depth level := by
  show (m.frames.drop (m.depth - level)).length = _
  rw [List.length_drop]
  unfold depth
  omega

theorem depth_unwind_of_le {m : Machine σ} {level : Nat} (h : level ≤ m.depth) : (m.unwind level).depth = level :=
  (depth_unwind m level).trans (Nat.min_eq_right h)

end Machine

/-- Whether one stack is the lower part of another, but for marks. -/
def RestsOn (fs base : List Frame) : Prop := base.map Frame.core <:+ fs.map Frame.core

namespace RestsOn

variable {fs gs base : List Frame}

theorem refl (fs : List Frame) : RestsOn fs fs := List.suffix_rfl

theorem trans (h : RestsOn fs gs) (h' : RestsOn gs base) : RestsOn fs base := List.IsSuffix.trans h' h

theorem congr (h : RestsOn fs base) (hc : gs.map Frame.core = fs.map Frame.core) : RestsOn gs base := by
  unfold RestsOn
  rw [hc]
  exact h

theorem cons (h : RestsOn fs base) (f : Frame) : RestsOn (f :: fs) base :=
  List.IsSuffix.trans h (List.suffix_cons f.core (fs.map Frame.core))

/-- What is cut off a stack above the base leaves it standing. -/
theorem suffix (h : RestsOn fs base) (hg : gs <:+ fs) (hlen : base.length ≤ gs.length) :
    RestsOn gs base :=
  List.suffix_of_suffix_length_le h (hg.map Frame.core) (by simpa using hlen)

theorem length_le (h : RestsOn fs base) : base.length ≤ fs.length := by
  simpa using List.IsSuffix.length_le h

end RestsOn

/-! ## Turns

What a thread does between two instructions is a row of turns. A turn leaves the frames below its floor alone, and its
loops are below its own frames. -/

/-- A loop at work: how many frames are below its own, and its frame as it is put back for each pass. -/
structure Driver where
  level : Nat
  frame : Frame

/-- The level below which a thread in some loops, the innermost first, does not go. -/
def Driver.base : List Driver → Nat
  | [] => 0
  | d :: _ => d.level

/-- One thing that a thread can do without touching the frames below a floor, with the loops it is in
before and after. -/
inductive Turn (floor : Nat) (m : Machine σ) : List Driver → Machine σ → List Driver → Prop
  /-- Reading, saving, deleting and evaluating; fetching, breaking and waiting for jobs. -/
  | calm {ds n} (h : m.Calm n) : Turn floor m ds n ds
  | push {ds} (action : String) (results : List String) (params : Table Value) :
      Turn floor m ds (m.push action results params) ds
  | call {ds} (action : String) (results : List String) (params : Table Value) :
      Turn floor m ds (m.call action results params).1 ds
  | returnFrame {ds} (explicit : Option (List String)) (h : floor ≤ m.depth - 1) :
      Turn floor m ds (m.returnFrame explicit).1 ds
  | returnEarly {ds} (explicit : Option (List String)) (h : floor ≤ m.depth - 1) :
      Turn floor m ds (m.returnEarly explicit).1 ds
  | unwind {ds} (level : Nat) (h : floor ≤ level) : Turn floor m ds (m.unwind level) ds
  /-- A loop begins with the active frame, and holds its scope from now on. -/
  | beginLoop {ds f below} (hf : m.frames = f :: below) (hown : f.ownsScope = true)
      (h : floor ≤ below.length) :
      Turn floor m ds m.disown (⟨below.length, { f with ownsScope := false }⟩ :: ds)
  /-- A loop puts its frame back for another pass. -/
  | repush {ds} (d : Driver) (h : m.depth = d.level) : Turn floor m (d :: ds) (m.repush d.frame) (d :: ds)
  /-- A loop that has left all its frames gives its scope up. -/
  | leaveLoop {ds} (d : Driver) (h : m.depth = d.level) :
      Turn floor m (d :: ds) (m.withScopes (·.release d.frame.scope)) ds

/-- From one world to another an abort stays, and so does the outermost scope. -/
structure World.Onward (v w : World σ) : Prop where
  root : w.request.root = v.request.root
  aborted : v.request.aborted → w.request.aborted

namespace Turn

variable {floor : Nat} {m n : Machine σ} {ds ds' : List Driver}

theorem onward (h : Turn floor m ds n ds') : m.world.Onward n.world := by
  -- Returning publishes values, which may abort the request and never takes that back.
  have leave : ∀ explicit (m : Machine σ), m.world.Onward (m.returnFrame explicit).1.world := by
    intro explicit m
    cases hf : m.frames with
    | nil =>
      unfold Machine.returnFrame
      rw [hf]
      exact ⟨rfl, id⟩
    | cons f below =>
      obtain ⟨o, hq, he⟩ := Machine.returnFrame_eq hf explicit
      rw [he]
      exact ⟨hq.root, hq.aborted⟩
  cases h with
  | calm hc => exact ⟨hc.root, hc.aborted⟩
  | push action results params => exact ⟨rfl, id⟩
  | call action results params =>
    obtain ⟨o, hq, he | ⟨values, he⟩⟩ := Machine.call_eq m action results params
    · rw [he]
      exact ⟨hq.root, hq.aborted⟩
    · rw [he]
      exact ⟨hq.root, hq.aborted⟩
  | returnFrame explicit hfloor => exact leave explicit m
  | returnEarly explicit hfloor =>
    obtain ⟨o, hc, he⟩ := Machine.returnEarly_eq m explicit
    rw [he]
    have ho := leave explicit o
    exact ⟨ho.root.trans hc.root, fun ha => ho.aborted (hc.aborted ha)⟩
  | unwind level hfloor => exact ⟨rfl, id⟩
  | @beginLoop _ f below hf hown hfloor =>
    rw [Machine.disown_of_cons hf]
    exact ⟨rfl, id⟩
  | repush d hlevel => exact ⟨rfl, id⟩
  | leaveLoop d hlevel => exact ⟨rfl, id⟩

/-- A turn leaves all below its floor standing. -/
theorem rests (h : Turn floor m ds n ds') {base : List Frame} (hlen : base.length ≤ floor)
    (hb : RestsOn m.frames base) : RestsOn n.frames base := by
  have leave : ∀ explicit (m : Machine σ), floor ≤ m.depth - 1 → RestsOn m.frames base →
      RestsOn (m.returnFrame explicit).1.frames base := by
    intro explicit m hfloor hb
    cases hf : m.frames with
    | nil =>
      unfold Machine.returnFrame
      rw [hf]
      exact hb
    | cons f below =>
      obtain ⟨o, hq, he⟩ := Machine.returnFrame_eq hf explicit
      have ho : o.frames = below := hq.frames
      rw [he]
      show RestsOn o.frames base
      unfold Machine.depth at hfloor
      rw [hf] at hb hfloor
      rw [ho]
      exact hb.suffix (List.suffix_cons f below) (hlen.trans hfloor)
  cases h with
  | calm hc => exact hb.congr hc.frames
  | push action results params => exact hb.cons _
  | call action results params =>
    obtain ⟨o, hq, he | ⟨values, he⟩⟩ := Machine.call_eq m action results params
    · rw [he]
      exact hb.congr hq.calm.frames
    · rw [he]
      exact RestsOn.cons (hb.congr hq.calm.frames) _
  | returnFrame explicit hfloor => exact leave explicit m hfloor hb
  | returnEarly explicit hfloor =>
    obtain ⟨o, hc, he⟩ := Machine.returnEarly_eq m explicit
    rw [he]
    exact leave explicit o (hc.depth.symm ▸ hfloor) (hb.congr hc.frames)
  | unwind level hfloor =>
    -- What is cut off is above the level, and the base is below it.
    have hdepth := hb.length_le
    refine hb.suffix (List.drop_suffix (m.depth - level) m.frames) ?_
    show base.length ≤ (m.unwind level).depth
    rw [Machine.depth_unwind]
    exact Nat.le_min.2 ⟨hdepth, hlen.trans hfloor⟩
  | @beginLoop _ f below hf hown hfloor =>
    have hbelow : RestsOn below base := by
      rw [hf] at hb
      exact hb.suffix (List.suffix_cons f below) (hlen.trans hfloor)
    rw [Machine.disown_of_cons hf]
    exact hbelow.cons _
  | repush d hlevel => exact hb.cons _
  | leaveLoop d hlevel => exact hb

/-- Whoever may go down to a floor may stay above it. -/
theorem mono (h : Turn floor m ds n ds') {floor' : Nat} (hle : floor' ≤ floor) : Turn floor' m ds n ds' := by
  cases h with
  | calm hc => exact .calm hc
  | push action results params => exact .push action results params
  | call action results params => exact .call action results params
  | returnFrame explicit hfloor => exact .returnFrame explicit (hle.trans hfloor)
  | returnEarly explicit hfloor => exact .returnEarly explicit (hle.trans hfloor)
  | unwind level hfloor => exact .unwind level (hle.trans hfloor)
  | beginLoop hf hown hfloor => exact .beginLoop hf hown (hle.trans hfloor)
  | repush d hlevel => exact .repush d hlevel
  | leaveLoop d hlevel => exact .leaveLoop d hlevel

end Turn

/-! ## Pools

A pool has some threads, each with its loops, and any of them may take the next turn. Threads come by forking and go
when they are dropped. -/

/-- A thread with the loops that it is in, the innermost first. -/
structure Worker (σ : Type) where
  thread : Thread σ
  loops : List Driver

/-- A world with all the threads that work in it. -/
structure Pool (σ : Type) where
  world : World σ
  workers : Multiset (Worker σ)

namespace Pool

/-- The machine that a thread is in the world of a pool. -/
def machine (p : Pool σ) (w : Worker σ) : Machine σ := ⟨p.world, w.thread⟩

def scopes (p : Pool σ) : Arena := p.world.request.scopes

def root (p : Pool σ) : ScopeId := p.world.request.root

/-- What can happen next in a pool. A thread that is in a loop is not given up: its loops come to their ends before it
does, in all runs that come to an end at all. Only a panic in the middle of a loop would do so, and is left out. -/
inductive Step (p : Pool σ) : Pool σ → Prop
  /-- Any thread does something, above the innermost of its loops. -/
  | turn {w rest m ds} (hw : p.workers = w ::ₘ rest)
      (h : Turn (Driver.base w.loops) (p.machine w) w.loops m ds) :
      Step p ⟨m.world, ⟨m.thread, ds⟩ ::ₘ rest⟩
  /-- A new thread starts to work on the request. -/
  | enter : Step p ⟨p.world.enter.world, ⟨p.world.enter.thread, []⟩ ::ₘ p.workers⟩
  /-- A thread starts another one on a copy of its stack. -/
  | fork {w rest} (hw : p.workers = w ::ₘ rest) :
      Step p ⟨(p.machine w).fork.1.world, ⟨(p.machine w).fork.2, []⟩ ::ₘ p.workers⟩
  /-- A thread that is in no loop is given up. -/
  | drop {w rest} (hw : p.workers = w ::ₘ rest) (hl : w.loops = []) :
      Step p ⟨(p.machine w).finish.world, rest⟩

/-- A pool in which a request begins: there is no thread yet. -/
def Initial (p : Pool σ) : Prop :=
  p.workers = 0 ∧ ∃ params session detached,
    p.world.request = { Request.new params session with detached }

/-- What the threads of a request can lead to, in any order of their turns. -/
def Reachable (p : Pool σ) : Prop := ∃ q : Pool σ, q.Initial ∧ Relation.ReflTransGen Step q p

end Pool
end Sequencer
