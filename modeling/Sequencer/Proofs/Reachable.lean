import Sequencer.Proofs.Accounting

/-!
# Every pool that can be reached

The accounts hold when a request begins and whatever any of its threads does, so they hold in every order of
turns. A fork is the one step in which holds multiply: the copy takes a reference for each of its frames,
also for those that the stack has only borrowed from a loop.
-/

namespace Sequencer

variable {σ : Type}

/-- What a thread holds. -/
def Worker.held (w : Worker σ) : Multiset ScopeId := heldBy w.thread.frames w.loops

/-- What a request and threads at work on it hold. -/
def holders (root : ScopeId) (workers : Multiset (Worker σ)) : Multiset ScopeId :=
  root ::ₘ workers.bind Worker.held

theorem holders_cons (root : ScopeId) (w : Worker σ) (rest : Multiset (Worker σ)) :
    holders root (w ::ₘ rest) = w.held + holders root rest := by
  unfold holders
  rw [Multiset.cons_bind, Multiset.add_cons]

theorem root_mem_holders (root : ScopeId) (workers : Multiset (Worker σ)) : root ∈ holders root workers :=
  Multiset.mem_cons_self root _

theorem mem_holders {workers : Multiset (Worker σ)} {w : Worker σ} (hw : w ∈ workers) {id : ScopeId}
    (hid : id ∈ w.held) (root : ScopeId) : id ∈ holders root workers :=
  Multiset.mem_cons.2 (.inr (Multiset.mem_bind.2 ⟨w, hw, hid⟩))

/-! ## Copies

A copy takes a reference on each scope of its stack, so that it may go on after the thread is gone. -/

namespace Machine

theorem env?_retainFrames (fs : List Frame) (a : Arena) (id : ScopeId) :
    (retainFrames a fs).env? id = a.env? id := by
  unfold retainFrames
  induction fs generalizing a with
  | nil => rfl
  | cons f fs ih =>
    rw [List.foldl_cons, ih]
    exact Arena.env?_retain a f.scope id

theorem sub_retainFrames (fs : List Frame) (a : Arena) : a.Sub (retainFrames a fs) := by
  intro id env h
  rw [env?_retainFrames]
  exact h

/-- A copy of a stack is one more holder of each of its scopes. -/
theorem balanced_retainFrames {held : Multiset ScopeId} (fs : List Frame) {a : Arena}
    (h : a.Balanced held) (hlive : ∀ f ∈ fs, a.isLive f.scope) :
    (retainFrames a fs).Balanced (↑(fs.map (·.scope)) + held) := by
  unfold retainFrames
  induction fs generalizing a held with
  | nil => simpa using h
  | cons f fs ih =>
    rw [List.foldl_cons, List.map_cons, ← Multiset.cons_coe, Multiset.cons_add, ← Multiset.add_cons]
    refine ih (h.retain (hlive f List.mem_cons_self)) fun g hg => ?_
    exact (Arena.sub_retain a f.scope).isLive (hlive g (List.mem_cons_of_mem f hg))

end Machine

/-- The frames of a copy. -/
theorem ownedScopes_owning (fs : List Frame) :
    ownedScopes (fs.map fun f => { f with ownsScope := true }) = fs.map (·.scope) := by
  induction fs with
  | nil => rfl
  | cons f fs ih =>
    rw [List.map_cons, ownedScopes_cons, ih]
    rfl

theorem topScope_owning (root : ScopeId) (fs : List Frame) :
    topScope root (fs.map fun f => { f with ownsScope := true }) = topScope root fs := by
  cases fs <;> rfl

/-- The copy of a stack mirrors the scopes on its own: no frame in it borrows. -/
theorem Stacked.copy {a : Arena} {root : ScopeId} {fs : List Frame} {ds : List Driver}
    (h : Stacked a root fs ds) : Stacked a root (fs.map fun f => { f with ownsScope := true }) [] := by
  constructor
  case linked =>
    rintro f below ⟨above, he⟩
    obtain ⟨fs₁, fs₂, rfl, -, hf⟩ := List.map_eq_append_iff.1 he.symm
    obtain ⟨g, gs, rfl, rfl, rfl⟩ := List.map_eq_cons_iff.1 hf
    -- The copy has the same scopes, whoever owns them.
    rw [topScope_owning]
    exact h.linked (f := g) (List.suffix_append fs₁ (g :: gs))
  case lent =>
    intro f below hsuf hown
    obtain ⟨g, -, rfl⟩ := List.mem_map.1 (hsuf.mem List.mem_cons_self)
    cases hown
  case loops =>
    intro d hd
    cases hd
  case ordered => exact .nil
  case lends =>
    intro d hd
    cases hd

/-! ## Steps

Each step of a pool keeps the counts. A thread that begins or ends brings its holds along. -/

namespace Pool

/-- What all holders of a pool hold. -/
def held (p : Pool σ) : Multiset ScopeId := holders p.root p.workers

/-- The accounts of a pool are right, and its stacks mirror its scopes. -/
structure Sound (p : Pool σ) : Prop where
  balanced : p.scopes.Balanced p.held
  stacked : ∀ w ∈ p.workers, Stacked p.scopes p.root w.thread.frames w.loops

namespace Sound

variable {p : Pool σ} {w : Worker σ} {rest : Multiset (Worker σ)}

theorem held_cons (hw : p.workers = w ::ₘ rest) : p.held = w.held + holders p.root rest := by
  unfold held
  rw [hw, holders_cons]

/-- For a single thread, all that the others hold is fixed. -/
theorem accounted (h : p.Sound) (hw : p.workers = w ::ₘ rest) :
    Machine.Accounted (holders p.root rest) (p.machine w) w.loops where
  balanced := by
    have hb := h.balanced
    rw [held_cons hw] at hb
    exact hb
  root := root_mem_holders p.root rest
  stacked := h.stacked w (hw ▸ Multiset.mem_cons_self w rest)

/-- Stacks still mirror the scopes after others have worked on them, as long as their holds stay. -/
theorem still (h : p.Sound) {a : Arena} (hs : p.scopes.Stable a) {held : Multiset ScopeId}
    (hb : a.Balanced held) (hmem : w ∈ p.workers) (hheld : ∀ id ∈ w.held, id ∈ held) :
    Stacked a p.root w.thread.frames w.loops := by
  refine (h.stacked w hmem).stable hs ?_ ?_
  · intro id hid
    exact h.balanced.held_live (mem_holders hmem hid p.root)
  · intro id hid
    exact hb.held_live (hheld id hid)

/-- One thread has moved on. -/
theorem turn (h : p.Sound) (hw : p.workers = w ::ₘ rest) {m : Machine σ} {ds : List Driver}
    (ht : Turn (Driver.base w.loops) (p.machine w) w.loops m ds) :
    Sound ⟨m.world, ⟨m.thread, ds⟩ ::ₘ rest⟩ ∧ p.scopes.Stable m.scopes := by
  obtain ⟨hm, hs⟩ := (h.accounted hw).turn ht
  have hroot : m.request.root = p.root := ht.onward.root
  have hb : m.scopes.Balanced (holders m.request.root (⟨m.thread, ds⟩ ::ₘ rest)) := by
    rw [holders_cons, hroot]
    exact hm.balanced
  refine ⟨⟨hb, ?_⟩, hs⟩
  intro u hu
  rcases Multiset.mem_cons.1 hu with rfl | hrest
  · exact hm.stacked
  · show Stacked m.scopes m.request.root u.thread.frames u.loops
    rw [hroot]
    exact h.still hs hb (hw ▸ Multiset.mem_cons_of_mem hrest) fun id hid => mem_holders hu hid _

/-- A request that is entered has a thread more, with a scope of its own. -/
theorem enter (h : p.Sound) : Sound ⟨p.world.enter.world, ⟨p.world.enter.thread, []⟩ ::ₘ p.workers⟩ ∧
    p.scopes.Stable p.world.enter.scopes := by
  refine ⟨⟨?_, ?_⟩, (Arena.Sub.refl _).stable⟩
  · show p.scopes.Balanced (holders p.root _)
    rw [holders_cons]
    exact (zero_add p.held).symm ▸ h.balanced
  · intro u hu
    rcases Multiset.mem_cons.1 hu with rfl | hrest
    · constructor
      case linked =>
        intro f below hsuf
        cases List.eq_nil_of_suffix_nil hsuf
      case lent =>
        intro f below hsuf
        cases List.eq_nil_of_suffix_nil hsuf
      case loops =>
        intro d hd
        cases hd
      case ordered => exact .nil
      case lends =>
        intro d hd
        cases hd
    · exact h.stacked u hrest

/-- A fork holds the scopes of its parent's frames, besides the parent. -/
theorem fork (h : p.Sound) (hw : p.workers = w ::ₘ rest) :
    Sound ⟨(p.machine w).fork.1.world, ⟨(p.machine w).fork.2, []⟩ ::ₘ p.workers⟩ ∧
      p.scopes.Stable (p.machine w).fork.1.scopes := by
  have hmem : w ∈ p.workers := hw ▸ Multiset.mem_cons_self w rest
  have hst := h.stacked w hmem
  have hs := (Machine.sub_retainFrames w.thread.frames p.scopes).stable
  -- The copy holds the scope of each of its frames, also where its parent has lent it to a loop.
  have hheld : Worker.held (⟨(p.machine w).fork.2, []⟩ : Worker σ) = ↑(w.thread.frames.map (·.scope)) := by
    show heldBy (w.thread.frames.map fun f => { f with ownsScope := true }) [] = _
    unfold heldBy
    rw [ownedScopes_owning]
    exact add_zero _
  have hlive : ∀ f ∈ w.thread.frames, p.scopes.isLive f.scope := fun f hf =>
    h.balanced.held_live (mem_holders hmem (hst.mem_heldBy hf) p.root)
  have hb : (Machine.retainFrames p.scopes w.thread.frames).Balanced
      (holders p.root (⟨(p.machine w).fork.2, []⟩ ::ₘ p.workers)) := by
    rw [holders_cons, hheld]
    exact Machine.balanced_retainFrames _ h.balanced hlive
  refine ⟨⟨hb, ?_⟩, hs⟩
  intro u hu
  rcases Multiset.mem_cons.1 hu with rfl | hrest
  · exact (h.still hs hb hmem fun id hid =>
      mem_holders (Multiset.mem_cons_of_mem hmem) hid _).copy
  · exact h.still hs hb hrest fun id hid => mem_holders hu hid _

/-- A context that is dropped gives back what it held, and nothing of anybody else. -/
theorem drop (h : p.Sound) (hw : p.workers = w ::ₘ rest) (hl : w.loops = []) :
    Sound ⟨(p.machine w).finish.world, rest⟩ ∧ p.scopes.Stable (p.machine w).finish.scopes := by
  have hacc := h.accounted hw
  rw [hl] at hacc
  obtain ⟨hm, hs⟩ := hacc.unwind 0 (Nat.zero_le 0)
  have hb : (p.machine w).finish.scopes.Balanced (holders p.root rest) := by
    have hframes : ((p.machine w).unwind 0).frames = [] := List.drop_length
    have hz := hm.balanced
    rw [hframes] at hz
    exact (zero_add (holders p.root rest)) ▸ hz
  refine ⟨⟨hb, ?_⟩, hs⟩
  intro u hu
  exact h.still hs hb (hw ▸ Multiset.mem_cons_of_mem hu) fun id hid => mem_holders hu hid _

end Sound

/-- No step of any thread breaks the accounts. -/
theorem Step.sound {p q : Pool σ} (hs : p.Step q) (h : p.Sound) : q.Sound ∧ p.scopes.Stable q.scopes := by
  cases hs with
  | turn hw ht => exact h.turn hw ht
  | enter => exact h.enter
  | fork hw => exact h.fork hw
  | drop hw hl => exact h.drop hw hl

theorem Step.onward {p q : Pool σ} (hs : p.Step q) : p.world.Onward q.world := by
  cases hs with
  | turn hw ht => exact ht.onward
  | enter => exact ⟨rfl, id⟩
  | fork hw => exact ⟨rfl, id⟩
  | drop hw hl => exact ⟨rfl, id⟩

/-- A new request has nothing but its outermost scope. -/
theorem Initial.sound {p : Pool σ} (h : p.Initial) : p.Sound := by
  obtain ⟨hw, params, session, detached, hr⟩ := h
  have hscopes : p.scopes = (Arena.new.alloc none params).1 := by
    unfold scopes
    rw [hr]
    rfl
  have hroot : p.root = (Arena.new.alloc none params).2 := by
    unfold root
    rw [hr]
    rfl
  refine ⟨?_, ?_⟩
  · unfold held holders
    rw [hw, Multiset.zero_bind, hscopes, hroot]
    refine Arena.balanced_new.alloc ?_ params
    intro p hp
    cases hp
  · intro w hmem
    rw [hw] at hmem
    cases Multiset.notMem_zero w hmem

theorem Reachable.step {p q : Pool σ} (h : p.Reachable) (hs : p.Step q) : q.Reachable := by
  obtain ⟨o, ho, hr⟩ := h
  exact ⟨o, ho, hr.tail hs⟩

/-- The accounts are right in every pool that can be reached. The induction is on the steps to it. -/
theorem Reachable.sound {p : Pool σ} (h : p.Reachable) : p.Sound := by
  obtain ⟨o, ho, hr⟩ := h
  induction hr with
  | refl => exact ho.sound
  | tail _ hs ih => exact (hs.sound ih).1

end Pool
end Sequencer
