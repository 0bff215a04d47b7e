import Sequencer.Engine
import Sequencer.Proofs.Schedule

/-!
# What a reference count says

The accounts of a pool, spelled out: a count is a sum over the frames and loops of all threads, the request
and the scopes inside. What follows is what the counts are for. No frame names a scope that is gone, and
nothing but the outermost scope is left once all threads are.
-/

namespace Sequencer

variable {σ : Type}

/-! ## Counting

The references on a scope, counted by who has them. -/

namespace Pool

/-- How many frames of all threads own a scope. -/
def owners (p : Pool σ) (id : ScopeId) : Nat :=
  (p.workers.map fun w => w.thread.frames.countP fun f => f.ownsScope && f.scope = id).sum

/-- How many loops of all threads hold a scope. -/
def drivers (p : Pool σ) (id : ScopeId) : Nat :=
  (p.workers.map fun w => w.loops.countP fun d => d.frame.scope = id).sum

end Pool

theorem count_ownedScopes (fs : List Frame) (id : ScopeId) :
    (ownedScopes fs).count id = fs.countP fun f => f.ownsScope && f.scope = id := by
  unfold ownedScopes
  rw [List.count_eq_countP, List.countP_map, List.countP_filter]
  apply List.countP_congr
  intro f _
  simp [and_comm]

theorem count_heldBy (fs : List Frame) (ds : List Driver) (id : ScopeId) :
    (heldBy fs ds).count id =
      (fs.countP fun f => f.ownsScope && f.scope = id) + ds.countP fun d => d.frame.scope = id := by
  unfold heldBy
  rw [Multiset.count_add, Multiset.coe_count, Multiset.coe_count, count_ownedScopes,
    List.count_eq_countP, List.countP_map]
  congr 1

theorem Pool.count_held (p : Pool σ) (id : ScopeId) :
    p.held.count id = (if id = p.root then 1 else 0) + p.owners id + p.drivers id := by
  unfold held holders owners drivers
  rw [Multiset.count_cons, Multiset.count_bind, add_assoc, ← Multiset.sum_map_add, add_comm]
  simp only [Worker.held, count_heldBy]

/-! ## What is left at the end

With all frames and loops gone, the root scope is all that is held, and nothing is inside of it. -/

namespace Arena

/-- An arena in which one scope lives has one slot in use. -/
theorem Balanced.live_eq_one {a : Arena} {held : Multiset ScopeId} (h : a.Balanced held) {root : ScopeId}
    (honly : ∀ id, a.isLive id ↔ id = root) : a.live = 1 := by
  obtain ⟨s, hs⟩ := Arena.isLive_iff.1 ((honly root).2 rfl)
  obtain ⟨hslot, hgen, hsome⟩ := slot?_eq_some.1 hs
  -- Without it no slot is in use.
  have hcount := countP_setSlot hslot ⟨none, 0, 0⟩ (·.env.isSome)
  have hzero : (a.setSlot root.index ⟨none, 0, 0⟩).slots.countP (·.env.isSome) = 0 := by
    rw [Array.countP_eq_zero]
    intro t ht hocc
    obtain ⟨j, hj⟩ := Array.mem_iff_getElem?.1 ht
    rw [getElem?_setSlot hslot] at hj
    split_ifs at hj with hroot
    · cases hj
      cases hocc
    · have hfound : a.slot? ⟨j, t.generation⟩ = some t := slot?_eq_some.2 ⟨hj, rfl, hocc⟩
      exact hroot (congrArg ScopeId.index ((honly _).1 (Arena.isLive_iff.2 ⟨t, hfound⟩)))
  rw [hzero, if_pos hsome, if_neg (by simp)] at hcount
  rw [h.live_eq]
  exact hcount.symm

end Arena

namespace Pool

/-- There is nothing around the outermost scope. -/
theorem Reachable.parent?_root {p : Pool σ} (h : p.Reachable) : p.scopes.parent? p.root = none := by
  obtain ⟨o, ho, hr⟩ := h
  induction hr with
  | refl =>
    obtain ⟨-, params, session, detached, hreq⟩ := ho
    unfold scopes root
    rw [hreq]
    exact Arena.balanced_new.tidy.parent?_alloc none params
  | @tail p q hr hs ih =>
    have hp : p.Sound := Reachable.sound ⟨o, ho, hr⟩
    obtain ⟨hq, hstable⟩ := hs.sound hp
    have hroot : q.root = p.root := hs.onward.root
    have hlive : q.scopes.isLive p.root :=
      hroot ▸ hq.balanced.held_live (root_mem_holders q.root q.workers)
    rw [hroot, hstable _ (hp.balanced.held_live (root_mem_holders p.root p.workers)) hlive]
    exact ih

/-- Without threads the outermost scope is all that is held, and so the only one. -/
theorem Reachable.isLive_iff_root {p : Pool σ} (h : p.Reachable) (hw : p.workers = 0) (id : ScopeId) :
    p.scopes.isLive id ↔ id = p.root := by
  have hb := h.sound.balanced
  have hheld : p.held = {p.root} := by
    unfold held holders
    rw [hw, Multiset.zero_bind]
    rfl
  rw [hheld] at hb
  rw [hb.isLive_iff_reaches]
  constructor
  · intro hr
    induction hr with
    | held hm => exact Multiset.mem_singleton.1 hm
    | around _ hp ih =>
      rw [ih, h.parent?_root] at hp
      cases hp
  · rintro rfl
    exact .held (Multiset.mem_singleton_self p.root)

end Pool

/-! ## Runs of the interpreter

What the interpreter does when it executes an action is a row of steps of a pool. -/

namespace Engine

/-- Running an action for a request is a sequence of steps of its pool, whoever else works on it. -/
theorem execute_above {e : Engine σ} {fuel : Nat} {w v : World σ} {action : String} {ok : Bool}
    (h : e.execute fuel w action = some (v, ok)) {others : Multiset (Worker σ)}
    {held : Multiset ScopeId} (hheld : held ≤ holders w.request.root others) :
    Pool.Above held ⟨w, others⟩ ⟨v, others⟩ := by
  unfold execute at h
  split at h
  · cases h
  · next m hrun =>
    cases h
    have hs : Stance [] [] held others w.enter := Stance.alone hheld
    have henter : Pool.Above held ⟨w, others⟩ (w.enter.within [] others) := .single .enter hs.le_held
    have hl := hs.refl.turn (.push action (splitNames actionResult) [])
    obtain ⟨hl', -⟩ := (Machine.runsCycle_of_runCycle fuel hrun).leads rfl hl.stance
    have habove := henter.trans (hl.above.trans hl'.above)
    exact habove.trans (Stance.giveUp (habove.onward.root ▸ hheld))

end Engine

/-! ## The whole picture

The count is right in every pool that can be reached, with an example in the middle of a loop. -/

namespace Pool

/-- In every pool that threads can reach by turns in any order, the count of a scope is one for the request
if it is the outermost scope, and one for each frame that owns it, for each loop that holds it and for
each scope inside it. So every frame names a scope that is there, and once there are no threads the
outermost scope is the only one. The runs of the interpreter do not leave these pools. -/
theorem references_exact {p : Pool σ} (h : p.Reachable) :
    (∀ id s, p.scopes.slot? id = some s →
      s.refs = (if id = p.root then 1 else 0) + p.owners id + p.drivers id + p.scopes.children id) ∧
    (∀ w ∈ p.workers, ∀ f ∈ w.thread.frames, p.scopes.isLive f.scope) ∧
    (p.workers = 0 → (∀ id, p.scopes.isLive id ↔ id = p.root) ∧ p.scopes.live = 1) ∧
    ∀ (e : Engine σ) fuel action v ok, e.execute fuel p.world action = some (v, ok) →
      Reachable ⟨v, p.workers⟩ := by
  have hsound := h.sound
  refine ⟨?_, ?_, ?_, ?_⟩
  · intro id s hs
    rw [← count_held]
    exact hsound.balanced.refs hs
  · intro w hw f hf
    have hm : f.scope ∈ w.held := (hsound.stacked w hw).mem_heldBy hf
    exact hsound.balanced.held_live (mem_holders hw hm p.root)
  · intro hw
    have honly := h.isLive_iff_root hw
    exact ⟨honly, hsound.balanced.live_eq_one honly⟩
  · intro e fuel action v ok hrun
    exact (Engine.execute_above hrun (Multiset.zero_le _)).reachable h

/-- A request with a thread in the middle of a loop, whose body has called another action, and a copy of
that thread. -/
def midLoop : Pool Unit :=
  let w := World.new (Store.ofProperties []) (Request.new [] none) ()
  let entered := (w.enter.push "LOOP" [] []).disown
  let m := entered.push "STEP" [] []
  let loop : Driver := ⟨0, ⟨"LOOP", 0, [], ⟨1, 0⟩, false, false, 0⟩⟩
  ⟨m.fork.1.world, ⟨m.fork.2, []⟩ ::ₘ ⟨m.thread, [loop]⟩ ::ₘ 0⟩

theorem midLoop_reachable : midLoop.Reachable := by
  let w := World.new (Store.ofProperties []) (Request.new [] none) ()
  let f : Frame := ⟨"LOOP", 0, [], ⟨1, 0⟩, false, true, 0⟩
  let loop : Driver := ⟨0, { f with ownsScope := false }⟩
  have h₁ : Reachable ((w.enter.push "LOOP" [] []).within [] 0) :=
    .begin ⟨rfl, [], none, false, rfl⟩ "LOOP" [] []
  have h₂ : Reachable ((w.enter.push "LOOP" [] []).disown.within [loop] 0) :=
    h₁.step (@Step.turn Unit ((w.enter.push "LOOP" [] []).within [] 0) ⟨_, []⟩ 0 _ _ rfl
      (@Turn.beginLoop Unit 0 _ [] f [] rfl rfl (Nat.le_refl 0)))
  have h₃ : Reachable (((w.enter.push "LOOP" [] []).disown.push "STEP" [] []).within [loop] 0) :=
    h₂.step (@Step.turn Unit ((w.enter.push "LOOP" [] []).disown.within [loop] 0) ⟨_, [loop]⟩ 0 _ _ rfl
      (.push _ _ _))
  exact h₃.step (@Step.fork Unit (((w.enter.push "LOOP" [] []).disown.push "STEP" [] []).within [loop] 0)
    ⟨_, [loop]⟩ 0 rfl)

/-- The scope of the loop's frame there: the loop holds it, the copy owns it, and one scope is inside. -/
theorem references_exact_midLoop :
    midLoop.Reachable ∧ (midLoop.scopes.slot? ⟨1, 0⟩).map (·.refs) = some 3 ∧
      (0 + midLoop.owners ⟨1, 0⟩ + midLoop.drivers ⟨1, 0⟩ + midLoop.scopes.children ⟨1, 0⟩ = 3) ∧
      ∀ w ∈ midLoop.workers, ∀ f ∈ w.thread.frames, midLoop.scopes.isLive f.scope := by
  obtain ⟨hrefs, hlive, -⟩ := references_exact midLoop_reachable
  have hslot : midLoop.scopes.slot? ⟨1, 0⟩ = some ⟨some ⟨[], some ⟨0, 0⟩⟩, 0, 3⟩ := by rfl
  refine ⟨midLoop_reachable, by rw [hslot]; rfl, ?_, hlive⟩
  exact (hrefs _ _ hslot).symm

end Pool
end Sequencer
