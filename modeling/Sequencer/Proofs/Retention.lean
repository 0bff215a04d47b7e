import Sequencer.Proofs.Lookup
import Sequencer.Proofs.Reachable

/-!
# References on scopes that live anyway

A copy of a stack takes a reference on each of its scopes. As long as these scopes live without the references
too, nothing depends on them: every operation comes to the same scopes whether the references are there or not,
and once they are given back the arena is what it would have been without them. Where that is the case they can
be taken before an operation or after it.
-/

namespace Sequencer

/-- A slot with its count forgotten. -/
def Slot.uncounted (s : Slot) : Slot := { s with refs := 0 }

/-- What a new reference on a scope makes of the slot at an index. -/
def Slot.retained (x : ScopeId) (i : Nat) (s : Slot) : Slot :=
  if i = x.index ∧ s.generation = x.generation ∧ s.env.isSome then { s with refs := s.refs + 1 } else s

namespace Arena

/-- An arena with all counts forgotten. -/
def uncounted (a : Arena) : Arena := { a with slots := a.slots.map Slot.uncounted }

variable {a b : Arena} {held : Multiset ScopeId} {x id : ScopeId} {s : Slot}

/-! ## Slot by slot

A slot is found by its place, so that two arenas are compared place by place. -/

/-- Arenas are told apart by their slots, the slots that are free, and the number of scopes. -/
theorem ext_slots (hs : ∀ i : Nat, a.slots[i]? = b.slots[i]?) (hf : a.free = b.free) (hl : a.live = b.live) :
    a = b := by
  obtain ⟨slots, free, live⟩ := a
  obtain ⟨slots', free', live'⟩ := b
  have : slots = slots' := Array.ext_getElem? hs
  cases this
  cases hf
  cases hl
  rfl

/-- Retaining a scope changes the slot of its handle alone. -/
theorem getElem?_retain (a : Arena) (x : ScopeId) (i : Nat) :
    (a.retain x).slots[i]? = a.slots[i]?.map (Slot.retained x i) := by
  unfold retain
  cases hs : a.slot? x with
  | none =>
    show a.slots[i]? = _
    cases hi : a.slots[i]? with
    | none => rfl
    | some s =>
      rw [Option.map_some, Slot.retained, if_neg]
      rintro ⟨rfl, hg, he⟩
      have hx : a.slot? x = some s := slot?_eq_some.2 ⟨hi, hg, he⟩
      rw [hs] at hx
      cases hx
  | some s =>
    obtain ⟨hslot, hg, he⟩ := slot?_eq_some.1 hs
    show (a.setSlot x.index _).slots[i]? = _
    rw [getElem?_setSlot hslot]
    split_ifs with hi
    · rw [hi, hslot, Option.map_some, Slot.retained, if_pos ⟨rfl, hg, he⟩]
    · cases a.slots[i]? with
      | none => rfl
      | some t => rw [Option.map_some, Slot.retained, if_neg fun h => hi h.1]

/-- Read by handle, the scope has one reference more. -/
theorem slot?_retain (hx : a.slot? x = some s) (id : ScopeId) :
    (a.retain x).slot? id = if id = x then some { s with refs := s.refs + 1 } else a.slot? id := by
  unfold retain
  rw [hx]
  exact slot?_setSlot (t := { s with refs := s.refs + 1 }) hx rfl (slot?_eq_some.1 hx).2.2 id

/-- Two references may be counted in either order. -/
theorem retained_comm (x y : ScopeId) (i : Nat) (s : Slot) :
    Slot.retained y i (Slot.retained x i s) = Slot.retained x i (Slot.retained y i s) := by
  unfold Slot.retained
  by_cases hx : i = x.index ∧ s.generation = x.generation ∧ s.env.isSome
  · by_cases hy : i = y.index ∧ s.generation = y.generation ∧ s.env.isSome
    · simp only [if_pos hx, if_pos hy]
    · simp only [if_pos hx, if_neg hy]
  · simp only [if_neg hx]
    by_cases hy : i = y.index ∧ s.generation = y.generation ∧ s.env.isSome
    · simp only [if_pos hy, if_neg hx]
    · simp only [if_neg hy, if_neg hx]

/-- The order of references does not matter. -/
theorem retain_comm (a : Arena) (x y : ScopeId) : (a.retain x).retain y = (a.retain y).retain x := by
  apply ext_slots
  · intro i
    simp only [getElem?_retain, Option.map_map]
    exact congrArg (Option.map · _) (funext fun s => retained_comm x y i s)
  · simp only [free_retain]
  · simp only [live_retain]

/-- Another slot can be changed before a reference is taken or after. -/
theorem retain_setSlot {i : Nat} (hi : i ≠ x.index) (t : Slot) :
    (a.setSlot i t).retain x = (a.retain x).setSlot i t := by
  apply ext_slots
  · intro j
    show _ = ((a.retain x).slots.setIfInBounds i t)[j]?
    rw [getElem?_retain]
    show ((a.slots.setIfInBounds i t)[j]?).map _ = _
    rw [Array.getElem?_setIfInBounds, Array.getElem?_setIfInBounds, size_retain, getElem?_retain]
    by_cases hj : i = j
    · subst hj
      rw [if_pos rfl, if_pos rfl]
      split_ifs with hlt
      · rw [Option.map_some, Slot.retained, if_neg fun h => hi h.1]
      · rfl
    · rw [if_neg hj, if_neg hj]
  · exact (free_retain _ x).trans (free_retain a x).symm
  · exact (live_retain _ x).trans (live_retain a x).symm

/-- A slot that is written twice has what was written last. -/
theorem setSlot_setSlot (a : Arena) (i : Nat) (s t : Slot) : (a.setSlot i s).setSlot i t = a.setSlot i t := by
  unfold setSlot
  simp

/-- Writing a slot back changes nothing. -/
theorem setSlot_self {i : Nat} (h : a.slots[i]? = some s) : a.setSlot i s = a := by
  apply ext_slots
  · intro j
    rw [getElem?_setSlot h]
    split_ifs with hj
    · rw [hj, h]
    · rfl
  · rfl
  · rfl

/-- Vacating another slot does not touch the one that is retained. -/
theorem retain_vacate {i : Nat} (hi : i ≠ x.index) (s : Slot) :
    (a.vacate i s).retain x = (a.retain x).vacate i s := by
  have hslots := congrArg Arena.slots (retain_setSlot (a := a) hi ⟨none, s.generation + 1, 0⟩)
  apply ext_slots
  · intro j
    rw [getElem?_retain]
    have hj := congrArg (fun slots : Array Slot => slots[j]?) hslots
    simp only [getElem?_retain] at hj
    exact hj
  · rw [free_retain]
    show i :: a.free = i :: (a.retain x).free
    rw [free_retain]
  · rw [live_retain]
    show a.live - 1 = (a.retain x).live - 1
    rw [live_retain]

/-! ## Releasing

A release with one reference more around ends in the same arena with one reference more. -/

/-- One more reference on a scope that is not released makes no difference to a chain of releases. The reference is
held from before to after, so that the chain stops at the scope or passes it by in the same way. -/
theorem releaseChain_retain {fuel : Nat} {o : Option ScopeId} (h : (a.releaseChain fuel o).isLive x) :
    (a.retain x).releaseChain fuel o = (a.releaseChain fuel o).retain x := by
  induction fuel generalizing a o with
  | zero => rfl
  | succ fuel ih =>
    cases o with
    | none => rfl
    | some id =>
      obtain ⟨t, ht⟩ := isLive_iff.1 ((releaseChain_sub _ a (some id)).isLive h)
      rw [releaseChain, releaseChain, slot?_retain ht]
      rw [releaseChain] at h
      by_cases hid : id = x
      · subst hid
        rw [if_pos rfl]
        simp only [ht] at h ⊢
        -- if this were the last hold, the scope would be gone
        have hmany : t.refs > 1 := by
          by_contra hlast
          rw [if_neg hlast] at h
          have hgone := (releaseChain_sub _ _ _).isLive h
          rw [isLive_vacate ht] at hgone
          exact hgone.1 rfl
        rw [if_pos hmany, if_pos (Nat.lt_add_right 1 hmany)]
        have hless : (a.setSlot id.index { t with refs := t.refs - 1 }).slot? id =
            some { t with refs := t.refs - 1 } := by
          rw [slot?_setSlot (t := { t with refs := t.refs - 1 }) ht rfl (slot?_eq_some.1 ht).2.2, if_pos rfl]
        unfold retain
        rw [ht, hless]
        simp only [setSlot_setSlot]
        congr 2
        omega
      · rw [if_neg hid]
        cases hs : a.slot? id with
        | none => rfl
        | some s =>
          -- the scope that is given up has another slot than the one that is referred to
          have hindex : id.index ≠ x.index := fun hi => hid (eq_of_slot? ht hs hi)
          simp only [hs] at h ⊢
          split_ifs at h ⊢ with hmany
          · exact (retain_setSlot hindex _).symm
          · rw [← retain_vacate hindex]
            exact ih h

/-- A release gives up the same scopes, if the one that is referred to is not among them. -/
theorem release_retain (h : (a.release id).isLive x) : (a.retain x).release id = (a.release id).retain x := by
  unfold release at h ⊢
  rw [size_retain]
  exact releaseChain_retain h

/-- A reference that is given back. -/
theorem Balanced.release_retain_self (h : a.Balanced held) (hx : a.isLive x) : (a.retain x).release x = a := by
  obtain ⟨s, hs⟩ := isLive_iff.1 hx
  have hpos := h.positive hs
  unfold Arena.release
  rw [Arena.releaseChain, slot?_retain hs, if_pos rfl]
  show (if s.refs + 1 > 1 then _ else _) = _
  rw [if_pos (Nat.lt_add_of_pos_left hpos)]
  unfold Arena.retain
  rw [hs]
  show (a.setSlot x.index _).setSlot x.index { s with refs := s.refs + 1 - 1 } = a
  rw [setSlot_setSlot]
  exact setSlot_self (slot?_eq_some.1 hs).1

/-! ## Allocating

A new scope takes the same slot, however many references there are on others. -/

/-- A new scope gets the same slot. -/
theorem Balanced.place_retain (h : a.Balanced held) (hx : a.isLive x) (env : Environment) :
    (a.retain x).place env = ((a.place env).1.retain x, (a.place env).2) := by
  have hplaced := h.placed env
  have hplaced' := (h.retain hx).placed env
  have hid : ((a.retain x).place env).2 = (a.place env).2 := by
    unfold Arena.place
    rw [free_retain]
    cases a.free with
    | nil =>
      show (⟨(a.retain x).slots.size, 0⟩ : ScopeId) = ⟨a.slots.size, 0⟩
      rw [size_retain]
    | cons index free =>
      simp only [getElem?_retain]
      cases a.slots[index]? with
      | none => rfl
      | some s =>
        simp only [Option.map_some, Slot.retained]
        split_ifs <;> rfl
  refine Prod.ext (ext_slots ?_ ?_ ?_) hid
  · intro i
    rw [getElem?_retain, hplaced.slots, hplaced'.slots, hid, getElem?_retain]
    split_ifs with hi
    · -- The new scope is not the one that is referred to, which was there before.
      rw [Option.map_some, Slot.retained, if_neg]
      rintro ⟨hix, hgx, -⟩
      have hnew : (a.place env).2 = x := ScopeId.eq_of (hi.symm.trans hix) hgx
      exact hplaced.not_isLive (hnew ▸ hx)
    · rfl
  · show ((a.retain x).place env).1.free = ((a.place env).1.retain x).free
    rw [free_retain]
    unfold Arena.place
    rw [free_retain]
    cases a.free <;> rfl
  · show ((a.retain x).place env).1.live = ((a.place env).1.retain x).live
    rw [live_retain, hplaced.live, hplaced'.live, live_retain]

/-- The new scope gets the same handle, since slots are taken from the free ones. -/
theorem Balanced.alloc_retain (h : a.Balanced held) (hx : a.isLive x) {parent : Option ScopeId}
    (hp : ∀ p, parent = some p → a.isLive p) (vars : Table Value) :
    (a.retain x).alloc parent vars = ((a.alloc parent vars).1.retain x, (a.alloc parent vars).2) := by
  rw [alloc_eq_place, alloc_eq_place]
  cases parent with
  | none => exact h.place_retain hx _
  | some p =>
    have hlink := h.retain (hp p rfl)
    show ((a.retain x).retain p).place _ = _
    rw [retain_comm]
    exact hlink.place_retain ((sub_retain a p).isLive hx) _

/-! ## Counts do not matter

What is read and written by name does not depend on counts. -/

@[simp] theorem getElem?_uncounted (a : Arena) (i : Nat) : a.uncounted.slots[i]? = a.slots[i]?.map Slot.uncounted :=
  Array.getElem?_map

/-- A slot is found under the same handle, without its count. -/
theorem slot?_uncounted (a : Arena) (id : ScopeId) : a.uncounted.slot? id = (a.slot? id).map Slot.uncounted := by
  unfold slot?
  rw [getElem?_uncounted]
  cases a.slots[id.index]? with
  | none => rfl
  | some s =>
    simp only [Option.map_some, Option.filter, Slot.uncounted]
    split <;> rfl

@[simp] theorem env?_uncounted (a : Arena) (id : ScopeId) : a.uncounted.env? id = a.env? id := by
  unfold env?
  rw [slot?_uncounted]
  cases a.slot? id <;> rfl

/-- Looking up needs the environments only. -/
theorem getFrom_congr (h : ∀ id, b.env? id = a.env? id) (fuel : Nat) (o : Option ScopeId) (name : String) :
    b.getFrom fuel o name = a.getFrom fuel o name := by
  induction fuel generalizing o with
  | zero => rfl
  | succ fuel ih =>
    cases o with
    | none => rfl
    | some id =>
      rw [getFrom, getFrom, h id]
      simp only [ih]

@[simp] theorem get?_uncounted (a : Arena) (id : ScopeId) (name : String) :
    a.uncounted.get? id name = a.get? id name := by
  have hsize : a.uncounted.slots.size = a.slots.size := Array.size_map
  unfold get?
  rw [hsize]
  exact getFrom_congr (env?_uncounted a) _ _ name

@[simp] theorem getLocal?_uncounted (a : Arena) (id : ScopeId) (name : String) :
    a.uncounted.getLocal? id name = a.getLocal? id name := by
  unfold getLocal?
  rw [env?_uncounted]

@[simp] theorem ancestor?_uncounted (a : Arena) (id : ScopeId) (n : Nat) :
    a.uncounted.ancestor? id n = a.ancestor? id n := by
  induction n generalizing id with
  | zero => rfl
  | succ n ih =>
    have hparent : a.uncounted.parent? id = a.parent? id := by
      unfold parent?
      rw [env?_uncounted]
    rw [ancestor?, ancestor?, hparent]
    exact congrArg _ (funext ih)

/-- Variables are written in the same way with and without the counts. -/
theorem uncounted_modifyVars (a : Arena) (id : ScopeId) (f : Table Value → Table Value) :
    (a.modifyVars id f).uncounted = a.uncounted.modifyVars id f := by
  unfold modifyVars
  rw [slot?_uncounted]
  cases hs : a.slot? id with
  | none => rfl
  | some s =>
    apply ext_slots
    · intro i
      rw [getElem?_uncounted, getElem?_setSlot (slot?_eq_some.1 hs).1]
      have hs' : a.uncounted.slots[id.index]? = some s.uncounted := by
        rw [getElem?_uncounted, (slot?_eq_some.1 hs).1]
        rfl
      show _ = (a.uncounted.setSlot id.index _).slots[i]?
      rw [getElem?_setSlot hs', getElem?_uncounted]
      split_ifs <;> rfl
    · rfl
    · rfl

@[simp] theorem uncounted_set (a : Arena) (id : ScopeId) (name : String) (v : Value) :
    (a.set id name v).uncounted = a.uncounted.set id name v := uncounted_modifyVars a id _

@[simp] theorem uncounted_remove (a : Arena) (id : ScopeId) (name : String) :
    (a.remove id name).uncounted = a.uncounted.remove id name := uncounted_modifyVars a id _

/-- A reference is forgotten with the counts. -/
theorem uncounted_retain (a : Arena) (x : ScopeId) : (a.retain x).uncounted = a.uncounted := by
  apply ext_slots
  · intro i
    rw [getElem?_uncounted, getElem?_uncounted, getElem?_retain, Option.map_map]
    refine congrArg (Option.map · _) (funext fun s => ?_)
    show (Slot.retained x i s).uncounted = s.uncounted
    unfold Slot.retained
    split_ifs <;> rfl
  · exact free_retain a x
  · exact live_retain a x

/-- A reference is kept when the variables are forgotten. -/
theorem bare_retain (a : Arena) (x : ScopeId) : (a.retain x).bare = a.bare.retain x := by
  have hget : ∀ (c : Arena) (i : Nat), c.bare.slots[i]? = c.slots[i]?.map Slot.bare :=
    fun c i => Array.getElem?_map
  apply ext_slots
  · intro i
    rw [hget, getElem?_retain, getElem?_retain, hget, Option.map_map, Option.map_map]
    refine congrArg (Option.map · _) (funext fun s => ?_)
    show (Slot.retained x i s).bare = Slot.retained x i s.bare
    have hgeneration : s.bare.generation = s.generation := rfl
    unfold Slot.retained
    rw [Slot.isSome_bare, hgeneration]
    split_ifs <;> rfl
  · exact (free_retain a x).trans (free_retain a.bare x).symm
  · exact (live_retain a x).trans (live_retain a.bare x).symm

/-- An arena is its variables and its counts. -/
theorem ext_bare (hb : a.bare = b.bare) (hu : a.uncounted = b.uncounted) : a = b := by
  have hfree : a.bare.free = b.bare.free := congrArg Arena.free hb
  have hlive : a.bare.live = b.bare.live := congrArg Arena.live hb
  refine ext_slots (fun i => ?_) hfree hlive
  have hbare : a.slots[i]?.map Slot.bare = b.slots[i]?.map Slot.bare := by
    rw [← Array.getElem?_map, ← Array.getElem?_map]
    exact congrArg (fun c : Arena => c.slots[i]?) hb
  have huncounted : a.slots[i]?.map Slot.uncounted = b.slots[i]?.map Slot.uncounted := by
    rw [← getElem?_uncounted, ← getElem?_uncounted, hu]
  cases ha : a.slots[i]? with
  | none =>
    rw [ha] at hbare
    exact (Option.map_eq_none_iff.1 hbare.symm).symm
  | some s =>
    rw [ha] at hbare huncounted
    obtain ⟨t, ht, htb⟩ := Option.map_eq_some_iff.1 hbare.symm
    rw [ht] at huncounted ⊢
    have hrefs : t.bare.refs = s.bare.refs := congrArg Slot.refs htb
    have hrest : s.uncounted = t.uncounted := Option.some.inj huncounted
    obtain ⟨env, generation, refs⟩ := s
    obtain ⟨env', generation', refs'⟩ := t
    cases hrefs
    cases hrest
    rfl

end Arena

/-! ## Stacks

The copy of a stack retains its scopes one after the other. The order does not matter. -/

namespace Machine

variable {a : Arena} {held : Multiset ScopeId}

/-- The references of a stack are taken from the top downwards. -/
theorem retainFrames_cons (a : Arena) (f : Frame) (fs : List Frame) :
    retainFrames a (f :: fs) = retainFrames (a.retain f.scope) fs := rfl

/-- No scope begins by this. -/
theorem live_retainFrames (fs : List Frame) (a : Arena) : (retainFrames a fs).live = a.live := by
  induction fs generalizing a with
  | nil => rfl
  | cons f fs ih => exact (ih _).trans (Arena.live_retain a f.scope)

/-- Without the counts nothing happens. -/
theorem uncounted_retainFrames (fs : List Frame) (a : Arena) : (retainFrames a fs).uncounted = a.uncounted := by
  induction fs generalizing a with
  | nil => rfl
  | cons f fs ih => exact (ih _).trans (Arena.uncounted_retain a f.scope)

/-- Nor do the variables take part in it. -/
theorem bare_retainFrames (fs : List Frame) (a : Arena) : (retainFrames a fs).bare = retainFrames a.bare fs := by
  induction fs generalizing a with
  | nil => rfl
  | cons f fs ih =>
    rw [retainFrames_cons, retainFrames_cons, ih, Arena.bare_retain]

/-- Frames whose scopes stay take their references before a release or after it. -/
theorem release_retainFrames {fs : List Frame} {id : ScopeId} (h : ∀ f ∈ fs, (a.release id).isLive f.scope) :
    (retainFrames a fs).release id = retainFrames (a.release id) fs := by
  induction fs generalizing a with
  | nil => rfl
  | cons f fs ih =>
    have hf := h f List.mem_cons_self
    have hstep := Arena.release_retain hf
    rw [retainFrames_cons, retainFrames_cons, ← hstep]
    apply ih
    intro g hg
    rw [hstep]
    exact (Arena.sub_retain _ f.scope).isLive (h g (List.mem_cons_of_mem f hg))

/-- Frames may be released under the references of others, if these keep their scopes alive. -/
theorem releaseFrames_retainFrames {fs gs : List Frame} (h : ∀ f ∈ fs, (releaseFrames a gs).isLive f.scope) :
    releaseFrames (retainFrames a fs) gs = retainFrames (releaseFrames a gs) fs := by
  induction gs generalizing a with
  | nil => rfl
  | cons g gs ih =>
    show releaseFrames (if g.ownsScope then _ else _) gs =
      retainFrames (releaseFrames (if g.ownsScope then _ else _) gs) fs
    have hrest : ∀ f ∈ fs, (releaseFrames (if g.ownsScope then a.release g.scope else a) gs).isLive f.scope := h
    split_ifs at hrest ⊢ with hown
    · have hlive : ∀ f ∈ fs, (a.release g.scope).isLive f.scope := fun f hf =>
        (releaseFrames_sub gs _).isLive (hrest f hf)
      rw [release_retainFrames hlive]
      exact ih hrest
    · exact ih hrest

/-- A scope may begin under them as well. -/
theorem alloc_retainFrames {fs : List Frame} (hb : a.Balanced held) (h : ∀ f ∈ fs, a.isLive f.scope)
    {parent : Option ScopeId} (hp : ∀ p, parent = some p → a.isLive p) (vars : Table Value) :
    (retainFrames a fs).alloc parent vars = (retainFrames (a.alloc parent vars).1 fs, (a.alloc parent vars).2) := by
  induction fs generalizing a held with
  | nil => rfl
  | cons f fs ih =>
    have hf := h f List.mem_cons_self
    have hsub := Arena.sub_retain a f.scope
    have hstep := hb.alloc_retain hf hp vars
    rw [retainFrames_cons, ih (hb.retain hf) (fun g hg => hsub.isLive (h g (List.mem_cons_of_mem f hg)))
      fun p hp' => hsub.isLive (hp p hp'), hstep]
    rfl

/-- A copy of a stack that is given up leaves nothing behind. -/
theorem releaseFrames_owning {fs : List Frame} (hb : a.Balanced held) (h : ∀ f ∈ fs, a.isLive f.scope) :
    releaseFrames (retainFrames a fs) (fs.map fun f => { f with ownsScope := true }) = a := by
  induction fs with
  | nil => rfl
  | cons f fs ih =>
    have hf := h f List.mem_cons_self
    have hself := hb.release_retain_self hf
    have hrest : ∀ g ∈ fs, ((a.retain f.scope).release f.scope).isLive g.scope := by
      intro g hg
      rw [hself]
      exact h g (List.mem_cons_of_mem f hg)
    show releaseFrames ((retainFrames (a.retain f.scope) fs).release f.scope) _ = a
    rw [release_retainFrames hrest, hself]
    exact ih fun g hg => h g (List.mem_cons_of_mem f hg)

end Machine
end Sequencer
