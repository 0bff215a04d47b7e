import Sequencer.Proofs.Lifetime

/-!
# Generations of a slot

A slot comes to its next generation when it loses its scope, and at no other time. So a handle is good for as long as
its slot is in use and still in the generation of the handle, and a handle that has gone bad stays so until the
generations come round again, after `2 ^ 32` of them.
-/

namespace Sequencer
namespace Arena

variable {a b c : Arena}

/-- Whether there is a scope in a slot. -/
def occupied (a : Arena) (i : Nat) : Bool := a.slots[i]?.any fun s => s.env.isSome

/-- The generation of a slot. One that has never been in use is in the first. -/
def generation (a : Arena) (i : Nat) : UInt32 := a.slots[i]?.elim 0 Slot.generation

/-- Whether a slot loses its scope from one arena to another. -/
def empties (a b : Arena) (i : Nat) : Bool := a.occupied i && !b.occupied i

/-- From one arena to another the slots that lose their scopes come to their next generations, and no others do. -/
def Ages (a b : Arena) : Prop := ∀ i, b.generation i = a.generation i + if a.empties b i then 1 else 0

/-- A handle is live if its slot is in use, and still has the generation of the handle. -/
theorem isLive_iff_occupied {id : ScopeId} :
    a.isLive id ↔ a.occupied id.index = true ∧ a.generation id.index = id.generation := by
  rw [isLive_iff]
  unfold occupied generation
  constructor
  · rintro ⟨s, hs⟩
    obtain ⟨hslot, hgeneration, hsome⟩ := slot?_eq_some.1 hs
    rw [hslot]
    exact ⟨hsome, hgeneration⟩
  · rintro ⟨hoccupied, hgeneration⟩
    cases hslot : a.slots[id.index]? with
    | none =>
      rw [hslot] at hoccupied
      cases hoccupied
    | some s =>
      rw [hslot] at hoccupied hgeneration
      exact ⟨s, slot?_eq_some.2 ⟨hslot, hgeneration, hoccupied⟩⟩

/-! ## Slots that come into use

A slot is filled without a new generation, which was given out when it fell empty. -/

/-- No slot loses its scope, and all are in the same generations. -/
def Fills (a b : Arena) : Prop :=
  ∀ i, (a.occupied i = true → b.occupied i = true) ∧ b.generation i = a.generation i

theorem Fills.refl (a : Arena) : a.Fills a := fun _ => ⟨id, rfl⟩

theorem Fills.trans (hab : a.Fills b) (hbc : b.Fills c) : a.Fills c := fun i =>
  ⟨fun h => (hbc i).1 ((hab i).1 h), (hbc i).2.trans (hab i).2⟩

theorem Fills.ages (h : a.Fills b) : a.Ages b := by
  intro i
  have hstays : a.empties b i = false := by
    unfold empties
    cases ha : a.occupied i with
    | false => rfl
    | true => rw [(h i).1 ha]; rfl
  rw [hstays, (h i).2]
  simp

theorem occupied_setSlot {i : Nat} {s : Slot} (h : a.slots[i]? = some s) (t : Slot) (j : Nat) :
    (a.setSlot i t).occupied j = if j = i then t.env.isSome else a.occupied j := by
  unfold occupied
  rw [getElem?_setSlot h]
  split_ifs <;> rfl

theorem generation_setSlot {i : Nat} {s : Slot} (h : a.slots[i]? = some s) (t : Slot) (j : Nat) :
    (a.setSlot i t).generation j = if j = i then t.generation else a.generation j := by
  unfold generation
  rw [getElem?_setSlot h]
  split_ifs <;> rfl

/-- What a slot holds changes, but not whether it does. -/
theorem fills_setSlot {id : ScopeId} {s t : Slot} (h : a.slot? id = some s) (hg : t.generation = s.generation)
    (ht : t.env.isSome = true) : a.Fills (a.setSlot id.index t) := by
  obtain ⟨hslot, -, -⟩ := slot?_eq_some.1 h
  intro i
  rw [occupied_setSlot hslot, generation_setSlot hslot]
  split_ifs with hi
  · refine ⟨fun _ => ht, ?_⟩
    rw [hg, hi]
    unfold generation
    rw [hslot]
    rfl
  · exact ⟨fun h => h, rfl⟩

theorem fills_retain (a : Arena) (id : ScopeId) : a.Fills (a.retain id) := by
  unfold retain
  cases hs : a.slot? id with
  | none => exact Fills.refl a
  | some s => exact fills_setSlot (t := { s with refs := s.refs + 1 }) hs rfl (slot?_eq_some.1 hs).2.2

theorem fills_modifyVars (a : Arena) (id : ScopeId) (f : Table Value → Table Value) : a.Fills (a.modifyVars id f) := by
  unfold modifyVars
  cases hs : a.slot? id with
  | none => exact Fills.refl a
  | some s =>
    have hsome := (slot?_eq_some.1 hs).2.2
    let t : Slot := { s with env := s.env.map fun e => { e with vars := f e.vars } }
    have ht : t.env.isSome = true := by simpa [t] using hsome
    exact fills_setSlot (t := t) hs rfl ht

/-- The handle of a new scope is one of the generation that its slot is in. -/
theorem generation_place (a : Arena) (env : Environment) :
    (a.place env).2.generation = a.generation (a.place env).2.index := by
  unfold place generation
  cases a.free with
  | nil => simp
  | cons index free => cases hs : a.slots[index]? <;> simp [hs]

/-- A new scope comes into a slot that was not in use, with the generation that the slot had. -/
theorem Placed.fills {env : Environment} {id : ScopeId} (h : Placed a env b id)
    (hgeneration : id.generation = a.generation id.index) : a.Fills b := by
  intro i
  have hslot := h.slots i
  unfold occupied
  split_ifs at hslot with hi
  · refine ⟨fun _ => by rw [hslot]; rfl, ?_⟩
    rw [hi, ← hgeneration]
    unfold generation
    rw [← hi, hslot]
    rfl
  · unfold generation
    rw [hslot]
    exact ⟨fun h => h, rfl⟩

theorem Tidy.fills_alloc (h : a.Tidy) (parent : Option ScopeId) (vars : Table Value) :
    a.Fills (a.alloc parent vars).1 ∧
      (a.alloc parent vars).2.generation = a.generation (a.alloc parent vars).2.index := by
  have hlink : a.Fills (parent.elim a a.retain) := by
    cases parent with
    | none => exact Fills.refl a
    | some p => exact fills_retain a p
  have hplace := generation_place (parent.elim a a.retain) ⟨vars, parent⟩
  rw [alloc_eq_place]
  exact ⟨hlink.trans (((h.link parent).placed _).fills hplace), hplace.trans (hlink _).2⟩

/-! ## Slots that fall empty

A slot that falls empty gets its next generation, so that handles of the last one find nothing. -/

/-- Slots lose their scopes and come to their next generations, or stay as they are. -/
def Drains (a b : Arena) : Prop := ∀ i,
  (b.occupied i = a.occupied i ∧ b.generation i = a.generation i) ∨
    (a.occupied i = true ∧ b.occupied i = false ∧ b.generation i = a.generation i + 1)

theorem Drains.refl (a : Arena) : a.Drains a := fun _ => .inl ⟨rfl, rfl⟩

theorem Drains.trans (hab : a.Drains b) (hbc : b.Drains c) : a.Drains c := by
  intro i
  obtain ⟨ho, hg⟩ | ⟨hfull, hempty, hg⟩ := hab i
  · rw [← ho, ← hg]
    exact hbc i
  · obtain ⟨ho', hg'⟩ | ⟨hfull', -, -⟩ := hbc i
    · exact .inr ⟨hfull, ho'.trans hempty, hg'.trans hg⟩
    · rw [hempty] at hfull'
      cases hfull'

theorem Drains.ages (h : a.Drains b) : a.Ages b := by
  intro i
  unfold empties
  obtain ⟨ho, hg⟩ | ⟨hfull, hempty, hg⟩ := h i
  · rw [ho, hg]
    simp
  · rw [hfull, hempty, hg]
    rfl

theorem drains_setSlot {id : ScopeId} {s t : Slot} (h : a.slot? id = some s) (hg : t.generation = s.generation)
    (ht : t.env = s.env) : a.Drains (a.setSlot id.index t) := by
  obtain ⟨hslot, -, -⟩ := slot?_eq_some.1 h
  intro i
  rw [occupied_setSlot hslot, generation_setSlot hslot]
  unfold occupied generation
  split_ifs with hi
  · rw [hi, hslot, hg, ht]
    exact .inl ⟨rfl, rfl⟩
  · exact .inl ⟨rfl, rfl⟩

/-- A slot that falls empty goes on to its next generation. -/
theorem drains_vacate {id : ScopeId} {s : Slot} (h : a.slot? id = some s) : a.Drains (a.vacate id.index s) := by
  obtain ⟨hslot, -, hsome⟩ := slot?_eq_some.1 h
  intro i
  have ho := occupied_setSlot hslot ⟨none, s.generation + 1, 0⟩ i
  have hg := generation_setSlot hslot ⟨none, s.generation + 1, 0⟩ i
  -- To vacate a slot is to set it, and to add its index to the free ones.
  show ((a.setSlot id.index ⟨none, s.generation + 1, 0⟩).occupied i = _ ∧
    (a.setSlot id.index ⟨none, s.generation + 1, 0⟩).generation i = _) ∨ _ ∧
    (a.setSlot id.index ⟨none, s.generation + 1, 0⟩).occupied i = _ ∧
    (a.setSlot id.index ⟨none, s.generation + 1, 0⟩).generation i = _
  rw [ho, hg]
  split_ifs with hi
  · refine .inr ⟨?_, rfl, ?_⟩
    · unfold occupied
      rw [hi, hslot]
      exact hsome
    · unfold generation
      rw [hi, hslot]
      rfl
  · exact .inl ⟨rfl, rfl⟩

/-- A chain of releases empties each slot once at most. The induction is along the chain. -/
theorem drains_releaseChain (fuel : Nat) (a : Arena) (o : Option ScopeId) : a.Drains (a.releaseChain fuel o) := by
  induction fuel generalizing a o with
  | zero => exact Drains.refl a
  | succ fuel ih =>
    cases o with
    | none => exact Drains.refl a
    | some id =>
      rw [releaseChain]
      cases hs : a.slot? id with
      | none => exact Drains.refl a
      | some s =>
        show Drains a (if s.refs > 1 then _ else _)
        split_ifs
        · exact drains_setSlot (t := { s with refs := s.refs - 1 }) hs rfl rfl
        · exact (drains_vacate hs).trans (ih _ _)

theorem drains_release (a : Arena) (id : ScopeId) : a.Drains (a.release id) := drains_releaseChain _ a _

end Arena
end Sequencer
