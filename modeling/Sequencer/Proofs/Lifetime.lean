import Sequencer.Proofs.References

/-!
# How long a scope lives

A scope of a balanced arena lives exactly as long as somebody can reach it: a holder, or a scope inside
it that lives. So whoever keeps its holds keeps all scopes around them as well, whatever the others do in
between. This is said of single operations by comparing arenas, and of whole runs by `Keeps`.
-/

namespace Sequencer
namespace Arena

/-! ## Variables do not matter

How the scopes of an arena hang together shows in the arena without its variables. -/

/-- An arena with all variables forgotten. -/
def bare (a : Arena) : Arena := { a with slots := a.slots.map Slot.bare }

/-- Each slot is bared by itself. -/
theorem slot?_bare (a : Arena) (id : ScopeId) : a.bare.slot? id = (a.slot? id).map Slot.bare := by
  show (a.slots.map Slot.bare)[id.index]?.filter _ = _
  unfold slot?
  rw [Array.getElem?_map]
  cases a.slots[id.index]? with
  | none => rfl
  | some s =>
    have hg : s.bare.generation = s.generation := rfl
    simp only [Option.map_some, Option.filter, hg, Slot.isSome_bare]
    split <;> rfl

@[simp] theorem isLive_bare (a : Arena) (id : ScopeId) : a.bare.isLive id = a.isLive id := by
  rw [Bool.eq_iff_iff, isLive_iff, isLive_iff, slot?_bare]
  simp

@[simp] theorem parent?_bare (a : Arena) (id : ScopeId) : a.bare.parent? id = a.parent? id := by
  rw [parent?_eq, parent?_eq, slot?_bare]
  cases a.slot? id with
  | none => rfl
  | some s => exact s.parent?_bare

@[simp] theorem children_bare (a : Arena) (id : ScopeId) : a.bare.children id = a.children id := by
  show (a.slots.map Slot.bare).countP _ = _
  rw [Array.countP_map]
  unfold children
  congr 1
  funext s
  simp

section Congr

variable {a b : Arena}

/-- A slot of one arena is one of the other with the same count, if the two differ in variables only. -/
theorem slot?_congr (h : b.bare = a.bare) {id : ScopeId} {s : Slot} (hs : b.slot? id = some s) :
    ∃ s', a.slot? id = some s' ∧ s'.bare = s.bare ∧ s'.refs = s.refs := by
  have hb := slot?_bare b id
  rw [h, slot?_bare, hs] at hb
  obtain ⟨s', hs', he⟩ := Option.map_eq_some_iff.1 hb
  refine ⟨s', hs', he, ?_⟩
  show s'.bare.refs = s.bare.refs
  rw [he]

theorem isLive_congr (h : b.bare = a.bare) (id : ScopeId) : b.isLive id = a.isLive id := by
  rw [← isLive_bare, h, isLive_bare]

theorem parent?_congr (h : b.bare = a.bare) (id : ScopeId) : b.parent? id = a.parent? id := by
  rw [← parent?_bare, h, parent?_bare]

/-- Balance is a matter of how the scopes hang together. -/
theorem Balanced.congr {held : Multiset ScopeId} (ha : a.Balanced held) (h : b.bare = a.bare) :
    b.Balanced held := by
  have hfree : b.free = a.free := by
    show b.bare.free = a.bare.free
    rw [h]
  have hlive : b.live = a.live := by
    show b.bare.live = a.bare.live
    rw [h]
  have hslots : b.slots.map Slot.bare = a.slots.map Slot.bare := congrArg Arena.slots h
  constructor
  case refs =>
    intro id s hs
    obtain ⟨s', hs', -, hr⟩ := slot?_congr h hs
    rw [← hr, ha.refs hs', ← children_bare b, h, children_bare]
  case positive =>
    intro id s hs
    obtain ⟨s', hs', -, hr⟩ := slot?_congr h hs
    rw [← hr]
    exact ha.positive hs'
  case held_live =>
    intro id hm
    rw [isLive_congr h]
    exact ha.held_live hm
  case parent_live =>
    intro id p hp
    rw [parent?_congr h] at hp
    rw [isLive_congr h]
    exact ha.parent_live hp
  case free_iff =>
    intro i
    rw [hfree, ha.free_iff]
    have hget : (b.slots[i]?).map Slot.bare = (a.slots[i]?).map Slot.bare := by
      rw [← Array.getElem?_map, hslots, Array.getElem?_map]
    -- a slot is empty in both or in none
    have hempty : ∀ {s s' : Slot}, s.bare = s'.bare → s.env = none → s'.env = none := by
      intro s s' he hs
      rw [← Option.isNone_iff_eq_none, ← Option.not_isSome, ← Slot.isSome_bare, ← he, Slot.isSome_bare,
        hs]
      rfl
    constructor
    · rintro ⟨s, hs, hn⟩
      rw [hs] at hget
      obtain ⟨s', hs', he⟩ := Option.map_eq_some_iff.1 hget
      exact ⟨s', hs', hempty he.symm hn⟩
    · rintro ⟨s, hs, hn⟩
      rw [hs] at hget
      obtain ⟨s', hs', he⟩ := Option.map_eq_some_iff.1 hget.symm
      exact ⟨s', hs', hempty he.symm hn⟩
  case free_nodup =>
    rw [hfree]
    exact ha.free_nodup
  case live_eq =>
    have hcount : ∀ c : Arena, c.slots.countP (·.env.isSome) =
        (c.slots.map Slot.bare).countP (·.env.isSome) := by
      intro c
      rw [Array.countP_map]
      congr 1
      funext s
      simp
    rw [hlive, ha.live_eq, hcount a, hcount b, hslots]
  case aged =>
    obtain ⟨age, now, hnow, hage⟩ := ha.aged
    refine ⟨age, now, fun id hl => hnow id ?_, fun id p hp => hage id p ?_⟩
    · rw [← isLive_congr h]
      exact hl
    · rw [← parent?_congr h]
      exact hp

end Congr

/-- Writing variables leaves all else alone. -/
theorem bare_modifyVars (a : Arena) (id : ScopeId) (f : Table Value → Table Value) :
    (a.modifyVars id f).bare = a.bare := by
  unfold modifyVars
  cases hs : a.slot? id with
  | none => rfl
  | some s =>
    obtain ⟨hslot, -, -⟩ := slot?_eq_some.1 hs
    obtain ⟨hi, he⟩ := Array.getElem?_eq_some_iff.1 hslot
    -- Without its variables the slot is the same one.
    have hbare : ({ s with env := s.env.map fun e => { e with vars := f e.vars } } : Slot).bare = s.bare := by
      obtain ⟨env, generation, refs⟩ := s
      cases env <;> rfl
    show ({ a with slots := (a.slots.setIfInBounds id.index _).map Slot.bare } : Arena) = a.bare
    unfold bare
    congr 1
    rw [Array.setIfInBounds_def, dif_pos hi, Array.map_set, hbare, ← he]
    apply Array.ext
    · simp
    · intro i h1 h2
      simp only [Array.getElem_set, Array.getElem_map]
      split_ifs with hij
      · subst hij
        rfl
      · rfl

@[simp] theorem bare_set (a : Arena) (id : ScopeId) (name : String) (v : Value) :
    (a.set id name v).bare = a.bare := bare_modifyVars a id _

@[simp] theorem bare_remove (a : Arena) (id : ScopeId) (name : String) :
    (a.remove id name).bare = a.bare := bare_modifyVars a id _

/-! ## More and fewer scopes

An arena has more scopes than another one if all that lives in the other one lives in it with the same parents and
variables. -/

/-- Every scope of one arena is a scope of another, with the same variables and the same place. -/
def Sub (a b : Arena) : Prop := ∀ id env, a.env? id = some env → b.env? id = some env

theorem Sub.refl (a : Arena) : a.Sub a := fun _ _ h => h

theorem Sub.trans {a b c : Arena} (hab : a.Sub b) (hbc : b.Sub c) : a.Sub c :=
  fun id env h => hbc id env (hab id env h)

/-- A count may change without any environment. -/
theorem env?_setSlot_of_env {a : Arena} {id : ScopeId} {s t : Slot} (h : a.slot? id = some s)
    (hg : t.generation = s.generation) (he : t.env = s.env) (id' : ScopeId) :
    (a.setSlot id.index t).env? id' = a.env? id' := by
  unfold env?
  rw [slot?_setSlot h hg (he ▸ (slot?_eq_some.1 h).2.2)]
  split_ifs with hid
  · rw [hid, h]
    exact he
  · rfl

/-- Taking a reference does not change what a scope is. -/
theorem env?_retain (a : Arena) (id id' : ScopeId) : (a.retain id).env? id' = a.env? id' := by
  unfold retain
  cases hs : a.slot? id with
  | none => rfl
  | some s => exact env?_setSlot_of_env (t := { s with refs := s.refs + 1 }) hs rfl rfl id'

/-- So that the scopes are as before. -/
theorem sub_retain (a : Arena) (id : ScopeId) : a.Sub (a.retain id) := by
  intro id' env h
  rw [env?_retain]
  exact h

/-- A release takes scopes away, one after the other along the parents, and leaves the rest as it is. -/
theorem releaseChain_sub (fuel : Nat) (a : Arena) (o : Option ScopeId) : (a.releaseChain fuel o).Sub a := by
  induction fuel generalizing a o with
  | zero => exact Sub.refl a
  | succ fuel ih =>
    cases o with
    | none => exact Sub.refl a
    | some id =>
      rw [releaseChain]
      cases hs : a.slot? id with
      | none => exact Sub.refl a
      | some s =>
        show Sub (if s.refs > 1 then _ else _) a
        -- A scope with other holders stays with one reference less. The last reference empties its slot, and goes
        -- on to the parent.
        split_ifs with hmany
        · intro id' env he
          rw [env?_setSlot_of_env (t := { s with refs := s.refs - 1 }) hs rfl rfl] at he
          exact he
        · refine (ih _ _).trans ?_
          intro id' env he
          unfold env? at he ⊢
          rw [slot?_vacate hs] at he
          split_ifs at he with hid
          · cases he
          · exact he

/-- Releasing takes scopes away and changes none that stays. -/
theorem release_sub (a : Arena) (id : ScopeId) : (a.release id).Sub a := releaseChain_sub _ _ _

/-- What lives in the smaller arena lives in the larger one. -/
theorem Sub.isLive {a b : Arena} (h : a.Sub b) {id : ScopeId} (hl : a.isLive id) : b.isLive id := by
  obtain ⟨env, he⟩ := Option.isSome_iff_exists.1 hl
  exact Option.isSome_iff_exists.2 ⟨env, h id env he⟩

/-- A scope that lives in both has the same parent in both. -/
theorem Sub.parent? {a b : Arena} (h : a.Sub b) {id : ScopeId} (hl : a.isLive id) :
    a.parent? id = b.parent? id := by
  obtain ⟨env, he⟩ := Option.isSome_iff_exists.1 hl
  unfold Arena.parent?
  rw [he, h id env he]

/-- A new scope is the only one that is new. -/
theorem Placed.env? {a b : Arena} {env : Environment} {id : ScopeId} (h : Placed a env b id)
    (id' : ScopeId) : b.env? id' = if id' = id then some env else a.env? id' := by
  unfold Arena.env?
  rw [h.slot?]
  split_ifs <;> rfl

/-- A new scope takes a reference on its parent, which changes no scope. -/
theorem sub_link (a : Arena) (parent : Option ScopeId) : a.Sub (parent.elim a a.retain) := by
  cases parent with
  | none => exact Sub.refl a
  | some p => exact sub_retain a p

section Alloc

variable {a : Arena} (h : a.Tidy) (parent : Option ScopeId) (vars : Table Value)
include h

/-- The link of a new scope counts before the scope is there. -/
theorem Tidy.link : (parent.elim a a.retain).Tidy := by
  cases parent with
  | none => exact h
  | some p => exact h.retain p

/-- A new scope leaves the arena tidy, whatever its parent is. -/
theorem Tidy.alloc : (a.alloc parent vars).1.Tidy := by
  rw [alloc_eq_place]
  exact ((h.link parent).placed _).tidy (h.link parent)

/-- A new scope was not there before. -/
theorem Tidy.not_isLive_alloc : ¬a.isLive (a.alloc parent vars).2 := by
  intro hl
  rw [alloc_eq_place] at hl
  exact ((h.link parent).placed ⟨vars, parent⟩).not_isLive ((sub_link a parent).isLive hl)

/-- After an allocation there is the new scope, and the others are as they were. -/
theorem Tidy.env?_alloc (id : ScopeId) : (a.alloc parent vars).1.env? id =
    if id = (a.alloc parent vars).2 then some ⟨vars, parent⟩ else a.env? id := by
  rw [alloc_eq_place, ((h.link parent).placed _).env?]
  split_ifs
  · rfl
  · cases parent with
    | none => rfl
    | some p => exact env?_retain a p id

/-- Allocating adds a scope and changes no other. -/
theorem Tidy.sub_alloc : a.Sub (a.alloc parent vars).1 := by
  intro id env he
  rw [h.env?_alloc parent vars, if_neg]
  · exact he
  · rintro rfl
    exact h.not_isLive_alloc parent vars (Option.isSome_iff_exists.2 ⟨env, he⟩)

/-- The scope around a new one is the given one. -/
theorem Tidy.parent?_alloc : (a.alloc parent vars).1.parent? (a.alloc parent vars).2 = parent := by
  unfold Arena.parent?
  rw [h.env?_alloc parent vars, if_pos rfl]
  rfl

end Alloc

/-- A scope that is there before and after lies inside the same scope before and after. -/
def Stable (a b : Arena) : Prop := ∀ id, a.isLive id → b.isLive id → b.parent? id = a.parent? id

/-- An arena that only grew is stable towards the larger one. -/
theorem Sub.stable {a b : Arena} (h : a.Sub b) : a.Stable b := fun _ hl _ => (h.parent? hl).symm

/-- One that only shrank is as well. -/
theorem Sub.stable' {a b : Arena} (h : b.Sub a) : a.Stable b := fun _ _ hl => h.parent? hl

/-- Variables do not matter for it. -/
theorem Stable.congr_left {a a' b : Arena} (h : a'.bare = a.bare) (hs : a'.Stable b) : a.Stable b := by
  intro id ha hb
  rw [hs id (by rw [isLive_congr h]; exact ha) hb, parent?_congr h]

/-! ## How many slots there are

Slots are never taken away, and new ones come only when none is free. -/

/-- Nor do they for the number of slots. -/
theorem size_of_bare {a b : Arena} (h : b.bare = a.bare) : b.slots.size = a.slots.size := by
  have hs := congrArg (fun c : Arena => c.slots.size) h
  simpa [bare] using hs

@[simp] theorem free_retain (a : Arena) (x : ScopeId) : (a.retain x).free = a.free := by
  unfold retain
  split <;> rfl

@[simp] theorem live_retain (a : Arena) (x : ScopeId) : (a.retain x).live = a.live := by
  unfold retain
  split <;> rfl

@[simp] theorem size_retain (a : Arena) (x : ScopeId) : (a.retain x).slots.size = a.slots.size := by
  unfold retain
  split
  · exact Array.size_setIfInBounds
  · rfl

/-- A slot that gets free stays there, for the next scope. -/
theorem size_releaseChain (fuel : Nat) (a : Arena) (o : Option ScopeId) :
    (a.releaseChain fuel o).slots.size = a.slots.size := by
  induction fuel generalizing a o with
  | zero => rfl
  | succ fuel ih =>
    cases o with
    | none => rfl
    | some id =>
      unfold releaseChain
      split
      · rfl
      · split_ifs
        · exact Array.size_setIfInBounds ..
        · exact (ih _ _).trans (Array.size_setIfInBounds ..)

/-- A slot is added only if none is free. -/
theorem size_alloc (a : Arena) (parent : Option ScopeId) (vars : Table Value) :
    (a.alloc parent vars).1.slots.size = if a.free = [] then a.slots.size + 1 else a.slots.size := by
  have hsize : (parent.elim a a.retain).slots.size = a.slots.size := by
    cases parent with
    | none => rfl
    | some p => exact size_retain a p
  have hfree : (parent.elim a a.retain).free = a.free := by
    cases parent with
    | none => rfl
    | some p => exact free_retain a p
  rw [alloc_eq_place, ← hsize, ← hfree]
  generalize parent.elim a a.retain = b
  unfold place
  split
  · next index free hb => simp [hb]
  · next hb => simp [hb]

/-- There is one scope more. -/
theorem live_alloc (a : Arena) (parent : Option ScopeId) (vars : Table Value) :
    (a.alloc parent vars).1.live = a.live + 1 := by
  have hlive : (parent.elim a a.retain).live = a.live := by
    cases parent with
    | none => rfl
    | some p => exact live_retain a p
  rw [alloc_eq_place, ← hlive]
  generalize parent.elim a a.retain = b
  unfold place
  split <;> rfl

/-- Without a free slot all of them are in use. -/
theorem Tidy.live_eq_size {a : Arena} (h : a.Tidy) (hfree : a.free = []) : a.live = a.slots.size := by
  rw [h.live_eq, Array.countP_eq_size]
  intro s hs
  obtain ⟨i, hi⟩ := Array.mem_iff_getElem?.1 hs
  by_contra hnone
  have hmem : i ∈ a.free := (h.free_iff i).2 ⟨s, hi, by simpa using hnone⟩
  rw [hfree] at hmem
  cases hmem

/-! ## Reaching a scope

From what is held all parents are reached, and nothing else lives. -/

/-- The scopes that holders keep alive: their own, and all around these. -/
inductive Reaches (a : Arena) (held : Multiset ScopeId) : ScopeId → Prop
  | held {id : ScopeId} (h : id ∈ held) : Reaches a held id
  | around {id p : ScopeId} (h : Reaches a held id) (hp : a.parent? id = some p) : Reaches a held p

/-- A holder's reference alone keeps a scope alive, and a scope keeps the one around it alive. -/
theorem Balanced.isLive_of_reaches {a : Arena} {held : Multiset ScopeId} (h : a.Balanced held)
    {id : ScopeId} (hr : a.Reaches held id) : a.isLive id := by
  induction hr with
  | held hm => exact h.held_live hm
  | around _ hp _ => exact h.parent_live hp

/-- In a balanced arena the scopes that live are those that the holders reach. The induction goes to
ever younger scopes. -/
theorem Balanced.isLive_iff_reaches {a : Arena} {held : Multiset ScopeId} (h : a.Balanced held)
    (id : ScopeId) : a.isLive id ↔ a.Reaches held id := by
  refine ⟨?_, h.isLive_of_reaches⟩
  obtain ⟨age, now, hnow, hage⟩ := h.aged
  intro hl
  induction hk : now - age id using Nat.strongRecOn generalizing id with
  | ind k ih =>
    obtain ⟨s, hs⟩ := isLive_iff.1 hl
    have hrefs := h.refs hs
    have hpos := h.positive hs
    by_cases hm : id ∈ held
    · exact .held hm
    · -- The count is not zero, so a scope inside is counted, and that one is younger.
      have hcount := Multiset.count_eq_zero.2 hm
      obtain ⟨c, hc⟩ := children_pos_iff.1 (show 0 < a.children id by omega)
      have hlc := isLive_of_parent? hc
      have h1 := hage c id hc
      have h2 := hnow c hlc
      exact .around (ih (now - age c) (by omega) c hlc rfl) hc

/-- With its last reference a scope goes. -/
theorem env?_release_self {a : Arena} {id : ScopeId} {s : Slot} (hs : a.slot? id = some s) :
    (a.release id).env? id = if s.refs > 1 then a.env? id else none := by
  unfold release
  rw [releaseChain, hs]
  show Arena.env? (if s.refs > 1 then _ else _) id = _
  split_ifs with hmany
  · exact env?_setSlot_of_env (t := { s with refs := s.refs - 1 }) hs rfl rfl id
  · have hnone : (a.vacate id.index s).env? id = none := by
      unfold env?
      rw [slot?_vacate hs, if_pos rfl]
      rfl
    cases he : ((a.vacate id.index s).releaseChain a.slots.size (s.env.bind (·.parent))).env? id with
    | none => rfl
    | some env =>
      rw [releaseChain_sub _ _ _ id env he] at hnone
      cases hnone

/-- No other scope goes with it if the one around it is held. -/
theorem Balanced.env?_release_of_ne {a : Arena} {held : Multiset ScopeId} {id : ScopeId}
    (h : a.Balanced (id ::ₘ held)) (hp : ∀ p, a.parent? id = some p → p ∈ held) {j : ScopeId}
    (hne : j ≠ id) : (a.release id).env? j = a.env? j := by
  have hsub := release_sub a id
  have hstay : ∀ {i}, a.Reaches (id ::ₘ held) i → i = id ∨ (a.release id).Reaches held i := by
    intro i hr
    induction hr with
    | held hm => exact (Multiset.mem_cons.1 hm).imp_right .held
    | around _ hparent ih =>
      rcases ih with rfl | ih
      · -- What was reached through the scope that goes is the one around it, which is held.
        exact .inr (.held (hp _ hparent))
      · have hlive := h.release.isLive_of_reaches ih
        exact .inr (.around ih ((hsub.parent? hlive).trans hparent))
  cases he : a.env? j with
  | none =>
    cases he' : (a.release id).env? j with
    | none => rfl
    | some env =>
      rw [hsub j env he'] at he
      cases he
  | some env =>
    have hr := (h.isLive_iff_reaches j).1 (Option.isSome_iff_exists.2 ⟨env, he⟩)
    have hlive := h.release.isLive_of_reaches ((hstay hr).resolve_left hne)
    obtain ⟨env', he'⟩ := Option.isSome_iff_exists.1 hlive
    rw [he', ← he, hsub j env' he']

/-- From one arena to another, all that some holders keep alive has stayed, and in its place. -/
def Keeps (held : Multiset ScopeId) (a b : Arena) : Prop :=
  ∀ id, a.Reaches held id → b.isLive id ∧ b.parent? id = a.parent? id

namespace Keeps

variable {a b c : Arena} {held : Multiset ScopeId}

/-- What is reached from what is held stays so. -/
theorem reaches (h : Keeps held a b) {id : ScopeId} (hr : a.Reaches held id) : b.Reaches held id := by
  induction hr with
  | held hm => exact .held hm
  | around hr hp ih => exact .around ih ((h _ hr).2.trans hp)

/-- What is kept all the time is kept from the first arena to the last. -/
theorem trans (hab : Keeps held a b) (hbc : Keeps held b c) : Keeps held a c := by
  intro id hr
  obtain ⟨hl, hp⟩ := hbc id (hab.reaches hr)
  exact ⟨hl, hp.trans (hab id hr).2⟩

/-- Nothing happens, and nothing is lost. -/
theorem refl {held' : Multiset ScopeId} (h : a.Balanced held') (hle : held ≤ held') : Keeps held a a := by
  intro id hr
  refine ⟨?_, rfl⟩
  induction hr with
  | held hm => exact h.held_live (Multiset.mem_of_le hle hm)
  | around _ hp _ => exact h.parent_live hp

/-- One operation that puts no scope elsewhere, with the holds in place before and after. -/
theorem of_stable {held₁ held₂ : Multiset ScopeId} (ha : a.Balanced held₁) (hb : b.Balanced held₂)
    (h₁ : held ≤ held₁) (h₂ : held ≤ held₂) (hs : a.Stable b) : Keeps held a b := by
  -- What is reached lives before and after, so it is in its place, and so lives what is around it.
  have hlive : ∀ {id}, a.Reaches held id → a.isLive id ∧ b.isLive id := by
    intro id hr
    induction hr with
    | held hm =>
      exact ⟨ha.held_live (Multiset.mem_of_le h₁ hm), hb.held_live (Multiset.mem_of_le h₂ hm)⟩
    | around _ hp ih =>
      exact ⟨ha.parent_live hp, hb.parent_live ((hs _ ih.1 ih.2).trans hp)⟩
  intro id hr
  obtain ⟨hla, hlb⟩ := hlive hr
  exact ⟨hlb, hs id hla hlb⟩

end Keeps

end Arena
end Sequencer
