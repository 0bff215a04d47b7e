import Sequencer.Proofs.Lifetime

/-!
# Looking up a name

A name is looked for in a scope, and where this does not have it, in the one around it. The lookup
carries a bound on how many scopes it goes through. In a balanced arena the bound does not matter: the
scopes on the way are ever older, so that each has a slot of its own.
-/

namespace Sequencer
namespace Arena

variable {a b : Arena} {held held' : Multiset ScopeId} {id p : ScopeId}

/-! ## Writing variables

Only the environment of the scope that is written to changes. -/

theorem env?_modifyVars (a : Arena) (id : ScopeId) (f : Table Value → Table Value) (id' : ScopeId) :
    (a.modifyVars id f).env? id' =
      if id' = id then (a.env? id).map fun e => { e with vars := f e.vars } else a.env? id' := by
  unfold modifyVars
  cases hs : a.slot? id with
  | none =>
    split_ifs with hid
    · subst hid
      simp [env?, hs]
    · rfl
  | some s =>
    obtain ⟨-, -, hsome⟩ := slot?_eq_some.1 hs
    let t : Slot := { s with env := s.env.map fun e => { e with vars := f e.vars } }
    show ((a.setSlot id.index t).slot? id').bind (·.env) = _
    have ht : t.env.isSome := by simpa [t] using hsome
    unfold env?
    rw [slot?_setSlot (t := t) hs rfl ht, hs]
    split_ifs <;> rfl

/-- Many variables of one scope, written one after the other. -/
theorem env?_setAll (a : Arena) (id : ScopeId) (bindings : Table Value) (id' : ScopeId) :
    (bindings.foldl (fun a (name, v) => a.set id name v) a).env? id' =
      if id' = id then (a.env? id).map fun e => { e with vars := Table.putAll e.vars bindings }
      else a.env? id' := by
  induction bindings generalizing a with
  | nil =>
    split_ifs with hid
    · subst hid
      show a.env? id' = (a.env? id').map id
      rw [Option.map_id]
      rfl
    · rfl
  | cons entry bindings ih =>
    obtain ⟨name, v⟩ := entry
    rw [List.foldl_cons, ih]
    unfold Arena.set
    rw [env?_modifyVars, env?_modifyVars, if_pos rfl, Option.map_map]
    split_ifs <;> rfl

/-! ## Chains end

The chain of scopes outwards comes to an end, and has no more scopes than there are. So looking up with that many
steps is looking up. -/

/-- The handles of the scopes from one outwards. -/
def lineage (a : Arena) : Nat → Option ScopeId → List ScopeId
  | 0, _ => []
  | _ + 1, none => []
  | fuel + 1, some id =>
    match a.env? id with
    | some env => id :: a.lineage fuel env.parent
    | none => []

theorem isLive_of_mem_lineage {fuel : Nat} {o : Option ScopeId} (h : id ∈ a.lineage fuel o) :
    a.isLive id := by
  induction fuel generalizing o with
  | zero => cases h
  | succ fuel ih =>
    cases o with
    | none => cases h
    | some i =>
      unfold lineage at h
      cases he : a.env? i with
      | none =>
        rw [he] at h
        cases h
      | some env =>
        rw [he] at h
        rcases List.mem_cons.1 h with rfl | h
        · exact Option.isSome_iff_exists.2 ⟨env, he⟩
        · exact ih h

/-- On the way outwards scopes get ever older, so that none comes twice. -/
theorem nodup_lineage {age : ScopeId → Nat} (hage : ∀ id p, a.parent? id = some p → age p < age id)
    (fuel : Nat) (o : Option ScopeId) :
    (a.lineage fuel o).Nodup ∧ ∀ id ∈ a.lineage fuel o, ∀ i, o = some i → age id ≤ age i := by
  induction fuel generalizing o with
  | zero => exact ⟨.nil, nofun⟩
  | succ fuel ih =>
    cases o with
    | none => exact ⟨.nil, nofun⟩
    | some i =>
      unfold lineage
      cases he : a.env? i with
      | none => exact ⟨.nil, nofun⟩
      | some env =>
        obtain ⟨hnodup, hle⟩ := ih env.parent
        have hlt : ∀ id ∈ a.lineage fuel env.parent, age id < age i := by
          intro id hid
          cases hp : env.parent with
          | none =>
            rw [hp] at hid
            cases fuel <;> cases hid
          | some p =>
            have hparent : a.parent? i = some p := (parent?_of_env? he).trans hp
            exact (hle id hid p hp).trans_lt (hage i p hparent)
        refine ⟨List.nodup_cons.2 ⟨fun hmem => (hlt i hmem).false, hnodup⟩, ?_⟩
        intro id hid j hj
        cases hj
        rcases List.mem_cons.1 hid with rfl | hid
        · exact le_rfl
        · exact (hlt id hid).le

/-- A chain has no more scopes than there are slots. -/
theorem length_lineage_le {age : ScopeId → Nat} (hage : ∀ id p, a.parent? id = some p → age p < age id) (fuel : Nat)
    (o : Option ScopeId) : (a.lineage fuel o).length ≤ a.slots.size := by
  -- No scope comes twice, and two scopes that live have different slots.
  have hnodup : ((a.lineage fuel o).map ScopeId.index).Nodup := by
    refine List.Nodup.map_on ?_ (nodup_lineage hage fuel o).1
    intro i hi j hj hindex
    obtain ⟨s, hs⟩ := isLive_iff.1 (isLive_of_mem_lineage hi)
    obtain ⟨t, ht⟩ := isLive_iff.1 (isLive_of_mem_lineage hj)
    exact eq_of_slot? ht hs hindex
  have hrange : (a.lineage fuel o).map ScopeId.index ⊆ List.range a.slots.size := by
    intro i hi
    obtain ⟨id, hid, rfl⟩ := List.mem_map.1 hi
    obtain ⟨s, hs⟩ := isLive_iff.1 (isLive_of_mem_lineage hid)
    exact List.mem_range.2 (Array.getElem?_eq_some_iff.1 (slot?_eq_some.1 hs).1).1
  simpa using (List.subperm_of_subset hnodup hrange).length_le

/-- Beyond the end of a chain a higher bound changes nothing. -/
theorem getFrom_succ {fuel : Nat} {o : Option ScopeId} (h : (a.lineage fuel o).length < fuel)
    (name : String) : a.getFrom (fuel + 1) o name = a.getFrom fuel o name := by
  induction fuel generalizing o with
  | zero => cases h
  | succ fuel ih =>
    cases o with
    | none => rfl
    | some i =>
      unfold lineage at h
      unfold getFrom
      cases he : a.env? i with
      | none => rfl
      | some env =>
        rw [he] at h
        simp only
        cases Table.get? env.vars name with
        | some v => rfl
        | none => exact ih (Nat.lt_of_succ_lt_succ h)

/-- A name stands for what the scope itself has under it, or else for what it stands for around it. -/
theorem Balanced.get?_eq (h : a.Balanced held) (id : ScopeId) (name : String) :
    a.get? id name = (a.getLocal? id name).or ((a.parent? id).bind fun p => a.get? p name) := by
  obtain ⟨age, -, -, hage⟩ := h.aged
  have hlen := length_lineage_le hage (a.slots.size + 1) (some id)
  unfold get?
  rw [getFrom_some]
  congr 1
  cases hp : a.parent? id with
  | none => cases a.slots.size <;> rfl
  | some p =>
    obtain ⟨env, he, hparent⟩ := Option.bind_eq_some_iff.1 hp
    unfold lineage at hlen
    rw [he] at hlen
    have hlt : (a.lineage a.slots.size (some p)).length < a.slots.size := hparent ▸ hlen
    exact (getFrom_succ hlt name).symm

/-! ## Around a scope

What is not reached from a scope does not matter for what is found from it. -/

theorem Reaches.outwards (hp : a.parent? id = some p) {j : ScopeId} (h : a.Reaches {p} j) :
    a.Reaches {id} j := by
  induction h with
  | held hm =>
    cases Multiset.mem_singleton.1 hm
    exact .around (.held (Multiset.mem_singleton_self id)) hp
  | around _ hp' ih => exact .around ih hp'

/-- No scope is around itself. -/
theorem Balanced.not_reaches (h : a.Balanced held) (hp : a.parent? id = some p) : ¬a.Reaches {p} id := by
  obtain ⟨age, -, -, hage⟩ := h.aged
  have hle : ∀ {j}, a.Reaches {p} j → age j ≤ age p := by
    intro j hr
    induction hr with
    | held hm => rw [Multiset.mem_singleton.1 hm]
    | around _ hp' ih => exact (hage _ _ hp').le.trans ih
  intro hr
  exact ((hle hr).trans_lt (hage id p hp)).false

/-- What a name stands for in a scope depends on this scope and those around it alone. -/
theorem Balanced.get?_congr (ha : a.Balanced held) (hb : b.Balanced held') (name : String) :
    ∀ {id : ScopeId}, (∀ j, a.Reaches {id} j → b.env? j = a.env? j) → b.get? id name = a.get? id name := by
  obtain ⟨age, -, -, hage⟩ := ha.aged
  intro id henv
  -- The induction goes outwards, to ever older scopes.
  induction hk : age id using Nat.strongRecOn generalizing id with
  | ind k ih =>
    have hself := henv id (.held (Multiset.mem_singleton_self id))
    rw [ha.get?_eq, hb.get?_eq]
    unfold getLocal? Arena.parent?
    rw [hself]
    congr 1
    cases hp : (a.env? id).bind (·.parent) with
    | none => rfl
    | some p =>
      exact ih (age p) (hk ▸ hage id p hp) (fun j hj => henv j (hj.outwards hp)) rfl

end Arena
end Sequencer
