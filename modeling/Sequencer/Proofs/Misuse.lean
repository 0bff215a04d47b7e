import Mathlib.Order.Basic
import Sequencer.Proofs.Tenancy

/-!
# Arenas under any use

What is true of an arena even if its clients keep to no rules: they give back references that they do not have, make
scopes inside ones that are gone, and go on using handles that have gone bad. Then scopes may go that are still
needed. But the slots stay in order, and every handle reaches the scope that was made with it or nothing, as long as no
slot has been emptied `2 ^ 32` times. Scopes lie inside older ones even so: a scope that was made inside another has a
handle that nobody had when the other was made, and a handle that has gone bad never comes back.
-/

namespace Sequencer

namespace Arena

variable {a : Arena} {id : ScopeId}

/-! ## Handles that reach nothing

A handle that finds no scope does nothing, whatever is done with it. -/

/-- Nothing is read through a handle, and nothing changes through it. -/
structure Inert (a : Arena) (id : ScopeId) : Prop where
  env? : a.env? id = none
  parent? : a.parent? id = none
  ancestor? : ∀ n, a.ancestor? id (n + 1) = none
  get? : ∀ name, a.get? id name = none
  getLocal? : ∀ name, a.getLocal? id name = none
  retain : a.retain id = a
  release : a.release id = a
  set : ∀ name v, a.set id name v = a
  remove : ∀ name, a.remove id name = a

theorem inert_of_not_isLive (h : ¬a.isLive id) : a.Inert id := by
  -- All operations go through the slot, whose generation is another one.
  have hslot := slot?_eq_none h
  have henv : a.env? id = none := by
    unfold Arena.env?
    rw [hslot]
    rfl
  have hparent : a.parent? id = none := by
    unfold Arena.parent?
    rw [henv]
    rfl
  have hwrite : ∀ f, a.modifyVars id f = a := by
    intro f
    unfold modifyVars
    rw [hslot]
  constructor
  case env? => exact henv
  case parent? => exact hparent
  case ancestor? =>
    intro n
    rw [Arena.ancestor?, hparent]
    rfl
  case get? =>
    intro name
    unfold Arena.get?
    rw [getFrom, henv]
  case getLocal? =>
    intro name
    unfold Arena.getLocal?
    rw [henv]
    rfl
  case retain => exact retain_of_not_isLive h
  case release => exact release_of_not_isLive h
  case set => exact fun name v => hwrite _
  case remove => exact fun name => hwrite _

/-! ## Chains outwards

Parents are older than what is in them, so that a chain ends even if references were dropped too early. -/

section Aged

variable {age : ScopeId → Nat} (hage : ∀ id p, a.parent? id = some p → age p < age id)
include hage

/-- Outwards scopes get ever older, so that no way leads back. -/
theorem acyclic (id : ScopeId) : ¬Relation.TransGen (fun i p => a.parent? i = some p) id id := by
  intro h
  have hlt : ∀ {p}, Relation.TransGen (fun i p => a.parent? i = some p) id p → age p < age id := by
    intro p h
    induction h with
    | single hp => exact hage _ _ hp
    | tail _ hp ih => exact (hage _ _ hp).trans ih
  exact (hlt h).false

/-- Looking up a name is done after as many scopes as there are slots. -/
theorem getFrom_eq_get? {fuel : Nat} (hfuel : a.slots.size < fuel) (id : ScopeId) (name : String) :
    a.getFrom fuel (some id) name = a.get? id name := by
  induction fuel, hfuel using Nat.le_induction with
  | base => rfl
  | succ fuel hle ih =>
    have hlength := length_lineage_le hage fuel (some id)
    rw [getFrom_succ (by omega), ih]

omit hage in
theorem length_lineage_of_ancestor? {n : Nat} (h : (a.ancestor? id n).isSome) :
    (a.lineage n (some id)).length = n := by
  induction n generalizing id with
  | zero => rfl
  | succ n ih =>
    rw [ancestor?] at h
    cases hp : a.parent? id with
    | none =>
      rw [hp] at h
      cases h
    | some p =>
      rw [hp] at h
      -- A scope with a parent is there, so the chain goes on.
      obtain ⟨env, he, hparent⟩ := Option.bind_eq_some_iff.1 hp
      have hparent : env.parent = some p := hparent
      rw [lineage, he]
      show (a.lineage n env.parent).length + 1 = n + 1
      rw [hparent, ih h]

/-- There are no more scopes around a scope than there are slots. -/
theorem ancestor?_eq_none {n : Nat} (hn : a.slots.size < n) (id : ScopeId) : a.ancestor? id n = none := by
  rw [← Option.not_isSome_iff_eq_none]
  intro h
  have hlength := length_lineage_le hage n (some id)
  rw [length_lineage_of_ancestor? h] at hlength
  omega

end Aged

/-! ## Chains of releases

A release goes on outwards only through scopes that have nobody else. -/

/-- The counts that a chain of releases takes one from. -/
def lowered : Nat → Arena → Option ScopeId → List Nat
  | 0, _, _ => []
  | _ + 1, _, none => []
  | fuel + 1, a, some id =>
    match a.slot? id with
    | none => []
    | some s => s.refs :: if s.refs > 1 then [] else lowered fuel (a.vacate id.index s) s.parent?

/-- No count is lowered that is zero. -/
theorem Tidy.lowered_pos (h : a.Tidy) (fuel : Nat) (o : Option ScopeId) : ∀ n ∈ a.lowered fuel o, 0 < n := by
  induction fuel generalizing a o with
  | zero => nofun
  | succ fuel ih =>
    cases o with
    | none => nofun
    | some id =>
      rw [lowered]
      cases hs : a.slot? id with
      | none => nofun
      | some s =>
        refine List.forall_mem_cons.2 ⟨h.positive hs, ?_⟩
        split_ifs
        · nofun
        · exact ih (h.vacate hs) _

/-- Each turn of a chain of releases but the last takes a scope away. -/
theorem Tidy.releaseChain_succ (h : a.Tidy) {fuel : Nat} (hfuel : a.live < fuel) (o : Option ScopeId) :
    a.releaseChain (fuel + 1) o = a.releaseChain fuel o := by
  induction fuel generalizing a o with
  | zero => cases hfuel
  | succ fuel ih =>
    cases o with
    | none => rfl
    | some id =>
      conv_lhs => rw [Arena.releaseChain]
      conv_rhs => rw [Arena.releaseChain]
      cases hs : a.slot? id with
      | none => rfl
      | some s =>
        have hpos := h.live_pos hs
        -- Every scope that goes leaves one less, so the fuel lasts.
        have hlive : (a.vacate id.index s).live = a.live - 1 := rfl
        simp only
        rw [ih (h.vacate hs) (by omega)]

theorem Tidy.releaseChain_eq_release (h : a.Tidy) {fuel : Nat} (hfuel : a.slots.size < fuel) (id : ScopeId) :
    a.releaseChain fuel (some id) = a.release id := by
  induction fuel, hfuel using Nat.le_induction with
  | base => rfl
  | succ fuel hle ih =>
    have hlive := h.live_le_size
    rw [h.releaseChain_succ (by omega), ih]

/-- A scope gets a slot that is there, or a new one if all are in use. -/
theorem Tidy.size_alloc (h : a.Tidy) (parent : Option ScopeId) (vars : Table Value) :
    (a.alloc parent vars).1.slots.size = a.slots.size ∨
      a.slots.size ≤ (a.alloc parent vars).1.slots.size ∧
        (a.alloc parent vars).1.live = (a.alloc parent vars).1.slots.size := by
  rw [Arena.size_alloc, Arena.live_alloc]
  split_ifs with hfree
  · exact .inr ⟨Nat.le_succ _, congrArg (· + 1) (h.live_eq_size hfree)⟩
  · exact .inl rfl

end Arena

namespace Tenancy

variable {t u : Tenancy} {past : List Tenancy}

/-- What anybody may do. A scope is made inside none, or inside one that was made before, though it may be gone by
now. The rest may be tried with any handle. -/
inductive Uses (t : Tenancy) : Tenancy → Prop
  | alloc (parent : Option ScopeId) (vars : Table Value) (hp : ∀ p, parent = some p → p ∈ t.made.map Prod.fst) :
    Uses t (t.alloc parent vars)
  | retain (id : ScopeId) : Uses t (t.retain id)
  | release (id : ScopeId) : Uses t (t.release id)
  | set (id : ScopeId) (name : String) (v : Value) : Uses t (t.set id name v)
  | remove (id : ScopeId) (name : String) : Uses t (t.remove id name)

/-- What any use has led to, and all that it led to on the way, the last in front. -/
inductive History : Tenancy → List Tenancy → Prop
  | start : History empty [empty]
  | next {t u : Tenancy} {past : List Tenancy} (h : History t past) (hu : t.Uses u) : History u (u :: past)

theorem Uses.freed_le (h : t.Uses u) (i : Nat) : t.freed i ≤ u.freed i := by
  cases h <;> exact Nat.le_add_right _ _

/-! ## What every use preserves

All uses, right or wrong, keep the free list, the counts and the ages in order. -/

theorem Uses.tidy (h : t.Uses u) (ht : t.arena.Tidy) : u.arena.Tidy := by
  cases h with
  | alloc parent vars hp => exact ht.alloc parent vars
  | retain id => exact ht.retain id
  | release id => exact ht.release id
  | set id name v => exact ht.modifyVars id fun vars => Table.put vars name v
  | remove id name => exact ht.modifyVars id fun vars => Table.erase vars name

theorem Uses.booked (h : t.Uses u) (ht : t.arena.Tidy) (hbooked : t.Booked) (hfreed : ∀ i, u.freed i < 2 ^ 32) :
    u.Booked := by
  cases h with
  | alloc parent vars hp => exact hbooked.alloc ht hfreed
  | retain id => exact hbooked.retain id hfreed
  | release id => exact hbooked.release id hfreed
  | set id name v => exact hbooked.modifyVars id _ hfreed
  | remove id name => exact hbooked.modifyVars id _ hfreed

/-- By the book scopes have ages: each was made inside an older one that is in the book as well. -/
def Aged (made : List (ScopeId × Environment)) : Prop :=
  ∃ (age : ScopeId → Nat) (now : Nat), ∀ id env, (id, env) ∈ made →
    age id < now ∧ ∀ p, env.parent = some p → p ∈ made.map Prod.fst ∧ age p < age id

theorem mem_amend {made : List (ScopeId × Environment)} {i id : ScopeId} {env : Environment}
    {f : Table Value → Table Value} (h : (id, env) ∈ amend made i f) :
    ∃ env', (id, env') ∈ made ∧ env'.parent = env.parent := by
  obtain ⟨⟨id', env'⟩, hmade, he⟩ := List.mem_map.1 h
  split_ifs at he <;> cases he <;> exact ⟨_, hmade, rfl⟩

/-- Writes leave the links of the book alone. -/
theorem Aged.amend {made : List (ScopeId × Environment)} (h : Aged made) (i : ScopeId)
    (f : Table Value → Table Value) : Aged (amend made i f) := by
  obtain ⟨age, now, hage⟩ := h
  refine ⟨age, now, fun id env hmem => ?_⟩
  obtain ⟨env', hmade, hparent⟩ := mem_amend hmem
  rw [keys_amend, ← hparent]
  exact hage id env' hmade

/-- A new scope is the youngest. Nobody had its handle before, so that it is around none of the others. -/
theorem Aged.cons {made : List (ScopeId × Environment)} (h : Aged made) {id : ScopeId} {env : Environment}
    (hnew : id ∉ made.map Prod.fst) (hp : ∀ p, env.parent = some p → p ∈ made.map Prod.fst) :
    Aged ((id, env) :: made) := by
  obtain ⟨age, now, hage⟩ := h
  have hne : ∀ {i}, i ∈ made.map Prod.fst → i ≠ id := fun hi he => hnew (he ▸ hi)
  have hlt : ∀ {i}, i ∈ made.map Prod.fst → age i < now := by
    intro i hi
    obtain ⟨⟨i, env⟩, hmade, rfl⟩ := List.mem_map.1 hi
    exact (hage i env hmade).1
  -- The new scope is younger than all that were made before.
  refine ⟨fun i => if i = id then now else age i, now + 1, fun i env' hmem => ?_⟩
  show (if i = id then now else age i) < now + 1 ∧ ∀ p, env'.parent = some p → p ∈ id :: made.map Prod.fst ∧
    (if p = id then now else age p) < if i = id then now else age i
  rcases List.mem_cons.1 hmem with he | hmade
  · cases he
    rw [if_pos rfl]
    refine ⟨Nat.lt_succ_self now, fun p hparent => ?_⟩
    have hmem := hp p hparent
    rw [if_neg (hne hmem)]
    exact ⟨List.mem_cons_of_mem _ hmem, hlt hmem⟩
  · have hmem : i ∈ made.map Prod.fst := List.mem_map_of_mem hmade
    obtain ⟨hnow, hparents⟩ := hage i env' hmade
    rw [if_neg (hne hmem)]
    refine ⟨hnow.trans (Nat.lt_succ_self now), fun p hparent => ?_⟩
    obtain ⟨hpmem, hp⟩ := hparents p hparent
    rw [if_neg (hne hpmem)]
    exact ⟨List.mem_cons_of_mem _ hpmem, hp⟩

theorem Uses.aged (h : t.Uses u) (ht : t.arena.Tidy) (hbooked : t.Booked) (haged : Aged t.made) : Aged u.made := by
  cases h with
  | alloc parent vars hp => exact haged.cons (hbooked.not_mem_alloc ht parent vars) hp
  | retain id => exact haged
  | release id => exact haged
  | set id name v => exact haged.amend id fun vars => Table.put vars name v
  | remove id name => exact haged.amend id fun vars => Table.erase vars name

/-- Slots are added only when all are in use. -/
theorem Uses.size (h : t.Uses u) (ht : t.arena.Tidy) : u.arena.slots.size = t.arena.slots.size ∨
    t.arena.slots.size ≤ u.arena.slots.size ∧ u.arena.live = u.arena.slots.size := by
  cases h with
  | alloc parent vars hp => exact ht.size_alloc parent vars
  | retain id => exact .inl (Arena.size_retain _ id)
  | release id => exact .inl (Arena.size_releaseChain _ _ _)
  | set id name v => exact .inl (Arena.size_of_bare (Arena.bare_set _ id name v))
  | remove id name => exact .inl (Arena.size_of_bare (Arena.bare_remove _ id name))

namespace History

theorem tidy (h : History t past) : t.arena.Tidy := by
  induction h with
  | start => exact Arena.balanced_new.tidy
  | next _ hu ih => exact hu.tidy ih

/-- The induction is on the uses: if no slot has come round by the end, then none had before. -/
theorem booked (h : History t past) (hfreed : ∀ i, t.freed i < 2 ^ 32) : t.Booked ∧ Aged t.made := by
  induction h with
  | start => exact ⟨booked_empty, fun _ => 0, 0, nofun⟩
  | next h hu ih =>
    obtain ⟨hbooked, haged⟩ := ih fun i => (hu.freed_le i).trans_lt (hfreed i)
    exact ⟨hu.booked h.tidy hbooked hfreed, hu.aged h.tidy hbooked haged⟩

/-- There are as many slots as there ever were scopes at one time. -/
theorem peak (h : History t past) : (∀ s ∈ past, s.arena.live ≤ t.arena.slots.size) ∧
    ∃ s ∈ past, s.arena.live = t.arena.slots.size := by
  induction h with
  | start => exact ⟨by simp [empty, Arena.new], empty, List.mem_cons_self, rfl⟩
  | @next t u past h hu ih =>
    obtain ⟨hle, s, hs, heq⟩ := ih
    have hnow := (hu.tidy h.tidy).live_le_size
    obtain hsize | ⟨hmore, hfull⟩ := hu.size h.tidy
    · rw [hsize]
      exact ⟨List.forall_mem_cons.2 ⟨hsize ▸ hnow, hle⟩, s, List.mem_cons_of_mem _ hs, heq⟩
    · exact ⟨List.forall_mem_cons.2 ⟨hnow, fun s hs => (hle s hs).trans hmore⟩, u, List.mem_cons_self, hfull⟩

end History

/-- The links of an arena lead to older scopes, if those of its book do. -/
theorem exists_age (hbooked : t.Booked) (haged : Aged t.made) :
    ∃ age : ScopeId → Nat, ∀ id p, t.arena.parent? id = some p → age p < age id := by
  obtain ⟨age, now, hage⟩ := haged
  refine ⟨age, fun id p hp => ?_⟩
  obtain ⟨env, he, hparent⟩ := Option.bind_eq_some_iff.1 hp
  exact ((hage id env (hbooked.recorded id env he)).2 p hparent).2

/-! ## Arenas and handles

What can be said of an arena after any history of uses. -/

/-- Whatever anybody does, as long as no slot has been emptied `2 ^ 32` times:

* the free slots are the empty ones, each once, and `live` is the number of slots in use;
* there are as many slots as there ever were scopes at one time;
* every slot in use counts at least one reference, so that a chain of releases never lowers a count of zero;
* no way outwards leads back, and looking up a name, going outwards and releasing end by themselves, before they have
  gone through more scopes than there are slots;
* no handle was given out twice, and to each slot in use belongs one that was: it reaches what was made with it, no
  other handle on the slot reaches anything, and no write through any other handle is seen through this one. -/
theorem orderly (h : History t past) (hfreed : ∀ i, t.freed i < 2 ^ 32) :
    ((∀ i, i ∈ t.arena.free ↔ ∃ s, t.arena.slots[i]? = some s ∧ s.env = none) ∧ t.arena.free.Nodup ∧
      t.arena.live = t.arena.slots.countP (·.env.isSome)) ∧
    ((∀ s ∈ past, s.arena.live ≤ t.arena.slots.size) ∧ ∃ s ∈ past, s.arena.live = t.arena.slots.size) ∧
    ((∀ (i : Nat) (s : Slot), t.arena.slots[i]? = some s → s.env.isSome → 0 < s.refs) ∧
      ∀ id fuel, ∀ n ∈ t.arena.lowered fuel (some id), 0 < n) ∧
    ((∀ id, ¬Relation.TransGen (fun i p => t.arena.parent? i = some p) id id) ∧
      ∀ id fuel, t.arena.slots.size < fuel → t.arena.ancestor? id fuel = none ∧
        (∀ name, t.arena.getFrom fuel (some id) name = t.arena.get? id name) ∧
        t.arena.releaseChain fuel (some id) = t.arena.release id) ∧
    (t.made.map Prod.fst).Nodup ∧
    ∀ (i : Nat) (s : Slot) (env : Environment), t.arena.slots[i]? = some s → s.env = some env →
      ∃ id, id.index = i ∧ (id, env) ∈ t.made ∧ t.arena.env? id = some env ∧
        ∀ other, other ≠ id → (other.index = i → t.arena.Inert other) ∧
          (∀ name v, (t.arena.set other name v).env? id = some env) ∧
          ∀ name, (t.arena.remove other name).env? id = some env := by
  have htidy := h.tidy
  obtain ⟨hbooked, haged⟩ := h.booked hfreed
  obtain ⟨age, hage⟩ := exists_age hbooked haged
  refine ⟨⟨htidy.free_iff, htidy.free_nodup, htidy.live_eq⟩, h.peak, ⟨?_, ?_⟩,
    ⟨Arena.acyclic hage, fun id fuel hfuel => ⟨Arena.ancestor?_eq_none hage hfuel id,
      Arena.getFrom_eq_get? hage hfuel id, htidy.releaseChain_eq_release hfuel id⟩⟩, hbooked.nodup, ?_⟩
  · intro i s hslot hsome
    have hs : t.arena.slot? ⟨i, s.generation⟩ = some s := Arena.slot?_eq_some.2 ⟨hslot, rfl, hsome⟩
    exact htidy.positive hs
  · exact fun id fuel => htidy.lowered_pos fuel (some id)
  · intro i s env hslot henv
    have hs : t.arena.slot? ⟨i, s.generation⟩ = some s :=
      Arena.slot?_eq_some.2 ⟨hslot, rfl, by rw [henv]; rfl⟩
    have he : t.arena.env? ⟨i, s.generation⟩ = some env := by
      unfold Arena.env?
      rw [hs]
      exact henv
    -- what is written under another identifier goes elsewhere, or nowhere
    have hwrite : ∀ {other}, other ≠ ⟨i, s.generation⟩ → ∀ f,
        (t.arena.modifyVars other f).env? ⟨i, s.generation⟩ = some env := by
      intro other hne f
      rw [Arena.env?_modifyVars, if_neg (Ne.symm hne), he]
    refine ⟨⟨i, s.generation⟩, rfl, hbooked.recorded _ _ he, he, fun other hne =>
      ⟨fun hindex => Arena.inert_of_not_isLive fun hlive => hne ?_, fun name v => hwrite hne _,
        fun name => hwrite hne _⟩⟩
    obtain ⟨s', hs'⟩ := Arena.isLive_iff.1 hlive
    exact Arena.eq_of_slot? hs hs' hindex

/-- A scope is released twice while another lies inside it. The next one is made inside the one that is gone, gets its
slot, and has a name written through the handle that has gone bad. -/
def abused : Tenancy :=
  (((((empty.alloc none []).alloc (some ⟨0, 0⟩) []).release ⟨0, 0⟩).release ⟨0, 0⟩).alloc (some ⟨0, 0⟩) []).set
    ⟨0, 0⟩ "x" .null

theorem abused_history : ∃ past, History abused past := by
  have h₁ := History.start.next (.alloc none [] nofun)
  have h₂ := h₁.next (.alloc (some ⟨0, 0⟩) [] fun p hp => by cases hp; decide)
  have h₃ := (h₂.next (.release ⟨0, 0⟩)).next (.release ⟨0, 0⟩)
  have h₄ := h₃.next (.alloc (some ⟨0, 0⟩) [] fun p hp => by cases hp; decide)
  exact ⟨_, h₄.next (.set ⟨0, 0⟩ "x" .null)⟩

/-- There two scopes are left, in as many slots. The last one lies inside the old scope of its own slot by its link, and
the handle of the old one reaches nothing. -/
theorem orderly_abused : ∃ past, History abused past ∧ (∀ i, abused.freed i < 2 ^ 32) ∧ abused.freed 0 = 1 ∧
    (∃ s ∈ past, s.arena.live = 2) ∧ abused.arena.parent? ⟨0, 1⟩ = some ⟨0, 0⟩ ∧
    ¬Relation.TransGen (fun i p => abused.arena.parent? i = some p) ⟨0, 1⟩ ⟨0, 1⟩ ∧ abused.arena.Inert ⟨0, 0⟩ := by
  have hfreed : ∀ i, abused.freed i ≤ 6 := fun i =>
    freed_onto_le (freed_onto_le (freed_onto_le (freed_onto_le (freed_onto_le (freed_onto_le (Nat.le_refl 0))))))
  have hbound : ∀ i, abused.freed i < 2 ^ 32 := fun i => (hfreed i).trans_lt (by decide)
  obtain ⟨past, h⟩ := abused_history
  obtain ⟨-, ⟨-, hpeak⟩, -, ⟨hacyclic, -⟩, -, hhandles⟩ := orderly h hbound
  obtain ⟨id, hindex, -, he, hinert⟩ := hhandles 0 ⟨some ⟨[], some ⟨0, 0⟩⟩, 1, 1⟩ ⟨[], some ⟨0, 0⟩⟩ rfl rfl
  have hne : ⟨0, 0⟩ ≠ id := by
    rintro rfl
    cases he
  exact ⟨past, h, hbound, rfl, hpeak, rfl, hacyclic _, (hinert ⟨0, 0⟩ hne).1 rfl⟩

end Tenancy
end Sequencer
