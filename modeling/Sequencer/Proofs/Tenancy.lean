import Mathlib.Algebra.Group.Nat.Defs
import Mathlib.Logic.Relation
import Sequencer.Proofs.Generations
import Sequencer.Proofs.Lookup

/-!
# Clients of an arena

Clients make scopes inside scopes that live, and take and give back references, in any order. Beside the arena stands
a book of what they have done: the references that they have been granted and have not given back, and under the
handle of every scope ever made what its own allocation, and the writes through this handle since then, have made of
it. The book knows nothing of counts, slots or the scopes that went, and the arena is found to agree with it.

Handles come from a limited supply: each time a slot is emptied its generation goes up by one, and the generations go
round. The agreement is therefore one of arenas no slot of which has been emptied `2 ^ 32` times.
-/

namespace Sequencer

namespace Arena

variable {a : Arena} {held : Multiset ScopeId} {id : ScopeId}

/-! ## Handles that have gone bad

A handle whose scope is gone is one that finds nothing. Retaining and releasing it do nothing. -/

theorem slot?_eq_none (h : ¬a.isLive id) : a.slot? id = none := by
  rw [isLive_iff] at h
  exact Option.eq_none_iff_forall_ne_some.2 fun s hs => h ⟨s, hs⟩

theorem retain_of_not_isLive (h : ¬a.isLive id) : a.retain id = a := by
  unfold retain
  rw [slot?_eq_none h]

theorem release_of_not_isLive (h : ¬a.isLive id) : a.release id = a := by
  unfold release
  rw [releaseChain, slot?_eq_none h]

/-! ## Chains without a break

A chain outwards through scopes that live, each the parent of the one before. -/

/-- The scopes from one outwards to one with nothing around it, all of them there. -/
inductive Unbroken (a : Arena) : ScopeId → List Environment → Prop
  | outermost {id : ScopeId} {env : Environment} (h : a.env? id = some env) (hp : env.parent = none) :
    Unbroken a id [env]
  | inside {id p : ScopeId} {env : Environment} {envs : List Environment} (h : a.env? id = some env)
    (hp : env.parent = some p) (hout : Unbroken a p envs) : Unbroken a id (env :: envs)

theorem Balanced.exists_unbroken (h : a.Balanced held) (hlive : a.isLive id) :
    ∃ envs, a.Unbroken id envs := by
  obtain ⟨age, -, -, hage⟩ := h.aged
  -- The induction goes outwards, to ever older scopes.
  induction hk : age id using Nat.strongRecOn generalizing id with
  | ind k ih =>
    obtain ⟨env, he⟩ := Option.isSome_iff_exists.1 hlive
    cases hp : env.parent with
    | none => exact ⟨[env], .outermost he hp⟩
    | some p =>
      have hparent : a.parent? id = some p := (parent?_of_env? he).trans hp
      obtain ⟨envs, hout⟩ := ih (age p) (hk ▸ hage id p hparent) (h.parent_live hparent) rfl
      exact ⟨env :: envs, .inside he hp hout⟩

/-- Looking up a name finds it in the first scope of the chain that has it. -/
theorem Balanced.get?_of_unbroken (h : a.Balanced held) {envs : List Environment}
    (hl : a.Unbroken id envs) (name : String) :
    a.get? id name = envs.findSome? fun env => Table.get? env.vars name := by
  induction hl with
  | outermost he hp =>
    rw [h.get?_eq, getLocal?_of_env? he, parent?_of_env? he, hp]
    simp
  | inside he hp _ ih =>
    rw [h.get?_eq, List.findSome?_cons, getLocal?_of_env? he, parent?_of_env? he, hp, Option.bind_some, ih]
    cases Table.get? _ name <;> rfl

end Arena

/-- An arena, and the book of what its clients have done. -/
structure Tenancy where
  arena : Arena
  /-- The references that the clients have. -/
  held : Multiset ScopeId
  /-- All scopes that were ever made, the last one in front. -/
  made : List (ScopeId × Environment)
  /-- How many times each slot has been emptied. -/
  freed : Nat → Nat

namespace Tenancy

variable {t u : Tenancy}

/-- The book after a write through one handle. -/
def amend (made : List (ScopeId × Environment)) (id : ScopeId) (f : Table Value → Table Value) :
    List (ScopeId × Environment) :=
  made.map fun entry => if entry.1 = id then (entry.1, { entry.2 with vars := f entry.2.vars }) else entry

/-- The arena becomes another, and the slots that this empties are counted. -/
def onto (t : Tenancy) (b : Arena) (held : Multiset ScopeId) (made : List (ScopeId × Environment)) : Tenancy :=
  ⟨b, held, made, fun i => t.freed i + if t.arena.empties b i then 1 else 0⟩

theorem freed_onto (t : Tenancy) (b : Arena) (held : Multiset ScopeId) (made : List (ScopeId × Environment))
    (i : Nat) : (t.onto b held made).freed i = t.freed i + if t.arena.empties b i then 1 else 0 := rfl

/-- A new scope, with one reference for the client that makes it. -/
def alloc (t : Tenancy) (parent : Option ScopeId) (vars : Table Value) : Tenancy :=
  t.onto (t.arena.alloc parent vars).1 ((t.arena.alloc parent vars).2 ::ₘ t.held)
    (((t.arena.alloc parent vars).2, ⟨vars, parent⟩) :: t.made)

/-- A scope that lives grants another reference. Asking for one on a scope that is gone grants nothing. -/
def retain (t : Tenancy) (id : ScopeId) : Tenancy :=
  t.onto (t.arena.retain id) (if t.arena.isLive id then id ::ₘ t.held else t.held) t.made

/-- A reference is given back. -/
def release (t : Tenancy) (id : ScopeId) : Tenancy := t.onto (t.arena.release id) (t.held.erase id) t.made

/-- A name gets a value in one scope. -/
def set (t : Tenancy) (id : ScopeId) (name : String) (v : Value) : Tenancy :=
  t.onto (t.arena.set id name v) t.held (amend t.made id fun vars => Table.put vars name v)

/-- A name goes out of one scope. -/
def remove (t : Tenancy) (id : ScopeId) (name : String) : Tenancy :=
  t.onto (t.arena.remove id name) t.held (amend t.made id fun vars => Table.erase vars name)

/-- What a client may do. A scope is made inside one that lives, or inside none. Of a scope that lives no more
references are given back than were granted. The rest may be tried with any handle. -/
inductive Step (t : Tenancy) : Tenancy → Prop
  | alloc (parent : Option ScopeId) (vars : Table Value) (hp : ∀ p, parent = some p → t.arena.isLive p) :
    Step t (t.alloc parent vars)
  | retain (id : ScopeId) : Step t (t.retain id)
  | release (id : ScopeId) (h : t.arena.isLive id → id ∈ t.held) : Step t (t.release id)
  | set (id : ScopeId) (name : String) (v : Value) : Step t (t.set id name v)
  | remove (id : ScopeId) (name : String) : Step t (t.remove id name)

/-- An arena without scopes, and an empty book. -/
def empty : Tenancy := ⟨Arena.new, 0, [], fun _ => 0⟩

/-- What clients can come to. -/
def Reachable (t : Tenancy) : Prop := Relation.ReflTransGen Step empty t

/-- By the book, a scope was made inside another. -/
def Within (t : Tenancy) (id p : ScopeId) : Prop := ∃ env, (id, env) ∈ t.made ∧ env.parent = some p

/-! ## The book and the arena

What a user of the arena remembers of the scopes that it made, and how often each slot fell empty. Handles stay apart
as long as no slot has gone through all generations. -/

/-- The agreement of the arena with the book. -/
structure Sound (t : Tenancy) : Prop where
  balanced : t.arena.Balanced t.held
  /-- A slot is in the generation of which number it has been emptied. -/
  counted : ∀ i, (t.arena.generation i).toNat = t.freed i
  /-- The handles of scopes that are gone are of earlier generations. -/
  past : ∀ id env, (id, env) ∈ t.made → ¬t.arena.isLive id → id.generation.toNat < t.freed id.index
  /-- No handle was given out twice. -/
  nodup : (t.made.map Prod.fst).Nodup
  /-- What is in the arena is what the book says. -/
  recorded : ∀ id env, t.arena.env? id = some env → (id, env) ∈ t.made

/-- What of the agreement is about handles. It does not depend on how references are taken and given back. -/
structure Booked (t : Tenancy) : Prop where
  counted : ∀ i, (t.arena.generation i).toNat = t.freed i
  past : ∀ id env, (id, env) ∈ t.made → ¬t.arena.isLive id → id.generation.toNat < t.freed id.index
  nodup : (t.made.map Prod.fst).Nodup
  recorded : ∀ id env, t.arena.env? id = some env → (id, env) ∈ t.made

theorem Sound.booked (h : t.Sound) : t.Booked := ⟨h.counted, h.past, h.nodup, h.recorded⟩

theorem booked_empty : empty.Booked := by
  constructor
  case counted => exact fun i => rfl
  case past => exact nofun
  case nodup => exact List.nodup_nil
  case recorded =>
    intro id env h
    cases h

theorem keys_amend (made : List (ScopeId × Environment)) (id : ScopeId) (f : Table Value → Table Value) :
    (amend made id f).map Prod.fst = made.map Prod.fst := by
  unfold amend
  rw [List.map_map]
  refine List.map_congr_left fun entry _ => ?_
  show (if entry.1 = id then _ else entry).1 = entry.1
  split_ifs <;> rfl

namespace Booked

/-- With the handles of the book, the arena agrees with all of it as soon as the counts are right. -/
theorem sound (h : t.Booked) (hbalanced : t.arena.Balanced t.held) : t.Sound :=
  ⟨hbalanced, h.counted, h.past, h.nodup, h.recorded⟩

/-- The number of a generation is how many times the slot has been emptied, as long as numbers do not go round. -/
theorem counted_onto (h : t.Booked) {b : Arena} (hages : t.arena.Ages b) {held : Multiset ScopeId}
    {made : List (ScopeId × Environment)} (hfreed : ∀ i, (t.onto b held made).freed i < 2 ^ 32) (i : Nat) :
    (b.generation i).toNat = (t.onto b held made).freed i := by
  have hlt := hfreed i
  rw [freed_onto] at hlt ⊢
  rw [hages i, UInt32.toNat_add, h.counted i]
  split_ifs at hlt ⊢ <;> exact Nat.mod_eq_of_lt hlt

/-- A handle that goes bad leaves its generation behind. -/
theorem past_onto (h : t.Booked) {b : Arena} (hages : t.arena.Ages b) {held : Multiset ScopeId}
    {made : List (ScopeId × Environment)} {id : ScopeId} {env : Environment} (hmade : (id, env) ∈ t.made)
    (hgone : ¬b.isLive id) : id.generation.toNat < (t.onto b held made).freed id.index := by
  rw [freed_onto]
  by_cases hlive : t.arena.isLive id
  · obtain ⟨hoccupied, hgeneration⟩ := Arena.isLive_iff_occupied.1 hlive
    have hcounted := h.counted id.index
    have hage := hages id.index
    cases he : t.arena.empties b id.index with
    | true =>
      rw [← hgeneration, hcounted]
      exact Nat.lt_succ_self _
    | false =>
      -- A slot that keeps its scope keeps its generation too, and so the handle stays good.
      refine absurd (Arena.isLive_iff_occupied.2 ⟨?_, ?_⟩) hgone
      · unfold Arena.empties at he
        rw [hoccupied] at he
        simpa using he
      · rw [hage, he, hgeneration]
        simp
  · exact (h.past id env hmade hlive).trans_le (Nat.le_add_right _ _)

/-- A new scope gets a handle that no scope had before. -/
theorem not_mem_alloc (h : t.Booked) (htidy : t.arena.Tidy) (parent : Option ScopeId) (vars : Table Value) :
    (t.arena.alloc parent vars).2 ∉ t.made.map Prod.fst := by
  intro hmem
  obtain ⟨⟨id, env⟩, hmade, hid⟩ := List.mem_map.1 hmem
  have hid : id = (t.arena.alloc parent vars).2 := hid
  have hgone : ¬t.arena.isLive id := hid ▸ htidy.not_isLive_alloc parent vars
  have hpast := h.past id env hmade hgone
  have hgeneration := (htidy.fills_alloc parent vars).2
  rw [← hid] at hgeneration
  rw [hgeneration, h.counted] at hpast
  exact hpast.false

theorem alloc (h : t.Booked) (htidy : t.arena.Tidy) {parent : Option ScopeId} {vars : Table Value}
    (hfreed : ∀ i, (t.alloc parent vars).freed i < 2 ^ 32) : (t.alloc parent vars).Booked := by
  have hages := (htidy.fills_alloc parent vars).1.ages
  have henv := htidy.env?_alloc parent vars
  constructor
  case counted => exact h.counted_onto hages hfreed
  case past =>
    intro id env hmade hgone
    rcases List.mem_cons.1 hmade with hnew | hmade
    · -- The new scope is not gone.
      refine absurd (Option.isSome_iff_exists.2 ⟨⟨vars, parent⟩, ?_⟩) hgone
      show (t.arena.alloc parent vars).1.env? id = _
      rw [henv, if_pos (congrArg Prod.fst hnew)]
    · exact h.past_onto hages hmade hgone
  case nodup => exact List.nodup_cons.2 ⟨h.not_mem_alloc htidy parent vars, h.nodup⟩
  case recorded =>
    intro id env he
    have he := (henv id).symm.trans he
    split_ifs at he with hid
    · cases he
      rw [hid]
      exact List.mem_cons_self
    · exact List.mem_cons_of_mem _ (h.recorded id env he)

/-- A step that makes no scope, and takes the arena to one with the scopes of the book. -/
theorem same (h : t.Booked) {b : Arena} (hages : t.arena.Ages b) {held : Multiset ScopeId} (hsub : b.Sub t.arena)
    (hfreed : ∀ i, (t.onto b held t.made).freed i < 2 ^ 32) : (t.onto b held t.made).Booked where
  counted := h.counted_onto hages hfreed
  past := fun _ _ hmade hgone => h.past_onto hages hmade hgone
  nodup := h.nodup
  recorded := fun id env he => h.recorded id env (hsub id env he)

theorem retain (h : t.Booked) (id : ScopeId) (hfreed : ∀ i, (t.retain id).freed i < 2 ^ 32) : (t.retain id).Booked := by
  refine h.same (Arena.fills_retain t.arena id).ages ?_ hfreed
  intro i env he
  rw [Arena.env?_retain] at he
  exact he

theorem release (h : t.Booked) (id : ScopeId) (hfreed : ∀ i, (t.release id).freed i < 2 ^ 32) : (t.release id).Booked :=
  h.same (Arena.drains_release t.arena id).ages (Arena.release_sub t.arena id) hfreed

theorem modifyVars (h : t.Booked) (id : ScopeId) (f : Table Value → Table Value)
    (hfreed : ∀ i, (t.onto (t.arena.modifyVars id f) t.held (amend t.made id f)).freed i < 2 ^ 32) :
    (t.onto (t.arena.modifyVars id f) t.held (amend t.made id f)).Booked := by
  have hages := (Arena.fills_modifyVars t.arena id f).ages
  have hkeys := keys_amend t.made id f
  constructor
  case counted => exact h.counted_onto hages hfreed
  case past =>
    intro i env hmade hgone
    -- The books have the same handles as before, with the new variables at one of them.
    have hmem := List.mem_map_of_mem (f := Prod.fst) hmade
    obtain ⟨⟨_, env'⟩, hmade', rfl⟩ := List.mem_map.1 (hkeys ▸ hmem)
    exact h.past_onto hages hmade' hgone
  case nodup => exact hkeys ▸ h.nodup
  case recorded =>
    intro i env he
    have he := (Arena.env?_modifyVars t.arena id f i).symm.trans he
    split_ifs at he with hi
    · subst hi
      obtain ⟨env', he', rfl⟩ := Option.map_eq_some_iff.1 he
      exact List.mem_map.2 ⟨(i, env'), h.recorded i env' he', if_pos rfl⟩
    · exact List.mem_map.2 ⟨(i, env), h.recorded i env he, if_neg hi⟩

/-- A scope of the book that lives is what the book says. -/
theorem env?_of_mem (h : t.Booked) {id : ScopeId} {env : Environment} (hmade : (id, env) ∈ t.made)
    (hlive : t.arena.isLive id) : t.arena.env? id = some env := by
  obtain ⟨env', he⟩ := Option.isSome_iff_exists.1 hlive
  have hsame : (id, env) = (id, env') := List.inj_on_of_nodup_map h.nodup hmade (h.recorded id env' he) rfl
  cases hsame
  exact he

end Booked

theorem sound_empty : empty.Sound := booked_empty.sound Arena.balanced_new

namespace Sound

theorem retain (h : t.Sound) (id : ScopeId) (hfreed : ∀ i, (t.retain id).freed i < 2 ^ 32) : (t.retain id).Sound := by
  refine (h.booked.retain id hfreed).sound ?_
  show (t.arena.retain id).Balanced (if t.arena.isLive id then _ else _)
  split_ifs with hlive
  · exact h.balanced.retain hlive
  · rw [Arena.retain_of_not_isLive hlive]
    exact h.balanced

theorem release (h : t.Sound) {id : ScopeId} (hid : t.arena.isLive id → id ∈ t.held)
    (hfreed : ∀ i, (t.release id).freed i < 2 ^ 32) : (t.release id).Sound := by
  refine (h.booked.release id hfreed).sound ?_
  show (t.arena.release id).Balanced (t.held.erase id)
  by_cases hmem : id ∈ t.held
  · have hbalanced := h.balanced
    rw [← Multiset.cons_erase hmem] at hbalanced
    exact hbalanced.release
  · rw [Arena.release_of_not_isLive fun hlive => hmem (hid hlive), Multiset.erase_of_notMem hmem]
    exact h.balanced

theorem modifyVars (h : t.Sound) (id : ScopeId) (f : Table Value → Table Value)
    (hfreed : ∀ i, (t.onto (t.arena.modifyVars id f) t.held (amend t.made id f)).freed i < 2 ^ 32) :
    (t.onto (t.arena.modifyVars id f) t.held (amend t.made id f)).Sound :=
  (h.booked.modifyVars id f hfreed).sound (h.balanced.congr (Arena.bare_modifyVars t.arena id f))

theorem step (h : t.Sound) (hs : t.Step u) (hfreed : ∀ i, u.freed i < 2 ^ 32) : u.Sound := by
  cases hs with
  | alloc parent vars hp => exact (h.booked.alloc h.balanced.tidy hfreed).sound (h.balanced.alloc hp vars)
  | retain id => exact h.retain id hfreed
  | release id hid => exact h.release hid hfreed
  | set id name v => exact h.modifyVars id _ hfreed
  | remove id name => exact h.modifyVars id _ hfreed

/-- Around scopes that live the links of the arena are those of the book. -/
theorem parent?_eq_some_iff (h : t.Sound) {id p : ScopeId} (hlive : t.arena.isLive id) :
    t.arena.parent? id = some p ↔ t.Within id p := by
  unfold Arena.parent?
  constructor
  · intro hp
    obtain ⟨env, he, hp⟩ := Option.bind_eq_some_iff.1 hp
    exact ⟨env, h.recorded id env he, hp⟩
  · rintro ⟨env, hmade, hp⟩
    rw [h.booked.env?_of_mem hmade hlive]
    exact hp

/-- By the book or by the counts: a scope lives as long as a reference to it, or to a scope inside it, is held. -/
theorem isLive_iff (h : t.Sound) (id : ScopeId) :
    t.arena.isLive id ↔ ∃ d ∈ t.held, Relation.ReflTransGen t.Within d id := by
  rw [h.balanced.isLive_iff_reaches]
  constructor
  · intro hr
    induction hr with
    | held hm => exact ⟨_, hm, .refl⟩
    | around hr hp ih =>
      obtain ⟨d, hd, hwithin⟩ := ih
      -- A scope that is live has its parent in the books.
      have hlive := h.balanced.isLive_of_reaches hr
      exact ⟨d, hd, hwithin.tail ((h.parent?_eq_some_iff hlive).1 hp)⟩
  · rintro ⟨d, hd, hwithin⟩
    induction hwithin with
    | refl => exact .held hd
    | tail _ hp ih =>
      have hlive := h.balanced.isLive_of_reaches ih
      exact .around ih ((h.parent?_eq_some_iff hlive).2 hp)

end Sound

theorem Step.freed_le (h : t.Step u) (i : Nat) : t.freed i ≤ u.freed i := by
  cases h <;> exact Nat.le_add_right _ _

/-- The induction is on the steps: if no slot has come round by the end, then none had before. -/
theorem Reachable.sound (h : t.Reachable) (hfreed : ∀ i, t.freed i < 2 ^ 32) : t.Sound := by
  induction h with
  | refl => exact sound_empty
  | tail _ hs ih => exact (ih fun i => (hs.freed_le i).trans_lt (hfreed i)).step hs hfreed

/-- In one step a slot is emptied once at most. -/
theorem freed_onto_le {n i : Nat} (h : t.freed i ≤ n) {b : Arena} {held : Multiset ScopeId}
    {made : List (ScopeId × Environment)} : (t.onto b held made).freed i ≤ n + 1 := by
  rw [freed_onto]
  split_ifs <;> omega

/-! ## Scopes and references

A scope lives exactly while it is reached from one that is held. -/

/-- Whatever clients do, as long as no slot has been emptied `2 ^ 32` times: a scope lives exactly as long as a
reference to it, or to a scope inside it, has been granted and not been given back. No handle is given out twice. What
lives has the place that it was made in and the variables that it was made with and that were written through its own
handle, the scopes around it live up to one with nothing around it, and a name stands for what the innermost of
them all has under it. -/
theorem lives_while_reached (h : t.Reachable) (hfreed : ∀ i, t.freed i < 2 ^ 32) :
    (∀ id, t.arena.isLive id ↔ ∃ d ∈ t.held, Relation.ReflTransGen t.Within d id) ∧
    (t.made.map Prod.fst).Nodup ∧
    ∀ id, t.arena.isLive id → ∃ env envs, (id, env) ∈ t.made ∧ t.arena.env? id = some env ∧
      t.arena.Unbroken id envs ∧
      ∀ name, t.arena.get? id name = envs.findSome? fun env => Table.get? env.vars name := by
  have hsound := h.sound hfreed
  refine ⟨hsound.isLive_iff, hsound.nodup, ?_⟩
  intro id hlive
  obtain ⟨env, he⟩ := Option.isSome_iff_exists.1 hlive
  obtain ⟨envs, hchain⟩ := hsound.balanced.exists_unbroken hlive
  exact ⟨env, envs, hsound.recorded id env he, he, hchain, hsound.balanced.get?_of_unbroken hchain⟩

/-- One scope inside another inside a third. The middle one is given back first and stays for the innermost; with that
one both go. The next scope gets the slot of the middle one. -/
def visited : Tenancy :=
  ((((((empty.alloc none []).alloc (some ⟨0, 0⟩) []).alloc (some ⟨1, 0⟩) []).set ⟨0, 0⟩ "r" (.bool true)).release
    ⟨1, 0⟩).release ⟨2, 0⟩).alloc (some ⟨0, 0⟩) []

theorem visited_reachable : visited.Reachable := by
  have h₁ := Relation.ReflTransGen.single (Step.alloc (t := empty) none [] nofun)
  have h₂ := h₁.tail (.alloc (some ⟨0, 0⟩) [] fun p hp => by cases hp; rfl)
  have h₃ := h₂.tail (.alloc (some ⟨1, 0⟩) [] fun p hp => by cases hp; rfl)
  have h₄ := h₃.tail (.set ⟨0, 0⟩ "r" (.bool true))
  have h₅ := h₄.tail (.release ⟨1, 0⟩ fun _ => by decide)
  have h₆ := h₅.tail (.release ⟨2, 0⟩ fun _ => by decide)
  exact h₆.tail (.alloc (some ⟨0, 0⟩) [] fun p hp => by cases hp; rfl)

/-- There the middle scope is gone by the book as in the arena, and the new scope in its slot has one of its own. -/
theorem lives_while_reached_visited :
    visited.Reachable ∧ (∀ i, visited.freed i < 2 ^ 32) ∧ visited.freed 1 = 1 ∧
    (¬∃ d ∈ visited.held, Relation.ReflTransGen visited.Within d ⟨1, 0⟩) ∧
    (∃ d ∈ visited.held, Relation.ReflTransGen visited.Within d ⟨1, 1⟩) ∧
    ∃ envs, visited.arena.Unbroken ⟨1, 1⟩ envs ∧
      (envs.findSome? fun env => Table.get? env.vars "r") = some (.bool true) := by
  have hfreed : ∀ i, visited.freed i ≤ 7 := fun i =>
    freed_onto_le (freed_onto_le (freed_onto_le (freed_onto_le (freed_onto_le (freed_onto_le (freed_onto_le
      (Nat.le_refl 0)))))))
  have hbound : ∀ i, visited.freed i < 2 ^ 32 := fun i => (hfreed i).trans_lt (by decide)
  obtain ⟨hlives, -, hscope⟩ := lives_while_reached visited_reachable hbound
  obtain ⟨env, envs, -, -, hchain, hget⟩ := hscope ⟨1, 1⟩ rfl
  have hfound : visited.arena.get? ⟨1, 1⟩ "r" = some (.bool true) := by rfl
  refine ⟨visited_reachable, hbound, rfl, ?_, (hlives _).1 rfl, envs, hchain, ?_⟩
  · rw [← hlives]
    decide
  · rw [← hget, hfound]

end Tenancy
end Sequencer
