import Sequencer.Proofs.Homes

/-!
# Deleting what is absent

Nothing is removed at the end of a path that leads nowhere, and the value is left as it is. But a delete does not end
there: the value that the path leads into is written back. It was looked up through all scopes and the properties, and
it is written at one home. So the delete changes nothing if the value was found at this home, and if it was found
anywhere else it is copied.
-/

namespace Sequencer

/-! ## What is there already

A variable that is set to the value that it has stays the same, in the arena and in all that is read from it. -/

/-- A variable that has the value already. -/
theorem Arena.set_of_getLocal? {a : Arena} {scope : ScopeId} {name : String} {v : Value}
    (h : a.getLocal? scope name = some v) : a.set scope name v = a := by
  unfold getLocal? env? at h
  unfold set modifyVars
  cases hs : a.slot? scope with
  | none => rfl
  | some s =>
    rw [hs, Option.bind_some] at h
    obtain ⟨env, henv, hv⟩ := Option.bind_eq_some_iff.1 h
    -- Putting back what is there leaves the slot as it is.
    have hslot : { s with env := s.env.map fun e => { e with vars := Table.put e.vars name v } } = s := by
      obtain ⟨e, generation, refs⟩ := s
      cases henv
      show Slot.mk (some { env with vars := Table.put env.vars name v }) generation refs = _
      rw [Table.put_of_get? hv]
    obtain ⟨hat, -, -⟩ := slot?_eq_some.1 hs
    show a.setSlot scope.index _ = a
    rw [hslot, setSlot]
    congr 1
    apply Array.ext_getElem?
    intro i
    rw [Array.getElem?_setIfInBounds]
    split_ifs with hi hlt
    · rw [← hi, hat]
    · rw [← hi, Array.getElem?_eq_none (Nat.le_of_not_lt hlt)]
    · rfl

/-! ## Paths that lead nowhere

Taking out what is not there leaves a value as it is. But the value is written back, and what counts is where it goes.
-/

namespace Value

/-- Nothing is removed at the end of a path that leads nowhere. The removal ends in front of the first part that is
missing, and on the way back each part is put where it was. -/
theorem removeAt_of_absent {segments : List String} {c : Value} (h : readAt segments c = none) :
    removeAt segments c = (c, none) := by
  induction segments generalizing c with
  | nil => cases h
  | cons s rest ih =>
    cases hc : c.child? s with
    | none =>
      -- The path breaks off here: either at its last step, or on the way.
      by_cases hrest : rest = []
      · subst hrest
        rw [removeAt_singleton, without_of_child?_eq_none hc, hc]
      · exact removeAt_of_child?_eq_none hrest hc
    | some inner =>
      rw [readAt_cons hc] at h
      have hrest : rest ≠ [] := by
        rintro rfl
        cases h
      rw [removeAt_of_child? hrest hc, ih h, withChild_of_child? hc]

theorem removePath_of_absent {path : String} {c : Value} (h : c.readPath path = none) :
    c.removePath path = (c, .ok none) := by
  unfold readPath at h
  unfold removePath
  split
  · next hsegments =>
    rw [hsegments] at h
    cases h
  · rw [removeAt_of_absent h]

end Value

namespace Machine

variable {σ : Type} {m : Machine σ} {a : Address} {home : Home} {c : Value}

theorem withStore_of_fixed {f : Store → Store} (h : f m.store = m.store) : m.withStore f = m := by
  show { m with world := { m.world with store := f m.store } } = m
  rw [h]
  rfl

theorem withScopes_of_fixed {f : Arena → Arena} (h : f m.scopes = m.scopes) : m.withScopes f = m := by
  show { m with world := { m.world with request := { m.world.request with scopes := f m.scopes } } } = m
  rw [h]
  rfl

/-- A bucket, or a session, that has the value already. -/
theorem put_of_bucket {t : Table (Table Value)} {bucket key : String}
    (h : (Table.get? t bucket).bind (Table.get? · key) = some c) :
    Table.put t bucket (Table.put ((Table.get? t bucket).getD []) key c) = t := by
  obtain ⟨values, hvalues, hkey⟩ := Option.bind_eq_some_iff.1 h
  rw [hvalues, Option.getD_some, Table.put_of_get? hkey, Table.put_of_get? hvalues]

/-- Putting at a home what is there changes nothing at all. -/
theorem putAt_of_at? (h : m.at? home = some c) : m.putAt c home = m := by
  cases home with
  | binding scope name =>
    have hset : m.scopes.set scope name c = m.scopes := Arena.set_of_getLocal? h
    rw [putAt, withScopes_of_fixed hset]
  | property name =>
    have hput : Table.put m.store.properties name c = m.store.properties := Table.put_of_get? h
    rw [putAt, withStore_of_fixed]
    rw [hput]
  | sessionValue session key =>
    rw [putAt, withStore_of_fixed]
    rw [put_of_bucket h]
  | cached bucket key =>
    rw [putAt, withStore_of_fixed]
    rw [put_of_bucket h]

/-! ## Deleting

A path is read along the chain of scopes and written to the active one. A container of a scope further out is
therefore copied, even if nothing was taken out of it. -/

/-- The whole variable of an address is not what is at its home: it was found in a scope further out or among the
properties, or in the outermost scope where the home is a property. -/
def Inherits (m : Machine σ) (a : Address) : Prop :=
  ∃ c home, m.fetch a = .ok (some c) ∧ m.home? a = some home ∧ m.at? home ≠ some c

/-- A variable that was found and can be written has a home. -/
theorem home_of_fetch (hwritable : a.readOnly = false) (h : m.fetch a = .ok (some c)) :
    ∃ home, m.home? a = some home := by
  have hlog : a.level ≠ .provider .log := by
    intro hl
    rw [fetch, hl] at h
    cases h
  have herror : a.level ≠ .provider .error := by
    intro hl
    rw [fetch, hl] at h
    cases h
  have hsession : a.level = .provider .session → m.request.session.isSome := by
    intro hl
    cases hs : m.request.session with
    | some session => rfl
    | none =>
      simp only [fetch, hl, fetchFrom, session?, hs] at h
      cases h
  obtain hhome | ⟨n, hl, hn⟩ := exists_home hwritable hlog herror hsession
  · exact hhome
  · -- Too many links lead nowhere, and nothing would have been read.
    simp only [fetch, hl, hn] at h
    cases h

/-- A part that is absent is deleted without an effect if there is no variable, or by writing back the one that
was found. -/
theorem deleteAddress_of_absent {path : String} (hwritable : a.readOnly = false) (hpath : a.path = some path)
    (h : (m.readAddress a).2 = .ok none) :
    ((∀ c, m.fetch a ≠ .ok (some c)) ∧ m.deleteAddress a = (m, .ok ())) ∨
      ∃ c home, m.fetch a = .ok (some c) ∧ m.home? a = some home ∧
        m.deleteAddress a = (m.putAt c home, .ok ()) := by
  unfold deleteAddress
  rw [if_neg (by simp [hwritable]), hpath]
  simp only
  cases hf : m.fetch a with
  | error e =>
    -- That nothing was read means that the failure is one the address tolerates.
    have htolerated : a.tolerates e = true := by
      unfold readAddress settle at h
      rw [hf] at h
      by_contra hne
      simp [hne] at h
    have hwhole : m.readAddress a.container = (m, .ok none) := by
      have hf' : m.fetch a.container = .error e := hf
      have htolerated' : a.container.tolerates e = true := htolerated
      rw [readAddress, hf', settle]
      exact if_pos htolerated'
    rw [hwhole]
    exact .inl ⟨fun c hc => by simp at hc, rfl⟩
  | ok found =>
    have hwhole : m.readAddress a.container = (m, .ok found) := readAddress_of_fetch hf
    rw [hwhole]
    cases found with
    | none => exact .inl ⟨fun c hc => by simp at hc, rfl⟩
    | some c =>
      obtain ⟨home, hhome⟩ := home_of_fetch hwritable hf
      -- The variable is there, but not the part: it is written back as it was found.
      have hnone : c.readPath path = none := by
        rw [readAddress_of_fetch hf, hpath] at h
        exact Except.ok.inj h
      refine .inr ⟨c, home, rfl, hhome, ?_⟩
      simp only [Value.removePath_of_absent hnone]
      exact writeAddress_eq hhome c

end Machine

namespace Pool

variable {σ : Type}

/-- Deleting a part that is not there always succeeds. It changes nothing at all unless the variable that should have
the part is inherited: then the home of the name, and nothing else, gets a copy of it. -/
theorem delete_of_absent {p : Pool σ} (h : p.Reachable) {w : Worker σ} (hw : w ∈ p.workers) {name : String}
    {a : Address} (hname : Address.parse name.toList = .ok a) (hwritable : a.readOnly = false)
    (hpath : a.path.isSome) (habsent : ((p.machine w).read name).2 = .ok none) :
    ∃ n, (p.machine w).delete name = (n, .ok ()) ∧ (n = p.machine w ↔ ¬(p.machine w).Inherits a) ∧
      ((p.machine w).Inherits a → ∃ home, (p.machine w).home? a = some home ∧
        (p.machine w).fetch a = .ok (n.at? home) ∧ Machine.ChangesOnly home (p.machine w) n) := by
  obtain ⟨rest, hrest⟩ := Multiset.exists_cons_of_mem hw
  have hm := h.sound.accounted hrest
  generalize p.machine w = m at *
  obtain ⟨path, hpath⟩ := Option.isSome_iff_exists.1 hpath
  have hread : (m.readAddress a).2 = .ok none := by
    rw [Machine.read, hname] at habsent
    exact habsent
  have hdelete : m.delete name = m.deleteAddress a := by
    rw [Machine.delete, hname]
  rw [hdelete]
  obtain ⟨hmissing, hdelete⟩ | ⟨c, home, hfetch, hhome, hdelete⟩ :=
    Machine.deleteAddress_of_absent hwritable hpath hread
  · have hnone : ¬m.Inherits a := by
      rintro ⟨c, -, hc, -⟩
      exact hmissing c hc
    exact ⟨m, hdelete, iff_of_true rfl hnone, fun hin => absurd hin hnone⟩
  · have hself : (m.putAt c home).at? home = some c := m.at?_putAt_self c (hm.holds hhome)
    -- writing back what was read changes nothing where it is already there
    have hiff : m.Inherits a ↔ m.at? home ≠ some c := by
      constructor
      · rintro ⟨c', home', hc, hh, hne⟩
        rw [hfetch] at hc
        rw [hhome] at hh
        cases hc
        cases hh
        exact hne
      · intro hne
        exact ⟨c, home, hfetch, hhome, hne⟩
    refine ⟨m.putAt c home, hdelete, ?_, fun _ => ⟨home, hhome, ?_, m.changesOnly_putAt c home⟩⟩
    · rw [hiff, not_not]
      refine ⟨fun heq => ?_, Machine.putAt_of_at?⟩
      rw [heq] at hself
      exact hself
    · rw [hfetch, hself]

/-- A thread whose frame has an object of its own. -/
def holder : Machine Unit :=
  (World.new (.ofProperties []) (Request.new [] none) ()).enter.push "HOLD" [] [("user", .obj [])]

/-- A field that the object does not have is deleted without an effect. -/
theorem delete_of_absent_holder : holder.delete "user.name" = (holder, .ok ()) := by
  have hp : (holder.within [] 0).Reachable := .begin ⟨rfl, [], none, false, rfl⟩ "HOLD" [] [("user", .obj [])]
  have hw : (⟨holder.thread, []⟩ : Worker Unit) ∈ (holder.within [] 0).workers := Multiset.mem_singleton_self _
  have hown : ¬holder.Inherits ⟨.current, "", "user", some "name", true⟩ := by
    rintro ⟨c, home, hc, hh, hne⟩
    cases hc
    cases hh
    exact hne rfl
  have hname : Address.parse "user.name".toList = .ok ⟨.current, "", "user", some "name", true⟩ := rfl
  obtain ⟨n, hdelete, hsame, -⟩ := delete_of_absent hp hw hname rfl rfl rfl
  have hn : n = holder := hsame.2 hown
  rw [hn] at hdelete
  exact hdelete

/-- Deleting a field that a property does not have makes a variable with all that the property has. -/
theorem delete_copies_property : (visitor.within [] 0).Reachable ∧
    visitor.read "user.name" = (visitor, .ok none) ∧ visitor.at? (.binding ⟨1, 0⟩ "user") = none ∧
    ∃ n, visitor.delete "user.name" = (n, .ok ()) ∧
      n.at? (.binding ⟨1, 0⟩ "user") = some (.obj [("city", .str "Bern")]) :=
  ⟨.begin ⟨rfl, [], none, false, rfl⟩ "VISIT" [] [], rfl, rfl, _, rfl, rfl⟩

end Pool
end Sequencer
