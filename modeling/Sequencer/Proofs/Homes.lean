import Sequencer.Proofs.Failing
import Sequencer.Proofs.Paths
import Sequencer.Proofs.Schedule
import Sequencer.Proofs.ScopeChain
import Sequencer.Proofs.Writes

/-!
# Homes of variables

Every address that can be written belongs to one home, whatever its level: a variable of one scope, a
property, a value of a session or one in a bucket of the cache. Saving changes the value at this home,
and no other home has another value afterwards. Reading finds what is at the home. Only where there is
nothing does it go on to scopes further out and to the properties, and so saving a part of an inherited
variable makes a variable of its own.
-/

namespace Sequencer

/-! ## Scopes and buckets

A variable in a scope or in a bucket, read after it was written. -/

namespace Arena

theorem getLocal?_set (a : Arena) (scope : ScopeId) (name : String) (v : Value) (id : ScopeId) (x : String) :
    (a.set scope name v).getLocal? id x =
      if id = scope ∧ x = name then (if a.isLive scope then some v else none) else a.getLocal? id x := by
  unfold getLocal? set isLive
  rw [env?_modifyVars]
  by_cases hid : id = scope
  · subst hid
    rw [if_pos rfl]
    cases a.env? id with
    | none => simp
    | some env =>
      by_cases hx : x = name
      · subst hx
        simp
      · simp [hx, Table.get?_put_of_ne]
  · rw [if_neg hid, if_neg fun h => hid h.1]

/-- Where links lead depends on the links alone. -/
theorem ancestor?_congr {a b : Arena} (h : b.bare = a.bare) (id : ScopeId) (n : Nat) :
    b.ancestor? id n = a.ancestor? id n := by
  induction n generalizing id with
  | zero => rfl
  | succ n ih =>
    unfold ancestor?
    rw [parent?_congr h]
    congr 1
    funext p
    exact ih p

/-- Links lead from scopes that are there to scopes that are there. -/
theorem Balanced.isLive_ancestor {held : Multiset ScopeId} {a : Arena} (h : a.Balanced held) {id scope : ScopeId}
    {n : Nat} (hid : a.isLive id) (hs : a.ancestor? id n = some scope) : a.isLive scope := by
  induction n generalizing id with
  | zero =>
    obtain rfl : id = scope := by simpa [ancestor?] using hs
    exact hid
  | succ n ih =>
    obtain ⟨outer, hp, hs⟩ := Option.bind_eq_some_iff.1 hs
    exact ih (h.parent_live hp) hs

end Arena

/-- A bucket, or a session, after a value has been put into it. -/
theorem Table.get?_put_bucket (t : Table (Table Value)) (bucket key : String) (v : Value) (bucket' key' : String) :
    (get? (put t bucket (put ((get? t bucket).getD []) key v)) bucket').bind
        (get? · key') =
      if bucket' = bucket ∧ key' = key then some v else (get? t bucket').bind (get? · key') := by
  by_cases hb : bucket' = bucket
  · subst hb
    rw [get?_put_self, Option.bind_some]
    by_cases hk : key' = key
    · subst hk
      simp
    · rw [get?_put_of_ne _ _ hk, if_neg fun h => hk h.2]
      cases get? t bucket' <;> rfl
  · rw [get?_put_of_ne _ _ hb, if_neg fun h => hb h.1]

/-! ## Homes

A home is a place that a whole variable can be written to and read from. -/

/-- Where a whole variable is kept. -/
inductive Home where
  | binding (scope : ScopeId) (name : String)
  | property (name : String)
  | sessionValue (session key : String)
  | cached (bucket key : String)
  deriving DecidableEq

namespace Machine

variable {σ : Type}

/-- The value at a home. -/
def at? (m : Machine σ) : Home → Option Value
  | .binding scope name => m.scopes.getLocal? scope name
  | .property name => Table.get? m.store.properties name
  | .sessionValue session key => (Table.get? m.store.sessions session).bind (Table.get? · key)
  | .cached bucket key => (Table.get? m.store.cache bucket).bind (Table.get? · key)

/-- The machine with another value at a home. -/
def putAt (m : Machine σ) (v : Value) : Home → Machine σ
  | .binding scope name => m.withScopes (·.set scope name v)
  | .property name => m.withStore fun s => { s with properties := Table.put s.properties name v }
  | .sessionValue session key => m.withStore fun s =>
      { s with
        sessions :=
          Table.put s.sessions session (Table.put ((Table.get? s.sessions session).getD []) key v) }
  | .cached bucket key => m.withStore fun s =>
      { s with
        cache := Table.put s.cache bucket (Table.put ((Table.get? s.cache bucket).getD []) key v) }

/-- Whether something can be put at a home: a scope must be there. -/
def Holds (m : Machine σ) : Home → Prop
  | .binding scope _ => m.scopes.isLive scope = true
  | _ => True

/-- The home of the whole variable of an address, if it has one. -/
def home? (m : Machine σ) (a : Address) : Option Home :=
  match a.level with
  | .current => some (if m.outside then .property a.name else .binding m.currentScope a.name)
  | .ancestor n => (m.scopes.ancestor? m.currentScope n).map (.binding · a.name)
  | .provider .session => m.request.session.map (.sessionValue · a.name)
  | .provider .map => some (.cached a.bucket a.name)
  | .provider .global => some (.property a.name)
  | .provider .request => some (.binding m.request.root a.name)
  | .provider .log | .provider .error => none
  | .expression | .literal | .quoted => none

/-! ## Putting and finding

What was put into a home is found there, and what is in other homes is not touched. -/

section Putting

variable (m : Machine σ) (v : Value)

/-- A home that holds something has what was put there. -/
theorem at?_putAt_self {home : Home} (h : m.Holds home) : (m.putAt v home).at? home = some v := by
  cases home with
  | binding scope name =>
    show (m.scopes.set scope name v).getLocal? scope name = some v
    have hlive : m.scopes.isLive scope = true := h
    rw [Arena.getLocal?_set, if_pos ⟨rfl, rfl⟩, if_pos hlive]
  | property name => exact Table.get?_put_self _ name v
  | sessionValue session key =>
    refine (Table.get?_put_bucket m.store.sessions session key v session key).trans ?_
    rw [if_pos ⟨rfl, rfl⟩]
  | cached bucket key =>
    refine (Table.get?_put_bucket m.store.cache bucket key v bucket key).trans ?_
    rw [if_pos ⟨rfl, rfl⟩]

/-- Every other home has what it had. Places of different kinds are in different tables; those of one kind
differ in a name. -/
theorem at?_putAt_of_ne {home other : Home} (h : other ≠ home) : (m.putAt v home).at? other = m.at? other := by
  cases home with
  | binding scope name =>
    cases other with
    | binding id x =>
      show (m.scopes.set scope name v).getLocal? id x = m.scopes.getLocal? id x
      rw [Arena.getLocal?_set, if_neg]
      rintro ⟨rfl, rfl⟩
      exact h rfl
    | _ => rfl
  | property name =>
    cases other with
    | property x =>
      refine Table.get?_put_of_ne _ v ?_
      rintro rfl
      exact h rfl
    | _ => rfl
  | sessionValue session key =>
    cases other with
    | sessionValue session' key' =>
      refine (Table.get?_put_bucket m.store.sessions session key v session' key').trans (if_neg ?_)
      rintro ⟨rfl, rfl⟩
      exact h rfl
    | _ => rfl
  | cached bucket key =>
    cases other with
    | cached bucket' key' =>
      refine (Table.get?_put_bucket m.store.cache bucket key v bucket' key').trans (if_neg ?_)
      rintro ⟨rfl, rfl⟩
      exact h rfl
    | _ => rfl

/-! ### What putting keeps

Putting moves no frame and no scope, so that the homes are the same ones afterwards. -/

@[simp] theorem thread_putAt (home : Home) : (m.putAt v home).thread = m.thread := by cases home <;> rfl

@[simp] theorem bare_putAt (home : Home) : (m.putAt v home).scopes.bare = m.scopes.bare := by
  cases home with
  | binding scope name => exact Arena.bare_set m.scopes scope name v
  | _ => rfl

/-- Of the request only the variables in its scopes change. -/
theorem request_putAt (home : Home) :
    (m.putAt v home).request = { m.request with scopes := (m.putAt v home).scopes } := by
  cases home <;> rfl

theorem holds_putAt (home other : Home) : (m.putAt v home).Holds other ↔ m.Holds other := by
  cases other with
  | binding scope name =>
    show (m.putAt v home).scopes.isLive scope = true ↔ m.scopes.isLive scope = true
    rw [Arena.isLive_congr (m.bare_putAt v home)]
  | _ => exact Iff.rfl

/-- Putting moves no address to another home. -/
theorem home?_putAt (home : Home) (a : Address) : (m.putAt v home).home? a = m.home? a := by
  have hroot : (m.putAt v home).request.root = m.request.root := by rw [request_putAt]
  have hsession : (m.putAt v home).request.session = m.request.session := by rw [request_putAt]
  have hscope : (m.putAt v home).currentScope = m.currentScope := by
    rw [currentScope_eq, currentScope_eq, hroot, frames, thread_putAt]
    rfl
  have houtside : (m.putAt v home).outside = m.outside := by
    unfold outside frames
    rw [request_putAt, thread_putAt]
  unfold home?
  rw [hscope, houtside, hroot, hsession]
  split <;> first | rfl | rw [Arena.ancestor?_congr (m.bare_putAt v home)]

end Putting

/-! ## Addresses and their places

An address means a home, unless it lacks one. Reading goes further out along the scopes where the home itself is
empty. -/

section Addresses

variable {m : Machine σ} {a : Address} {home : Home}

/-- To give the whole variable of an address a value is to put it at the home of the address. -/
theorem put_eq (h : m.home? a = some home) (v : Value) : m.put a v = .ok (m.putAt v home) := by
  unfold home? at h
  unfold put change
  cases hl : a.level with
  | current =>
    simp only [hl, Option.some.injEq] at h ⊢
    subst h
    split_ifs <;> rfl
  | ancestor n =>
    simp only [hl] at h ⊢
    -- An address without a home would not be one that can be written.
    cases hs : m.scopes.ancestor? m.currentScope n with
    | none => simp [hs] at h
    | some scope =>
      obtain rfl : Home.binding scope a.name = home := by simpa [hs] using h
      rfl
  | provider p =>
    cases p with
    | session =>
      simp only [hl] at h ⊢
      unfold putInto session?
      cases hs : m.request.session with
      | none => simp [hs] at h
      | some session =>
        obtain rfl : Home.sessionValue session a.name = home := by simpa [hs] using h
        rfl
    | map | global | request =>
      simp only [hl, Option.some.injEq] at h ⊢
      subst h
      rfl
    | log | error => simp [hl] at h
  | expression | literal | quoted => simp [hl] at h

/-- An address whose default variable would be a property, while the outermost scope has a variable of the
name: reading finds the variable. -/
def Shadowed (m : Machine σ) (a : Address) : Prop :=
  m.outside = true ∧ a.level = .current ∧ (m.scopes.getLocal? m.request.root a.name).isSome

theorem not_shadowed_of_inside (h : m.outside = false) (a : Address) : ¬ m.Shadowed a := by
  rintro ⟨ho, -⟩
  rw [h] at ho
  cases ho

/-- Putting a value at the home of an address does not shadow it. -/
theorem not_shadowed_putAt (h : m.home? a = some home) (hshadow : ¬ m.Shadowed a) (c : Value) :
    ¬ (m.putAt c home).Shadowed a := by
  rintro ⟨ho, hl, hlocal⟩
  have houtside : m.outside = true := by
    unfold outside frames at ho ⊢
    rwa [request_putAt, thread_putAt] at ho
  obtain rfl : Home.property a.name = home := by simpa [home?, hl, houtside] using h
  exact hshadow ⟨houtside, hl, hlocal⟩

/-- A scope that has a variable shows it. -/
theorem lookupIn_of_local {scope : ScopeId} {name : String} {v : Value}
    (h : m.scopes.getLocal? scope name = some v) : m.lookupIn scope name = some v := by
  unfold Arena.getLocal? at h
  unfold lookupIn Arena.get? Arena.getFrom
  cases he : m.scopes.env? scope with
  | none => simp [he] at h
  | some env =>
    have hv : Table.get? env.vars name = some v := by simpa [he] using h
    simp [hv]

/-- The outermost scope shows its own variables and the properties. -/
theorem lookupIn_of_outermost {scope : ScopeId} {name : String} (hp : m.scopes.parent? scope = none)
    (h : m.scopes.getLocal? scope name = none) : m.lookupIn scope name = Table.get? m.store.properties name := by
  unfold Arena.getLocal? at h
  unfold Arena.parent? at hp
  unfold lookupIn Arena.get? Arena.getFrom
  cases he : m.scopes.env? scope with
  | none => rfl
  | some env =>
    have hvars : Table.get? env.vars name = none := by simpa [he] using h
    have hparent : env.parent = none := by simpa [he] using hp
    simp only [hvars, hparent]
    cases m.scopes.slots.size <;> rfl

/-- In the outermost scope a name stands for a variable of this scope alone, or else for a property. -/
theorem lookupIn_root (hroot : m.scopes.parent? m.request.root = none) (name : String) :
    m.lookupIn m.request.root name = (m.request.global? name).or (Table.get? m.store.properties name) := by
  cases hlocal : m.request.global? name with
  | some v => exact lookupIn_of_local hlocal
  | none => exact lookupIn_of_outermost hroot hlocal

theorem currentScope_of_outside (h : m.outside = true) : m.currentScope = m.request.root := by
  unfold outside at h
  have hframes : m.frames = [] := by
    rw [Bool.and_eq_true] at h
    exact List.isEmpty_iff.1 h.2
  unfold currentScope
  rw [hframes]

/-- What is at the home of an address is what the whole variable reads as. -/
theorem fetch_of_at? (h : m.home? a = some home) (hroot : m.scopes.parent? m.request.root = none)
    (hshadow : ¬ m.Shadowed a) {v : Value} (hv : m.at? home = some v) : m.fetch a = .ok (some v) := by
  unfold home? at h
  unfold fetch
  cases hl : a.level with
  | current =>
    simp only [hl, Option.some.injEq] at h ⊢
    subst h
    unfold lookup
    cases ho : m.outside with
    | false =>
      rw [if_neg (by simp [ho])] at hv
      rw [lookupIn_of_local hv]
    | true =>
      rw [if_pos ho] at hv
      -- otherwise a variable of the outermost scope would hide the property
      have hlocal : m.scopes.getLocal? m.request.root a.name = none := by
        by_contra hne
        exact hshadow ⟨ho, hl, Option.isSome_iff_ne_none.2 hne⟩
      rw [currentScope_of_outside ho, lookupIn_of_outermost hroot hlocal]
      exact congrArg Except.ok hv
  | ancestor n =>
    simp only [hl] at h ⊢
    cases hs : m.scopes.ancestor? m.currentScope n with
    | none => simp [hs] at h
    | some scope =>
      obtain rfl : Home.binding scope a.name = home := by simpa [hs] using h
      simp only
      rw [lookupIn_of_local hv]
  | provider p =>
    cases p with
    | session =>
      simp only [hl] at h ⊢
      unfold fetchFrom session?
      cases hs : m.request.session with
      | none => simp [hs] at h
      | some session =>
        obtain rfl : Home.sessionValue session a.name = home := by simpa [hs] using h
        simp only [at?] at hv
        obtain ⟨values, hvalues, hv⟩ := Option.bind_eq_some_iff.1 hv
        simp [hvalues, hv]
    | map | global | request =>
      simp only [hl, Option.some.injEq] at h ⊢
      subst h
      exact congrArg Except.ok hv
    | log | error => simp [hl] at h
  | expression | literal | quoted => simp [hl] at h

/-- Writing the whole variable is putting it at its home. -/
theorem writeAddress_eq (h : m.home? a = some home) (v : Value) :
    m.writeAddress a v = (m.putAt v home, .ok ()) := by
  unfold writeAddress
  rw [put_eq h]
  rfl

/-- Reading goes by what the variable as a whole reads as. -/
theorem readAddress_of_fetch {found : Option Value} (h : m.fetch a = .ok found) :
    m.readAddress a = (m, .ok (match a.path with | some path => found.bind (·.readPath path) | none => found)) := by
  unfold readAddress
  rw [h]
  rfl

/-- The whole variable that a write makes of a container, and what is found in it at the path. -/
theorem readPath_of_updated {c : Option Value} {path : String} {v c' : Value}
    (h : updated c path v = .ok c') : c'.readPath path = some v := by
  unfold updated at h
  cases c with
  | none =>
    cases h
    -- A variable that is not there is made for the path.
    exact Value.readPath_buildPath path v
  | some c =>
    cases hw : c.writePath path v with
    | mk c'' failure =>
      cases failure with
      | some reason => simp [hw] at h
      | none =>
        obtain rfl : c'' = c' := by simpa [hw] using h
        have hfine : (c.writePath path v).2 = none := congrArg Prod.snd hw
        have hread := Value.readPath_writePath hfine
        rw [hw] at hread
        exact hread

/-- An address with a home is one that can be written. -/
theorem not_readOnly_of_home (h : m.home? a = some home) : a.readOnly = false := by
  unfold home? at h
  unfold Address.readOnly
  cases hl : a.level <;> simp [hl] at h ⊢

/-- A save that is not refused puts one value at the home of its address, in which the path of the address leads
to what was saved. -/
theorem saveAddress_ok (h : m.home? a = some home) {v : Value} {n : Machine σ}
    (hs : m.saveAddress a v = (n, .ok ())) :
    ∃ c, n = m.putAt c home ∧ (match a.path with | some path => c.readPath path | none => some c) = some v := by
  unfold saveAddress at hs
  rw [if_neg (by simp [not_readOnly_of_home h])] at hs
  cases hp : a.path with
  | none =>
    simp only [hp, writeAddress_eq h] at hs
    exact ⟨v, (Prod.mk.inj hs).1.symm, rfl⟩
  | some path =>
    simp only [hp] at hs
    cases hr : m.readAddress a.container with
    | mk o found =>
      cases found with
      | error e => simp [hr] at hs
      | ok c =>
        -- Reading the whole has changed nothing, since it has succeeded.
        obtain rfl := readAddress_ok hr
        cases hu : updated c path v with
        | error e => simp [hr, hu] at hs
        | ok c' =>
          simp only [hr, hu, writeAddress_eq h] at hs
          exact ⟨c', (Prod.mk.inj hs).1.symm, readPath_of_updated hu⟩

/-- A name that can be written is without a home only if it has too many links. -/
theorem exists_home (hwritable : a.readOnly = false) (hlog : a.level ≠ .provider .log)
    (herror : a.level ≠ .provider .error) (hsession : a.level = .provider .session → m.request.session.isSome) :
    (∃ home, m.home? a = some home) ∨ ∃ n, a.level = .ancestor n ∧ m.scopes.ancestor? m.currentScope n = none := by
  unfold Address.readOnly at hwritable
  unfold home?
  cases hl : a.level with
  | current => exact .inl ⟨_, rfl⟩
  | ancestor n =>
    cases hs : m.scopes.ancestor? m.currentScope n with
    -- Only a name with too many links has no home.
    | none => exact .inr ⟨n, rfl, hs⟩
    | some scope => exact .inl ⟨.binding scope a.name, by simp [hs]⟩
  | provider p =>
    cases p with
    | session =>
      obtain ⟨session, hs⟩ := Option.isSome_iff_exists.1 (hsession hl)
      exact .inl ⟨.sessionValue session a.name, by simp [hs]⟩
    | map | global | request => exact .inl ⟨_, rfl⟩
    | log => exact absurd hl hlog
    | error => exact absurd hl herror
  | expression | literal | quoted => simp [hl] at hwritable

/-- Addresses have their homes in scopes that are there. -/
theorem Accounted.holds {others : Multiset ScopeId} {ds : List Driver} (hm : Accounted others m ds)
    (h : m.home? a = some home) : m.Holds home := by
  have hroot : m.scopes.isLive m.request.root := hm.isLive (Multiset.mem_add.2 (.inr hm.root))
  -- The top frame holds its scope; where there is no frame, the outermost one is the current one.
  have hcurrent : m.scopes.isLive m.currentScope := by
    rw [currentScope_eq]
    exact hm.isLive_topScope
  unfold home? at h
  cases hl : a.level with
  | current =>
    simp only [hl, Option.some.injEq] at h
    subst h
    split_ifs
    · trivial
    · exact hcurrent
  | ancestor n =>
    simp only [hl] at h
    obtain ⟨scope, hs, rfl⟩ := Option.map_eq_some_iff.1 h
    -- A live scope has live ancestors only.
    exact hm.balanced.isLive_ancestor hcurrent hs
  | provider p =>
    cases p with
    | session =>
      simp only [hl] at h
      obtain ⟨session, -, rfl⟩ := Option.map_eq_some_iff.1 h
      trivial
    | map | global =>
      simp only [hl, Option.some.injEq] at h
      subst h
      trivial
    | request =>
      simp only [hl, Option.some.injEq] at h
      subst h
      exact hroot
    | log | error => simp [hl] at h
  | expression | literal | quoted => simp [hl] at h

end Addresses

/-! ## Nothing else changes

Whatever may be read through another home is as before. -/

/-- From one machine to another the value of one home has changed, and no other; nor has any scope come or
gone, nor anything been recorded. -/
structure ChangesOnly (home : Home) (m n : Machine σ) : Prop where
  others : ∀ other, other ≠ home → n.at? other = m.at? other
  links : n.scopes.bare = m.scopes.bare
  request : n.request = { m.request with scopes := n.scopes }
  thread : n.thread = m.thread

theorem changesOnly_putAt (m : Machine σ) (v : Value) (home : Home) : ChangesOnly home m (m.putAt v home) where
  others _ h := m.at?_putAt_of_ne v h
  links := m.bare_putAt v home
  request := m.request_putAt v home
  thread := m.thread_putAt v home

end Machine

namespace Pool

/-- Saving and then reading under the same decorated name gives exactly the value that was saved, whatever the
level and with a path or without; and nothing has changed but the value at the home of the name. A part of a
variable that was found in a scope further out, or among the properties, is therefore saved in a variable
of its own. Outside of all frames of a detached request default names are left out, and so are the names that
keep nothing: those that are only read, those of the two sinks, and those of a session where there is none. -/
theorem put_get {p : Pool σ} (h : p.Reachable) {w : Worker σ} (hw : w ∈ p.workers) {name : String} {a : Address}
    {v : Value} {n : Machine σ}
    (hinside : p.world.request.detached = false ∨ 0 < (p.machine w).depth)
    (hname : Address.parse name.toList = .ok a) (hwritable : a.readOnly = false)
    (hlog : a.level ≠ .provider .log) (herror : a.level ≠ .provider .error)
    (hsession : a.level = .provider .session → p.world.request.session.isSome)
    (hs : (p.machine w).save name v = (n, .ok ())) :
    n.read name = (n, .ok (some v)) ∧
      ∃ home, (p.machine w).home? a = some home ∧ Machine.ChangesOnly home (p.machine w) n := by
  obtain ⟨rest, hrest⟩ := Multiset.exists_cons_of_mem hw
  have hm := h.sound.accounted hrest
  generalize hmachine : p.machine w = m at *
  have houtside : m.outside = false := by
    subst hmachine
    rcases hinside with hd | hd
    · simp [Machine.outside, Machine.request, machine, hd]
    · have hne : (p.machine w).frames ≠ [] := List.ne_nil_of_length_pos hd
      simp [Machine.outside, hne]
  have hroot : m.scopes.parent? m.request.root = none := by
    subst hmachine
    exact h.parent?_root
  have hsession' : a.level = .provider .session → m.request.session.isSome := by
    subst hmachine
    exact hsession
  obtain ⟨home, hhome⟩ | ⟨k, hl, hk⟩ := Machine.exists_home hwritable hlog herror hsession'
  · have hsave : m.saveAddress a v = (n, .ok ()) := by
      unfold Machine.save at hs
      rwa [hname] at hs
    obtain ⟨c, rfl, hc⟩ := Machine.saveAddress_ok hhome hsave
    refine ⟨?_, home, hhome, m.changesOnly_putAt c home⟩
    -- The home is the same one after the save, and it has the container with the part in it.
    have hafter : (m.putAt c home).home? a = some home := by rw [Machine.home?_putAt, hhome]
    have hfound : (m.putAt c home).fetch a = .ok (some c) := by
      apply Machine.fetch_of_at? hafter
      · rw [Arena.parent?_congr (m.bare_putAt c home), Machine.request_putAt]
        exact hroot
      · exact Machine.not_shadowed_putAt hhome (Machine.not_shadowed_of_inside houtside a) c
      · exact m.at?_putAt_self c (hm.holds hhome)
    unfold Machine.read
    rw [hname]
    simp only
    rw [Machine.readAddress_of_fetch hfound]
    cases hp : a.path with
    | none =>
      rw [hp] at hc
      simp only at hc ⊢
      rw [hc]
    | some path =>
      rw [hp] at hc
      simp only [Option.bind_some] at hc ⊢
      rw [hc]
  · rw [(Machine.overshoots_of_ancestor hname hl hk).save v] at hs
    simp at hs

/-- A thread in its first frame, while the properties have an object. -/
def visitor : Machine Unit :=
  (World.new (.ofProperties [("user", .obj [("city", .str "Bern")])]) (Request.new [] none) ()).enter.push "VISIT"
    [] []

/-- Saving a field of the object makes a variable with both fields, and the property keeps its one. -/
theorem put_get_visitor : ∃ n, visitor.save "user.name" (.str "Ann") = (n, .ok ()) ∧
    n.read "user.name" = (n, .ok (some (.str "Ann"))) ∧
    n.at? (.binding ⟨1, 0⟩ "user") = some (.obj [("city", .str "Bern"), ("name", .str "Ann")]) ∧
    n.at? (.property "user") = visitor.at? (.property "user") := by
  have hp : (visitor.within [] 0).Reachable := .begin ⟨rfl, [], none, false, rfl⟩ "VISIT" [] []
  have hw : (⟨visitor.thread, []⟩ : Worker Unit) ∈ (visitor.within [] 0).workers := Multiset.mem_singleton_self _
  obtain ⟨n, hs, hlocal⟩ : ∃ n, visitor.save "user.name" (.str "Ann") = (n, .ok ()) ∧
      n.at? (.binding ⟨1, 0⟩ "user") = some (.obj [("city", .str "Bern"), ("name", .str "Ann")]) := ⟨_, rfl, rfl⟩
  obtain ⟨hread, home, hhome, honly⟩ := put_get (a := ⟨.current, "", "user", some "name", true⟩) hp hw (.inl rfl) rfl
    rfl (by decide) (by decide) (by decide) hs
  cases hhome
  exact ⟨n, hs, hread, hlocal, honly.others (.property "user") (by decide)⟩

end Pool
end Sequencer
