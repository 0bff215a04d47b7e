import Sequencer.Proofs.Accounting
import Sequencer.Proofs.Attempt
import Sequencer.Proofs.Failing
import Sequencer.Proofs.Lookup

/-!
# What an operation writes

Reading looks all over the scopes, the stores and the properties; saving and deleting go to one place. What a
default name stands for is in the scope of the active frame and nowhere else, also if only a part of a variable
is saved that was found further out. So an operation on default names is told apart from others by the region
that it writes: some variables of some scopes, and no property.
-/

namespace Sequencer

/-- Names whose variables are those of the active scope, with a path or without. -/
def DefaultLevel (name : String) : Prop := ∀ a, Address.parse name.toList = .ok a → a.level = .current

/-- Some variables of some scopes. -/
abbrev Region := ScopeId → String → Prop

namespace Region

/-- No variable at all. -/
def empty : Region := fun _ _ => False

/-- All variables of a scope. -/
def scope (s : ScopeId) : Region := fun id _ => id = s

/-- The variables of a scope that some decorated names are about. -/
def named (s : ScopeId) (names : List String) : Region := fun id x =>
  id = s ∧ ∃ name ∈ names, ∃ a, Address.parse name.toList = .ok a ∧ a.name = x

/-- Names in a scope are among all that there is in it. -/
theorem named_le (s : ScopeId) (names : List String) : ∀ id x, named s names id x → scope s id x :=
  fun _ _ h => h.1

end Region

namespace Machine

variable {σ : Type}

/-- From one machine to another nothing has moved, and only variables of a region have changed. -/
structure Writes (W : Region) (m n : Machine σ) : Prop where
  quiet : m.Quiet n
  detached : n.request.detached = m.request.detached
  properties : n.store.properties = m.store.properties
  envs : ∀ id, (∀ x, ¬W id x) → n.scopes.env? id = m.scopes.env? id
  vars : ∀ id x, ¬W id x → n.scopes.getLocal? id x = m.scopes.getLocal? id x

namespace Writes

variable {W W' : Region} {m n o : Machine σ}

theorem refl (W : Region) (m : Machine σ) : m.Writes W m := ⟨.refl m, rfl, rfl, fun _ _ => rfl, fun _ _ _ => rfl⟩

/-- What two steps write together is in the region that both keep to. -/
theorem trans (h₁ : m.Writes W n) (h₂ : n.Writes W o) : m.Writes W o where
  quiet := h₁.quiet.trans h₂.quiet
  detached := h₂.detached.trans h₁.detached
  properties := h₂.properties.trans h₁.properties
  envs id hid := (h₂.envs id hid).trans (h₁.envs id hid)
  vars id x hx := (h₂.vars id x hx).trans (h₁.vars id x hx)

/-- A larger region allows more. -/
theorem mono (h : m.Writes W n) (hle : ∀ id x, W id x → W' id x) : m.Writes W' n where
  quiet := h.quiet
  detached := h.detached
  properties := h.properties
  envs id hid := h.envs id fun x hx => hid x (hle id x hx)
  vars id x hx := h.vars id x fun hx' => hx (hle id x hx')

/-- What writes nothing writes in no region. -/
theorem of_empty (h : m.Writes .empty n) (W : Region) : m.Writes W n := h.mono nofun

/-- The active frame stays, so that its scope stays the one that is written to. -/
theorem currentScope (h : m.Writes W n) : n.currentScope = m.currentScope := by
  rw [currentScope_eq, currentScope_eq, h.quiet.frames, h.quiet.root]

theorem outside (h : m.Writes W n) : n.outside = m.outside := by
  unfold Machine.outside
  rw [h.detached, h.quiet.frames]

theorem withFrames (h : m.Writes W n) (fs : List Frame) : (m.withFrames fs).Writes W (n.withFrames fs) :=
  ⟨h.quiet.withFrames fs, h.detached, h.properties, h.envs, h.vars⟩

end Writes

variable (m : Machine σ)

/-! ## One variable

Setting and removing a variable change it in one scope only. -/

/-- A change of the variables of one scope, which spares those outside of a region. -/
theorem writes_modifyVars (s : ScopeId) (f : Table Value → Table Value) {W : Region} (hs : ∃ x, W s x)
    (hf : ∀ vars x, ¬W s x → Table.get? (f vars) x = Table.get? vars x) :
    m.Writes W (m.withScopes (·.modifyVars s f)) where
  quiet := quiet_withScopes m (Arena.bare_modifyVars _ _ _)
  detached := rfl
  properties := rfl
  envs id hid := by
    obtain ⟨x, hx⟩ := hs
    -- Another scope is not concerned at all.
    have hne : id ≠ s := by
      rintro rfl
      exact hid x hx
    show (m.scopes.modifyVars s f).env? id = m.scopes.env? id
    rw [Arena.env?_modifyVars, if_neg hne]
  vars id x hx := by
    show (m.scopes.modifyVars s f).getLocal? id x = m.scopes.getLocal? id x
    unfold Arena.getLocal?
    rw [Arena.env?_modifyVars]
    split_ifs with hid
    · subst hid
      cases m.scopes.env? id with
      | none => rfl
      | some env => exact hf env.vars x hx
    · rfl

/-- Setting a variable writes where it is set, and only its name. -/
theorem writes_set (s : ScopeId) (name : String) (v : Value) {W : Region} (h : W s name) :
    m.Writes W (m.withScopes (·.set s name v)) := by
  refine writes_modifyVars m s _ ⟨name, h⟩ fun vars x hx => ?_
  refine Table.get?_put_of_ne vars v ?_
  rintro rfl
  exact hx h

theorem writes_remove (s : ScopeId) (name : String) {W : Region} (h : W s name) :
    m.Writes W (m.withScopes (·.remove s name)) := by
  refine writes_modifyVars m s _ ⟨name, h⟩ fun vars x hx => ?_
  refine Table.get?_erase_of_ne vars ?_
  rintro rfl
  exact hx h

/-! ## Addresses

What an operation may write follows from the level of its address. -/

theorem writes_note (W : Region) (e : Event) : m.Writes W (m.note e) :=
  ⟨quiet_note m e, rfl, rfl, fun _ _ => rfl, fun _ _ _ => rfl⟩

theorem writes_wait (W : Region) (units : Int64) : m.Writes W (m.wait units) := writes_note m W _

theorem writes_abort (W : Region) (message : String) : m.Writes W (m.abort message) :=
  ⟨quiet_abort m message, rfl, rfl, fun _ _ => rfl, fun _ _ _ => rfl⟩

/-- A failing store may abort the request, but writes nothing. -/
theorem writes_fail (W : Region) (e : StorageError) : m.Writes W (m.fail e) := by
  cases e with
  | provider p e => exact writes_abort m W _
  | _ => exact .refl W m

/-- An operation that is settled has written what it wrote when it succeeded, and nothing when it failed. -/
theorem writes_settle {α : Type} (W : Region) (a : Address) (instead : α)
    {r : Except StorageError (Machine σ × α)} (h : ∀ x, r = .ok x → m.Writes W x.1) :
    m.Writes W (m.settle a instead r).1 := by
  unfold settle
  cases r with
  | ok x => exact h x rfl
  | error e =>
    simp only
    split_ifs
    · exact .refl W m
    · exact writes_fail m W e

/-- Reading writes nothing, whatever the level of the address is. -/
theorem writes_readAddress (a : Address) : m.Writes .empty (m.readAddress a).1 := by
  apply writes_settle
  intro x hx
  split at hx
  · cases hx
    exact .refl _ m
  · cases hx

section Default

variable {m} {a : Address} {W : Region}

/-- A name without a level means the scope of the active frame, if there is one. -/
theorem change_of_current (ha : a.level = .current) (hin : m.outside = false) (c : Change)
    (onProvider : Provider → Except ProviderError (Machine σ)) :
    m.change a c onProvider = .ok (m.withScopes fun scopes => c.onScope scopes m.currentScope) := by
  unfold change
  rw [ha]
  simp only
  rw [if_neg (by simp [hin])]

theorem writes_writeAddress (ha : a.level = .current) (hin : m.outside = false) (hW : W m.currentScope a.name)
    (v : Value) : m.Writes W (m.writeAddress a v).1 := by
  apply writes_settle
  intro x hx
  unfold put at hx
  rw [change_of_current ha hin] at hx
  cases hx
  exact writes_set m m.currentScope a.name v hW

/-- Saving a part of a variable reads it wherever it is found, and writes it in the active scope. -/
theorem writes_saveAddress (ha : a.level = .current) (hin : m.outside = false) (hW : W m.currentScope a.name)
    (v : Value) : m.Writes W (m.saveAddress a v).1 := by
  unfold saveAddress
  split_ifs
  · exact .refl W m
  · cases a.path with
    | none => exact writes_writeAddress ha hin hW v
    | some path =>
      have hr := (writes_readAddress m a.container).of_empty W
      cases hc : m.readAddress a.container with
      | mk n r =>
        rw [hc] at hr
        cases r with
        | error e => exact hr
        | ok c =>
          simp only
          cases updated c path v with
          | error e => exact hr
          | ok c' => exact hr.trans (writes_writeAddress ha (hr.outside.trans hin) (hr.currentScope ▸ hW) c')

/-- Deleting at a path writes the container back, which is in the same scope. -/
theorem writes_deleteAddress (ha : a.level = .current) (hin : m.outside = false)
    (hW : W m.currentScope a.name) : m.Writes W (m.deleteAddress a).1 := by
  unfold deleteAddress
  split_ifs
  · exact .refl W m
  · cases a.path with
    | none =>
      apply writes_settle
      intro x hx
      unfold erase at hx
      rw [change_of_current ha hin] at hx
      cases hx
      exact writes_remove m m.currentScope a.name hW
    | some path =>
      have hr := (writes_readAddress m a.container).of_empty W
      cases hc : m.readAddress a.container with
      | mk n r =>
        rw [hc] at hr
        cases r with
        | error e => exact hr
        | ok c =>
          cases c with
          | none => exact hr
          | some c =>
            simp only
            -- A part is removed by writing the rest back.
            split
            · exact hr.trans (writes_writeAddress ha (hr.outside.trans hin) (hr.currentScope ▸ hW) _)
            · exact hr

end Default

/-! ## Decorated names

A name of the default level means the active scope. -/

/-- Whatever decorated name is read, nothing is written. -/
theorem writes_read (name : String) : m.Writes .empty (m.read name).1 := by
  unfold read
  cases Address.parse name.toList with
  | ok a => exact writes_readAddress m a
  | error e => exact .refl _ m

variable {m}

/-- Saving under a name of the default level writes this name in the active scope. -/
theorem writes_save {name : String} {names : List String} (hin : m.outside = false) (h : DefaultLevel name)
    (hname : name ∈ names) (v : Value) : m.Writes (.named m.currentScope names) (m.save name v).1 := by
  unfold save
  cases hp : Address.parse name.toList with
  | ok a => exact writes_saveAddress (h a hp) hin ⟨rfl, name, hname, a, hp, rfl⟩ v
  | error e => exact .refl _ m

theorem writes_delete {name : String} {names : List String} (hin : m.outside = false) (h : DefaultLevel name)
    (hname : name ∈ names) : m.Writes (.named m.currentScope names) (m.delete name).1 := by
  unfold delete
  cases hp : Address.parse name.toList with
  | ok a => exact writes_deleteAddress (h a hp) hin ⟨rfl, name, hname, a, hp, rfl⟩
  | error e => exact .refl _ m

/-! ## Many at once

What is bound or published is written under its own names. -/

variable (m)

/-- Parameters are only read. -/
theorem writes_resolve (params : Table Value) : m.Writes .empty (m.resolve params).1 := by
  induction params with
  | nil => exact .refl _ m
  | cons entry params ih =>
    obtain ⟨key, v⟩ := entry
    obtain ⟨name, n, e, hv, hr⟩ | ⟨v', hcons⟩ := m.resolve_cons key v
    · have hread := writes_read m name
      rw [resolve_cons_of_refused key hv hr]
      rw [hr] at hread
      exact hread
    · rw [hcons params]
      exact ih

theorem writes_readResults (asked : Bool) (names : List String) :
    m.Writes .empty (m.readResults asked names).1 := by
  induction names generalizing m with
  | nil => exact .refl _ m
  | cons name names ih =>
    unfold readResults
    by_cases hd : name = discard
    · rw [if_pos hd]
      exact ih m
    · rw [if_neg hd]
      exact (writes_read m name).trans (ih _)

/-- Binding writes into the active scope, under whatever names there are. -/
theorem writes_bindAll (vars : Table Value) : m.Writes (.scope m.currentScope) (m.bindAll vars) where
  quiet := quiet_bindAll m vars
  detached := rfl
  properties := rfl
  envs id hid := by
    have hne : id ≠ m.currentScope := hid ""
    exact (Arena.env?_setAll m.scopes m.currentScope vars id).trans (if_neg hne)
  vars id x hx := by
    have hne : id ≠ m.currentScope := hx
    have henv := (Arena.env?_setAll m.scopes m.currentScope vars id).trans (if_neg hne)
    show ((m.bindAll vars).scopes.env? id).bind _ = (m.scopes.env? id).bind _
    rw [← henv]
    rfl

variable {m}

/-- Results are published under their names one after the other. The scope stays the same in between, since no frame
comes or goes. -/
theorem writes_publish {all : List String} (hin : m.outside = false) (hall : ∀ name ∈ all, DefaultLevel name)
    (names : List String) (hnames : ∀ name ∈ names, name ∈ all) (vs : List (Option Value)) :
    m.Writes (.named m.currentScope all) (m.publish names vs) := by
  induction names generalizing m vs with
  | nil => exact .refl _ m
  | cons name names ih =>
    have hrest : ∀ n ∈ names, n ∈ all := fun n hn => hnames n (List.mem_cons_of_mem name hn)
    have hname := hnames name List.mem_cons_self
    cases vs with
    | nil => exact .refl _ m
    | cons v vs =>
      cases v with
      | none => exact ih hin hrest vs
      | some v =>
        simp only [publish]
        split_ifs
        · exact ih hin hrest vs
        · have hs := writes_save hin (hall name hname) hname v
          have ih' := ih (hs.outside.trans hin) hrest vs
          rw [hs.currentScope] at ih'
          exact hs.trans ih'

/-! ## Assignments

The names that are assigned are among those that the command was given. -/

variable (m)

/-- The targets that assignments write, which end with the first that fails. -/
def assigning (m : Machine σ) : Table Value → List String
  | [] => []
  | (target, v) :: rest =>
    match m.assigned v with
    | .error _ => []
    | .ok v =>
      target :: match m.save target v with
        | (m, .ok ()) => m.assigning rest
        | (_, .error _) => []

/-- The targets that deletions write, which end with the first that fails. -/
def deleting (m : Machine σ) : List String → List String
  | [] => []
  | target :: rest =>
    target :: match m.delete target with
      | (m, .ok ()) => m.deleting rest
      | (_, .error _) => []

/-- The targets that assignments and then deletions write. -/
def varying (m : Machine σ) (c : VarSpec) : List String :=
  m.assigning c.assign ++ match m.assignAll c.assign with
    | (m, true) => m.deleting c.remove
    | (_, false) => []

variable {m}

/-- The names in the hypothesis are those that are in fact assigned: after a failure the rest is not looked at. -/
theorem writes_assignAll (hin : m.outside = false) (vars : Table Value)
    (h : ∀ name ∈ m.assigning vars, DefaultLevel name) :
    m.Writes (.scope m.currentScope) (m.assignAll vars).1 := by
  induction vars generalizing m with
  | nil => exact .refl _ m
  | cons entry vars ih =>
    obtain ⟨target, v⟩ := entry
    unfold assigning at h
    unfold assignAll
    cases hv : m.assigned v with
    | error e => exact .refl _ m
    | ok v' =>
      rw [hv] at h
      -- What the assignment writes is told by the machine as it is then, so that the rest is told after the save.
      have htarget := h target List.mem_cons_self
      have hs := (writes_save hin htarget List.mem_cons_self v').mono (Region.named_le _ [target])
      simp only
      cases hsave : m.save target v' with
      | mk n r =>
        rw [hsave] at hs
        simp only at h
        rw [hsave] at h
        cases r with
        | error e => exact hs
        | ok u =>
          have ih' := ih (hs.outside.trans hin) fun name hname => h name (List.mem_cons_of_mem target hname)
          rw [hs.currentScope] at ih'
          exact hs.trans ih'

theorem writes_deleteAll (hin : m.outside = false) (targets : List String)
    (h : ∀ name ∈ m.deleting targets, DefaultLevel name) :
    m.Writes (.scope m.currentScope) (m.deleteAll targets).1 := by
  induction targets generalizing m with
  | nil => exact .refl _ m
  | cons target rest ih =>
    unfold deleting at h
    unfold deleteAll
    have htarget := h target List.mem_cons_self
    have hd := (writes_delete hin htarget List.mem_cons_self).mono (Region.named_le _ [target])
    cases hdel : m.delete target with
    | mk n r =>
      rw [hdel] at hd h
      cases r with
      | error e => exact hd
      | ok u =>
        have ih' := ih (hd.outside.trans hin) fun name hname => h name (List.mem_cons_of_mem target hname)
        rw [hd.currentScope] at ih'
        exact hd.trans ih'

/-- Assignments to default names are writes to the current scope. -/
theorem writes_performVar (hin : m.outside = false) (c : VarSpec)
    (h : ∀ name ∈ m.varying c, DefaultLevel name) : m.Writes (.scope m.currentScope) (m.performVar c).1 := by
  unfold varying at h
  have ha := writes_assignAll hin c.assign fun name hname => h name (List.mem_append_left _ hname)
  unfold performVar
  cases hassign : m.assignAll c.assign with
  | mk n ok =>
    rw [hassign] at ha h
    cases ok with
    | false => exact ha
    | true =>
      have hd := writes_deleteAll (ha.outside.trans hin) c.remove fun name hname =>
        h name (List.mem_append_right _ hname)
      rw [ha.currentScope] at hd
      exact ha.trans hd

/-- What a host command does to a variable under a default name is done in the current scope. -/
theorem writes_update (hin : m.outside = false) {u : Update} (h : DefaultLevel u.target) :
    m.Writes (.scope m.currentScope) (m.update u) := by
  cases u with
  | save name v => exact (writes_save hin h List.mem_cons_self v).mono (Region.named_le _ [name])
  | delete name => exact (writes_delete hin h List.mem_cons_self).mono (Region.named_le _ [name])

theorem writes_updateAll (hin : m.outside = false) (updates : List Update)
    (h : ∀ u ∈ updates, DefaultLevel u.target) : m.Writes (.scope m.currentScope) (m.updateAll updates) := by
  induction updates generalizing m with
  | nil => exact .refl _ m
  | cons u updates ih =>
    have hu := writes_update hin (h u List.mem_cons_self)
    have hrest := ih (hu.outside.trans hin) fun v hv => h v (List.mem_cons_of_mem u hv)
    rw [hu.currentScope] at hrest
    exact hu.trans hrest

/-! ## Between passes and attempts

A condition writes nothing. A range binds its names, and the assignments come after the pass. -/

theorem writes_beforePass {loop : Loop} {n : Machine σ} {pass : Pass} (h : m.beforePass loop = (n, pass)) :
    m.Writes (.scope m.currentScope) n := by
  have hw : m.Writes (.scope m.currentScope) (m.beforePass loop).1 := by
    unfold beforePass
    split
    · split_ifs
      · exact .refl _ m
      · split <;> exact .refl _ m
    · exact .refl _ m
    · exact writes_bindAll m _
  rw [h] at hw
  exact hw

/-- The targets that a loop assigns between two passes. -/
def Loop.assigning (m : Machine σ) : Loop → List String
  | .whileTrue _ next => m.assigning next
  | .over _ _ _ _ => []

/-- Only a loop with a condition assigns after a pass, and then under the names that it was given. -/
theorem writes_afterPass {loop : Loop} {n : Machine σ} {next : Option Loop} (hin : m.outside = false)
    (hloop : ∀ name ∈ loop.assigning m, DefaultLevel name) (h : m.afterPass loop = (n, next)) :
    m.Writes (.scope m.currentScope) n := by
  have hw : m.Writes (.scope m.currentScope) (m.afterPass loop).1 := by
    rcases loop with ⟨condition, assignments⟩ | ⟨items, index, key, value⟩
    · have ha := writes_assignAll hin assignments hloop
      simp only [afterPass]
      split
      · next hn =>
        rw [hn] at ha
        exact ha
      · next hn =>
        rw [hn] at ha
        exact ha
    · exact .refl _ m
  rw [h] at hw
  exact hw

theorem writes_prepare {e : Engine σ} {c : Command σ} {i : Instruction} {key : String} {n : Machine σ}
    {r : Except CommandError (Invocation σ)} (h : m.prepare e c i key = (n, r)) : m.Writes .empty n := by
  have hw : m.Writes .empty (m.prepare e c i key).1 := by
    unfold prepare
    have h₁ : m.Writes .empty (if i.timing.idle > 0 then m.wait i.timing.idle else m) := by
      split_ifs
      · exact writes_wait m _ _
      · exact .refl _ m
    generalize (if i.timing.idle > 0 then m.wait i.timing.idle else m) = o at h₁
    have h₂ := h₁.trans (writes_note o .empty (.prepared o.thread.id key))
    simp only
    split
    · exact h₂.trans (writes_note _ _ _)
    · exact h₂
  rw [h] at hw
  exact hw

end Machine
end Sequencer
