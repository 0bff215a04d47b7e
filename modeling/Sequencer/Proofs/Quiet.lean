import Sequencer.Run
import Sequencer.Proofs.Lifetime

/-!
# Operations that move nothing

Reading, saving and deleting change variables, and a store that fails may abort the request. None of them
touches the stack of the thread or the way in which scopes hang together. That is `Quiet`, and it is all
that later arguments about stacks and scopes need to know of them. Where only the shape of the stack
matters, and not how far its frames have come, `Calm` is enough.
-/

namespace Sequencer

namespace Frame

/-- A frame without what fetching and breaking change: how far it has come, and whether it loops. -/
def core (f : Frame) : Frame := { f with ip := 0, looping := false }

theorem scope_of_core {f g : Frame} (h : f.core = g.core) : f.scope = g.scope := by
  show f.core.scope = g.core.scope
  rw [h]

theorem results_of_core {f g : Frame} (h : f.core = g.core) : f.results = g.results := by
  show f.core.results = g.core.results
  rw [h]

theorem length_of_core {fs gs : List Frame} (h : gs.map core = fs.map core) : gs.length = fs.length := by
  simpa using congrArg List.length h

theorem ownsScope_of_core {f g : Frame} (h : f.core = g.core) : f.ownsScope = g.ownsScope := by
  show f.core.ownsScope = g.core.ownsScope
  rw [h]

end Frame

namespace Machine

variable {σ : Type}

/-! ## Two relations

What is quiet leaves the stack of a machine as it is. What is calm may change marks on frames in addition. -/

/-- From one machine to another only variables, stores and the journal have changed, and perhaps the
request has been aborted. -/
structure Quiet (m n : Machine σ) : Prop where
  thread : n.thread = m.thread
  scopes : n.scopes.bare = m.scopes.bare
  root : n.request.root = m.request.root
  aborted : m.aborted → n.aborted

namespace Quiet

variable {m n o : Machine σ}

theorem refl (m : Machine σ) : m.Quiet m := ⟨rfl, rfl, rfl, id⟩

/-- Quiet steps follow one another, and nothing is moved by all of them together. -/
theorem trans (h₁ : m.Quiet n) (h₂ : n.Quiet o) : m.Quiet o :=
  ⟨h₂.thread.trans h₁.thread, h₂.scopes.trans h₁.scopes, h₂.root.trans h₁.root,
    fun h => h₂.aborted (h₁.aborted h)⟩

theorem frames (h : m.Quiet n) : n.frames = m.frames := congrArg Thread.frames h.thread

theorem barrier (h : m.Quiet n) : n.thread.barrier = m.thread.barrier := congrArg Thread.barrier h.thread

theorem breakAt (h : m.Quiet n) : n.thread.breakAt = m.thread.breakAt := congrArg Thread.breakAt h.thread

/-- Frames that are put on both sides do not matter: what is quiet is so about everything else. -/
theorem withFrames (h : m.Quiet n) (fs : List Frame) : (m.withFrames fs).Quiet (n.withFrames fs) where
  thread := by
    unfold Machine.withFrames
    rw [h.thread]
  scopes := h.scopes
  root := h.root
  aborted := h.aborted

end Quiet

/-- What takes no abort back was not aborted before, if it is not afterwards. -/
theorem alive_of {m n : Machine σ} (h : m.aborted → n.aborted) (ha : n.aborted = false) : m.aborted = false := by
  cases hm : m.aborted with
  | false => rfl
  | true => exact (h hm).symm.trans ha

/-- Like `Quiet`, but there may be new marks on the frames: fetching and breaking leave such marks. What
else a thread has is free. -/
structure Calm (m n : Machine σ) : Prop where
  frames : n.frames.map Frame.core = m.frames.map Frame.core
  scopes : n.scopes.bare = m.scopes.bare
  root : n.request.root = m.request.root
  aborted : m.aborted → n.aborted

namespace Calm

variable {m n o : Machine σ}

theorem trans (h₁ : m.Calm n) (h₂ : n.Calm o) : m.Calm o :=
  ⟨h₂.frames.trans h₁.frames, h₂.scopes.trans h₁.scopes, h₂.root.trans h₁.root,
    fun h => h₂.aborted (h₁.aborted h)⟩

/-- A thread may change in whatever way leaves its frames the same but for their marks. -/
theorem of_thread (m : Machine σ) {t : Thread σ} (h : t.frames.map Frame.core = m.frames.map Frame.core) :
    m.Calm { m with thread := t } := ⟨h, rfl, rfl, id⟩

theorem depth (h : m.Calm n) : n.depth = m.depth := Frame.length_of_core h.frames

end Calm

/-- Frames that have not moved are the same with their marks, and so without them. -/
theorem Quiet.calm {m n : Machine σ} (h : m.Quiet n) : m.Calm n :=
  ⟨congrArg _ h.frames, h.scopes, h.root, h.aborted⟩

/-! ## What storage does

A relation covers the operations of storage if it has the few changes in it that these are made of. -/

/-- A preorder of machines that allows for everything that storage and the host program do: changing stores and
variables, recording an error and aborting. -/
structure Covers (R : Machine σ → Machine σ → Prop) : Prop where
  refl (m) : R m m
  trans {m n o} : R m n → R n o → R m o
  withHost (m) (host : σ) : R m { m with world := { m.world with host } }
  withStore (m f) : R m (m.withStore f)
  withScopes (m) {f} : (f m.scopes).bare = m.scopes.bare → R m (m.withScopes f)
  record (m message) : R m (m.withRequest (·.record message))
  abort (m message) : R m (m.abort message)

/-- In all of this nothing moves. -/
theorem covers_quiet : Covers (Quiet (σ := σ)) where
  refl := .refl
  trans := .trans
  withHost _ _ := ⟨rfl, rfl, rfl, id⟩
  withStore _ _ := ⟨rfl, rfl, rfl, id⟩
  withScopes _ _ h := ⟨rfl, h, rfl, id⟩
  record _ _ := ⟨rfl, rfl, rfl, id⟩
  abort _ _ := ⟨rfl, rfl, rfl, fun _ => rfl⟩

namespace Covers

variable {R : Machine σ → Machine σ → Prop} (hR : Covers R) (m : Machine σ)
include hR

/-! ### Stores

Only a store that is a scope changes scopes. -/

/-- A store that takes a value changes scopes only where it is that of the request. -/
theorem putInto {p : Provider} {bucket key : String} {v : Value} {n : Machine σ}
    (h : m.putInto p bucket key v = .ok n) : R m n := by
  unfold Machine.putInto at h
  cases p with
  | session =>
    simp only at h
    split at h
    · cases h
      exact hR.withStore m _
    · cases h
  | map =>
    cases h
    exact hR.withStore m _
  | global =>
    cases h
    exact hR.withStore m _
  | request =>
    cases h
    exact hR.withScopes m (Arena.bare_set _ _ _ _)
  | log =>
    cases h
    exact hR.refl m
  | error =>
    cases h
    exact hR.record m v.text

/-- A store that gives a key up does so as well. -/
theorem eraseFrom {p : Provider} {bucket key : String} {n : Machine σ}
    (h : m.eraseFrom p bucket key = .ok n) : R m n := by
  unfold Machine.eraseFrom at h
  cases p with
  | session =>
    simp only at h
    split at h
    · cases h
      exact hR.withStore m _
    · cases h
  | map =>
    cases h
    exact hR.withStore m _
  | global =>
    cases h
    exact hR.withStore m _
  | request =>
    cases h
    exact hR.withScopes m (Arena.bare_remove _ _ _)
  | log =>
    cases h
    exact hR.refl m
  | error =>
    cases h
    exact hR.refl m

/-! ### Whole variables

A change at an address is one of the changes that are covered. -/

/-- A change of a whole variable moves nothing if it moves nothing in each home of variables. -/
theorem change {a : Address} {c : Change} {f : Provider → Except ProviderError (Machine σ)}
    {n : Machine σ} (hc : ∀ scopes id, (c.onScope scopes id).bare = scopes.bare)
    (hf : ∀ p n, f p = .ok n → R m n) (h : m.change a c f = .ok n) : R m n := by
  unfold Machine.change at h
  split at h
  · split at h
    · next hp =>
      cases h
      exact hf _ _ hp
    · cases h
  · split_ifs at h
    · cases h
      exact hR.withStore m _
    · cases h
      exact hR.withScopes m (hc _ _)
  · split at h
    · cases h
      exact hR.withScopes m (hc _ _)
    · cases h
  -- Expressions and literals cannot be written.
  all_goals cases h

/-- Putting a value into the whole variable of an address. -/
theorem put {a : Address} {v : Value} {n : Machine σ} (h : m.put a v = .ok n) : R m n :=
  hR.change m (fun _ _ => Arena.bare_set _ _ _ _) (fun _ _ hp => hR.putInto m hp) h

theorem erase {a : Address} {n : Machine σ} (h : m.erase a = .ok n) : R m n :=
  hR.change m (fun _ _ => Arena.bare_remove _ _ _) (fun _ _ hp => hR.eraseFrom m hp) h

/-! ### Addresses

Operations at a path put together what is covered. -/

/-- A failure does no more than abort the request, which no relation of this kind looks at. -/
theorem fail (e : StorageError) : R m (m.fail e) := by
  cases e with
  | provider p e => exact hR.abort m _
  | _ => exact hR.refl m

/-- What is settled is the machine of the outcome, or the old one after a failure. -/
theorem settle {α : Type} (a : Address) (instead : α)
    {r : Except StorageError (Machine σ × α)} (h : ∀ x, r = .ok x → R m x.1) :
    R m (m.settle a instead r).1 := by
  unfold Machine.settle
  cases r with
  | ok x => exact h x rfl
  | error e =>
    simp only
    split_ifs
    · exact hR.refl m
    · exact hR.fail m e

theorem readAddress (a : Address) : R m (m.readAddress a).1 := by
  apply hR.settle
  intro x hx
  split at hx
  · cases hx
    exact hR.refl m
  · cases hx

theorem writeAddress (a : Address) (v : Value) : R m (m.writeAddress a v).1 := by
  apply hR.settle
  intro x hx
  split at hx
  · next hp =>
    cases hx
    exact hR.put m hp
  · cases hx

/-- A path is read before it is written, and both go to the same variable. -/
theorem saveAddress (a : Address) (v : Value) : R m (m.saveAddress a v).1 := by
  unfold Machine.saveAddress
  split_ifs
  · exact hR.refl m
  · cases a.path with
    | none => exact hR.writeAddress m a v
    | some path =>
      -- A path is saved by reading the whole first, which may fail and abort.
      have hr := hR.readAddress m a.container
      cases hc : m.readAddress a.container with
      | mk n r =>
        rw [hc] at hr
        cases r with
        | error e => exact hr
        | ok c =>
          simp only
          cases updated c path v with
          | error e => exact hr
          | ok c' => exact hR.trans hr (hR.writeAddress n a c')

/-- Deleting at a path reads the whole variable, and writes it back without the part. -/
theorem deleteAddress (a : Address) : R m (m.deleteAddress a).1 := by
  unfold Machine.deleteAddress
  split_ifs
  · exact hR.refl m
  · cases a.path with
    | none =>
      apply hR.settle
      intro x hx
      split at hx
      · next he =>
        cases hx
        exact hR.erase m he
      · cases hx
    | some path =>
      have hr := hR.readAddress m a.container
      cases hc : m.readAddress a.container with
      | mk n r =>
        rw [hc] at hr
        cases r with
        | error e => exact hr
        | ok c =>
          cases c with
          | none => exact hr
          | some c =>
            simp only
            split
            · exact hR.trans hr (hR.writeAddress n a _)
            · exact hr

theorem read (name : String) : R m (m.read name).1 := by
  unfold Machine.read
  cases Address.parse name.toList with
  | ok a => exact hR.readAddress m a
  | error e => exact hR.refl m

/-- The same for a reading that has been looked at already. -/
theorem of_read {m n : Machine σ} {name : String} {r : Except StorageError (Option Value)}
    (h : m.read name = (n, r)) : R m n := by
  have hr := hR.read m name
  rw [h] at hr
  exact hr

theorem save (name : String) (v : Value) : R m (m.save name v).1 := by
  unfold Machine.save
  cases Address.parse name.toList with
  | ok a => exact hR.saveAddress m a v
  | error e => exact hR.refl m

theorem delete (name : String) : R m (m.delete name).1 := by
  unfold Machine.delete
  cases Address.parse name.toList with
  | ok a => exact hR.deleteAddress m a
  | error e => exact hR.refl m

/-! ### Many at once

One after the other, each on the machine that the last one has left. -/

/-- Parameters are read one after the other, and the first that fails ends it. -/
theorem resolve (params : Table Value) : R m (m.resolve params).1 := by
  induction params generalizing m with
  | nil => exact hR.refl m
  | cons entry params ih =>
    obtain ⟨key, v⟩ := entry
    unfold Machine.resolve
    -- first the value of this parameter, which may have to be read, and then the others
    split
    · next n e hv =>
      revert hv
      cases parameterAddress? v with
      | none => simp
      | some address =>
        simp only
        split
        · simp
        · next hread =>
          intro h
          cases h
          exact hR.of_read hread
    · next n v' hv =>
      have hn : R m n := by
        revert hv
        cases parameterAddress? v with
        | none =>
          intro h
          cases h
          exact hR.refl m
        | some address =>
          simp only
          split
          · next hread =>
            intro h
            cases h
            exact hR.of_read hread
          · simp
      have hrest := hR.trans hn (ih n)
      split
      · next hres =>
        rw [hres] at hrest
        exact hrest
      · next hres =>
        rw [hres] at hrest
        exact hrest

/-- Results are read one after the other, and a failure only leaves its value out. -/
theorem readResults (asked : Bool) (names : List String) :
    R m (m.readResults asked names).1 := by
  induction names generalizing m with
  | nil => exact hR.refl m
  | cons name names ih =>
    unfold Machine.readResults
    by_cases hd : name = discard
    · rw [if_pos hd]
      exact ih m
    · rw [if_neg hd]
      exact hR.trans (hR.read m name) (ih _)

/-- Publishing saves what has been read, and does not stop at a failure. -/
theorem publish (names : List String) (vs : List (Option Value)) :
    R m (m.publish names vs) := by
  induction names generalizing m vs with
  | nil => exact hR.refl m
  | cons name names ih =>
    cases vs with
    | nil => exact hR.refl m
    | cons v vs =>
      cases v with
      | none => exact ih m vs
      | some v =>
        simp only [Machine.publish]
        split_ifs
        · exact ih m vs
        · exact hR.trans (hR.save m name v) (ih _ vs)

theorem bindAll (vars : Table Value) : R m (m.bindAll vars) := by
  refine hR.withScopes m ?_
  generalize m.scopes = a
  induction vars generalizing a with
  | nil => rfl
  | cons entry vars ih =>
    rw [List.foldl_cons]
    exact (ih _).trans (Arena.bare_set _ _ _ _)

theorem assignAll (vars : Table Value) : R m (m.assignAll vars).1 := by
  induction vars generalizing m with
  | nil => exact hR.refl m
  | cons entry vars ih =>
    obtain ⟨target, v⟩ := entry
    unfold Machine.assignAll
    cases m.assigned v with
    | error e => exact hR.refl m
    | ok v' =>
      have hs := hR.save m target v'
      simp only
      split
      · next n hn =>
        rw [hn] at hs
        exact hR.trans hs (ih n)
      · next n e hn =>
        rw [hn] at hs
        exact hs

theorem deleteAll (targets : List String) : R m (m.deleteAll targets).1 := by
  induction targets generalizing m with
  | nil => exact hR.refl m
  | cons target rest ih =>
    have hd := hR.delete m target
    unfold Machine.deleteAll
    split
    · next n hn =>
      rw [hn] at hd
      exact hR.trans hd (ih n)
    · next n e hn =>
      rw [hn] at hd
      exact hd

/-- The assignments come first, and the deletions only after all of them have succeeded. -/
theorem performVar (c : VarSpec) : R m (m.performVar c).1 := by
  have ha := hR.assignAll m c.assign
  unfold Machine.performVar
  split
  · next n hn =>
    rw [hn] at ha
    exact hR.trans ha (hR.deleteAll n c.remove)
  · next n hn =>
    rw [hn] at ha
    exact ha

/-- A host command saves or deletes one variable. -/
theorem update (u : Update) : R m (m.update u) := by
  cases u with
  | save name v => exact hR.save m name v
  | delete name => exact hR.delete m name

theorem updateAll (updates : List Update) : R m (m.updateAll updates) := by
  induction updates generalizing m with
  | nil => exact hR.refl m
  | cons u updates ih => exact hR.trans (hR.update m u) (ih (m.update u))

/-! ### Between passes

What loops do around their passes. -/

variable {m}

/-- Before a pass a condition is evaluated, or the next element is bound to its names. -/
theorem beforePass {loop : Loop} {n : Machine σ} {pass : Pass} (h : m.beforePass loop = (n, pass)) :
    R m n := by
  have hq : R m (m.beforePass loop).1 := by
    unfold Machine.beforePass
    split
    · split_ifs
      · exact hR.refl m
      · split <;> exact hR.refl m
    · exact hR.refl m
    · exact hR.bindAll m _
  rw [h] at hq
  exact hq

/-- After a pass the assignments of the loop are made. -/
theorem afterPass {loop : Loop} {n : Machine σ} {next : Option Loop}
    (h : m.afterPass loop = (n, next)) : R m n := by
  have hq : R m (m.afterPass loop).1 := by
    cases loop with
    | whileTrue condition assignments =>
      have ha := hR.assignAll m assignments
      simp only [Machine.afterPass]
      split
      · next n hn =>
        rw [hn] at ha
        exact ha
      · next n hn =>
        rw [hn] at ha
        exact ha
    | _ => exact hR.refl m
  rw [h] at hq
  exact hq

end Covers

/-! ## Nothing moves

So much for one relation. The same lemmas, for the one that is needed most. -/

section

variable (m : Machine σ)

theorem quiet_note (e : Event) : m.Quiet (m.note e) := ⟨rfl, rfl, rfl, id⟩

theorem quiet_wait (units : Int64) : m.Quiet (m.wait units) := quiet_note m _

theorem quiet_abort (message : String) : m.Quiet (m.abort message) := covers_quiet.abort m message

theorem quiet_withScopes {f : Arena → Arena} (h : (f m.scopes).bare = m.scopes.bare) :
    m.Quiet (m.withScopes f) := covers_quiet.withScopes m h

theorem quiet_read (name : String) : m.Quiet (m.read name).1 := covers_quiet.read m name

theorem quiet_resolve (params : Table Value) : m.Quiet (m.resolve params).1 := covers_quiet.resolve m params

theorem quiet_readResults (asked : Bool) (names : List String) : m.Quiet (m.readResults asked names).1 :=
  covers_quiet.readResults m asked names

theorem quiet_publish (names : List String) (vs : List (Option Value)) : m.Quiet (m.publish names vs) :=
  covers_quiet.publish m names vs

theorem quiet_bindAll (vars : Table Value) : m.Quiet (m.bindAll vars) := covers_quiet.bindAll m vars

theorem quiet_update (u : Update) : m.Quiet (m.update u) := covers_quiet.update m u

theorem quiet_updateAll (updates : List Update) : m.Quiet (m.updateAll updates) := covers_quiet.updateAll m updates

theorem quiet_performVar (c : VarSpec) : m.Quiet (m.performVar c).1 := covers_quiet.performVar m c

end

variable {m : Machine σ}

theorem quiet_beforePass {loop : Loop} {n : Machine σ} {pass : Pass} (h : m.beforePass loop = (n, pass)) :
    m.Quiet n := covers_quiet.beforePass h

theorem quiet_afterPass {loop : Loop} {n : Machine σ} {next : Option Loop}
    (h : m.afterPass loop = (n, next)) : m.Quiet n := covers_quiet.afterPass h

theorem quiet_prepare {e : Engine σ} {c : Command σ} {i : Instruction} {key : String} {n : Machine σ}
    {r : Except CommandError (Invocation σ)} (h : m.prepare e c i key = (n, r)) : m.Quiet n := by
  have hq : m.Quiet (m.prepare e c i key).1 := by
    unfold prepare
    have h₁ : m.Quiet (if i.timing.idle > 0 then m.wait i.timing.idle else m) := by
      split_ifs
      · exact quiet_wait m _
      · exact .refl m
    generalize (if i.timing.idle > 0 then m.wait i.timing.idle else m) = o at h₁
    have h₂ := h₁.trans (quiet_note o (.prepared o.thread.id key))
    simp only
    split
    · exact h₂.trans (quiet_note _ _)
    · exact h₂
  rw [h] at hq
  exact hq

/-- A command is prepared on the machine that is left. -/
theorem outcome_of_prepare {e : Engine σ} {c : Command σ} {i : Instruction} {key : String} {n : Machine σ}
    {r : Except CommandError (Invocation σ)} (h : m.prepare e c i key = (n, r)) :
    c.prepare e.files i.payload n = r := by
  cases h
  rfl

end Machine
end Sequencer
