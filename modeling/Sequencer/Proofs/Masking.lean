import Sequencer.Proofs.Retention

/-!
# What a thread works with

A thread has a number, holds references and waits for jobs. None of this has any bearing on what it reads and
writes: a machine in which it is masked goes the same way. The operations that leave the stack as it is are
compared here, each with itself on the masked machine.
-/

namespace Sequencer

variable {σ : Type}

/-- An event without the number of its thread. -/
def Event.anonymous : Event → Event
  | .entered _ activation action => .entered 0 activation action
  | .fetched _ activation key depth live => .fetched 0 activation key depth live
  | .prepared _ key => .prepared 0 key
  | .attempted _ key => .attempted 0 key
  | .waited _ units => .waited 0 units
  | .opened path => .opened path
  | .aborted _ message => .aborted 0 message

/-- A frame with a reference on its scope. -/
def Frame.owning (f : Frame) : Frame := { f with ownsScope := true }

namespace Machine

/-- A machine without the numbers of threads, the counts of references, who holds them, and the jobs that wait. -/
def masked (m : Machine σ) : Machine σ where
  world :=
    { m.world with
      request := { m.request with scopes := m.scopes.uncounted }
      journal := m.world.journal.map Event.anonymous
      threads := 0 }
  thread := ⟨0, m.frames.map Frame.owning, none, m.thread.breakAt⟩

variable (m : Machine σ)

/-! ## Looking up

The counts are not part of what a variable is, so that each look-up finds the same on the masked machine. -/

@[simp] theorem scopes_masked : m.masked.scopes = m.scopes.uncounted := rfl

/-- The scope of the active frame, or the root scope where there is none, whoever holds the references. -/
@[simp] theorem currentScope_masked : m.masked.currentScope = m.currentScope := by
  unfold currentScope masked frames
  cases m.thread.frames <;> rfl

@[simp] theorem outside_masked : m.masked.outside = m.outside := by
  unfold outside masked frames
  cases m.thread.frames <;> rfl

/-- A chain of scopes is walked along the parents, which are not masked. -/
@[simp] theorem lookupIn_masked (scope : ScopeId) : m.masked.lookupIn scope = m.lookupIn scope := by
  funext name
  unfold lookupIn
  rw [scopes_masked, Arena.get?_uncounted]
  rfl

@[simp] theorem lookup_masked : m.masked.lookup = m.lookup := by
  unfold lookup
  rw [currentScope_masked, lookupIn_masked]

@[simp] theorem eval_masked (text : String) : m.masked.eval text = m.eval text := by
  unfold eval
  rw [lookup_masked]

@[simp] theorem testIn_masked (scope : ScopeId) (text : String) : m.masked.testIn scope text = m.testIn scope text := by
  unfold testIn
  rw [lookupIn_masked]

@[simp] theorem test_masked (text : String) : m.masked.test text = m.test text := by
  unfold test
  rw [currentScope_masked, testIn_masked]

@[simp] theorem expand_masked (text : String) : m.masked.expand text = m.expand text := by
  unfold expand
  rw [lookup_masked]

@[simp] theorem decode_masked (e : Engine σ) (text : String) : m.masked.decode e text = m.decode e text := by
  unfold decode
  rw [expand_masked]

@[simp] theorem assigned_masked (v : Value) : m.masked.assigned v = m.assigned v := by
  unfold assigned
  simp only [eval_masked]

@[simp] theorem testPredicate_masked (p : Predicate) (condition : String) :
    m.masked.testPredicate p condition = m.testPredicate p condition := by
  unfold testPredicate
  simp only [test_masked, eval_masked]

/-- The cases of a switch are tested in the root scope, which stays. -/
@[simp] theorem selectCase_masked (default : String) (cases : Table Value) :
    m.masked.selectCase default cases = m.selectCase default cases := by
  have hroot : m.masked.request.root = m.request.root := rfl
  induction cases with
  | nil => rfl
  | cons entry cases ih =>
    obtain ⟨condition, action⟩ := entry
    unfold selectCase
    rw [hroot, testIn_masked, ih]

/-! ## Stores

A store answers the masked machine as it answers the machine, and leaves a masked machine behind. -/

theorem masked_abort (message : String) : (m.abort message).masked = m.masked.abort message := rfl

/-- Only the message of the first failure is kept, and none of what is masked is looked at for it. -/
theorem masked_fail (e : StorageError) : (m.fail e).masked = m.masked.fail e := by
  cases e <;> rfl

theorem session?_masked (key : String) : m.masked.session? key = m.session? key := rfl

@[simp] theorem fetchFrom_masked (p : Provider) (bucket key : String) :
    m.masked.fetchFrom p bucket key = m.fetchFrom p bucket key := by
  cases p with
  | request => exact congrArg Except.ok (Arena.getLocal?_uncounted m.scopes m.request.root key)
  | _ => rfl

/-- A change of the scopes that does the same with and without the counts can be made before or after masking. -/
theorem masked_withScopes {f : Arena → Arena} (h : (f m.scopes).uncounted = f m.scopes.uncounted) :
    (m.withScopes f).masked = m.masked.withScopes f := by
  show (⟨{ m.world with request := { m.request with scopes := (f m.scopes).uncounted }, journal := _, threads := 0 },
    _⟩ : Machine σ) = _
  rw [h]
  rfl

/-- The session store and the properties are not touched by masking, and the scope of the request only in its count.
-/
theorem masked_putInto (p : Provider) (bucket key : String) (v : Value) :
    m.masked.putInto p bucket key v = (m.putInto p bucket key v).map masked := by
  cases p with
  | session =>
    simp only [putInto, session?_masked]
    cases m.session? key <;> rfl
  | request =>
    have hset := masked_withScopes m (f := fun a => a.set m.request.root key v) (Arena.uncounted_set _ _ _ _)
    exact congrArg Except.ok hset.symm
  | _ => rfl

theorem masked_eraseFrom (p : Provider) (bucket key : String) :
    m.masked.eraseFrom p bucket key = (m.eraseFrom p bucket key).map masked := by
  cases p with
  | session =>
    simp only [eraseFrom, session?_masked]
    cases m.session? key <;> rfl
  | request =>
    have hremove := masked_withScopes m (f := fun a => a.remove m.request.root key) (Arena.uncounted_remove _ _ _)
    exact congrArg Except.ok hremove.symm
  | _ => rfl

/-! ## Whole variables

A change at an address is made by its level: in a scope, in a store, or not at all. -/

@[simp] theorem fetch_masked (a : Address) : m.masked.fetch a = m.fetch a := by
  unfold fetch
  simp only [eval_masked, fetchFrom_masked, lookup_masked, lookupIn_masked, currentScope_masked, scopes_masked,
    Arena.ancestor?_uncounted]

/-- A change at an address is one in a scope or one in a store, and neither looks at the counts. -/
theorem masked_change (a : Address) {c : Change} {f g : Provider → Except ProviderError (Machine σ)}
    (hc : ∀ scopes id, (c.onScope scopes id).uncounted = c.onScope scopes.uncounted id)
    (hf : ∀ p, g p = (f p).map masked) : m.masked.change a c g = (m.change a c f).map masked := by
  unfold change
  cases a.level with
  | provider p =>
    simp only [hf]
    cases f p <;> rfl
  | current =>
    simp only [outside_masked, currentScope_masked]
    split_ifs
    · rfl
    · exact congrArg Except.ok (masked_withScopes m (hc _ _)).symm
  | ancestor n =>
    simp only [scopes_masked, currentScope_masked, Arena.ancestor?_uncounted]
    cases m.scopes.ancestor? m.currentScope n with
    | none => rfl
    | some scope => exact congrArg Except.ok (masked_withScopes m (hc _ _)).symm
  | _ => rfl

/-- The masked machine puts a value where the machine does. -/
theorem masked_put (a : Address) (v : Value) : m.masked.put a v = (m.put a v).map masked :=
  masked_change m a (fun _ _ => Arena.uncounted_set _ _ _ _) fun p => masked_putInto m p _ _ v

theorem masked_erase (a : Address) : m.masked.erase a = (m.erase a).map masked :=
  masked_change m a (fun _ _ => Arena.uncounted_remove _ _ _) fun p => masked_eraseFrom m p _ _

/-! ## Addresses

Reading, writing and deleting at a path go through the whole variable. -/

/-- What is tolerated is decided by the address and the error alone. -/
theorem masked_settle {α : Type} (a : Address) (instead : α) (r : Except StorageError (Machine σ × α)) :
    m.masked.settle a instead (r.map (Prod.map masked id)) = Prod.map masked id (m.settle a instead r) := by
  unfold settle
  cases r with
  | ok x => rfl
  | error e =>
    show (if a.tolerates e then _ else _) = Prod.map masked id (if a.tolerates e then _ else _)
    split_ifs
    · rfl
    · exact Prod.ext (masked_fail m e).symm rfl

theorem masked_readAddress (a : Address) : m.masked.readAddress a = Prod.map masked id (m.readAddress a) := by
  unfold readAddress
  rw [← masked_settle, fetch_masked]
  congr 1
  cases m.fetch a <;> rfl

theorem masked_writeAddress (a : Address) (v : Value) :
    m.masked.writeAddress a v = Prod.map masked id (m.writeAddress a v) := by
  unfold writeAddress
  rw [← masked_settle, masked_put]
  congr 1
  cases m.put a v <;> rfl

/-- A path is set in the container that is read first, so that both machines write the same container back. -/
theorem masked_saveAddress (a : Address) (v : Value) :
    m.masked.saveAddress a v = Prod.map masked id (m.saveAddress a v) := by
  unfold saveAddress
  split_ifs
  · rfl
  · cases a.path with
    | none => exact masked_writeAddress m a v
    | some path =>
      simp only [masked_readAddress]
      rcases m.readAddress a.container with ⟨n, c | c⟩
      · rfl
      · simp only [Prod.map_apply, id_eq]
        cases updated c path v with
        | error e => rfl
        | ok c => exact masked_writeAddress n a c

/-- The container is written back without the part, on both machines alike. -/
theorem masked_deleteAddress (a : Address) : m.masked.deleteAddress a = Prod.map masked id (m.deleteAddress a) := by
  unfold deleteAddress
  split_ifs
  · rfl
  · cases a.path with
    | none =>
      simp only
      rw [← masked_settle, masked_erase]
      congr 1
      cases m.erase a <;> rfl
    | some path =>
      simp only [masked_readAddress]
      rcases m.readAddress a.container with ⟨n, e | _ | c⟩
      · rfl
      · rfl
      · simp only [Prod.map_apply, id_eq]
        split
        · exact masked_writeAddress n a _
        · rfl

/-- The text of a name says by itself whether it can be read. -/
theorem masked_read (name : String) : m.masked.read name = Prod.map masked id (m.read name) := by
  unfold read
  cases Address.parse name.toList with
  | ok a => exact masked_readAddress m a
  | error e => rfl

theorem masked_save (name : String) (v : Value) : m.masked.save name v = Prod.map masked id (m.save name v) := by
  unfold save
  cases Address.parse name.toList with
  | ok a => exact masked_saveAddress m a v
  | error e => rfl

theorem masked_delete (name : String) : m.masked.delete name = Prod.map masked id (m.delete name) := by
  unfold delete
  cases Address.parse name.toList with
  | ok a => exact masked_deleteAddress m a
  | error e => rfl

/-! ## Many at once

One name after the other, each on the machine that the last one has left. -/

/-- The parameters are read one after the other, each on the machine that the last one has left. -/
theorem masked_resolve (params : Table Value) : m.masked.resolve params = Prod.map masked id (m.resolve params) := by
  induction params generalizing m with
  | nil => rfl
  | cons entry params ih =>
    obtain ⟨key, v⟩ := entry
    unfold resolve
    cases parameterAddress? v with
    | none =>
      simp only [ih]
      rcases m.resolve params with ⟨n, r | r⟩ <;> rfl
    | some address =>
      simp only [masked_read]
      rcases m.read address with ⟨n, e | found⟩
      · rfl
      · simp only [Prod.map_apply, id_eq, ih]
        rcases n.resolve params with ⟨o, r | r⟩ <;> rfl

/-- A result that is to be thrown away is not read at all, on either machine. -/
theorem masked_readResults (asked : Bool) (names : List String) :
    m.masked.readResults asked names = Prod.map masked id (m.readResults asked names) := by
  induction names generalizing m with
  | nil => rfl
  | cons name names ih =>
    unfold readResults
    by_cases hd : name = discard
    · simp only [if_pos hd, ih]
      rfl
    · simp only [if_neg hd, masked_read]
      rcases m.read name with ⟨n, found⟩
      simp only [Prod.map_apply, id_eq, ih]
      rfl

/-- Publishing goes on after a failure, so that only the machine is compared and not an outcome. -/
theorem masked_publish (names : List String) (vs : List (Option Value)) :
    m.masked.publish names vs = (m.publish names vs).masked := by
  induction names generalizing m vs with
  | nil => rfl
  | cons name names ih =>
    cases vs with
    | nil => rfl
    | cons v vs =>
      cases v with
      | none => exact ih m vs
      | some v =>
        simp only [publish, masked_save, ih]
        split_ifs
        · rfl
        · exact ih (m.save name v).1 vs

/-- Names are bound in the scope of the active frame, whatever its count is. -/
theorem masked_bindAll (vars : Table Value) : m.masked.bindAll vars = (m.bindAll vars).masked := by
  unfold bindAll
  rw [currentScope_masked, masked_withScopes]
  generalize m.scopes = a
  induction vars generalizing a with
  | nil => rfl
  | cons entry vars ih =>
    obtain ⟨name, v⟩ := entry
    rw [List.foldl_cons, List.foldl_cons, ih, Arena.uncounted_set]

/-- The assignments stop at the first failure, which is the same one on both machines. -/
theorem masked_assignAll (vars : Table Value) : m.masked.assignAll vars = Prod.map masked id (m.assignAll vars) := by
  induction vars generalizing m with
  | nil => rfl
  | cons entry vars ih =>
    obtain ⟨target, v⟩ := entry
    unfold assignAll
    rw [assigned_masked]
    cases m.assigned v with
    | error e => rfl
    | ok v =>
      simp only [masked_save]
      rcases m.save target v with ⟨n, e | _⟩
      · rfl
      · exact ih n

theorem masked_deleteAll (targets : List String) :
    m.masked.deleteAll targets = Prod.map masked id (m.deleteAll targets) := by
  induction targets generalizing m with
  | nil => rfl
  | cons target rest ih =>
    unfold deleteAll
    simp only [masked_delete]
    rcases m.delete target with ⟨n, e | _⟩
    · rfl
    · exact ih n

/-- The assignments come first and the deletions after them. -/
theorem masked_performVar (c : VarSpec) : m.masked.performVar c = Prod.map masked id (m.performVar c) := by
  unfold performVar
  simp only [masked_assignAll]
  rcases m.assignAll c.assign with ⟨n, _ | _⟩
  · rfl
  · exact masked_deleteAll n c.remove

/-- Nor does a host command that works on variables. -/
theorem masked_update (u : Update) : m.masked.update u = (m.update u).masked := by
  cases u with
  | save name v => exact congrArg Prod.fst (masked_save m name v)
  | delete name => exact congrArg Prod.fst (masked_delete m name)

/-! ## Between passes and attempts

What a loop does around its passes, and what is done before the first attempt. -/

/-- A condition, a bound on the number of passes and the elements of a range know nothing of threads. -/
theorem masked_beforePass (loop : Loop) : m.masked.beforePass loop = Prod.map masked id (m.beforePass loop) := by
  unfold beforePass
  split
  · simp only [test_masked]
    split_ifs
    · rfl
    · split <;> rfl
  · rfl
  · exact Prod.ext (masked_bindAll m _) rfl

/-- Only the assignments of a loop come after its pass. -/
theorem masked_afterPass (loop : Loop) : m.masked.afterPass loop = Prod.map masked id (m.afterPass loop) := by
  unfold afterPass
  split
  · simp only [masked_assignAll]
    rcases m.assignAll _ with ⟨n, _ | _⟩ <;> rfl
  · rfl

/-- What is noted of a preparation is noted without the number of the thread. -/
theorem masked_prepare (e : Engine σ) (c : Command σ) (i : Instruction) (key : String) :
    (m.masked.prepare e c i key).1 = (m.prepare e c i key).1.masked := by
  unfold prepare
  split_ifs <;> cases c.file? i.payload <;> rfl

end Machine
end Sequencer
