import Sequencer.Proofs.Containment
import Sequencer.Proofs.Twins

/-!
# Steps of a thread and its copy

As long as the accounts of the thread are right and the frames that were copied stay on its stack, their scopes live
without the references of the copy. So whatever the thread does, the copy can do too, and the two stay abreast.
-/

namespace Sequencer

variable {σ : Type}

namespace Machine

/-- The accounts of a thread are right, and a copy of it is where it is itself. -/
structure Abreast (others : Multiset ScopeId) (base : List Frame) (b b' : Option (Barrier σ)) (m m' : Machine σ)
    (ds : List Driver) : Prop where
  accounted : Accounted others m ds
  twins : Twins base b b' m m'

/-- The stack is the base at least. -/
theorem Accounted.isLive_base {others : Multiset ScopeId} {m : Machine σ} {ds : List Driver} {base : List Frame}
    (h : Accounted others m ds) (hsuf : base <:+ m.frames) : ∀ f ∈ base, m.scopes.isLive f.scope :=
  fun _ hf => h.isLive (Multiset.mem_add.2 (.inl (h.stacked.mem_heldBy (hsuf.mem hf))))

/-- Another state of the host program. -/
def withHost (m : Machine σ) (host : σ) : Machine σ := { m with world := { m.world with host } }

/-- A command of the host program that starts no work on the side leaves the barrier as it is. -/
theorem performHost_of_jobs_eq_nil {m : Machine σ} {run : Machine σ → Effect σ} (h : (run m).jobs = []) :
    m.performHost run = (match (run m).abort with
      | some message => ((m.withHost (run m).host).updateAll (run m).updates).abort message
      | none => (m.withHost (run m).host).updateAll (run m).updates, (run m).ok) := by
  have hkept : ∀ o : Machine σ, o.withBarrier (o.thread.barrier.map fun b => b) = o := by
    intro o
    rw [Option.map_id']
    rfl
  unfold performHost
  simp only [h, List.foldl_nil]
  exact Prod.ext (hkept _) rfl

namespace Abreast

variable {others : Multiset ScopeId} {base : List Frame} {b b' : Option (Barrier σ)} {m m' n : Machine σ}
  {ds : List Driver} {f : Frame} {rest : List Frame} {level : Nat}

/-- The thread rests on what was copied. -/
theorem suffix (h : Abreast others base b b' m m' ds) : base <:+ m.frames := h.twins.frames.suffix

theorem length_le (h : Abreast others base b b' m m' ds) : base.length ≤ m.depth := h.twins.length_le

/-- And no lower than its loops. -/
theorem base_le (h : Abreast others base b b' m m' ds) : Driver.base ds ≤ m.depth := h.accounted.stacked.base_le

/-- The scopes that the copy has taken references on live anyway. -/
theorem isLive_base (h : Abreast others base b b' m m' ds) : ∀ f ∈ base, m.scopes.isLive f.scope :=
  h.accounted.isLive_base h.suffix

/-! ## Steps that move nothing -/

/-- An operation that moves nothing and does the same on the masked machine is one that the copy can follow. -/
theorem follows {α : Type} {f : Machine σ → Machine σ × α} {x : α} (h : Abreast others base b b' m m' ds)
    (hq : ∀ m : Machine σ, m.Quiet (f m).1) (hm : ∀ m : Machine σ, f m.masked = Prod.map Machine.masked id (f m))
    (hf : f m = (n, x)) : ∃ n', f m' = (n', x) ∧ Abreast others base b b' n n' ds := by
  obtain ⟨n', hn', htwins⟩ := h.twins.follows hq hm hf
  have hn := hq m
  rw [hf] at hn
  exact ⟨n', hn', (h.accounted.calm hn.calm).1, htwins⟩

theorem note (h : Abreast others base b b' m m' ds) {e e' : Event} (he : e'.anonymous = e.anonymous) :
    Abreast others base b b' (m.note e) (m'.note e') ds :=
  ⟨(h.accounted.calm (quiet_note m e).calm).1, h.twins.note he⟩

/-- Names are bound in the same scope. -/
theorem bindAll (h : Abreast others base b b' m m' ds) (vars : Table Value) :
    Abreast others base b b' (m.bindAll vars) (m'.bindAll vars) ds :=
  ⟨(h.accounted.calm (quiet_bindAll m vars).calm).1, h.twins.bindAll vars⟩

/-- Each has a barrier of its own, which is no part of the accounts. -/
theorem withBarrier (h : Abreast others base b b' m m' ds) (c c' : Option (Barrier σ)) :
    Abreast others base c c' (m.withBarrier c) (m'.withBarrier c') ds := by
  have hc : m.Calm (m.withBarrier c) := Calm.of_thread m rfl
  exact ⟨(h.accounted.calm hc).1, h.twins.withBarrier c c'⟩

/-- The state of the host program is one for both. -/
theorem withHost (h : Abreast others base b b' m m' ds) (host : σ) :
    Abreast others base b b' (m.withHost host) (m'.withHost host) ds := by
  have hq : ∀ o : Machine σ, o.Quiet (o.withHost host) := fun _ => ⟨rfl, rfl, rfl, id⟩
  refine ⟨(h.accounted.calm (hq m).calm).1, h.twins.quiet (hq m) (hq m') ?_⟩
  show m'.masked.withHost host = m.masked.withHost host
  rw [h.twins.masked]

theorem abort (h : Abreast others base b b' m m' ds) (message : String) :
    Abreast others base b b' (m.abort message) (m'.abort message) ds := by
  refine ⟨(h.accounted.calm (quiet_abort m message).calm).1,
    h.twins.quiet (quiet_abort m message) (quiet_abort m' message) ?_⟩
  rw [masked_abort, masked_abort, h.twins.masked]

/-- Parameters are read, and come to the same. -/
theorem resolve (h : Abreast others base b b' m m' ds) {params : Table Value}
    {r : Except StorageError (Table Value)} (hr : m.resolve params = (n, r)) :
    ∃ n', m'.resolve params = (n', r) ∧ Abreast others base b b' n n' ds :=
  h.follows (quiet_resolve · params) (masked_resolve · params) hr

/-- The next instruction is the same, if it is fetched above what was copied. -/
theorem nextStep (h : Abreast others base b b' m m' ds) {step : Step} (hlevel : base.length ≤ level)
    (hs : m.nextStep level = (n, step)) :
    ∃ n', m'.nextStep level = (n', step) ∧ Abreast others base b b' n n' ds := by
  obtain ⟨n', hn', htwins⟩ := h.twins.nextStep hlevel hs
  refine ⟨n', hn', ?_, htwins⟩
  by_cases hd : step = .drained
  · cases nextStep_cases hs with
    | drained _ => exact h.accounted
    | exhausted => cases hd
    | advanced _ _ _ _ hne => exact absurd hd hne
  · exact (h.accounted.calm (nextStep_calm hs hd).1).1

theorem takeBreak (h : Abreast others base b b' m m' ds) {index : Nat} {broken : Bool}
    (ht : m.takeBreak index = (n, broken)) :
    ∃ n', m'.takeBreak index = (n', broken) ∧ Abreast others base b b' n n' ds := by
  obtain ⟨n', hn', htwins⟩ := h.twins.takeBreak ht
  exact ⟨n', hn', (h.accounted.calm (calm_of_takeBreak ht)).1, htwins⟩

/-- A break ends the same loop. -/
theorem breakLoop (h : Abreast others base b b' m m' ds) {ok : Bool} (hb : m.breakLoop = (n, ok))
    (hsuf : base <:+ n.frames) : ∃ n', m'.breakLoop = (n', ok) ∧ Abreast others base b b' n n' ds := by
  obtain ⟨n', hn', htwins⟩ := h.twins.breakLoop hb hsuf
  have hc := breakLoop_calm m
  rw [hb] at hc
  exact ⟨n', hn', (h.accounted.calm hc).1, htwins⟩

theorem setLooping (h : Abreast others base b b' m m' ds) (hf : m.frames = f :: rest)
    (hle : base.length ≤ rest.length) (looping : Bool) :
    Abreast others base b b' (m.setLooping looping) (m'.setLooping looping) ds :=
  ⟨(h.accounted.calm (setLooping_calm m looping)).1, h.twins.setLooping hf hle looping⟩

/-! ## Steps that move frames -/

/-- A new frame gets a new scope, under the same handle on both. -/
theorem push (h : Abreast others base b b' m m' ds) (action : String) (results : List String)
    (params : Table Value) :
    Abreast others base b b' (m.push action results params) (m'.push action results params) ds := by
  have hcurrent : m.scopes.isLive m.currentScope := by
    rw [currentScope_eq]
    exact h.accounted.isLive_topScope
  exact ⟨(h.accounted.push action results params).1,
    h.twins.push h.accounted.balanced h.isLive_base hcurrent action results params⟩

/-- The frame that returns is above what was copied, and its scope goes with it, unless a loop holds it. -/
theorem returnFrame (h : Abreast others base b b' m m' ds) (hf : m.frames = f :: rest)
    (hle : base.length ≤ rest.length) (hbase : Driver.base ds ≤ rest.length) {explicit : Option (List String)}
    {ok : Bool} (hr : m.returnFrame explicit = (n, ok)) :
    ∃ n', m'.returnFrame explicit = (n', ok) ∧ Abreast others base b b' n n' ds := by
  have hn : Accounted others n ds := by
    have hleave := (h.accounted.returnFrame explicit (depth_pred_of_core hf rfl ▸ hbase)).1
    rw [hr] at hleave
    exact hleave
  have hsuf : base <:+ n.frames := by
    have hframes := frames_returnFrame hf explicit
    rw [hr] at hframes
    rw [hframes]
    exact List.suffix_of_suffix_length_le h.suffix (hf ▸ List.suffix_cons f rest) hle
  obtain ⟨n', hn', htwins⟩ := h.twins.returnFrame hf hle hr (hn.isLive_base hsuf)
  exact ⟨n', hn', hn, htwins⟩

/-- A frame that returns early was none of the base, if the base is still there. -/
theorem returnEarly (h : Abreast others base b b' m m' ds) {explicit : Option (List String)} {ok : Bool}
    (hr : m.returnEarly explicit = (n, ok)) (hsuf : base <:+ n.frames)
    (hbase : Driver.base ds ≤ max base.length (m.depth - 1)) :
    ∃ n', m'.returnEarly explicit = (n', ok) ∧ Abreast others base b b' n n' ds := by
  cases hf : m.frames with
  | nil =>
    have hf' : m'.frames = [] := List.length_eq_zero_iff.1 (by rw [h.twins.frames.length, hf, List.length_nil])
    have hstays : ∀ {o : Machine σ}, o.frames = [] → o.returnEarly explicit = (o, false) := by
      intro o ho
      unfold Machine.returnEarly Machine.returnFrame
      rw [ho]
    rw [hstays hf] at hr
    cases hr
    exact ⟨m', hstays hf', h⟩
  | cons f rest =>
    have hframes : n.frames = rest := by
      have hframes := frames_returnEarly hf explicit
      rw [hr] at hframes
      exact hframes
    -- What returns is above the base, which both of them share.
    have hle : base.length ≤ rest.length := hframes ▸ hsuf.length_le
    have hpred : m.depth - 1 = rest.length := depth_pred_of_core hf rfl
    have hn : Accounted others n ds := by
      rw [hpred, Nat.max_eq_right hle, ← hpred] at hbase
      have hleave := (h.accounted.returnEarly explicit hbase).1
      rw [hr] at hleave
      exact hleave
    obtain ⟨n', hn', htwins⟩ := h.twins.returnEarly hf hle hr (hn.isLive_base hsuf)
    exact ⟨n', hn', hn, htwins⟩

/-- So are the frames that are unwound. -/
theorem unwind (h : Abreast others base b b' m m' ds) (hlevel : base.length ≤ level) (hbase : Driver.base ds ≤ level) :
    Abreast others base b b' (m.unwind level) (m'.unwind level) ds := by
  have hn := (h.accounted.unwind level hbase).1
  have hle := h.length_le
  have hsuf : base <:+ (m.unwind level).frames := by
    refine List.suffix_of_suffix_length_le h.suffix (List.drop_suffix _ _) ?_
    show base.length ≤ (m.unwind level).depth
    rw [depth_unwind]
    exact Nat.le_min.2 ⟨hle, hlevel⟩
  exact ⟨hn, h.twins.unwind hlevel (hn.isLive_base hsuf)⟩

/-- A loop takes over the reference of its frame. -/
theorem beginLoop (h : Abreast others base b b' m m' ds) (hf : m.frames = f :: rest) (hown : f.ownsScope = true)
    (hle : base.length ≤ rest.length) (hbase : Driver.base ds ≤ rest.length) :
    Abreast others base b b' m.disown m'.disown (⟨rest.length, { f with ownsScope := false }⟩ :: ds) :=
  ⟨h.accounted.beginLoop hf hown hbase, h.twins.disown hf hle⟩

/-- A frame that is put back owns nothing of its own. -/
theorem repush {d : Driver} (h : Abreast others base b b' m m' (d :: ds)) (hd : m.depth = d.level) :
    Abreast others base b b' (m.repush d.frame) (m'.repush d.frame) (d :: ds) :=
  ⟨h.accounted.repush hd, h.twins.repush d.frame⟩

/-- At its end the loop lets its scope go. -/
theorem leaveLoop {d : Driver} (h : Abreast others base b b' m m' (d :: ds)) (hd : m.depth = d.level) :
    Abreast others base b b' (m.withScopes (·.release d.frame.scope)) (m'.withScopes (·.release d.frame.scope)) ds := by
  have hn := (h.accounted.leaveLoop hd).1
  exact ⟨hn, h.twins.release (hn.isLive_base h.suffix)⟩

/-! ## Attempts -/

/-- A call comes to the same, whether it returns early before or not. -/
theorem performCall (h : Abreast others base b b' m m' ds) {c : CallSpec} {ok : Bool}
    (hp : m.performCall c = (n, ok)) (hsuf : base <:+ n.frames)
    (hbase : Driver.base ds ≤ max base.length (m.depth - 1)) :
    ∃ n', m'.performCall c = (n', ok) ∧ Abreast others base b b' n n' ds := by
  unfold Machine.performCall call at hp ⊢
  rcases hres : m.resolve c.params with ⟨o, r⟩
  obtain ⟨o', hres', ho⟩ := h.resolve hres
  have hdepth : o.depth = m.depth := by
    have hq := quiet_resolve m c.params
    rw [hres] at hq
    exact hq.calm.depth
  rw [hres] at hp
  rw [hres']
  -- An action that is unknown, one that is an early return, and any other.
  split_ifs at hp ⊢
  · cases hp
    exact ⟨m', rfl, h⟩
  · rcases r with e | params
    · cases hp
      exact ⟨o', rfl, ho⟩
    · simp only at hp ⊢
      have hbound := ho.bindAll params
      have hdepth' : (o.bindAll params).depth = m.depth := (quiet_bindAll o params).calm.depth.trans hdepth
      exact hbound.returnEarly hp hsuf (hdepth'.symm ▸ hbase)
  · rcases r with e | params
    · cases hp
      exact ⟨o', rfl, ho⟩
    · cases hp
      exact ⟨_, rfl, ho.push _ _ params⟩

/-- A branch chooses the same action on both. -/
theorem performBranch (h : Abreast others base b b' m m' ds) {p : Predicate} {c : BranchSpec} {ok : Bool}
    (hp : m.performBranch p c = (n, ok)) (hsuf : base <:+ n.frames)
    (hbase : Driver.base ds ≤ max base.length (m.depth - 1)) :
    ∃ n', m'.performBranch p c = (n', ok) ∧ Abreast others base b b' n n' ds := by
  have htest : m'.testPredicate p c.condition = m.testPredicate p c.condition := by
    rw [← testPredicate_masked, h.twins.masked, testPredicate_masked]
  unfold Machine.performBranch at hp ⊢
  rw [htest]
  cases ht : m.testPredicate p c.condition with
  | error e =>
    rw [ht] at hp
    cases hp
    exact ⟨m', rfl, h⟩
  | ok outcome =>
    rw [ht] at hp
    simp only at hp ⊢
    cases hc : (if outcome then c.whenTrue else c.whenFalse) with
    | none =>
      rw [hc] at hp
      cases hp
      exact ⟨m', rfl, h⟩
    | some call =>
      rw [hc] at hp
      exact h.performCall hp hsuf hbase

/-- A switch does as well, since its cases are tested in the root scope. -/
theorem performSwitch (h : Abreast others base b b' m m' ds) {c : SwitchSpec} {ok : Bool}
    (hp : m.performSwitch c = (n, ok)) (hsuf : base <:+ n.frames)
    (hbase : Driver.base ds ≤ max base.length (m.depth - 1)) :
    ∃ n', m'.performSwitch c = (n', ok) ∧ Abreast others base b b' n n' ds := by
  have hselect : m'.selectCase c.defaultAction c.cases = m.selectCase c.defaultAction c.cases := by
    rw [← selectCase_masked, h.twins.masked, selectCase_masked]
  unfold Machine.performSwitch at hp ⊢
  rw [hselect]
  cases hs : m.selectCase c.defaultAction c.cases with
  | error e =>
    rw [hs] at hp
    cases hp
    exact ⟨m', rfl, h⟩
  | ok action =>
    rw [hs] at hp
    exact h.performCall hp hsuf hbase

/-- A variable is saved or deleted for both. -/
theorem update (h : Abreast others base b b' m m' ds) (u : Update) :
    Abreast others base b b' (m.update u) (m'.update u) ds := by
  obtain ⟨n', he, hn⟩ := h.follows (f := fun o => (o.update u, ())) (fun o => quiet_update o u)
    (fun o => Prod.ext (masked_update o u) rfl) rfl
  have hu : m'.update u = n' := congrArg Prod.fst he
  rwa [hu]

theorem updateAll (h : Abreast others base b b' m m' ds) (updates : List Update) :
    Abreast others base b b' (m.updateAll updates) (m'.updateAll updates) ds := by
  induction updates generalizing m m' with
  | nil => exact h
  | cons u updates ih => exact ih (h.update u)

/-- A command of the host program that starts no work on the side and cannot tell the two machines apart. -/
theorem performHost (h : Abreast others base b b' m m' ds) {run : Machine σ → Effect σ} {ok : Bool}
    (hp : m.performHost run = (n, ok)) (hrun : run m' = run m) (hjobs : (run m).jobs = []) :
    ∃ n', m'.performHost run = (n', ok) ∧ Abreast others base b b' n n' ds := by
  have hhost := (h.withHost (run m).host).updateAll (run m).updates
  cases ha : (run m).abort with
  | none =>
    rw [performHost_of_jobs_eq_nil hjobs, ha] at hp
    rw [performHost_of_jobs_eq_nil (hrun ▸ hjobs), hrun, ha]
    cases hp
    exact ⟨_, rfl, hhost⟩
  | some message =>
    rw [performHost_of_jobs_eq_nil hjobs, ha] at hp
    rw [performHost_of_jobs_eq_nil (hrun ▸ hjobs), hrun, ha]
    cases hp
    exact ⟨_, rfl, hhost.abort message⟩

/-- An attempt that runs no instructions and leaves the base where it is. -/
theorem immediate (h : Abreast others base b b' m m' ds) {invocation : Invocation σ} {ok : Bool}
    (hi : m.immediate invocation = some (n, ok)) (hsuf : base <:+ n.frames)
    (hbase : Driver.base ds ≤ max base.length (m.depth - 1))
    (hhost : ∀ run, invocation = .host run → run m' = run m ∧ (run m).jobs = []) :
    ∃ n', m'.immediate invocation = some (n', ok) ∧ Abreast others base b b' n n' ds := by
  -- Both sides are immediate, so that it is enough to compare what they return.
  have found : ∀ {r : Machine σ × Bool} {r' : Machine σ × Bool}, some r = some (n, ok) →
      (r = (n, ok) → ∃ n', r' = (n', ok) ∧ Abreast others base b b' n n' ds) →
      ∃ n', some r' = some (n', ok) ∧ Abreast others base b b' n n' ds := by
    intro r r' hr hgo
    obtain ⟨n', hn', hab⟩ := hgo (Option.some.inj hr)
    exact ⟨n', congrArg some hn', hab⟩
  cases invocation with
  | call c => exact found hi fun hp => h.performCall hp hsuf hbase
  | branch p c => exact found hi fun hp => h.performBranch hp hsuf hbase
  | switch c => exact found hi fun hp => h.performSwitch hp hsuf hbase
  | leave names => exact found hi fun hp => h.returnEarly hp hsuf hbase
  | void =>
    refine found hi fun hp => ?_
    cases hp
    exact ⟨m', rfl, h⟩
  | breakLoop => exact found hi fun hp => h.breakLoop hp hsuf
  | var c => exact found hi fun hp => h.follows (quiet_performVar · c) (masked_performVar · c) hp
  | host run =>
    obtain ⟨hrun, hjobs⟩ := hhost run rfl
    exact found hi fun hp => h.performHost hp hrun hjobs
  | loopFor c => cases hi
  | loopRange c => cases hi

/-! ## Loops -/

/-- A loop enters the same frame. -/
theorem enterLoop (h : Abreast others base b b' m m' ds) {body result : String} {params : Table Value}
    {r : Except StorageError Unit} (hr : m.enterLoop body result params = (n, r)) :
    ∃ n', m'.enterLoop body result params = (n', r) ∧ Abreast others base b b' n n' ds := by
  unfold Machine.enterLoop at hr ⊢
  rcases hres : m.resolve params with ⟨o, found⟩
  obtain ⟨o', hres', ho⟩ := h.resolve hres
  rw [hres] at hr
  rw [hres']
  cases found with
  | error e =>
    cases hr
    exact ⟨o', rfl, ho⟩
  | ok values =>
    cases hr
    exact ⟨_, rfl, (ho.push body (splitNames result) values).setLooping rfl ho.length_le true⟩

/-- A loop over a range reads the same elements. -/
theorem enterRange (h : Abreast others base b b' m m' ds) {c : RangeSpec} {loop : Option Loop}
    (hl : m.enterRange c = (n, loop)) :
    ∃ n', m'.enterRange c = (n', loop) ∧ Abreast others base b b' n n' ds := by
  unfold Machine.enterRange at hl ⊢
  rw [h.twins.depth]
  rcases hent : m.enterLoop c.body c.result c.params with ⟨o, r⟩
  obtain ⟨o', hent', ho⟩ := h.enterLoop hent
  rw [hent] at hl
  rw [hent']
  cases r with
  | error e =>
    cases hl
    exact ⟨o', rfl, ho⟩
  | ok _ =>
    rcases hread : o.read c.range with ⟨q, v⟩
    obtain ⟨q', hread', hq⟩ := ho.follows (quiet_read · c.range) (masked_read · c.range) hread
    simp only [hread] at hl
    simp only [hread']
    cases v with
    | error e =>
      cases hl
      -- A range that cannot be read: the frame of the loop is taken back on both sides.
      exact ⟨_, rfl, hq.unwind h.length_le h.base_le⟩
    | ok v =>
      cases hl
      exact ⟨q', rfl, hq⟩

/-- So both kinds of loops begin alike. -/
theorem entered (h : Abreast others base b b' m m' ds) {invocation : Invocation σ} {loop : Option Loop}
    (hl : m.entered invocation = some (n, loop)) :
    ∃ n', m'.entered invocation = some (n', loop) ∧ Abreast others base b b' n n' ds := by
  cases invocation with
  | loopFor c =>
    have he : m.enterFor c = (n, loop) := Option.some.inj hl
    unfold enterFor at he
    show ∃ n', some (m'.enterFor c) = some (n', loop) ∧ _
    unfold enterFor
    rcases hent : m.enterLoop c.body c.result c.initial with ⟨o, r⟩
    obtain ⟨o', hent', ho⟩ := h.enterLoop hent
    rw [hent] at he
    rw [hent']
    cases r with
    | error e =>
      cases he
      exact ⟨o', rfl, ho⟩
    | ok _ =>
      cases he
      exact ⟨o', rfl, ho⟩
  | loopRange c =>
    obtain ⟨n', hn', hab⟩ := h.enterRange (Option.some.inj hl)
    exact ⟨n', congrArg some hn', hab⟩
  | _ => cases hl

end Abreast
end Machine
end Sequencer
