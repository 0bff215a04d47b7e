import Sequencer.Proofs.Writes

/-!
# What a step writes

The steps of a run, once more case by case, now for what they write. An attempt writes in the active scope, a
return writes in that of the caller and only what its frame has names for, and a loop writes in the scope of its
frame. Meanwhile scopes come and go, so that a step is judged by those which were there before and after it.
-/

namespace Sequencer

namespace Machine

variable {σ : Type}

/-! ## Attempts

What an attempt writes is written in the active scope. A call pushes a frame, and a return writes to the scope of the
caller. -/

/-- What an attempt does that runs no instructions, as far as variables are concerned. -/
inductive Works (m : Machine σ) : Machine σ → Bool → Prop
  /-- The stack stays, and only the active scope is written. -/
  | kept {n b ok} (h : m.Writes (.scope m.currentScope) n) : Works m (n.withBarrier b) ok
  | called {n} (h : m.Writes .empty n) (action : String) (results : List String) (params : Table Value) :
      Works m (n.push action results params) true
  | returned {n} (h : m.Writes (.scope m.currentScope) n) (explicit : Option (List String)) :
      Works m (n.returnEarly explicit).1 (n.returnEarly explicit).2
  | broke : Works m m.breakLoop.1 m.breakLoop.2

theorem Works.writes {n : Machine σ} (h : m.Writes (.scope m.currentScope) n) (ok : Bool) : Works m n ok :=
  .kept (b := n.thread.barrier) h

/-- A call reads its parameters and pushes a frame. -/
theorem works_performCall (m : Machine σ) (c : CallSpec) :
    Works m (m.performCall c).1 (m.performCall c).2 := by
  have hw := writes_resolve m c.params
  unfold performCall call
  -- An action that is unknown, one that is an early return, and any other.
  split_ifs
  · exact .writes (.refl _ m) true
  · split
    · next n params hres =>
      rw [hres] at hw
      have hbind := writes_bindAll n params
      rw [hw.currentScope] at hbind
      exact .returned ((hw.of_empty _).trans hbind) _
    · next n e hres =>
      rw [hres] at hw
      exact .writes (hw.of_empty _) false
  · cases hres : m.resolve c.params with
    | mk n r =>
      rw [hres] at hw
      cases r with
      | ok params => exact .called hw _ _ params
      | error e => exact .writes (hw.of_empty _) false

theorem works_performBranch (m : Machine σ) (p : Predicate) (c : BranchSpec) :
    Works m (m.performBranch p c).1 (m.performBranch p c).2 := by
  unfold performBranch
  split
  · exact .writes (.refl _ m) false
  · split
    · exact works_performCall m _
    · exact .writes (.refl _ m) true

theorem works_performSwitch (m : Machine σ) (c : SwitchSpec) :
    Works m (m.performSwitch c).1 (m.performSwitch c).2 := by
  unfold performSwitch
  split
  · exact works_performCall m _
  · exact .writes (.refl _ m) false

/-- A command of the host program writes variables under the names that it is given to write. -/
theorem works_performHost {m : Machine σ} (hin : m.outside = false) (run : Machine σ → Effect σ)
    (h : ∀ u ∈ (run m).updates, DefaultLevel u.target) : Works m (m.performHost run).1 (m.performHost run).2 := by
  have hhost : m.Writes (.scope m.currentScope) { m with world := { m.world with host := (run m).host } } :=
    ⟨⟨rfl, rfl, rfl, id⟩, rfl, rfl, fun _ _ => rfl, fun _ _ _ => rfl⟩
  have hupdated := hhost.trans (writes_updateAll (hhost.outside.trans hin) (run m).updates h)
  unfold performHost
  cases ha : (run m).abort with
  | none =>
    simp only [ha]
    exact .kept hupdated
  | some message =>
    simp only [ha]
    exact .kept (hupdated.trans (writes_abort _ _ message))

/-- The names that a command is about to write. -/
def writing (m : Machine σ) : Invocation σ → List String
  | .var c => m.varying c
  | .host run => (run m).updates.map Update.target
  | _ => []

/-- A command that writes default names only works in the current scope. -/
theorem works_of_immediate {m n : Machine σ} {invocation : Invocation σ} {ok : Bool}
    (h : m.immediate invocation = some (n, ok)) (hin : m.outside = false)
    (hnames : ∀ name ∈ m.writing invocation, DefaultLevel name) : Works m n ok := by
  unfold immediate at h
  have of : ∀ {r : Machine σ × Bool}, some r = some (n, ok) → Works m r.1 r.2 → Works m n ok := by
    intro r he hr
    cases he
    exact hr
  cases invocation with
  | call c => exact of h (works_performCall m c)
  | branch p c => exact of h (works_performBranch m p c)
  | switch c => exact of h (works_performSwitch m c)
  | leave names => exact of h (.returned (.refl _ m) _)
  | void => exact of h (.writes (.refl _ m) true)
  | breakLoop => exact of h .broke
  | var c => exact of h (.writes (writes_performVar hin c hnames) _)
  | host run => exact of h (works_performHost hin run (List.forall_mem_map.1 hnames))
  | loopFor c => cases h
  | loopRange c => cases h

/-- What the beginning of a loop writes: its parameters go to a new scope. -/
inductive Begins (m : Machine σ) : Machine σ → Option Loop → Prop
  | refused {n} (h : m.Writes .empty n) : Begins m n none
  | unwound {o n} (h : m.Writes .empty o) (body : String) (results : List String) (params : Table Value)
      (hn : ((o.push body results params).setLooping true).Writes .empty n) : Begins m (n.unwind m.depth) none
  | began {o n} (h : m.Writes .empty o) (body : String) (results : List String) (params : Table Value)
      (hn : ((o.push body results params).setLooping true).Writes .empty n) (loop : Loop) :
      Begins m n (some loop)

/-- A loop begins with a frame of its own, or not at all. -/
theorem begins_of_entered {m n : Machine σ} {invocation : Invocation σ} {loop : Option Loop}
    (h : m.entered invocation = some (n, loop)) : Begins m n loop := by
  have hw := writes_resolve m
  unfold entered at h
  -- either loop reads its parameters first, and begins with a frame if they are all there
  cases invocation with
  | loopFor c =>
    have he : m.enterFor c = (n, loop) := Option.some.inj h
    unfold enterFor enterLoop at he
    have hw := hw c.initial
    cases hres : m.resolve c.initial with
    | mk o r =>
      rw [hres] at he hw
      cases r with
      | error e =>
        cases he
        exact .refused hw
      | ok params =>
        cases he
        exact .began hw _ _ params (.refl _ _) _
  | loopRange c =>
    have he : m.enterRange c = (n, loop) := Option.some.inj h
    unfold enterRange enterLoop at he
    have hw := hw c.params
    cases hres : m.resolve c.params with
    | mk o r =>
      rw [hres] at he hw
      cases r with
      | error e =>
        cases he
        exact .refused hw
      | ok params =>
        have hread := writes_read ((o.push c.body (splitNames c.result) params).setLooping true) c.range
        simp only at he
        split at he
        · next hr =>
          rw [hr] at hread
          cases he
          exact .unwound hw _ _ params hread
        · next hr =>
          rw [hr] at hread
          cases he
          exact .began hw _ _ params hread _
  | _ => cases h

/-! ## Returns

The scope of the caller gets the results and nothing else. -/

variable {m : Machine σ} {f : Frame} {below : List Frame}

/-- A return writes variables of the caller, under the names that its frame has for them. -/
theorem returnFrame_writes (hf : m.frames = f :: below) (hactive : m.request.detached = false)
    (hres : ∀ name ∈ f.results, DefaultLevel name) (explicit : Option (List String)) :
    ∃ n, (m.withFrames below).Writes (.named (topScope m.request.root below) f.results) n ∧
      m.returnFrame explicit = (n.withScopes (releaseFrames · [f]), true) := by
  obtain ⟨o, targets, vs, hread, htargets, he⟩ := returnFrame_parts hf explicit
  -- The values are read before the frame is taken off, and published after it.
  have hr : m.Writes .empty o := by
    rcases hread with rfl | ⟨asked, names, rfl⟩
    · exact .refl _ _
    · exact writes_readResults m asked names
  have hin : (m.withFrames below).outside = false := by
    show (m.request.detached && below.isEmpty) = false
    rw [hactive]
    rfl
  have hr' := (hr.withFrames below).of_empty (.named (topScope m.request.root below) f.results)
  have hp := writes_publish (hr'.outside.trans hin) hres targets (fun name hname => htargets hname) vs
  rw [hr'.currentScope, currentScope_eq] at hp
  exact ⟨_, hr'.trans hp, he⟩

/-- The end of a pass writes nothing. -/
theorem returnFrame_of_looping (hf : m.frames = f :: below) (hl : f.looping = true) :
    m.returnFrame none = ((m.withFrames below).withScopes (releaseFrames · [f]), true) := by
  unfold returnFrame
  rw [hf]
  simp only [hl, Option.isNone_none, Bool.and_self, if_true, List.isEmpty_nil, publish]
  cases ho : f.ownsScope with
  | true => simp [releaseFrames, ho]
  | false => simp [releaseFrames, ho, withScopes, withRequest]

/-- An early return writes what a return writes. -/
theorem returnEarly_writes (hf : m.frames = f :: below) (hactive : m.request.detached = false)
    (hres : ∀ name ∈ f.results, DefaultLevel name) (explicit : Option (List String)) :
    ∃ n, ((m.withFrames below).withBreak (if f.looping then some below.length else m.thread.breakAt)).Writes
        (.named (topScope m.request.root below) f.results) n ∧
      m.returnEarly explicit = (n.withScopes (releaseFrames · [f]), true) := by
  cases hl : f.looping with
  | true =>
    rw [returnEarly_of_looping hf hl, if_pos rfl]
    exact returnFrame_writes (m := (m.withFrames ({ f with looping := false } :: below)).withBreak
      (some below.length)) rfl hactive hres explicit
  | false =>
    rw [returnEarly_of_not_looping hf hl, if_neg Bool.false_ne_true]
    exact returnFrame_writes hf hactive hres explicit

/-! ## Scopes that come and go

Scopes that come and go are not written to by the way, since a scope that is old is none of them. -/

/-- From one machine to another scopes may have come and gone. Of those that have stayed only variables of a
region have changed, and no property has. -/
structure Alters (W : Region) (m n : Machine σ) : Prop where
  detached : n.request.detached = m.request.detached
  properties : n.store.properties = m.store.properties
  envs : ∀ id, m.scopes.isLive id → n.scopes.isLive id → (∀ x, ¬W id x) → n.scopes.env? id = m.scopes.env? id
  vars : ∀ id x, m.scopes.isLive id → n.scopes.isLive id → ¬W id x →
    n.scopes.getLocal? id x = m.scopes.getLocal? id x

namespace Alters

variable {W : Region} {m n o : Machine σ}

/-- A change of the scopes that spares all variables of those which stay. -/
theorem of_env? (hd : n.request.detached = m.request.detached) (hp : n.store.properties = m.store.properties)
    (henv : ∀ id, m.scopes.isLive id → n.scopes.isLive id → n.scopes.env? id = m.scopes.env? id) :
    m.Alters W n where
  detached := hd
  properties := hp
  envs id hm hn _ := henv id hm hn
  vars id x hm hn _ := by
    unfold Arena.getLocal?
    rw [henv id hm hn]

theorem of_thread (m : Machine σ) (W : Region) (t : Thread σ) : m.Alters W { m with thread := t } :=
  .of_env? rfl rfl fun _ _ _ => rfl

/-- It does not matter what the thread was. -/
theorem with_thread {t : Thread σ} (h : Alters W { m with thread := t } n) : m.Alters W n :=
  ⟨h.detached, h.properties, h.envs, h.vars⟩

end Alters

theorem Writes.alters {W : Region} {m n : Machine σ} (h : m.Writes W n) : m.Alters W n :=
  ⟨h.detached, h.properties, fun id _ _ => h.envs id, fun id x _ _ => h.vars id x⟩

/-- Where an arena has fewer scopes, those that it has are the same. -/
theorem env?_of_sub {a b : Arena} (h : a.Sub b) {id : ScopeId} (hl : a.isLive id) : a.env? id = b.env? id := by
  obtain ⟨env, he⟩ := Option.isSome_iff_exists.1 hl
  rw [he, h id env he]

namespace Alters

variable {W : Region} {m n : Machine σ}

/-- Letting scopes go. -/
theorem of_sub (h : m.Alters W n) {f : Arena → Arena} (hsub : (f n.scopes).Sub n.scopes) :
    m.Alters W (n.withScopes f) where
  detached := h.detached
  properties := h.properties
  envs id hm hl hW := (env?_of_sub hsub hl).trans (h.envs id hm (hsub.isLive hl) hW)
  vars id x hm hl hW := by
    rw [← h.vars id x hm (hsub.isLive hl) hW]
    show (Arena.env? (f n.scopes) id).bind _ = (n.scopes.env? id).bind _
    rw [env?_of_sub hsub hl]

end Alters

theorem alters_unwind (m : Machine σ) (W : Region) (level : Nat) : m.Alters W (m.unwind level) := by
  have h := Alters.of_thread m W (m.withFrames (m.frames.drop (m.depth - level))).thread
  rw [unwind_eq]
  exact h.of_sub (releaseFrames_sub _ m.scopes)

theorem alters_nextStep {m n : Machine σ} {level : Nat} {step : Step} (h : m.nextStep level = (n, step))
    (W : Region) : m.Alters W n := by
  unfold nextStep at h
  split_ifs at h
  · cases h
    exact .of_env? rfl rfl fun _ _ _ => rfl
  · split at h
    · cases h
      exact .of_env? rfl rfl fun _ _ _ => rfl
    · simp only at h
      split_ifs at h <;>
      · cases h
        exact .of_env? rfl rfl fun _ _ _ => rfl

/-- A call gets a scope that was not there. -/
theorem Accounted.alters_push {others : Multiset ScopeId} {m : Machine σ} {ds : List Driver}
    (h : Accounted others m ds) (W : Region) (action : String) (results : List String) (params : Table Value) :
    m.Alters W (m.push action results params) ∧
      ¬m.scopes.isLive (m.scopes.alloc (some m.currentScope) params).2 := by
  have hsub := h.balanced.tidy.sub_alloc (some m.currentScope) params
  exact ⟨.of_env? rfl rfl fun id hm _ => (env?_of_sub hsub hm).symm, h.balanced.tidy.not_isLive_alloc _ params⟩

end Machine
end Sequencer
