import Sequencer.Proofs.Attempt
import Sequencer.Proofs.Masking

/-!
# A thread and its copy

Two machines do the same side by side: a thread, and a copy of it. The copy owns all frames that were on the stack
when it was made; what has come above since is the same on both stacks. Its world has more references, those of the
copy on its scopes, and is the same otherwise, but for what is masked. No operation can tell the two apart, as
long as the frames that were copied are left alone: then their scopes live anyway, and the references on them make
no difference.
-/

namespace Sequencer

variable {σ : Type}

/-! ## Stacks side by side

The frames above the copy are the same on both stacks. -/

/-- A stack above a base, and the same stack above a copy of the base. -/
def Paired (base fs fs' : List Frame) : Prop := ∃ above, fs = above ++ base ∧ fs' = above ++ base.map Frame.owning

namespace Paired

variable {base fs fs' : List Frame} {f : Frame}

/-- Nothing has come above the base so far. -/
theorem refl (base : List Frame) : Paired base base (base.map Frame.owning) := ⟨[], rfl, rfl⟩

/-- The thread rests on its base. -/
theorem suffix (h : Paired base fs fs') : base <:+ fs := by
  obtain ⟨above, rfl, -⟩ := h
  exact List.suffix_append above base

/-- The stacks are equally high, so that levels mean the same on both. -/
theorem length (h : Paired base fs fs') : fs'.length = fs.length := by
  obtain ⟨above, rfl, rfl⟩ := h
  simp

/-- Once the copy's references are forgotten, there is no difference. -/
theorem owning (h : Paired base fs fs') : fs'.map Frame.owning = fs.map Frame.owning := by
  obtain ⟨above, rfl, rfl⟩ := h
  rw [List.map_append, List.map_append, List.map_map]
  rfl

/-- What comes on top comes on both. -/
theorem cons (h : Paired base fs fs') (f : Frame) : Paired base (f :: fs) (f :: fs') := by
  obtain ⟨above, rfl, rfl⟩ := h
  exact ⟨f :: above, rfl, rfl⟩

/-- The frames above the base are the same. -/
theorem tail (h : Paired base (f :: fs) fs') (hle : base.length ≤ fs.length) :
    ∃ rest', fs' = f :: rest' ∧ Paired base fs rest' := by
  obtain ⟨above, he, rfl⟩ := h
  cases above with
  | nil =>
    have hlen := congrArg List.length he
    rw [List.nil_append, List.length_cons] at hlen
    omega
  | cons g above =>
    cases he
    exact ⟨_, rfl, above, rfl, rfl⟩

/-- Frames above the base are cut off. -/
theorem drop (h : Paired base fs fs') {k : Nat} (hk : k + base.length ≤ fs.length) :
    fs'.take k = fs.take k ∧ Paired base (fs.drop k) (fs'.drop k) := by
  obtain ⟨above, rfl, rfl⟩ := h
  have hle : k ≤ above.length := by
    rw [List.length_append] at hk
    omega
  rw [List.take_append_of_le_length hle, List.take_append_of_le_length hle, List.drop_append_of_le_length hle,
    List.drop_append_of_le_length hle]
  exact ⟨rfl, above.drop k, rfl, rfl⟩

end Paired

/-- Which loop a break ends does not depend on who holds the scopes. -/
theorem breakInnermost_owning (fs : List Frame) :
    breakInnermost (fs.map Frame.owning) = (breakInnermost fs).map fun r => (r.1.map Frame.owning, r.2) := by
  induction fs with
  | nil => rfl
  | cons f fs ih =>
    have hlooping : f.owning.looping = f.looping := rfl
    rw [List.map_cons, breakInnermost, breakInnermost, hlooping]
    split_ifs
    · show some (_, (fs.map Frame.owning).length) = _
      rw [List.length_map]
      rfl
    · rw [ih, Option.map_map, Option.map_map]
      rfl

/-- A loop above the base is ended on both stacks, and so is none at all. -/
theorem Paired.breakInnermost {base fs fs' : List Frame} (h : Paired base fs fs')
    (hsuf : ∀ r, Sequencer.breakInnermost fs = some r → base <:+ r.1) :
    (Sequencer.breakInnermost fs = none ∧ Sequencer.breakInnermost fs' = none) ∨
      ∃ gs gs' i, Sequencer.breakInnermost fs = some (gs, i) ∧ Sequencer.breakInnermost fs' = some (gs', i) ∧
        Paired base gs gs' := by
  obtain ⟨above, rfl, rfl⟩ := h
  induction above with
  | nil =>
    rw [List.nil_append] at hsuf ⊢
    rw [List.nil_append, breakInnermost_owning]
    cases hb : Sequencer.breakInnermost base with
    | none => exact .inl ⟨rfl, rfl⟩
    | some r =>
      -- What is left of the base is the base, so that there was nothing to end.
      have he : base = r.1 := (hsuf r hb).eq_of_length (breakInnermost_length hb).1.symm
      exact .inr ⟨r.1, r.1.map Frame.owning, r.2, rfl, rfl, he ▸ .refl base⟩
  | cons f above ih =>
    rw [List.cons_append, Sequencer.breakInnermost] at hsuf ⊢
    rw [List.cons_append, Sequencer.breakInnermost]
    by_cases hl : f.looping = true
    · rw [if_pos hl, if_pos hl]
      refine .inr ⟨_, _, _, rfl, ?_, .cons ⟨above, rfl, rfl⟩ _⟩
      simp
    · rw [if_neg hl] at hsuf ⊢
      rw [if_neg hl]
      have hsuf' : ∀ r, Sequencer.breakInnermost (above ++ base) = some r → base <:+ r.1 := by
        intro r hr
        have hcons : base <:+ f.exhaust :: r.1 := hsuf _ (by rw [hr]; rfl)
        rcases List.suffix_cons_iff.1 hcons with he | hsuf
        · have hlen := congrArg List.length he
          rw [List.length_cons, (breakInnermost_length hr).1, List.length_append] at hlen
          omega
        · exact hsuf
      rcases ih hsuf' with ⟨hnone, hnone'⟩ | ⟨gs, gs', i, hsome, hsome', hp⟩
      · rw [hnone, hnone']
        exact .inl ⟨rfl, rfl⟩
      · rw [hsome, hsome']
        exact .inr ⟨_, _, i, rfl, rfl, hp.cons f.exhaust⟩

namespace Machine

/-! ## Fetching

Fetching from a frame that is not exhausted moves it on, and offers what it has fetched. -/

/-- The active frame moves on to its next instruction. -/
def advance (m : Machine σ) (f : Frame) (rest : List Frame) : Machine σ :=
  let n := m.withFrames (f.advance :: rest)
  n.note (.fetched n.thread.id f.advance.activation f.advance.key n.depth n.scopes.live)

/-- What is found under the name of an instruction. -/
def offer (m : Machine σ) (key : String) : Step :=
  let text := match m.lookup key with
    | some v => Text.trimmed v.text
    | none => ""
  if text.isEmpty then .exhausted else .instruction key text

section Fetch

variable {m : Machine σ} {level : Nat} {f : Frame} {rest : List Frame}

/-- A frame with an instruction left is where the next one is fetched from. -/
theorem nextStep_of_not_exhausted (hd : level < m.depth) (hf : m.frames = f :: rest) (he : f.exhausted = false) :
    m.nextStep level = (m.advance f rest, (m.advance f rest).offer f.advance.key) := by
  have hex : ¬f.exhausted = true := by simp [he]
  unfold nextStep
  rw [if_neg (Nat.not_le_of_lt hd), hf]
  simp only [if_neg hex]
  split_ifs with ht
  · exact Prod.ext rfl (if_pos ht).symm
  · exact Prod.ext rfl (if_neg ht).symm

end Fetch

/-! ## New activations

An activation is started with a number, a scope and a frame. -/

/-- A frame comes on the stack for a new activation, among the scopes that there are then. -/
def started (m : Machine σ) (scopes : Arena) (f : Frame) : Machine σ where
  world :=
    { m.world with
      request := { m.request with scopes }
      activations := m.world.activations + 1
      journal := .entered m.thread.id m.world.activations f.action :: m.world.journal }
  thread := { m.thread with frames := { f with activation := m.world.activations } :: m.frames }

/-- An activation begins with a new scope inside of the current one, and a frame for it on top. -/
theorem push_eq (m : Machine σ) (action : String) (results : List String) (params : Table Value) :
    m.push action results params = m.started (m.scopes.alloc (some m.currentScope) params).1
      ⟨action, 0, results, (m.scopes.alloc (some m.currentScope) params).2, false, true, 0⟩ := rfl

/-- A frame that comes back is a new activation of the same action. -/
theorem repush_eq (m : Machine σ) (f : Frame) : m.repush f = m.started m.scopes { f with ip := 0 } := rfl

/-! ## Machines side by side

The worlds are the same but for what is masked, and the stacks are side by side. -/

/-- A machine, and another one that has a copy of the stack below and does the same. The barriers are their own. -/
structure Twins (base : List Frame) (b b' : Option (Barrier σ)) (m m' : Machine σ) : Prop where
  masked : m'.masked = m.masked
  scopes : m'.scopes = retainFrames m.scopes base
  frames : Paired base m.frames m'.frames
  barrier : m.thread.barrier = b
  barrier' : m'.thread.barrier = b'

namespace Twins

variable {base : List Frame} {b b' : Option (Barrier σ)} {m m' n : Machine σ}

/-- Both stacks are equally high. -/
theorem depth (h : Twins base b b' m m') : m'.depth = m.depth := h.frames.length

/-- Neither is lower than what was copied. -/
theorem length_le (h : Twins base b b' m m') : base.length ≤ m.depth := h.frames.suffix.length_le

/-- A request was aborted for both or for none. -/
theorem aborted (h : Twins base b b' m m') : m'.aborted = m.aborted := by
  show m'.masked.aborted = m.masked.aborted
  rw [h.masked]

/-- The same break is pending on both. -/
theorem breakAt (h : Twins base b b' m m') : m'.thread.breakAt = m.thread.breakAt := by
  show m'.masked.thread.breakAt = m.masked.thread.breakAt
  rw [h.masked]

/-- Names mean the same, since the scopes have the same variables and parents. -/
theorem lookup (h : Twins base b b' m m') : m'.lookup = m.lookup := by
  rw [← lookup_masked, h.masked, lookup_masked]

theorem currentScope (h : Twins base b b' m m') : m'.currentScope = m.currentScope := by
  rw [← currentScope_masked, h.masked, currentScope_masked]

/-- So does a payload, once its placeholders are filled in. -/
theorem decode (h : Twins base b b' m m') (e : Engine σ) (text : String) : m'.decode e text = m.decode e text := by
  rw [← decode_masked, h.masked, decode_masked]

/-- Retries depend on the time and on whether the request was aborted. -/
theorem lastAttempt (h : Twins base b b' m m') (pause total : Int64) :
    m'.lastAttempt pause total = m.lastAttempt pause total := by
  unfold Machine.lastAttempt
  rw [h.aborted]

/-! ### Operations that move nothing

What goes on masked as it does unmasked, and moves no frame, is done by both. -/

/-- Variables may change and stores fail, as long as it is seen on both machines. -/
theorem quiet {n' : Machine σ} (h : Twins base b b' m m') (hq : m.Quiet n) (hq' : m'.Quiet n')
    (hm : n'.masked = n.masked) : Twins base b b' n n' where
  masked := hm
  scopes := by
    apply Arena.ext_bare
    · rw [hq'.scopes, h.scopes, bare_retainFrames, bare_retainFrames, hq.scopes]
    · rw [uncounted_retainFrames]
      exact congrArg Machine.scopes hm
  frames := by
    rw [hq.frames, hq'.frames]
    exact h.frames
  barrier := hq.barrier.trans h.barrier
  barrier' := hq'.barrier.trans h.barrier'

/-- An operation that neither moves anything nor sees what is masked has the same outcome on both machines. -/
theorem follows {α : Type} {f : Machine σ → Machine σ × α} {x : α} (h : Twins base b b' m m')
    (hq : ∀ m : Machine σ, m.Quiet (f m).1) (hm : ∀ m : Machine σ, f m.masked = Prod.map Machine.masked id (f m))
    (hf : f m = (n, x)) : ∃ n', f m' = (n', x) ∧ Twins base b b' n n' := by
  have hsame : Prod.map Machine.masked id (f m') = Prod.map Machine.masked id (f m) := by
    rw [← hm m', h.masked, hm m]
  have hn := hq m
  rw [hf] at hsame hn
  have hout : (f m').2 = x := congrArg Prod.snd hsame
  have hmasked : (f m').1.masked = n.masked := congrArg Prod.fst hsame
  exact ⟨(f m').1, Prod.ext rfl hout, h.quiet hn (hq m') hmasked⟩

/-- Both may write an event down, each with the number of its own thread. -/
theorem note (h : Twins base b b' m m') {e e' : Event} (he : e'.anonymous = e.anonymous) :
    Twins base b b' (m.note e) (m'.note e') := by
  refine h.quiet (quiet_note m e) (quiet_note m' e') ?_
  show m'.masked.note e'.anonymous = m.masked.note e.anonymous
  rw [h.masked, he]

/-- Results are published into the same scopes. -/
theorem publish (h : Twins base b b' m m') (names : List String) (vs : List (Option Value)) :
    Twins base b b' (m.publish names vs) (m'.publish names vs) := by
  refine h.quiet (quiet_publish m names vs) (quiet_publish m' names vs) ?_
  rw [← masked_publish, ← masked_publish, h.masked]

/-- Variables are bound in the same scope. -/
theorem bindAll (h : Twins base b b' m m') (vars : Table Value) :
    Twins base b b' (m.bindAll vars) (m'.bindAll vars) := by
  refine h.quiet (quiet_bindAll m vars) (quiet_bindAll m' vars) ?_
  rw [← masked_bindAll, ← masked_bindAll, h.masked]

/-! ### Threads

Marks and barriers are changed on both sides. -/

/-- Each of them waits for jobs of its own. -/
theorem withBarrier (h : Twins base b b' m m') (c c' : Option (Barrier σ)) :
    Twins base c c' (m.withBarrier c) (m'.withBarrier c') := ⟨h.masked, h.scopes, h.frames, rfl, rfl⟩

/-- A break that is marked on both is a break of both. -/
theorem withBreak (h : Twins base b b' m m') (k : Option Nat) :
    Twins base b b' (m.withBreak k) (m'.withBreak k) where
  masked := by
    show m'.masked.withBreak k = m.masked.withBreak k
    rw [h.masked]
  scopes := h.scopes
  frames := h.frames
  barrier := h.barrier
  barrier' := h.barrier'

/-- Both may change their frames, as long as these stay side by side. -/
theorem withFrames (h : Twins base b b' m m') {fs fs' : List Frame} (hp : Paired base fs fs') :
    Twins base b b' (m.withFrames fs) (m'.withFrames fs') where
  masked := by
    show m'.masked.withFrames (fs'.map Frame.owning) = m.masked.withFrames (fs.map Frame.owning)
    rw [h.masked, hp.owning]
  scopes := h.scopes
  frames := hp
  barrier := h.barrier
  barrier' := h.barrier'

/-- The active frame, if it is above the base. -/
theorem top (h : Twins base b b' m m') {f : Frame} {rest : List Frame} (hf : m.frames = f :: rest)
    (hle : base.length ≤ rest.length) : ∃ rest', m'.frames = f :: rest' ∧ Paired base rest rest' :=
  Paired.tail (hf ▸ h.frames) hle

/-- A frame above the base takes a loop up, or puts it down, on both stacks. -/
theorem setLooping (h : Twins base b b' m m') {f : Frame} {rest : List Frame} (hf : m.frames = f :: rest)
    (hle : base.length ≤ rest.length) (looping : Bool) :
    Twins base b b' (m.setLooping looping) (m'.setLooping looping) := by
  obtain ⟨rest', hf', hp⟩ := h.top hf hle
  unfold Machine.setLooping
  rw [hf, hf']
  exact h.withFrames (hp.cons _)

/-- The reference of a frame above the base is let go on both. -/
theorem disown (h : Twins base b b' m m') {f : Frame} {rest : List Frame} (hf : m.frames = f :: rest)
    (hle : base.length ≤ rest.length) : Twins base b b' m.disown m'.disown := by
  obtain ⟨rest', hf', hp⟩ := h.top hf hle
  unfold Machine.disown
  rw [hf, hf']
  exact h.withFrames (hp.cons _)

/-- A break that has come up to its loop is taken by both. -/
theorem takeBreak (h : Twins base b b' m m') {index : Nat} {broken : Bool} (ht : m.takeBreak index = (n, broken)) :
    ∃ n', m'.takeBreak index = (n', broken) ∧ Twins base b b' n n' := by
  unfold Machine.takeBreak at ht ⊢
  rw [h.breakAt]
  split_ifs at ht ⊢
  · cases ht
    exact ⟨_, rfl, h.withBreak none⟩
  · cases ht
    exact ⟨_, rfl, h⟩

/-- A break ends the same loop, unless it would have to reach into the base. -/
theorem breakLoop (h : Twins base b b' m m') {ok : Bool} (hb : m.breakLoop = (n, ok)) (hsuf : base <:+ n.frames) :
    ∃ n', m'.breakLoop = (n', ok) ∧ Twins base b b' n n' := by
  unfold Machine.breakLoop at hb ⊢
  -- The break keeps the base, so the loop that it finds is above it, and both have it.
  have hkept : ∀ r, breakInnermost m.frames = some r → base <:+ r.1 := by
    intro r hr
    rw [hr] at hb
    cases hb
    exact hsuf
  rcases h.frames.breakInnermost hkept with ⟨hnone, hnone'⟩ | ⟨gs, gs', i, hsome, hsome', hp⟩
  · rw [hnone] at hb
    rw [hnone']
    cases hb
    exact ⟨_, rfl, h⟩
  · rw [hsome] at hb
    rw [hsome']
    cases hb
    exact ⟨_, rfl, (h.withFrames hp).withBreak _⟩

/-- The instruction pointer of the same frame moves on. -/
theorem advance (h : Twins base b b' m m') {f : Frame} {rest rest' : List Frame} (hp : Paired base rest rest') :
    Twins base b b' (m.advance f rest) (m'.advance f rest') := by
  refine (h.withFrames (hp.cons f.advance)).note ?_
  show Event.fetched 0 _ _ (rest'.length + 1) m'.scopes.live = Event.fetched 0 _ _ (rest.length + 1) m.scopes.live
  rw [hp.length, h.scopes, live_retainFrames]

/-- Both fetch the same instruction, as long as nothing of the base is looked at. -/
theorem nextStep (h : Twins base b b' m m') {level : Nat} {step : Step} (hlevel : base.length ≤ level)
    (hs : m.nextStep level = (n, step)) : ∃ n', m'.nextStep level = (n', step) ∧ Twins base b b' n n' := by
  cases nextStep_cases hs with
  | drained hd => exact ⟨m', nextStep_of_le (h.depth.symm ▸ hd), h⟩
  | @exhausted f rest hd hf he =>
    obtain ⟨rest', hf', -⟩ := h.top hf (hlevel.trans (le_length_of_lt_depth hf hd))
    exact ⟨m', nextStep_of_exhausted (h.depth.symm ▸ hd) hf' he, h⟩
  | @advanced f rest _ _ hd hf he _ _ =>
    obtain ⟨rest', hf', hp⟩ := h.top hf (hlevel.trans (le_length_of_lt_depth hf hd))
    have hadvance : Twins base b b' (m.advance f rest) (m'.advance f rest') := h.advance hp
    rw [nextStep_of_not_exhausted hd hf he] at hs
    cases hs
    rw [nextStep_of_not_exhausted (h.depth.symm ▸ hd) hf' he]
    refine ⟨_, Prod.ext rfl ?_, hadvance⟩
    unfold Machine.offer
    rw [hadvance.lookup]

/-! ### Scopes

The references of the copy are on scopes that live anyway. What is released otherwise is released on both sides. -/

/-- A step among the scopes that does not mind the references of the copy. -/
theorem withScopes (h : Twins base b b' m m') {f : Arena → Arena}
    (hf : f (retainFrames m.scopes base) = retainFrames (f m.scopes) base) :
    Twins base b b' (m.withScopes f) (m'.withScopes f) where
  masked := by
    show m'.masked.withScopes (fun _ => (f m'.scopes).uncounted) = m.masked.withScopes fun _ => (f m.scopes).uncounted
    rw [h.masked, h.scopes, hf, uncounted_retainFrames]
  scopes := by
    show f m'.scopes = _
    rw [h.scopes, hf]
    rfl
  frames := h.frames
  barrier := h.barrier
  barrier' := h.barrier'

/-- A reference is released on both, and the scopes of the base live on in any case. -/
theorem release (h : Twins base b b' m m') {id : ScopeId} (hl : ∀ f ∈ base, (m.scopes.release id).isLive f.scope) :
    Twins base b b' (m.withScopes (·.release id)) (m'.withScopes (·.release id)) :=
  h.withScopes (release_retainFrames hl)

/-- So are the references of some frames. -/
theorem releaseFrames (h : Twins base b b' m m') {fs : List Frame}
    (hl : ∀ f ∈ base, (releaseFrames m.scopes fs).isLive f.scope) :
    Twins base b b' (m.withScopes (Machine.releaseFrames · fs)) (m'.withScopes (Machine.releaseFrames · fs)) :=
  h.withScopes (releaseFrames_retainFrames hl)

/-- Frames above the base are unwound on both. -/
theorem unwind (h : Twins base b b' m m') {level : Nat} (hlevel : base.length ≤ level)
    (hl : ∀ f ∈ base, (m.unwind level).scopes.isLive f.scope) :
    Twins base b b' (m.unwind level) (m'.unwind level) := by
  have hle := h.length_le
  have hcut : m.depth - level + base.length ≤ m.frames.length := by
    unfold Machine.depth at hle ⊢
    omega
  obtain ⟨htake, hdrop⟩ := h.frames.drop hcut
  rw [unwind_eq, unwind_eq, h.depth, htake]
  exact (h.withFrames hdrop).releaseFrames hl

/-- An activation that is started on both begins under the same number and in the same scope. -/
theorem started (h : Twins base b b' m m') (a : Arena) (f : Frame) :
    Twins base b b' (m.started a f) (m'.started (retainFrames a base) f) where
  masked := by
    show m'.masked.started (retainFrames a base).uncounted f.owning = m.masked.started a.uncounted f.owning
    rw [h.masked, uncounted_retainFrames]
  scopes := rfl
  frames := by
    have hactivations : m'.world.activations = m.world.activations := by
      show m'.masked.world.activations = m.masked.world.activations
      rw [h.masked]
    show Paired base (_ :: m.frames) ({ f with activation := m'.world.activations } :: m'.frames)
    rw [hactivations]
    exact h.frames.cons _
  barrier := h.barrier
  barrier' := h.barrier'

/-- A new frame gets the same scope on both machines. -/
theorem push {held : Multiset ScopeId} (h : Twins base b b' m m') (hb : m.scopes.Balanced held)
    (hl : ∀ f ∈ base, m.scopes.isLive f.scope) (hc : m.scopes.isLive m.currentScope) (action : String)
    (results : List String) (params : Table Value) :
    Twins base b b' (m.push action results params) (m'.push action results params) := by
  have hparent : ∀ p, some m.currentScope = some p → m.scopes.isLive p := by
    intro p hp
    cases hp
    exact hc
  have halloc := alloc_retainFrames hb hl hparent params
  rw [← h.scopes, ← h.currentScope] at halloc
  rw [push_eq, push_eq, halloc, h.currentScope]
  exact h.started _ _

/-- A frame that is put back for another pass keeps its scope. -/
theorem repush (h : Twins base b b' m m') (f : Frame) : Twins base b b' (m.repush f) (m'.repush f) := by
  rw [repush_eq, repush_eq, h.scopes]
  exact h.started _ _

/-! ### Returning

A frame above what was copied returns to the frame below it, which may be one that was copied. -/

/-- What is read before a frame goes. -/
theorem readTargets (h : Twins base b b' m m') {skip asked : Bool} {names : List String} {vs : List (Option Value)}
    (hr : (if skip then (m, []) else m.readResults asked names) = (n, vs)) :
    ∃ n', (if skip then (m', []) else m'.readResults asked names) = (n', vs) ∧ Twins base b b' n n' := by
  split_ifs at hr ⊢
  · cases hr
    exact ⟨m', rfl, h⟩
  · exact h.follows (quiet_readResults · asked names) (masked_readResults · asked names) hr

/-- A frame above the base returns the same values, into the same places, on both. -/
theorem returnFrame (h : Twins base b b' m m') {f : Frame} {rest : List Frame} (hf : m.frames = f :: rest)
    (hle : base.length ≤ rest.length) {explicit : Option (List String)} {ok : Bool}
    (hr : m.returnFrame explicit = (n, ok)) (hl : ∀ g ∈ base, n.scopes.isLive g.scope) :
    ∃ n', m'.returnFrame explicit = (n', ok) ∧ Twins base b b' n n' := by
  obtain ⟨rest', hf', hp⟩ := h.top hf hle
  unfold Machine.returnFrame at hr ⊢
  rw [hf] at hr
  rw [hf']
  simp only at hr ⊢
  generalize (if f.looping && explicit.isNone then [] else f.results) = targets at hr ⊢
  rcases hread : (if targets.isEmpty then (m, []) else m.readResults explicit.isSome (explicit.getD targets)) with
    ⟨o, vs⟩
  rw [hread] at hr
  obtain ⟨o', hread', ho⟩ := h.readTargets hread
  rw [hread']
  have hpublished := (ho.withFrames hp).publish targets vs
  simp only at hr ⊢
  split_ifs at hr ⊢
  · cases hr
    exact ⟨_, rfl, hpublished.release hl⟩
  · cases hr
    exact ⟨_, rfl, hpublished⟩

/-- It may also return before its end. -/
theorem returnEarly (h : Twins base b b' m m') {f : Frame} {rest : List Frame} (hf : m.frames = f :: rest)
    (hle : base.length ≤ rest.length) {explicit : Option (List String)} {ok : Bool}
    (hr : m.returnEarly explicit = (n, ok)) (hl : ∀ g ∈ base, n.scopes.isLive g.scope) :
    ∃ n', m'.returnEarly explicit = (n', ok) ∧ Twins base b b' n n' := by
  obtain ⟨rest', hf', hp⟩ := h.top hf hle
  unfold Machine.returnEarly at hr ⊢
  rw [hf] at hr
  rw [hf']
  simp only at hr ⊢
  split_ifs at hr ⊢
  · have hmarked := (h.withFrames (hp.cons { f with looping := false })).withBreak (some rest.length)
    rw [hp.length]
    exact hmarked.returnFrame rfl hle hr hl
  · exact h.returnFrame hf hle hr hl

end Twins
end Machine
end Sequencer
