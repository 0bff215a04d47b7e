import Sequencer.Proofs.Footprint
import Sequencer.Proofs.Return

/-!
# Frames that keep to themselves

A frame begins its run on a stack. The scopes that are there at that moment, all but the frame's own, are those that
the run is to leave alone. Whatever it calls gets a scope that was not there, so as long as all names are default
ones, the scope of the active frame is never one of these. Only when the frame itself returns, the stack below
becomes active again, and the names that the frame has for its results are written in the scope of the caller.
-/

namespace Sequencer

variable {σ : Type}

open Machine

/-- A frame on a stack, at the moment when its run begins: the machine at that moment, the loops that its thread
is in, and what others hold. -/
structure Callee (σ : Type) where
  start : Machine σ
  own : Frame
  below : List Frame
  loops : List Driver
  others : Multiset ScopeId

namespace Callee

variable {s : Callee σ} {m n o : Machine σ} {ds ds' : List Driver} {W V : Region}

/-! ## What is there from the beginning

A callee is a frame with all that was there when it began: the frames below, their scopes, the loops, and what others
hold. -/

/-- How many frames are below the frame. -/
def level (s : Callee σ) : Nat := s.below.length

/-- The scope around that of the frame. -/
def caller (s : Callee σ) : ScopeId := topScope s.start.request.root s.below

/-- What is held without the frame. -/
def held (s : Callee σ) : Multiset ScopeId := heldBy s.below s.loops + s.others

/-- A scope that has been there before the frame was called. -/
def Old (s : Callee σ) (id : ScopeId) : Prop := s.start.scopes.isLive id ∧ id ≠ s.own.scope

/-- The frame is the one of a loop, and the loop goes on. -/
def Repeats (s : Callee σ) : Prop := s.own.looping = true ∧ s.start.thread.breakAt = none

/-- The accounts are right, and there is a request. -/
structure Sound (s : Callee σ) : Prop where
  accounted : Accounted s.others s.start s.loops
  frames : s.start.frames = s.own :: s.below
  loops : Driver.base s.loops ≤ s.level
  active : s.start.request.detached = false

/-- Without the frame all that has been there before would still be there. -/
theorem Sound.reaches (hs : s.Sound) {id : ScopeId} (h : s.Old id) : s.start.scopes.Reaches s.held id := by
  -- What is reached from all that is held is reached without the callee's frame, except for its own scope.
  have hsplit : ∀ {i}, s.start.scopes.Reaches (heldBy s.start.frames s.loops + s.others) i →
      i = s.own.scope ∨ s.start.scopes.Reaches s.held i := by
    intro i hr
    induction hr with
    | @held i hm =>
      rw [hs.frames, show s.own :: s.below = [s.own] ++ s.below from rfl, heldBy_append, add_assoc] at hm
      rcases Multiset.mem_add.1 hm with hown | hrest
      · refine .inl ?_
        rw [Multiset.mem_coe, ownedScopes_cons] at hown
        split_ifs at hown
        · exact List.mem_singleton.1 hown
        · cases hown
      · exact .inr (.held hrest)
    | around _ hp ih =>
      rcases ih with rfl | ih
      · -- The scope around the frame's own is the caller's, which is held.
        obtain ⟨hparent, hheld⟩ := hs.accounted.caller hs.frames
        cases hparent.symm.trans hp
        exact .inr (.held hheld)
      · exact .inr (.around ih hp)
  exact (hsplit ((hs.accounted.balanced.isLive_iff_reaches id).1 h.1)).resolve_left h.2

/-! ## Standing on what was there

The stack of the callee stands on what was there, whatever is pushed on top. So what was held stays held. -/

/-- The thread stands on the stack below the frame, and all that is held without the frame has stayed in place. -/
structure Stands (s : Callee σ) (m : Machine σ) (ds : List Driver) : Prop where
  accounted : Accounted s.others m ds
  root : m.request.root = s.start.request.root
  loops : s.loops <:+ ds
  rests : RestsOn m.frames s.below
  keeps : Arena.Keeps s.held s.start.scopes m.scopes

theorem held_le (s : Callee σ) {fs : List Frame} (hloops : s.loops <:+ ds) (hrests : RestsOn fs s.below) :
    s.held ≤ heldBy fs ds + s.others := by
  obtain ⟨inner, rfl⟩ := hloops
  refine add_le_add_left ((heldBy_le hrests s.loops).trans ?_) s.others
  unfold heldBy
  rw [List.map_append, ← Multiset.coe_add]
  exact add_le_add_right (Multiset.le_add_left _ _) _

namespace Stands

/-- What has been there before is still there. -/
theorem isLive (h : s.Stands m ds) (hs : s.Sound) {id : ScopeId} (hid : s.Old id) : m.scopes.isLive id :=
  (h.keeps id (hs.reaches hid)).1

/-- The thread goes on, without touching what is below. -/
theorem turn (h : s.Stands m ds) {floor : Nat} (ht : Turn floor m ds n ds') (hbase : Driver.base ds ≤ floor)
    (hlevel : s.level ≤ floor) (hloops : s.loops <:+ ds') : s.Stands n ds' := by
  obtain ⟨hn, hstable⟩ := h.accounted.turn (ht.mono hbase)
  have hrests := ht.rests hlevel h.rests
  refine ⟨hn, ht.onward.root.trans h.root, hloops, hrests, h.keeps.trans ?_⟩
  exact .of_stable h.accounted.balanced hn.balanced (s.held_le h.loops h.rests) (s.held_le hloops hrests) hstable

theorem calm (h : s.Stands m ds) (hc : m.Calm n) : s.Stands n ds := by
  have ht : Turn (max (Driver.base ds) s.level) m ds n ds := .calm hc
  exact h.turn ht (Nat.le_max_left _ _) (Nat.le_max_right _ _) h.loops

end Stands

/-! ## Sparing what was there

Of the old scopes only those are written to that the callee may write to, and only under the names that it may use. -/

/-- Of what has been there before, only variables of a region have changed, and no property has. -/
structure Spares (s : Callee σ) (W : Region) (m : Machine σ) : Prop where
  active : m.request.detached = false
  properties : m.store.properties = s.start.store.properties
  envs : ∀ id, s.Old id → (∀ x, ¬W id x) → m.scopes.env? id = s.start.scopes.env? id
  vars : ∀ id x, s.Old id → ¬W id x → m.scopes.getLocal? id x = s.start.scopes.getLocal? id x

namespace Spares

theorem start (hs : s.Sound) (W : Region) : s.Spares W s.start :=
  ⟨hs.active, rfl, fun _ _ _ => rfl, fun _ _ _ _ => rfl⟩

theorem mono (h : s.Spares W m) (hle : ∀ id x, W id x → V id x) : s.Spares V m :=
  ⟨h.active, h.properties, fun id hid hV => h.envs id hid fun x hx => hV x (hle id x hx),
    fun id x hid hV => h.vars id x hid fun hx => hV (hle id x hx)⟩

theorem of_empty (h : s.Spares .empty m) (W : Region) : s.Spares W m := h.mono nofun

/-- A step that changes nothing old but in the region. -/
theorem alters (h : s.Spares W m) (hs : s.Sound) (hm : s.Stands m ds) (hn : s.Stands n ds') (ha : m.Alters V n)
    (hV : ∀ id x, V id x → s.Old id → W id x) : s.Spares W n where
  active := ha.detached.trans h.active
  properties := ha.properties.trans h.properties
  envs id hid hW := by
    have hV' : ∀ x, ¬V id x := fun x hx => hW x (hV id x hx hid)
    exact (ha.envs id (hm.isLive hs hid) (hn.isLive hs hid) hV').trans (h.envs id hid hW)
  vars id x hid hW := by
    have hV' : ¬V id x := fun hx => hW (hV id x hx hid)
    exact (ha.vars id x (hm.isLive hs hid) (hn.isLive hs hid) hV').trans (h.vars id x hid hW)

end Spares

/-! ## While the frame is on the stack

From the beginning of the frame to its return, each operation is one within the callee. The return itself is the one
that writes to the caller. -/

/-- So far nothing old has changed: all frames from the frame on upwards have scopes of their own. If there are
none any more, the frame has left without results. -/
structure Within (s : Callee σ) (m : Machine σ) (ds : List Driver) : Prop where
  stands : s.Stands m ds
  spares : s.Spares .empty m
  fresh : ∀ {f rest}, f :: rest <:+ m.frames → s.level ≤ rest.length → ¬s.Old f.scope
  own : ∀ {f rest}, f :: rest <:+ m.frames → rest.length = s.level → f.results = s.own.results

/-- The frame has returned, and the stack is what was below it. -/
structure Left (s : Callee σ) (m : Machine σ) (ds : List Driver) : Prop where
  stands : s.Stands m ds
  depth : m.depth = s.level
  spares : (∀ name ∈ s.own.results, DefaultLevel name) → s.Spares (.named s.caller s.own.results) m

namespace Within

/-- At the beginning the frame is active. -/
theorem start (hs : s.Sound) : s.Within s.start s.loops where
  stands :=
    { accounted := hs.accounted
      root := rfl
      loops := List.suffix_rfl
      rests := by
        rw [hs.frames]
        exact (RestsOn.refl s.below).cons s.own
      keeps := .refl hs.accounted.balanced (s.held_le List.suffix_rfl (by
        rw [hs.frames]
        exact (RestsOn.refl s.below).cons s.own)) }
  spares := .start hs _
  fresh {f rest} hsuf hle := by
    rw [hs.frames] at hsuf
    rcases List.suffix_cons_iff.1 hsuf with he | hsuf
    · cases he
      exact fun h => h.2 rfl
    · have := hsuf.length_le
      unfold level at hle
      rw [List.length_cons] at this
      omega
  own {f rest} hsuf hlen := by
    rw [hs.frames] at hsuf
    rcases List.suffix_cons_iff.1 hsuf with he | hsuf
    · cases he
      rfl
    · have := hsuf.length_le
      unfold level at hlen
      rw [List.length_cons] at this
      omega

/-- The active scope is none of those that were there. -/
theorem current (h : s.Within m ds) (hd : s.level < m.depth) : ¬s.Old m.currentScope := by
  rw [currentScope_eq]
  unfold depth at hd
  cases hf : m.frames with
  | nil =>
    rw [hf] at hd
    cases hd
  | cons f rest =>
    rw [hf] at hd
    exact h.fresh (hf ▸ List.suffix_rfl) (Nat.le_of_lt_succ hd)

theorem outside (h : s.Within m ds) : m.outside = false := by
  unfold Machine.outside
  rw [h.spares.active]
  rfl

/-- A step that leaves the stack as it is and writes nothing old. -/
theorem calm (h : s.Within m ds) (hs : s.Sound) (hc : m.Calm n) (ha : m.Alters V n)
    (hV : ∀ id x, V id x → ¬s.Old id) : s.Within n ds := by
  have hn := h.stands.calm hc
  -- Frames of the new stack are frames of the old one, up to marks.
  refine ⟨hn, h.spares.alters hs h.stands hn ha fun id x hx hid => absurd hid (hV id x hx), ?_, ?_⟩
  · intro f rest hsuf hle
    obtain ⟨f', rest', hsuf', hf, hrest⟩ := cons_suffix_of_core hc.frames hsuf
    rw [← Frame.scope_of_core hf]
    exact h.fresh hsuf' ((Frame.length_of_core hrest).symm ▸ hle)
  · intro f rest hsuf hlevel
    obtain ⟨f', rest', hsuf', hf, hrest⟩ := cons_suffix_of_core hc.frames hsuf
    rw [← Frame.results_of_core hf]
    exact h.own hsuf' ((Frame.length_of_core hrest).trans hlevel)

/-- Writing in the active scope. -/
theorem writes (h : s.Within m ds) (hs : s.Sound) (hd : s.level < m.depth)
    (hw : m.Writes (.scope m.currentScope) n) : s.Within n ds := by
  refine h.calm hs hw.quiet.calm hw.alters ?_
  rintro id x rfl
  exact h.current hd

/-- A step that concerns nothing but the thread, and no frame of it. -/
theorem marks (h : s.Within m ds) (hs : s.Sound) {t : Thread σ}
    (ht : t.frames.map Frame.core = m.frames.map Frame.core) : s.Within { m with thread := t } ds :=
  h.calm hs (Calm.of_thread m ht) (.of_thread m .empty t) nofun

theorem push (h : s.Within m ds) (hs : s.Sound) (hd : s.level < m.depth) (action : String)
    (results : List String) (params : Table Value) : s.Within (m.push action results params) ds := by
  have ht : Turn (max (Driver.base ds) s.level) m ds (m.push action results params) ds := .push action results params
  have hn : s.Stands (m.push action results params) ds :=
    h.stands.turn ht (Nat.le_max_left _ _) (Nat.le_max_right _ _) h.stands.loops
  obtain ⟨ha, hnew⟩ := h.stands.accounted.alters_push .empty action results params
  refine ⟨hn, h.spares.alters hs h.stands hn ha nofun, ?_, ?_⟩
  · intro f rest hsuf hle
    rcases List.suffix_cons_iff.1 hsuf with he | hsuf
    · cases he
      -- The scope of the new frame is none of the old ones.
      exact fun hold => hnew (h.stands.isLive hs hold)
    · exact h.fresh hsuf hle
  · intro f rest hsuf hlevel
    rcases List.suffix_cons_iff.1 hsuf with he | hsuf
    · cases he
      unfold depth at hd
      omega
    · exact h.own hsuf hlevel

/-- A frame has gone that was called by the frame. -/
theorem pop (h : s.Within m ds) (hs : s.Sound) {f : Frame} {rest : List Frame} (hf : m.frames = f :: rest)
    (hn : s.Stands n ds) (hframes : n.frames = rest) (ha : m.Alters V n) (hV : ∀ id x, V id x → ¬s.Old id) :
    s.Within n ds where
  stands := hn
  spares := h.spares.alters hs h.stands hn ha fun id x hx hid => absurd hid (hV id x hx)
  fresh hsuf hle := h.fresh ((hframes ▸ hsuf).trans (hf ▸ List.suffix_cons f rest)) hle
  own hsuf hlevel := h.own ((hframes ▸ hsuf).trans (hf ▸ List.suffix_cons f rest)) hlevel

/-- A frame has returned, under default names if it is one that the frame has called. -/
theorem returned (h : s.Within m ds) (hs : s.Sound) {f : Frame} {rest : List Frame} (hf : m.frames = f :: rest)
    (hn : s.Stands n ds) (hframes : n.frames = rest)
    (hres : s.level < rest.length → ∀ name ∈ f.results, DefaultLevel name)
    (ha : (∀ name ∈ f.results, DefaultLevel name) →
      m.Alters (.named (topScope m.request.root rest) f.results) n) :
    s.Within n ds ∨ s.Left n ds ∧ rest.length = s.level := by
  have hle : s.level ≤ rest.length := hframes ▸ hn.rests.length_le
  rcases Nat.lt_or_eq_of_le hle with hlt | heq
  · refine .inl (h.pop hs hf hn hframes (ha (hres hlt)) ?_)
    -- The caller is a frame above the frame's level, or the frame itself.
    rintro id x ⟨rfl, -⟩
    cases rest with
    | nil => cases hlt
    | cons g rest' =>
      have hsuf : g :: rest' <:+ m.frames := hf ▸ List.suffix_cons f (g :: rest')
      exact h.fresh hsuf (Nat.le_of_lt_succ hlt)
  · refine .inr ⟨⟨hn, ?_, fun hdefault => ?_⟩, heq.symm⟩
    · show n.frames.length = s.level
      rw [hframes, heq]
    · have hown : f.results = s.own.results := h.own (hf ▸ List.suffix_rfl) heq.symm
      have hcore : rest.map Frame.core = s.below.map Frame.core := by
        have hrests := hn.rests
        rw [hframes] at hrests
        refine (List.IsSuffix.eq_of_length hrests ?_).symm
        rw [List.length_map, List.length_map]
        exact heq
      have hcaller : topScope m.request.root rest = s.caller := by
        rw [topScope_congr hcore, h.stands.root]
        rfl
      rw [hown, hcaller] at ha
      exact (h.spares.of_empty _).alters hs h.stands hn (ha hdefault) fun _ _ hx _ => hx

theorem returnFrame (h : s.Within m ds) (hs : s.Sound) {f : Frame} {rest : List Frame} (hf : m.frames = f :: rest)
    (hbase : Driver.base ds ≤ rest.length) (hlevel : s.level ≤ rest.length)
    (hres : s.level < rest.length → ∀ name ∈ f.results, DefaultLevel name) (explicit : Option (List String)) :
    s.Within (m.returnFrame explicit).1 ds ∨ s.Left (m.returnFrame explicit).1 ds ∧ rest.length = s.level := by
  have hn := h.stands.turn (.returnFrame explicit (depth_pred_of_core hf rfl).ge) hbase hlevel h.stands.loops
  have hframes := frames_returnFrame hf explicit
  refine h.returned hs hf hn hframes hres fun hdefault => ?_
  obtain ⟨n, hw, he⟩ := returnFrame_writes hf h.spares.active hdefault explicit
  rw [he]
  exact (Alters.with_thread (m := m) hw.alters).of_sub (releaseFrames_sub [f] n.scopes)

theorem returnEarly (h : s.Within m ds) (hs : s.Sound) {f : Frame} {rest : List Frame} (hf : m.frames = f :: rest)
    (hbase : Driver.base ds ≤ rest.length) (hlevel : s.level ≤ rest.length)
    (hres : s.level < rest.length → ∀ name ∈ f.results, DefaultLevel name) (explicit : Option (List String)) :
    s.Within (m.returnEarly explicit).1 ds ∨ s.Left (m.returnEarly explicit).1 ds ∧ rest.length = s.level := by
  have hn := h.stands.turn (.returnEarly explicit (depth_pred_of_core hf rfl).ge) hbase hlevel h.stands.loops
  have hframes := frames_returnEarly hf explicit
  refine h.returned hs hf hn hframes hres fun hdefault => ?_
  obtain ⟨n, hw, he⟩ := returnEarly_writes hf h.spares.active hdefault explicit
  rw [he]
  exact (Alters.with_thread (m := m) hw.alters).of_sub (releaseFrames_sub [f] n.scopes)

/-- The end of a pass takes the frame off and passes nothing on. -/
theorem endPass (h : s.Within m ds) (hs : s.Sound) {f : Frame} {rest : List Frame} (hf : m.frames = f :: rest)
    (hbase : Driver.base ds ≤ rest.length) (hlevel : s.level ≤ rest.length) (hl : f.looping = true) :
    s.Within (m.returnFrame none).1 ds := by
  have hn := h.stands.turn (.returnFrame none (depth_pred_of_core hf rfl).ge) hbase hlevel h.stands.loops
  rw [returnFrame_of_looping hf hl] at hn ⊢
  refine h.pop (V := .empty) hs hf hn rfl ?_ nofun
  exact (Alters.of_thread m .empty (m.withFrames rest).thread).of_sub (releaseFrames_sub [f] m.scopes)

/-- Frames above a level have gone without results. -/
theorem unwind (h : s.Within m ds) (hs : s.Sound) {level : Nat} (hbase : Driver.base ds ≤ level)
    (hlevel : s.level ≤ level) : s.Within (m.unwind level) ds := by
  have hn := h.stands.turn (.unwind level le_rfl) hbase hlevel h.stands.loops
  have hsuf : (m.unwind level).frames <:+ m.frames := List.drop_suffix _ _
  exact ⟨hn, h.spares.alters (V := .empty) hs h.stands hn (alters_unwind m _ level) nofun,
    fun hf => h.fresh (hf.trans hsuf), fun hf => h.own (hf.trans hsuf)⟩

/-- A loop has put its frame back, which has a scope that was not there either. -/
theorem repush {d : Driver} (h : s.Within m (d :: ds)) (hs : s.Sound) (hd : m.depth = d.level)
    (hlevel : s.level ≤ d.level) (hfresh : ¬s.Old d.frame.scope)
    (hown : d.level = s.level → d.frame.results = s.own.results) : s.Within (m.repush d.frame) (d :: ds) := by
  have hn := h.stands.turn (.repush d hd) le_rfl hlevel h.stands.loops
  have ha : m.Alters .empty (m.repush d.frame) := .of_env? rfl rfl fun _ _ _ => rfl
  refine ⟨hn, h.spares.alters hs h.stands hn ha nofun, ?_, ?_⟩
  · intro f rest hsuf hle
    rcases List.suffix_cons_iff.1 hsuf with he | hsuf
    · cases he
      exact hfresh
    · exact h.fresh hsuf hle
  · intro f rest hsuf hlen
    rcases List.suffix_cons_iff.1 hsuf with he | hsuf
    · cases he
      exact hown (hd.symm.trans hlen)
    · exact h.own hsuf hlen

/-- A loop has taken over the hold of its frame. -/
theorem beginLoop (h : s.Within m ds) (hs : s.Sound) {f : Frame} {rest : List Frame} (hf : m.frames = f :: rest)
    (hown : f.ownsScope = true) (hbase : Driver.base ds ≤ rest.length) (hlevel : s.level ≤ rest.length) :
    s.Within m.disown (⟨rest.length, { f with ownsScope := false }⟩ :: ds) := by
  have hn := h.stands.turn (.beginLoop hf hown le_rfl) hbase hlevel (h.stands.loops.trans (List.suffix_cons _ ds))
  have hdis : m.disown = { m with thread := (m.withFrames ({ f with ownsScope := false } :: rest)).thread } :=
    disown_of_cons hf
  have hframes : m.disown.frames = { f with ownsScope := false } :: rest := by
    rw [hdis]
    rfl
  -- To lend the scope to the loop changes no variable.
  have ha : m.Alters .empty m.disown := hdis ▸ .of_thread m _ _
  have hrest : rest <:+ m.frames := hf ▸ List.suffix_cons f rest
  refine ⟨hn, h.spares.alters hs h.stands hn ha nofun, ?_, ?_⟩
  · intro g rest' hsuf hle
    rcases List.suffix_cons_iff.1 (hframes ▸ hsuf) with he | hsuf
    · cases he
      exact h.fresh (f := f) (hf ▸ List.suffix_rfl) hle
    · exact h.fresh (hsuf.trans hrest) hle
  · intro g rest' hsuf hlen
    rcases List.suffix_cons_iff.1 (hframes ▸ hsuf) with he | hsuf
    · cases he
      exact h.own (f := f) (hf ▸ List.suffix_rfl) hlen
    · exact h.own (hsuf.trans hrest) hlen

/-- A loop that has left its frame gives the scope up. -/
theorem leaveLoop {d : Driver} (h : s.Within m (d :: ds)) (hs : s.Sound) (hd : m.depth = d.level)
    (hlevel : s.level ≤ d.level) (hloops : s.loops <:+ ds) :
    s.Within (m.withScopes (·.release d.frame.scope)) ds := by
  have hn := h.stands.turn (.leaveLoop d hd) le_rfl hlevel hloops
  have ha : m.Alters .empty (m.withScopes (·.release d.frame.scope)) :=
    (Alters.of_thread m .empty m.thread).of_sub (Arena.release_sub m.scopes d.frame.scope)
  exact ⟨hn, h.spares.alters hs h.stands hn ha nofun, h.fresh, h.own⟩

end Within

namespace Left

/-- Nothing old changes any more. -/
theorem step (h : s.Left m ds) (hs : s.Sound) (hn : s.Stands n ds') (hd : n.depth = m.depth)
    (ha : m.Alters .empty n) : s.Left n ds' :=
  ⟨hn, hd.trans h.depth, fun hdefault => (h.spares hdefault).alters hs h.stands hn ha nofun⟩

theorem calm (h : s.Left m ds) (hs : s.Sound) (hc : m.Calm n) (ha : m.Alters .empty n) : s.Left n ds :=
  h.step hs (h.stands.calm hc) hc.depth ha

theorem leaveLoop {d : Driver} (h : s.Left m (d :: ds)) (hs : s.Sound) (hd : m.depth = d.level)
    (hloops : s.loops <:+ ds) : s.Left (m.withScopes (·.release d.frame.scope)) ds := by
  have hn := h.stands.turn (.leaveLoop d hd) le_rfl (h.depth.symm.trans hd).le hloops
  exact h.step hs hn rfl ((Alters.of_thread m .empty m.thread).of_sub (Arena.release_sub m.scopes d.frame.scope))

end Left

end Callee
end Sequencer
