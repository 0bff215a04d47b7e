import Sequencer.Proofs.Retention
import Sequencer.Proofs.ScopeChain

/-!
# How many slots are in use

The counter of an arena says how many scopes live, since every handle that lives stands for one slot in use. For a
thread that works alone, these are the outermost scope and those of its frames. A slot is added only when all others
are in use, so that there are never more of them than the deepest stack so far has needed.
-/

namespace Sequencer

namespace Arena

/-! ## Living handles

All handles that find a scope, as a list, so that scopes can be counted. -/

/-- The handle of the scope in a slot, if there is one. -/
def handle? (a : Arena) (i : Nat) : Option ScopeId :=
  (a.slots[i]?.filter (·.env.isSome)).map fun s => ⟨i, s.generation⟩

/-- The handles of all scopes. -/
def handles (a : Arena) : List ScopeId := (List.range a.slots.size).filterMap a.handle?

/-- A slot has a handle while its scope lives. -/
theorem handle?_eq_some {a : Arena} {i : Nat} {id : ScopeId} : a.handle? i = some id ↔ id.index = i ∧ a.isLive id := by
  rw [isLive_iff]
  unfold handle?
  constructor
  · intro h
    obtain ⟨s, hs, rfl⟩ := Option.map_eq_some_iff.1 h
    obtain ⟨hslot, hsome⟩ := Option.filter_eq_some_iff.1 hs
    exact ⟨rfl, s, slot?_eq_some.2 ⟨hslot, rfl, hsome⟩⟩
  · rintro ⟨rfl, s, hs⟩
    obtain ⟨hslot, hgen, hsome⟩ := slot?_eq_some.1 hs
    refine Option.map_eq_some_iff.2 ⟨s, Option.filter_eq_some_iff.2 ⟨hslot, hsome⟩, ?_⟩
    rw [hgen]

/-- These are the handles of all that lives. -/
theorem mem_handles {a : Arena} {id : ScopeId} : id ∈ a.handles ↔ a.isLive id := by
  unfold handles
  constructor
  · intro h
    obtain ⟨i, -, hi⟩ := List.mem_filterMap.1 h
    exact (handle?_eq_some.1 hi).2
  · intro h
    obtain ⟨s, hs⟩ := isLive_iff.1 h
    have hlt := (Array.getElem?_eq_some_iff.1 (slot?_eq_some.1 hs).1).1
    exact List.mem_filterMap.2 ⟨id.index, List.mem_range.2 hlt, handle?_eq_some.2 ⟨rfl, h⟩⟩

/-- Each of them once. -/
theorem nodup_handles (a : Arena) : a.handles.Nodup := by
  refine List.nodup_range.filterMap fun i j id hi hj => ?_
  rw [Option.mem_def, handle?_eq_some] at hi hj
  exact hi.1.symm.trans hj.1

/-- Counting places is counting what is at them. -/
theorem countP_range {α : Type} (p : α → Bool) (l : List α) :
    (List.range l.length).countP (fun i => l[i]?.any p) = l.countP p := by
  induction l with
  | nil => rfl
  | cons x l ih =>
    rw [List.length_cons, List.range_succ_eq_map, List.countP_cons, List.countP_map, List.countP_cons, ← ih]
    rfl

/-- There are as many as there are slots in use. -/
theorem length_handles (a : Arena) : a.handles.length = a.slots.countP (·.env.isSome) := by
  unfold handles
  rw [List.length_filterMap_eq_countP, ← Array.countP_toList, ← countP_range _ a.slots.toList, Array.length_toList]
  refine List.countP_congr fun i _ => ?_
  unfold handle?
  rw [Option.isSome_map, Array.getElem?_toList]
  cases a.slots[i]? with
  | none => rfl
  | some s => cases hs : s.env.isSome <;> simp [hs]

/-- Which is what the arena keeps count of. -/
theorem Balanced.length_handles {a : Arena} {held : Multiset ScopeId} (h : a.Balanced held) :
    a.handles.length = a.live :=
  (Arena.length_handles a).trans h.live_eq.symm

/-- How many scopes live is told by a list of them. -/
theorem Balanced.live_eq_length {a : Arena} {held : Multiset ScopeId} (h : a.Balanced held) {ids : List ScopeId}
    (hnodup : ids.Nodup) (hids : ∀ id, a.isLive id ↔ id ∈ ids) : a.live = ids.length := by
  have hperm : a.handles.Perm ids :=
    (List.perm_ext_iff_of_nodup a.nodup_handles hnodup).2 fun id => mem_handles.trans (hids id)
  exact h.length_handles.symm.trans hperm.length_eq

/-- Any scopes that live are at most as many. -/
theorem Balanced.length_le_live {a : Arena} {held : Multiset ScopeId} (h : a.Balanced held) {ids : List ScopeId}
    (hnodup : ids.Nodup) (hids : ∀ id ∈ ids, a.isLive id) : ids.length ≤ a.live := by
  rw [← h.length_handles]
  exact (hnodup.subperm fun id hid => mem_handles.2 (hids id hid)).length_le

end Arena

/-! ## Stacks and their scopes

Each frame has a scope that none below it has, but for a loop, whose frame keeps its scope from pass to pass. -/

/-- The frame of a loop stands where the loop has begun, for as long as the stack is deeper than that. -/
def Seated (fs : List Frame) (ds : List Driver) : Prop :=
  ∀ d ∈ ds, d.level < fs.length → ∃ f below, f :: below <:+ fs ∧ below.length = d.level ∧ f.scope = d.frame.scope

namespace Seated

variable {fs gs : List Frame} {ds : List Driver}

/-- Marks do not matter. -/
theorem congr (h : Seated fs ds) (hc : gs.map Frame.core = fs.map Frame.core) : Seated gs ds := by
  intro d hd hlt
  rw [Frame.length_of_core hc] at hlt
  obtain ⟨f, below, hsuf, hlen, hscope⟩ := h d hd hlt
  obtain ⟨f', below', hsuf', hf, hb⟩ := cons_suffix_of_core hc.symm hsuf
  exact ⟨f', below', hsuf', (Frame.length_of_core hb).trans hlen, (Frame.scope_of_core hf).trans hscope⟩

/-- Nor do frames that were above. -/
theorem suffix (h : Seated fs ds) (hg : gs <:+ fs) : Seated gs ds := by
  intro d hd hlt
  obtain ⟨f, below, hsuf, hlen, hscope⟩ := h d hd (hlt.trans_le hg.length_le)
  refine ⟨f, below, List.suffix_of_suffix_length_le hsuf hg ?_, hlen, hscope⟩
  rw [List.length_cons, hlen]
  exact hlt

/-- One more frame, on top of those of all loops or in the place that the innermost loop has for it. -/
theorem cons (h : Seated fs ds) {f : Frame} (hf : ∀ d ∈ ds, d.level = fs.length → f.scope = d.frame.scope) :
    Seated (f :: fs) ds := by
  intro d hd hlt
  rcases Nat.lt_succ_iff_lt_or_eq.1 hlt with hlt | heq
  · obtain ⟨g, below, hsuf, hrest⟩ := h d hd hlt
    exact ⟨g, below, hsuf.trans (List.suffix_cons f fs), hrest⟩
  · exact ⟨f, fs, List.suffix_rfl, heq.symm, hf d hd heq⟩

/-- What holds of all loops holds of those around the innermost one. -/
theorem tail {d : Driver} (h : Seated fs (d :: ds)) : Seated fs ds :=
  fun e he => h e (List.mem_cons_of_mem d he)

end Seated

/-- From the inside outwards scopes get older, so that no two are the same. -/
theorem Stacked.nodup_outwards {a : Arena} {held : Multiset ScopeId} (ha : a.Balanced held) {root : ScopeId}
    {fs : List Frame} {ds : List Driver} (h : Stacked a root fs ds) : (scopesOutwards root fs).Nodup := by
  obtain ⟨age, now, -, hage⟩ := ha.aged
  -- Going outwards the scopes get older and older, so none comes twice.
  have hchain : ∀ gs, gs <:+ fs →
      (scopesOutwards root gs).Nodup ∧ ∀ id ∈ scopesOutwards root gs, age id ≤ age (topScope root gs) := by
    intro gs
    induction gs with
    | nil =>
      refine fun _ => ⟨List.nodup_singleton root, fun id hid => ?_⟩
      rw [List.mem_singleton.1 hid]
      exact Nat.le_refl _
    | cons f below ih =>
      intro hsuf
      obtain ⟨hnodup, hold⟩ := ih ((List.suffix_cons f below).trans hsuf)
      have hlt : age (topScope root below) < age f.scope := hage _ _ (h.linked hsuf)
      have holder : ∀ id ∈ scopesOutwards root below, age id < age f.scope :=
        fun id hid => (hold id hid).trans_lt hlt
      refine ⟨List.nodup_cons.2 ⟨fun hmem => Nat.lt_irrefl _ (holder _ hmem), hnodup⟩, fun id hid => ?_⟩
      rcases List.mem_cons.1 hid with rfl | hid
      · exact Nat.le_refl _
      · exact (holder id hid).le
  exact (hchain fs List.suffix_rfl).1

namespace Machine

variable {σ : Type}

/-- A thread is the only one of its request: what lives is held by its frames and loops, and by the request. -/
structure Sole (root : ScopeId) (m : Machine σ) (ds : List Driver) : Prop where
  accounted : Accounted {root} m ds
  rooted : m.request.root = root
  outermost : m.scopes.parent? root = none
  seated : Seated m.frames ds

namespace Sole

variable {root : ScopeId} {m n : Machine σ} {ds : List Driver}

/-! ### What lives

In a run by itself nothing lives but the scopes along the stack. So there is one for each frame, and the root scope.
-/

/-- No scope comes twice along the stack. -/
theorem nodup_outwards (h : Sole root m ds) : (scopesOutwards root m.frames).Nodup := by
  have hst := h.accounted.stacked
  rw [h.rooted] at hst
  exact hst.nodup_outwards h.accounted.balanced

/-- All of them live. -/
theorem isLive_of_mem (h : Sole root m ds) {id : ScopeId} (hid : id ∈ scopesOutwards root m.frames) :
    m.scopes.isLive id := by
  refine h.accounted.isLive (Multiset.mem_add.2 ?_)
  rcases List.mem_append.1 hid with hid | hid
  · obtain ⟨f, hf, rfl⟩ := List.mem_map.1 hid
    exact .inl (h.accounted.stacked.mem_heldBy hf)
  · exact .inr (Multiset.mem_singleton.2 (List.mem_singleton.1 hid))

/-- The scope on top is one of them. -/
theorem topScope_mem_outwards (root : ScopeId) (fs : List Frame) : topScope root fs ∈ scopesOutwards root fs := by
  cases fs <;> exact List.mem_cons_self

/-- Where the frames of all loops are on the stack, nothing else lives. -/
theorem mem_of_isLive (h : Sole root m ds) (hd : ∀ d ∈ ds, d.level < m.depth) {id : ScopeId} (hl : m.scopes.isLive id) :
    id ∈ scopesOutwards root m.frames := by
  have frame {f : Frame} (hf : f ∈ m.frames) : f.scope ∈ scopesOutwards root m.frames :=
    List.mem_append_left _ (List.mem_map.2 ⟨f, hf, rfl⟩)
  induction (h.accounted.balanced.isLive_iff_reaches id).1 hl with
  | held hm =>
    rcases Multiset.mem_add.1 hm with hm | hm
    · rcases Multiset.mem_add.1 hm with hm | hm
      · obtain ⟨f, hf, rfl⟩ := List.mem_map.1 (Multiset.mem_coe.1 hm)
        exact frame (List.mem_filter.1 hf).1
      · obtain ⟨d, hmem, rfl⟩ := List.mem_map.1 (Multiset.mem_coe.1 hm)
        obtain ⟨f, below, hsuf, -, hscope⟩ := h.seated d hmem (hd d hmem)
        exact hscope ▸ frame (hsuf.mem List.mem_cons_self)
    · exact List.mem_append_right _ (List.mem_singleton.2 (Multiset.mem_singleton.1 hm))
  -- The parent of a frame's scope is that of the frame below it, and the outermost scope has none.
  | around hr hp ih =>
    rcases List.mem_append.1 (ih (h.accounted.balanced.isLive_of_reaches hr)) with hid | hid
    · obtain ⟨f, hf, rfl⟩ := List.mem_map.1 hid
      obtain ⟨above, below, hsplit⟩ := List.append_of_mem hf
      have hsuf : f :: below <:+ m.frames := hsplit ▸ List.suffix_append above (f :: below)
      rw [h.accounted.stacked.linked hsuf, h.rooted] at hp
      cases hp
      obtain ⟨front, hfront⟩ := (List.suffix_cons f below).trans hsuf
      rw [← hfront]
      unfold scopesOutwards
      rw [List.map_append, List.append_assoc]
      exact List.mem_append_right _ (topScope_mem_outwards root below)
    · rw [List.mem_singleton.1 hid, h.outermost] at hp
      cases hp

/-- One for each frame, and the root scope. -/
theorem length_outwards (root : ScopeId) (m : Machine σ) : (scopesOutwards root m.frames).length = m.depth + 1 := by
  unfold scopesOutwards depth
  simp

/-- One scope for each frame lives, and the outermost one. -/
theorem live_eq (h : Sole root m ds) (hd : ∀ d ∈ ds, d.level < m.depth) : m.scopes.live = m.depth + 1 := by
  rw [← length_outwards root m]
  exact h.accounted.balanced.live_eq_length h.nodup_outwards fun id => ⟨h.mem_of_isLive hd, h.isLive_of_mem⟩

/-- The arena has room for all of them. -/
theorem lt_size (h : Sole root m ds) : m.depth + 1 ≤ m.scopes.slots.size := by
  rw [← length_outwards root m]
  exact (h.accounted.balanced.length_le_live h.nodup_outwards fun _ => h.isLive_of_mem).trans
    h.accounted.balanced.live_le_size

/-! ### What operations keep

Slots are added only where a frame is pushed that is deeper than any frame before it. -/

/-- From one machine to another there are as many slots, or one more for the deepest stack so far. -/
def Grows (m n : Machine σ) : Prop := n.scopes.slots.size = max m.scopes.slots.size (n.depth + 1)

/-- An arena as large as before has not grown. -/
theorem grows_of_eq (h : Sole root n ds) (hs : n.scopes.slots.size = m.scopes.slots.size) : Grows m n := by
  unfold Grows
  rw [hs, max_eq_left]
  exact hs ▸ h.lt_size

/-- What keeps the accounts keeps a thread alone. -/
theorem of_accounted (h : Sole root m ds) {ds' : List Driver} (hn : Accounted {root} n ds')
    (hstable : m.scopes.Stable n.scopes) (hroot : n.request.root = m.request.root) (hseat : Seated n.frames ds') :
    Sole root n ds' := by
  refine ⟨hn, hroot.trans h.rooted, ?_, hseat⟩
  have hm {o : Machine σ} {es : List Driver} (ho : Accounted {root} o es) : o.scopes.isLive root :=
    ho.isLive (Multiset.mem_add.2 (.inr (Multiset.mem_singleton_self root)))
  rw [hstable root (hm h.accounted) (hm hn)]
  exact h.outermost

/-- What moves no scope needs no room. -/
theorem calm (h : Sole root m ds) (hc : m.Calm n) : Sole root n ds ∧ n.scopes.slots.size = m.scopes.slots.size := by
  obtain ⟨hn, hstable⟩ := h.accounted.calm hc
  exact ⟨h.of_accounted hn hstable hc.root (h.seated.congr hc.frames), Arena.size_of_bare hc.scopes⟩

/-- A slot is added if all are in use, which is when the stack gets deeper than it has been. -/
theorem push (h : Sole root m ds) (hd : ∀ d ∈ ds, d.level < m.depth) (action : String) (results : List String)
    (params : Table Value) :
    Sole root (m.push action results params) ds ∧ Grows m (m.push action results params) := by
  obtain ⟨hn, hstable⟩ := h.accounted.push action results params
  have hseat : Seated (m.push action results params).frames ds :=
    h.seated.cons fun d hmem heq => absurd (hd d hmem) (Nat.not_lt_of_le (Nat.le_of_eq heq.symm))
  have hsole := h.of_accounted hn hstable rfl hseat
  refine ⟨hsole, ?_⟩
  have hsize : (m.push action results params).scopes.slots.size =
      if m.scopes.free = [] then m.scopes.slots.size + 1 else m.scopes.slots.size :=
    Arena.size_alloc m.scopes (some m.currentScope) params
  -- A slot is added only where all slots are in use, and then there are as many as scopes.
  by_cases hfree : m.scopes.free = []
  · rw [if_pos hfree] at hsize
    have hlive := (h.live_eq hd).symm.trans (h.accounted.balanced.tidy.live_eq_size hfree)
    have hdepth : (m.push action results params).depth = m.depth + 1 := rfl
    unfold Grows
    omega
  · rw [if_neg hfree] at hsize
    exact hsole.grows_of_eq hsize

/-- A release gives no slot back. -/
theorem size_releaseFrames (fs : List Frame) (a : Arena) : (releaseFrames a fs).slots.size = a.slots.size := by
  unfold releaseFrames
  induction fs generalizing a with
  | nil => rfl
  | cons f fs ih =>
    rw [List.foldl_cons, ih]
    split_ifs
    · exact Arena.size_releaseChain ..
    · rfl

/-- Frames that leave the stack leave their slots free. -/
theorem leave (h : Sole root m ds) {above below : List Frame} (hf : m.frames = above ++ below)
    (hbase : Driver.base ds ≤ below.length) (hq : (m.withFrames below).Quiet n) :
    Sole root (n.withScopes (releaseFrames · above)) ds ∧
      (n.withScopes (releaseFrames · above)).scopes.slots.size = m.scopes.slots.size := by
  obtain ⟨hn, hstable⟩ := h.accounted.leave hf hbase hq
  have hseat : Seated n.frames ds := by
    have hframes : n.frames = below := hq.frames
    rw [hframes]
    exact h.seated.suffix (hf ▸ List.suffix_append above below)
  refine ⟨h.of_accounted hn hstable hq.root hseat, (size_releaseFrames above n.scopes).trans ?_⟩
  exact Arena.size_of_bare hq.scopes

/-- A frame that returns leaves its slot to the next one. -/
theorem returnFrame (h : Sole root m ds) (explicit : Option (List String)) (hbase : Driver.base ds ≤ m.depth - 1) :
    Sole root (m.returnFrame explicit).1 ds ∧
      (m.returnFrame explicit).1.scopes.slots.size = m.scopes.slots.size := by
  cases hf : m.frames with
  | nil =>
    unfold Machine.returnFrame
    rw [hf]
    exact ⟨h, rfl⟩
  | cons f below =>
    obtain ⟨n, hq, he⟩ := returnFrame_eq hf explicit
    have hdepth : m.depth = below.length + 1 := congrArg List.length hf
    have htop : m.frames = [f] ++ below := hf
    rw [he]
    exact h.leave htop (by rwa [hdepth] at hbase) hq

/-- So does one that returns early. -/
theorem returnEarly (h : Sole root m ds) (explicit : Option (List String)) (hbase : Driver.base ds ≤ m.depth - 1) :
    Sole root (m.returnEarly explicit).1 ds ∧
      (m.returnEarly explicit).1.scopes.slots.size = m.scopes.slots.size := by
  obtain ⟨n, hc, he⟩ := returnEarly_eq m explicit
  obtain ⟨hn, hsize⟩ := h.calm hc
  rw [he]
  obtain ⟨hret, hsize'⟩ := hn.returnFrame explicit (hc.depth.symm ▸ hbase)
  exact ⟨hret, hsize'.trans hsize⟩

/-- And those that are unwound. -/
theorem unwind (h : Sole root m ds) (level : Nat) (hbase : Driver.base ds ≤ level) (hl : level ≤ m.depth) :
    Sole root (m.unwind level) ds ∧ (m.unwind level).scopes.slots.size = m.scopes.slots.size := by
  refine h.leave (List.take_append_drop (m.depth - level) m.frames).symm ?_ (.refl _)
  rw [List.length_drop]
  unfold depth at hl ⊢
  omega

/-- A loop begins in the scope that is there. -/
theorem beginLoop (h : Sole root m ds) {f : Frame} {below : List Frame} (hf : m.disown.frames = f :: below)
    (hd : ∀ d ∈ ds, d.level < below.length) : Sole root m.disown (⟨below.length, f⟩ :: ds) ∧
      m.disown.scopes.slots.size = m.scopes.slots.size := by
  cases hm : m.frames with
  | nil =>
    unfold disown at hf
    rw [hm] at hf
    cases hm.symm.trans hf
  | cons g gs =>
    have hdis := disown_of_cons hm
    rw [hdis] at hf
    cases hf
    -- the frame does not have its scope from a loop yet
    have hown : g.ownsScope = true := by
      by_contra hown
      have hsuf : g :: below <:+ m.frames := hm ▸ List.suffix_rfl
      obtain ⟨d, hmem, hlevel, -⟩ := h.accounted.stacked.lent hsuf (Bool.eq_false_iff.2 hown)
      exact Nat.lt_irrefl _ (hlevel ▸ hd d hmem)
    have hbase : Driver.base ds ≤ below.length := by
      cases ds with
      | nil => exact Nat.zero_le _
      | cons d ds => exact (hd d List.mem_cons_self).le
    have hstable : m.scopes.Stable m.disown.scopes := by
      rw [hdis]
      exact (Arena.Sub.refl _).stable
    have hroot : m.disown.request.root = m.request.root := by rw [hdis]; rfl
    refine ⟨h.of_accounted (h.accounted.beginLoop hm hown hbase) hstable hroot ?_, by rw [hdis]; rfl⟩
    rw [hdis]
    have hseat : Seated below ds := h.seated.suffix (hm ▸ List.suffix_cons g below)
    intro d hmem hlt
    rcases List.mem_cons.1 hmem with rfl | hmem
    · exact ⟨_, below, List.suffix_rfl, rfl, rfl⟩
    · obtain ⟨f, gs, hsuf, hrest⟩ := hseat d hmem (hd d hmem)
      exact ⟨f, gs, hsuf.trans (List.suffix_cons _ below), hrest⟩

/-- A frame that is put back has its scope from the loop. -/
theorem repush {d : Driver} (h : Sole root m (d :: ds)) (hlevel : m.depth = d.level)
    (hd : ∀ e ∈ ds, e.level < d.level) :
    Sole root (m.repush d.frame) (d :: ds) := by
  refine h.of_accounted (h.accounted.repush hlevel) (Arena.Sub.refl _).stable rfl (h.seated.cons fun e hmem heq => ?_)
  rcases List.mem_cons.1 hmem with rfl | hmem
  · rfl
  · exact absurd (hd e hmem) (Nat.not_lt_of_le (hlevel ▸ Nat.le_of_eq heq.symm))

/-- When the loop ends its scope goes. -/
theorem leaveLoop {d : Driver} (h : Sole root m (d :: ds)) (hlevel : m.depth = d.level) :
    Sole root (m.withScopes (·.release d.frame.scope)) ds ∧
      (m.withScopes (·.release d.frame.scope)).scopes.slots.size = m.scopes.slots.size := by
  obtain ⟨hn, hstable⟩ := h.accounted.leaveLoop hlevel
  exact ⟨h.of_accounted hn hstable rfl h.seated.tail, Arena.size_releaseChain ..⟩

end Sole
end Machine

end Sequencer
