import Sequencer.Proofs.Pool

/-!
# Accounts are kept

In every pool that can be reached, the count in the slot of a scope is the number of those who hold it: the
request holds its outermost scope, frames hold the scopes that they own, loops hold the scopes of their
frames, and scopes hold the ones around them. The other half of the invariant says that a stack mirrors
the chain of its scopes: each frame works inside of the scope of the frame below it, and a frame that does
not own its scope has it from a loop of its own thread, which begins where the frame stands.

Every operation is looked at once, for a single thread and any `others` who hold scopes besides it. What
a pool adds is that the others are all the other threads, whose scopes no operation touches.
-/

namespace Sequencer

/-! ## Stacks

A thread holds the scopes that its frames own and those that its loops have taken over. The frames of a loop own none,
and stand on the level that their loop remembers. -/

/-- The scopes that the frames of a stack own. -/
def ownedScopes (fs : List Frame) : List ScopeId := (fs.filter (·.ownsScope)).map (·.scope)

/-- The scope that a stack works in, which is the outermost one if there is no frame. -/
def topScope (root : ScopeId) : List Frame → ScopeId
  | [] => root
  | f :: _ => f.scope

/-- What a thread holds with its frames and loops. -/
def heldBy (fs : List Frame) (ds : List Driver) : Multiset ScopeId :=
  ↑(ownedScopes fs) + ↑(ds.map (·.frame.scope))

/-- A stack, with the loops its thread is in, mirrors the scopes. -/
structure Stacked (a : Arena) (root : ScopeId) (fs : List Frame) (ds : List Driver) : Prop where
  linked : ∀ {f below}, f :: below <:+ fs → a.parent? f.scope = some (topScope root below)
  lent : ∀ {f below}, f :: below <:+ fs → f.ownsScope = false →
    ∃ d ∈ ds, d.level = below.length ∧ d.frame.scope = f.scope
  loops : ∀ {d}, d ∈ ds → ∃ below, below <:+ fs ∧ below.length = d.level ∧
    a.parent? d.frame.scope = some (topScope root below)
  ordered : ds.Pairwise fun d d' => d'.level ≤ d.level
  lends : ∀ {d}, d ∈ ds → d.frame.ownsScope = false

/-- A stack owns what its parts own. -/
theorem ownedScopes_append (fs gs : List Frame) :
    ownedScopes (fs ++ gs) = ownedScopes fs ++ ownedScopes gs := by
  unfold ownedScopes
  rw [List.filter_append, List.map_append]

/-- A frame adds its scope if it owns it. -/
theorem ownedScopes_cons (f : Frame) (fs : List Frame) :
    ownedScopes (f :: fs) = (if f.ownsScope then [f.scope] else []) ++ ownedScopes fs := by
  unfold ownedScopes
  rw [List.filter_cons]
  split_ifs <;> rfl

/-- Frames above add what they own. -/
theorem heldBy_append (above below : List Frame) (ds : List Driver) :
    heldBy (above ++ below) ds = ↑(ownedScopes above) + heldBy below ds := by
  unfold heldBy
  rw [ownedScopes_append, ← Multiset.coe_add, add_assoc]

/-! ### Frames up to their marks

A mark on a frame is no matter of accounts. Whatever differs in marks only is stacked in the same way. -/

/-- Marks do not matter for what is owned. -/
theorem ownedScopes_core (fs : List Frame) : ownedScopes (fs.map Frame.core) = ownedScopes fs := by
  induction fs with
  | nil => rfl
  | cons f fs ih =>
    rw [List.map_cons, ownedScopes_cons, ownedScopes_cons, ih]
    rfl

/-- Nor for the scope on top. -/
theorem topScope_core (root : ScopeId) (fs : List Frame) :
    topScope root (fs.map Frame.core) = topScope root fs := by
  cases fs <;> rfl

variable {fs gs : List Frame}

/-- Stacks that differ in marks only own the same. -/
theorem ownedScopes_congr (h : gs.map Frame.core = fs.map Frame.core) : ownedScopes gs = ownedScopes fs := by
  rw [← ownedScopes_core gs, h, ownedScopes_core]

/-- And have the same scope on top. -/
theorem topScope_congr (h : gs.map Frame.core = fs.map Frame.core) (root : ScopeId) :
    topScope root gs = topScope root fs := by
  rw [← topScope_core root gs, h, topScope_core]

/-- A stack up to marks has the same lower parts up to marks. -/
theorem suffix_of_core (h : gs.map Frame.core = fs.map Frame.core) {below : List Frame}
    (hb : below <:+ gs) : ∃ below', below' <:+ fs ∧ below'.map Frame.core = below.map Frame.core := by
  have hm : below.map Frame.core <:+ fs.map Frame.core := h ▸ hb.map Frame.core
  obtain ⟨t, ht⟩ := hm
  obtain ⟨above, below', hf, -, hc⟩ := List.map_eq_append_iff.1 ht.symm
  exact ⟨below', ⟨above, hf.symm⟩, hc⟩

/-- A frame of a stack up to marks, with what is below it, is a frame of the stack up to marks. -/
theorem cons_suffix_of_core (h : gs.map Frame.core = fs.map Frame.core) {f : Frame} {below : List Frame}
    (hb : f :: below <:+ gs) : ∃ f' below', f' :: below' <:+ fs ∧ f'.core = f.core ∧
      below'.map Frame.core = below.map Frame.core := by
  obtain ⟨fs', hsuf, he⟩ := suffix_of_core h hb
  obtain ⟨f', below', rfl, hf, hbelow⟩ := List.map_eq_cons_iff.1 he
  exact ⟨f', below', hsuf, hf, hbelow⟩

namespace Stacked

variable {a b : Arena} {root : ScopeId} {ds : List Driver}

/-- Every loop is below the highest one or is it. -/
theorem level_le (h : Stacked a root fs ds) {d : Driver} (hd : d ∈ ds) : d.level ≤ Driver.base ds := by
  have ho := h.ordered
  cases ds with
  | nil => cases hd
  | cons e ds =>
    rcases List.mem_cons.1 hd with rfl | hd'
    · exact le_rfl
    · exact (List.pairwise_cons.1 ho).1 d hd'

/-- All of them are on the stack. -/
theorem base_le (h : Stacked a root fs ds) : Driver.base ds ≤ fs.length := by
  cases ds with
  | nil => exact Nat.zero_le _
  | cons d ds =>
    obtain ⟨below, hsuf, hlen, -⟩ := h.loops List.mem_cons_self
    show d.level ≤ fs.length
    rw [← hlen]
    exact hsuf.length_le

/-- The frames of a lower part and the loops hold all scopes of that part. -/
theorem mem_heldBy_of_suffix (h : Stacked a root fs ds) (hg : gs <:+ fs) {f : Frame} (hf : f ∈ gs) :
    f.scope ∈ heldBy gs ds := by
  unfold heldBy
  rw [Multiset.mem_add, Multiset.mem_coe, Multiset.mem_coe]
  cases ho : f.ownsScope with
  | true => exact .inl (List.mem_map.2 ⟨f, List.mem_filter.2 ⟨hf, ho⟩, rfl⟩)
  | false =>
    obtain ⟨above, below, he⟩ := List.append_of_mem hf
    have hsuf : f :: below <:+ gs := he ▸ List.suffix_append above (f :: below)
    obtain ⟨d, hd, -, hscope⟩ := h.lent (hsuf.trans hg) ho
    exact .inr (List.mem_map.2 ⟨d, hd, hscope⟩)

/-- A thread holds the scopes of all its frames. -/
theorem mem_heldBy (h : Stacked a root fs ds) {f : Frame} (hf : f ∈ fs) : f.scope ∈ heldBy fs ds :=
  h.mem_heldBy_of_suffix List.suffix_rfl hf

/-- Every loop holds the scope of its frame. -/
theorem driver_mem_heldBy (fs : List Frame) {d : Driver} (hd : d ∈ ds) :
    d.frame.scope ∈ heldBy fs ds :=
  Multiset.mem_add.2 (.inr (Multiset.mem_coe.2 (List.mem_map.2 ⟨d, hd, rfl⟩)))

/-- Whether a stack mirrors the scopes depends only on those that its thread holds. -/
theorem stable (h : Stacked a root fs ds) (hs : a.Stable b)
    (ha : ∀ id ∈ heldBy fs ds, a.isLive id) (hb : ∀ id ∈ heldBy fs ds, b.isLive id) :
    Stacked b root fs ds where
  linked {f below} hsuf := by
    have hm := h.mem_heldBy (hsuf.mem List.mem_cons_self)
    rw [hs _ (ha _ hm) (hb _ hm)]
    exact h.linked hsuf
  lent := h.lent
  loops {d} hd := by
    obtain ⟨below, hsuf, hlen, hp⟩ := h.loops hd
    have hm := driver_mem_heldBy fs hd
    refine ⟨below, hsuf, hlen, ?_⟩
    rw [hs _ (ha _ hm) (hb _ hm)]
    exact hp
  ordered := h.ordered
  lends := h.lends

/-- The same, where the thread is one of the holders before and after. -/
theorem keep (h : Stacked a root fs ds) (hs : a.Stable b) {rest rest' : Multiset ScopeId}
    (ha : a.Balanced (heldBy fs ds + rest)) (hb : b.Balanced (heldBy fs ds + rest')) :
    Stacked b root fs ds := by
  refine h.stable hs ?_ ?_
  · intro id hid
    exact ha.held_live (Multiset.mem_add.2 (.inl hid))
  · intro id hid
    exact hb.held_live (Multiset.mem_add.2 (.inl hid))

/-- A stack with other marks is stacked just the same. -/
theorem congr (h : Stacked a root fs ds) (hc : gs.map Frame.core = fs.map Frame.core) :
    Stacked a root gs ds := by
  constructor
  case linked =>
    intro f below hsuf
    obtain ⟨f', below', hsuf', hf, hb⟩ := cons_suffix_of_core hc hsuf
    rw [← Frame.scope_of_core hf, h.linked hsuf', topScope_congr hb]
  case lent =>
    intro f below hsuf hown
    obtain ⟨f', below', hsuf', hf, hb⟩ := cons_suffix_of_core hc hsuf
    have hlen := Frame.length_of_core hb
    rw [← Frame.scope_of_core hf, ← hlen]
    exact h.lent hsuf' ((Frame.ownsScope_of_core hf).trans hown)
  case loops =>
    intro d hd
    obtain ⟨below, hsuf, hlen, hp⟩ := h.loops hd
    obtain ⟨below', hsuf', hb⟩ := suffix_of_core hc.symm hsuf
    refine ⟨below', hsuf', ?_, ?_⟩
    · rw [← hlen]
      exact Frame.length_of_core hb
    · rw [hp, topScope_congr hb]
  case ordered => exact h.ordered
  case lends => exact h.lends

/-- What is left of a stack, down to the innermost loop. -/
theorem suffix (h : Stacked a root fs ds) (hg : gs <:+ fs) (hbase : Driver.base ds ≤ gs.length) :
    Stacked a root gs ds where
  linked hsuf := h.linked (hsuf.trans hg)
  lent hsuf := h.lent (hsuf.trans hg)
  loops {d} hd := by
    obtain ⟨below, hsuf, hlen, hp⟩ := h.loops hd
    have hle : below.length ≤ gs.length := hlen ▸ (h.level_le hd).trans hbase
    exact ⟨below, List.suffix_of_suffix_length_le hsuf hg hle, hlen, hp⟩
  ordered := h.ordered
  lends := h.lends

/-- One more frame, which owns its scope or has it from the innermost loop. -/
theorem cons (h : Stacked a root fs ds) {f : Frame} (hp : a.parent? f.scope = some (topScope root fs))
    (hown : f.ownsScope = false → ∃ d ∈ ds, d.level = fs.length ∧ d.frame.scope = f.scope) :
    Stacked a root (f :: fs) ds where
  linked {g below} hsuf := by
    -- The new frame is on top, and the others stand as they did.
    rcases List.suffix_cons_iff.1 hsuf with he | hsuf
    · cases he
      exact hp
    · exact h.linked hsuf
  lent {g below} hsuf := by
    rcases List.suffix_cons_iff.1 hsuf with he | hsuf
    · cases he
      exact hown
    · exact h.lent hsuf
  loops {d} hd := by
    obtain ⟨below, hsuf, hrest⟩ := h.loops hd
    exact ⟨below, hsuf.trans (List.suffix_cons f fs), hrest⟩
  ordered := h.ordered
  lends := h.lends

end Stacked

/-! ## Operations of one thread

The scopes of a machine are balanced for what its thread holds together with what others do. -/

variable {σ : Type}

namespace Machine

/-- The holds of a thread in some loops, together with those of `others`, are what the slots count. -/
structure Accounted (others : Multiset ScopeId) (m : Machine σ) (ds : List Driver) : Prop where
  balanced : m.scopes.Balanced (heldBy m.frames ds + others)
  root : m.request.root ∈ others
  stacked : Stacked m.scopes m.request.root m.frames ds

/-- The current scope is the one on top, or the root scope. -/
theorem currentScope_eq (m : Machine σ) : m.currentScope = topScope m.request.root m.frames := by
  unfold currentScope topScope
  cases m.frames <;> rfl

/-! ### What leaving does

Frames are left from the top downwards, and each gives up its own scope. -/

/-- Releases take scopes away and bring none. -/
theorem releaseFrames_sub (fs : List Frame) (a : Arena) : (releaseFrames a fs).Sub a := by
  unfold releaseFrames
  induction fs generalizing a with
  | nil => exact .refl a
  | cons f fs ih =>
    rw [List.foldl_cons]
    refine (ih _).trans ?_
    split_ifs
    · exact Arena.release_sub a f.scope
    · exact .refl a

/-- With the frames go their holds, and no others. -/
theorem balanced_releaseFrames {held : Multiset ScopeId} (fs : List Frame) {a : Arena}
    (h : a.Balanced (↑(ownedScopes fs) + held)) : (releaseFrames a fs).Balanced held := by
  unfold releaseFrames
  induction fs generalizing a with
  | nil => simpa [ownedScopes] using h
  | cons f fs ih =>
    rw [List.foldl_cons]
    apply ih
    rw [ownedScopes_cons] at h
    split_ifs at h ⊢
    · rw [List.singleton_append, ← Multiset.cons_coe, Multiset.cons_add] at h
      exact h.release
    · exact h

/-! ### What operations keep

One lemma for each operation says that the accounts are right afterwards, and that no scope was put in another place.
Who leaves frames has to stay above the loops. -/

namespace Accounted

variable {others : Multiset ScopeId} {m n : Machine σ} {ds : List Driver}

/-- What is held lives. -/
theorem isLive (h : Accounted others m ds) {id : ScopeId} (hid : id ∈ heldBy m.frames ds + others) :
    m.scopes.isLive id := h.balanced.held_live hid

/-- So does the scope on top, which is held by its frame or by the request. -/
theorem isLive_topScope (h : Accounted others m ds) :
    m.scopes.isLive (topScope m.request.root m.frames) := by
  cases hf : m.frames with
  | nil => exact h.isLive (Multiset.mem_add.2 (.inr h.root))
  | cons f below =>
    have hm := h.stacked.mem_heldBy (hf ▸ List.mem_cons_self : f ∈ m.frames)
    exact h.isLive (Multiset.mem_add.2 (.inl hm))

/-- What keeps the frames and the scopes keeps the accounts. -/
theorem calm (h : Accounted others m ds) (hc : m.Calm n) :
    Accounted others n ds ∧ m.scopes.Stable n.scopes := by
  have hstable : m.scopes.Stable n.scopes := (Arena.Sub.refl _).stable.congr_left hc.scopes
  have hheld : heldBy n.frames ds = heldBy m.frames ds := by
    unfold heldBy
    rw [ownedScopes_congr hc.frames]
  refine ⟨⟨?_, hc.root ▸ h.root, ?_⟩, hstable⟩
  · rw [hheld]
    exact h.balanced.congr hc.scopes
  · rw [hc.root]
    exact (h.stacked.keep hstable h.balanced (h.balanced.congr hc.scopes)).congr hc.frames

/-- A frame that is pushed holds its new scope. -/
theorem push (h : Accounted others m ds) (action : String) (results : List String)
    (params : Table Value) : Accounted others (m.push action results params) ds ∧
      m.scopes.Stable (m.push action results params).scopes := by
  have hlive : ∀ p, some m.currentScope = some p → m.scopes.isLive p := by
    intro p hp
    cases hp
    rw [currentScope_eq]
    exact h.isLive_topScope
  have hsub := h.balanced.tidy.sub_alloc (some m.currentScope) params
  have hb := h.balanced.alloc hlive params
  refine ⟨⟨?_, h.root, ?_⟩, hsub.stable⟩
  · show Arena.Balanced _ (heldBy (_ :: m.frames) ds + others)
    unfold heldBy at hb ⊢
    rw [ownedScopes_cons, if_pos rfl, List.singleton_append, ← Multiset.cons_coe, Multiset.cons_add,
      Multiset.cons_add]
    exact hb
  · rw [← Multiset.add_cons] at hb
    refine Stacked.cons (h.stacked.keep hsub.stable h.balanced hb) ?_ ?_
    · -- The parent of the new scope is the current one, which belongs to the frame below.
      exact (h.balanced.tidy.parent?_alloc _ params).trans (congrArg some (currentScope_eq m))
    · intro hown
      cases hown

/-- A call pushes one frame or none. -/
theorem call (h : Accounted others m ds) (action : String) (results : List String)
    (params : Table Value) : Accounted others (m.call action results params).1 ds ∧
      m.scopes.Stable (m.call action results params).1.scopes := by
  obtain ⟨n, hq, he | ⟨values, he⟩⟩ := Machine.call_eq m action results params
  · rw [he]
    exact h.calm hq.calm
  · rw [he]
    obtain ⟨hn, hs⟩ := (h.calm hq.calm).1.push action results values
    exact ⟨hn, hs.congr_left hq.scopes⟩

/-- Frames that have left the stack give their holds up. -/
theorem leave (h : Accounted others m ds) {above below : List Frame} (hf : m.frames = above ++ below)
    (hbase : Driver.base ds ≤ below.length) (hq : (m.withFrames below).Quiet n) :
    Accounted others (n.withScopes (releaseFrames · above)) ds ∧
      m.scopes.Stable (n.withScopes (releaseFrames · above)).scopes := by
  have hsub := releaseFrames_sub above n.scopes
  -- While they are off the stack but not yet released, the frames count among the others.
  have hleft : Accounted (↑(ownedScopes above) + others) (m.withFrames below) ds := by
    refine ⟨?_, Multiset.mem_add.2 (.inr h.root), ?_⟩
    · have hb := h.balanced
      rw [hf, heldBy_append, add_comm (↑(ownedScopes above) : Multiset ScopeId), add_assoc] at hb
      exact hb
    · exact h.stacked.suffix (hf ▸ List.suffix_append above below) hbase
  have hn := (hleft.calm hq.calm).1
  have hframes : n.frames = below := hq.frames
  have hroot : n.request.root = m.request.root := hq.root
  have hrel : (releaseFrames n.scopes above).Balanced (heldBy n.frames ds + others) := by
    apply balanced_releaseFrames
    rw [← add_assoc, add_comm (↑(ownedScopes above) : Multiset ScopeId), add_assoc]
    exact hn.balanced
  refine ⟨⟨hrel, hroot ▸ h.root, ?_⟩, hsub.stable'.congr_left hq.scopes⟩
  exact hn.stacked.keep hsub.stable' hn.balanced hrel

/-- A frame that returns gives up what it owns. Its loops are below, so that none of them loses its frame. -/
theorem returnFrame (h : Accounted others m ds) (explicit : Option (List String))
    (hbase : Driver.base ds ≤ m.depth - 1) : Accounted others (m.returnFrame explicit).1 ds ∧
      m.scopes.Stable (m.returnFrame explicit).1.scopes := by
  cases hf : m.frames with
  | nil =>
    unfold Machine.returnFrame
    rw [hf]
    exact ⟨h, (Arena.Sub.refl _).stable⟩
  | cons f below =>
    -- Only the top frame goes, and with it the scope that it owns.
    obtain ⟨n, hq, he⟩ := returnFrame_eq hf explicit
    have hdepth : m.depth - 1 = below.length := by
      unfold Machine.depth
      rw [hf]
      rfl
    rw [he]
    have hf' : m.frames = [f] ++ below := hf
    exact h.leave hf' (hdepth ▸ hbase) hq

/-- So does one that returns early. -/
theorem returnEarly (h : Accounted others m ds) (explicit : Option (List String))
    (hbase : Driver.base ds ≤ m.depth - 1) : Accounted others (m.returnEarly explicit).1 ds ∧
      m.scopes.Stable (m.returnEarly explicit).1.scopes := by
  obtain ⟨n, hc, he⟩ := returnEarly_eq m explicit
  rw [he]
  obtain ⟨hn, hs⟩ := (h.calm hc).1.returnFrame explicit (hc.depth.symm ▸ hbase)
  exact ⟨hn, hs.congr_left hc.scopes⟩

/-- Unwinding gives up what the frames above the level own. -/
theorem unwind (h : Accounted others m ds) (level : Nat) (hbase : Driver.base ds ≤ level) :
    Accounted others (m.unwind level) ds ∧ m.scopes.Stable (m.unwind level).scopes := by
  by_cases hle : m.depth ≤ level
  · -- Nothing lies above the level.
    have he : m.unwind level = m := by
      rw [unwind_eq, Nat.sub_eq_zero_of_le hle]
      rfl
    rw [he]
    exact ⟨h, (Arena.Sub.refl _).stable⟩
  · refine h.leave (List.take_append_drop (m.depth - level) m.frames).symm ?_ (.refl _)
    rw [List.length_drop]
    unfold Machine.depth at hle ⊢
    omega

/-- A loop takes the hold of the active frame over. -/
theorem beginLoop (h : Accounted others m ds) {f : Frame} {below : List Frame}
    (hf : m.frames = f :: below) (hown : f.ownsScope = true) (hbase : Driver.base ds ≤ below.length) :
    Accounted others m.disown (⟨below.length, { f with ownsScope := false }⟩ :: ds) := by
  have hdis := disown_of_cons hf
  have hst := h.stacked
  rw [hf] at hst
  have hbelow := hst.suffix (List.suffix_cons f below) hbase
  have hparent : m.scopes.parent? f.scope = some (topScope m.request.root below) :=
    hst.linked List.suffix_rfl
  rw [hdis]
  refine ⟨?_, h.root, ?_⟩
  · have hb := h.balanced
    rw [hf] at hb
    -- the driver holds what the frame held before
    have hheld : heldBy ({ f with ownsScope := false } :: below)
        (⟨below.length, { f with ownsScope := false }⟩ :: ds) = heldBy (f :: below) ds := by
      unfold heldBy
      rw [ownedScopes_cons, ownedScopes_cons, if_neg (by simp), if_pos hown, List.map_cons,
        List.nil_append, List.singleton_append, ← Multiset.cons_coe, ← Multiset.cons_coe,
        Multiset.add_cons, Multiset.cons_add]
    rw [← hheld] at hb
    exact hb
  · constructor
    case linked =>
      intro g gs hsuf
      rcases List.suffix_cons_iff.1 hsuf with he | hsuf
      · cases he
        exact hparent
      · exact hbelow.linked hsuf
    case lent =>
      intro g gs hsuf hg
      rcases List.suffix_cons_iff.1 hsuf with he | hsuf
      · cases he
        exact ⟨_, List.mem_cons_self, rfl, rfl⟩
      · obtain ⟨d, hd, hrest⟩ := hbelow.lent hsuf hg
        exact ⟨d, List.mem_cons_of_mem _ hd, hrest⟩
    case loops =>
      intro d hd
      rcases List.mem_cons.1 hd with rfl | hd
      · exact ⟨below, List.suffix_cons _ below, rfl, hparent⟩
      · obtain ⟨gs, hsuf, hrest⟩ := hbelow.loops hd
        exact ⟨gs, hsuf.trans (List.suffix_cons _ below), hrest⟩
    case ordered =>
      exact List.pairwise_cons.2 ⟨fun d hd => (hst.level_le hd).trans hbase, hst.ordered⟩
    case lends =>
      intro d hd
      rcases List.mem_cons.1 hd with rfl | hd
      · rfl
      · exact hst.lends hd

/-- A frame that is put back owns nothing: the loop holds its scope. -/
theorem repush {d : Driver} (h : Accounted others m (d :: ds)) (hlevel : m.depth = d.level) :
    Accounted others (m.repush d.frame) (d :: ds) := by
  have hown := h.stacked.lends List.mem_cons_self
  refine ⟨?_, h.root, ?_⟩
  · show m.scopes.Balanced (heldBy (_ :: m.frames) (d :: ds) + others)
    unfold heldBy
    rw [ownedScopes_cons]
    simp only [hown]
    exact h.balanced
  · refine h.stacked.cons ?_ fun _ => ⟨d, List.mem_cons_self, hlevel.symm, rfl⟩
    obtain ⟨below, hsuf, hlen, hp⟩ := h.stacked.loops List.mem_cons_self
    have hb : below = m.frames := hsuf.eq_of_length (hlen.trans hlevel.symm)
    rw [← hb]
    exact hp

/-- A loop that ends gives up its hold. -/
theorem leaveLoop {d : Driver} (h : Accounted others m (d :: ds)) (hlevel : m.depth = d.level) :
    Accounted others (m.withScopes (·.release d.frame.scope)) ds ∧
      m.scopes.Stable (m.withScopes (·.release d.frame.scope)).scopes := by
  have hsub := Arena.release_sub m.scopes d.frame.scope
  have hb : m.scopes.Balanced (d.frame.scope ::ₘ (heldBy m.frames ds + others)) := by
    have hb := h.balanced
    unfold heldBy at hb ⊢
    rw [List.map_cons, ← Multiset.cons_coe, Multiset.add_cons, Multiset.cons_add] at hb
    exact hb
  have hrel := hb.release
  refine ⟨⟨hrel, h.root, ?_⟩, hsub.stable'⟩
  -- No frame is left that has its scope from this loop: it would stand on top of the stack.
  have hst : Stacked m.scopes m.request.root m.frames ds := by
    constructor
    case linked => exact h.stacked.linked
    case lent =>
      intro f below hsuf hown
      obtain ⟨e, he, hel, hscope⟩ := h.stacked.lent hsuf hown
      rcases List.mem_cons.1 he with rfl | he
      · have hlen := hsuf.length_le
        rw [List.length_cons] at hlen
        unfold Machine.depth at hlevel
        omega
      · exact ⟨e, he, hel, hscope⟩
    case loops => exact fun he => h.stacked.loops (List.mem_cons_of_mem d he)
    case ordered => exact (List.pairwise_cons.1 h.stacked.ordered).2
    case lends => exact fun he => h.stacked.lends (List.mem_cons_of_mem d he)
  rw [← Multiset.add_cons] at hb
  exact hst.keep hsub.stable' hb hrel

/-- Whatever a thread does above its loops, the accounts are kept, and no scope that stays moves. -/
theorem turn {m' : Machine σ} {ds' : List Driver} (h : Accounted others m ds)
    (ht : Turn (Driver.base ds) m ds m' ds') : Accounted others m' ds' ∧ m.scopes.Stable m'.scopes := by
  cases ht with
  | calm hc => exact h.calm hc
  | push action results params => exact h.push action results params
  | call action results params => exact h.call action results params
  | returnFrame explicit hbase => exact h.returnFrame explicit hbase
  | returnEarly explicit hbase => exact h.returnEarly explicit hbase
  | unwind level hbase => exact h.unwind level hbase
  | @beginLoop _ f below hf hown hbase =>
    refine ⟨h.beginLoop hf hown hbase, ?_⟩
    rw [Machine.disown_of_cons hf]
    exact (Arena.Sub.refl _).stable
  | repush d hlevel => exact ⟨h.repush hlevel, (Arena.Sub.refl _).stable⟩
  | leaveLoop d hlevel => exact h.leaveLoop hlevel

end Accounted
end Machine
end Sequencer
