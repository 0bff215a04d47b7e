import Sequencer.Proofs.Lookup
import Sequencer.Proofs.Schedule

/-!
# What a return passes on

A return reads all values before it writes any, in the scope of the frame that leaves and around it, and
writes them in the scope of the caller. What the two scopes share, the writes might disturb: but the chain
of the callee leads through the scope of the caller, so that a name which the callee does not have itself
gets the value which it has for the caller anyway.
-/

namespace Sequencer

/-! ## Plain names

A plain name is read as itself, without any level or path. -/

namespace Address

/-- Whether a name is nothing but that of a variable: no level in front of it and no path behind it, no
quotes and no blanks around it. -/
def IsPlain (name : String) : Prop :=
  Text.trim name.toList = name.toList ∧ name.toList ≠ [] ∧ unquote? name.toList = none ∧
    ':' ∉ name.toList ∧ '.' ∉ name.toList

instance (name : String) : Decidable (IsPlain name) := inferInstanceAs (Decidable (_ ∧ _))

theorem parse_of_isPlain {name : String} (h : IsPlain name) :
    parse name.toList = .ok ⟨.current, "", name, none, true⟩ := by
  obtain ⟨htrim, hne, hquote, hcolon, hpoint⟩ := h
  have hempty : name.toList.isEmpty = false := by simpa using hne
  unfold parse
  simp only [htrim, hempty, hquote, Text.splitFirst_eq_none.2 hcolon]
  have hpath : splitPath (!false && Level.current.hasPaths) name.toList = (name.toList, none) := by
    show splitPath true name.toList = _
    unfold splitPath
    simp only [if_true, Text.splitFirst_eq_none.2 hpoint, htrim]
  unfold ofParts
  simp only [hpath, hempty]
  simp

end Address

/-! ## Tables

Tables are compared by what is found in them. -/

theorem Table.get?_putAll {α : Type} {bindings : Table α} {value : String → Option α}
    (h : ∀ name v, (name, v) ∈ bindings → value name = some v) (t : Table α) (x : String) :
    (t.putAll bindings).get? x = if x ∈ keys bindings then value x else t.get? x := by
  unfold putAll
  induction bindings generalizing t with
  | nil => rfl
  | cons entry bindings ih =>
    obtain ⟨name, v⟩ := entry
    have hv := h name v List.mem_cons_self
    have hkeys : keys ((name, v) :: bindings) = name :: keys bindings := rfl
    rw [List.foldl_cons, ih fun name v hm => h name v (List.mem_cons_of_mem _ hm), hkeys]
    -- Where a name is bound more than once, all of its bindings agree.
    by_cases hx : x ∈ keys bindings
    · rw [if_pos hx, if_pos (List.mem_cons_of_mem name hx)]
    · rw [if_neg hx]
      by_cases hname : x = name
      · subst hname
        rw [get?_put_self, if_pos List.mem_cons_self, hv]
      · rw [get?_put_of_ne t v hname, if_neg]
        intro hm
        rcases List.mem_cons.1 hm with he | hm
        · exact hname he
        · exact hx hm

/-- The values that arrive, each under its target. There is none for a target that stands for no variable. -/
def bindings (targets : List String) (values : List (Option Value)) : Table Value :=
  (targets.zip values).filterMap fun (target, v) =>
    if target = discard then none else v.map (target, ·)

theorem bindings_map (targets : List String) (value : String → Option Value) (x : String) (v : Value) :
    (x, v) ∈ bindings targets (targets.map value) ↔ x ∈ targets ∧ x ≠ discard ∧ value x = some v := by
  unfold bindings
  rw [← List.map_prod_left_eq_zip, List.filterMap_map, List.mem_filterMap]
  constructor
  · rintro ⟨target, hmem, he⟩
    simp only [Function.comp_apply] at he
    split_ifs at he with hd
    obtain ⟨v', hv', hpair⟩ := Option.map_eq_some_iff.1 he
    cases hpair
    exact ⟨hmem, hd, hv'⟩
  · rintro ⟨hmem, hd, hv⟩
    refine ⟨x, hmem, ?_⟩
    simp [hd, hv]

namespace Machine

variable {σ : Type} {m n : Machine σ} {f : Frame} {below : List Frame}

/-! ## Reading and writing plain names

A plain name is read outwards along the scopes and written in the active one. -/

theorem read_of_isPlain (m : Machine σ) {name : String} (h : Address.IsPlain name) :
    m.read name = (m, .ok (m.lookup name)) := by
  unfold read
  rw [Address.parse_of_isPlain h]
  rfl

theorem save_of_isPlain (hin : m.outside = false) {name : String} (h : Address.IsPlain name) (v : Value) :
    (m.save name v).1 = m.bindAll [(name, v)] := by
  have hput : m.put ⟨.current, "", name, none, true⟩ v = .ok (m.bindAll [(name, v)]) := by
    unfold put change
    simp only [hin]
    rfl
  unfold save
  rw [Address.parse_of_isPlain h]
  show (m.writeAddress ⟨.current, "", name, none, true⟩ v).1 = _
  unfold writeAddress
  rw [hput]
  rfl

/-- What a return reads under a plain name: nothing for a name that stands for no variable, and the empty
text for a variable that is missing but was asked for. -/
def returned (m : Machine σ) (asked : Bool) (name : String) : Option Value :=
  if name = discard then none
  else if asked then some ((m.lookup name).getD (.str "")) else m.lookup name

theorem readResults_of_isPlain (m : Machine σ) (asked : Bool) {names : List String}
    (h : ∀ name ∈ names, Address.IsPlain name) :
    m.readResults asked names = (m, names.map (m.returned asked)) := by
  induction names with
  | nil => rfl
  | cons name names ih =>
    have hrest := ih fun name' hm => h name' (List.mem_cons_of_mem name hm)
    unfold readResults
    rw [List.map_cons]
    by_cases hd : name = discard
    · have hnone : m.returned asked name = none := if_pos hd
      rw [if_pos hd, hrest, hnone]
    · rw [if_neg hd, m.read_of_isPlain (h name List.mem_cons_self)]
      simp only [hrest]
      unfold returned
      rw [if_neg hd]
      cases asked <;> cases m.lookup name <;> rfl

theorem publish_of_isPlain (hin : m.outside = false) {targets : List String}
    (h : ∀ target ∈ targets, Address.IsPlain target) (values : List (Option Value)) :
    m.publish targets values = m.bindAll (bindings targets values) := by
  induction targets generalizing m values with
  | nil => rfl
  | cons target targets ih =>
    have hrest : ∀ target' ∈ targets, Address.IsPlain target' :=
      fun target' hm => h target' (List.mem_cons_of_mem target hm)
    cases values with
    | nil => rfl
    | cons v values =>
      unfold publish bindings
      rw [List.zip_cons_cons, List.filterMap_cons]
      cases v with
      | none =>
        -- A result without a value is not published.
        simp only [Option.map_none, ite_self]
        exact ih hin hrest values
      | some v =>
        simp only
        split_ifs with hd
        · exact ih hin hrest values
        · rw [save_of_isPlain hin (h target List.mem_cons_self) v]
          exact ih (m := m.bindAll [(target, v)]) hin hrest values

/-! ## One return

The values are read before the frame is left, and saved after it has been. -/

/-- A return to plain names, if reading the values has left no mark. -/
theorem returnFrame_of_readResults (hf : m.frames = f :: below) (hl : f.looping = false)
    (hactive : m.request.detached = false) (hresults : f.results ≠ [])
    (htargets : ∀ target ∈ f.results, Address.IsPlain target) (explicit : Option (List String))
    {values : List (Option Value)}
    (hread : m.readResults explicit.isSome (explicit.getD f.results) = (m, values)) :
    m.returnFrame explicit =
      (((m.withFrames below).bindAll (bindings f.results values)).withScopes (releaseFrames · [f]), true) := by
  have hsome : f.results.isEmpty = false := by simpa using hresults
  -- In an active request plain names are variables, also below the last frame.
  have hin : (m.withFrames below).outside = false := by
    show (m.request.detached && below.isEmpty) = false
    rw [hactive]
    rfl
  unfold returnFrame
  rw [hf]
  simp only [hl, Bool.false_and, Bool.false_eq_true, if_false, hsome]
  rw [hread]
  simp only
  rw [publish_of_isPlain hin htargets]
  cases ho : f.ownsScope with
  | true => simp [releaseFrames, ho]
  | false => simp [releaseFrames, ho, withScopes, withRequest]

theorem returnFrame_of_isPlain (hf : m.frames = f :: below) (hl : f.looping = false)
    (hactive : m.request.detached = false) (hresults : f.results ≠ [])
    (htargets : ∀ target ∈ f.results, Address.IsPlain target) (explicit : Option (List String))
    (hnames : ∀ name ∈ explicit.getD f.results, Address.IsPlain name) :
    m.returnFrame explicit =
      (((m.withFrames below).bindAll (bindings f.results
        ((explicit.getD f.results).map (m.returned explicit.isSome)))).withScopes
          (releaseFrames · [f]), true) :=
  returnFrame_of_readResults hf hl hactive hresults htargets explicit (m.readResults_of_isPlain _ hnames)

/-- The active frame has left a machine for another one. The scope below it has got some variables, and its
own scope has gone if nothing else refers to it. Nothing else is different: no other scope, no frame, no
store, and no other part of the request. -/
structure Returns (m : Machine σ) (f : Frame) (below : List Frame) (vars : Table Value) (n : Machine σ) :
    Prop where
  rest : n = (m.withFrames below).withScopes fun _ => n.scopes
  caller : ∃ env, m.scopes.env? (topScope m.request.root below) = some env ∧
    n.scopes.env? (topScope m.request.root below) = some { env with vars := Table.putAll env.vars vars }
  others : ∀ id, id ≠ topScope m.request.root below → id ≠ f.scope → n.scopes.env? id = m.scopes.env? id
  own : ∀ s, m.scopes.slot? f.scope = some s →
    n.scopes.env? f.scope = if f.ownsScope ∧ s.refs ≤ 1 then none else s.env

/-- Giving a frame up whose scope lies inside of one that is held. -/
theorem env?_releaseFrame {a : Arena} {held : Multiset ScopeId}
    (h : a.Balanced (↑(ownedScopes [f]) + held)) (hp : ∀ p, a.parent? f.scope = some p → p ∈ held) :
    (∀ id, id ≠ f.scope → (releaseFrames a [f]).env? id = a.env? id) ∧
      ∀ s, a.slot? f.scope = some s →
        (releaseFrames a [f]).env? f.scope = if f.ownsScope ∧ s.refs ≤ 1 then none else s.env := by
  unfold releaseFrames
  rw [List.foldl_cons, List.foldl_nil]
  cases ho : f.ownsScope with
  | false =>
    refine ⟨fun _ _ => rfl, ?_⟩
    intro s hs
    rw [if_neg (by simp), if_neg (by simp)]
    unfold Arena.env?
    rw [hs]
    rfl
  | true =>
    have hheld : (↑(ownedScopes [f]) : Multiset ScopeId) = {f.scope} := by
      rw [ownedScopes_cons, ho]
      rfl
    rw [hheld, Multiset.singleton_add] at h
    refine ⟨fun id hid => h.env?_release_of_ne hp hid, ?_⟩
    intro s hs
    have henv : a.env? f.scope = s.env := by
      unfold Arena.env?
      rw [hs]
      rfl
    rw [if_pos rfl, Arena.env?_release_self hs, henv]
    -- The scope goes with the last of its references.
    by_cases hmany : s.refs > 1
    · rw [if_pos hmany, if_neg (by omega)]
    · rw [if_neg hmany, if_pos ⟨rfl, by omega⟩]

namespace Accounted

variable {others : Multiset ScopeId} {ds : List Driver}

/-- The scope of a caller lies around that of the callee, and is held without it. -/
theorem caller (h : Accounted others m ds) (hf : m.frames = f :: below) :
    m.scopes.parent? f.scope = some (topScope m.request.root below) ∧
      topScope m.request.root below ∈ heldBy below ds + others := by
  have hsuf : f :: below <:+ m.frames := hf ▸ List.suffix_rfl
  refine ⟨h.stacked.linked hsuf, Multiset.mem_add.2 ?_⟩
  cases below with
  | nil => exact .inr h.root
  | cons g below =>
    have hbelow : g :: below <:+ m.frames := (List.suffix_cons f (g :: below)).trans hsuf
    exact .inl (h.stacked.mem_heldBy_of_suffix hbelow List.mem_cons_self)

theorem caller_ne (h : Accounted others m ds) (hf : m.frames = f :: below) :
    topScope m.request.root below ≠ f.scope := by
  intro he
  exact h.balanced.not_reaches (h.caller hf).1 (.held (Multiset.mem_singleton.2 he.symm))

/-- Before the active frame is given up, its hold is still counted. -/
theorem balanced_bindAll (h : Accounted others m ds) (hf : m.frames = f :: below) (vars : Table Value) :
    ((m.withFrames below).bindAll vars).scopes.Balanced
      (↑(ownedScopes [f]) + (heldBy below ds + others)) := by
  have hb := h.balanced
  rw [hf, show f :: below = [f] ++ below from rfl, heldBy_append, add_assoc] at hb
  exact hb.congr (quiet_bindAll (m.withFrames below) vars).scopes

/-- Binding variables below the active frame and then giving this frame up. -/
theorem returns (h : Accounted others m ds) (hf : m.frames = f :: below) (vars : Table Value) :
    Returns m f below vars (((m.withFrames below).bindAll vars).withScopes (releaseFrames · [f])) := by
  obtain ⟨hparent, hheld⟩ := h.caller hf
  -- Writing variables moves nothing, so what holds of the scopes before holds of those written to.
  have hbare := (quiet_bindAll (m.withFrames below) vars).scopes
  have henv : ∀ id, ((m.withFrames below).bindAll vars).scopes.env? id =
      if id = topScope m.request.root below then
        (m.scopes.env? (topScope m.request.root below)).map fun e =>
          { e with vars := Table.putAll e.vars vars }
      else m.scopes.env? id := by
    intro id
    have hcur := currentScope_eq (m.withFrames below)
    exact hcur ▸ Arena.env?_setAll m.scopes _ vars id
  have hcaller := h.caller_ne hf
  have hp : ∀ p, ((m.withFrames below).bindAll vars).scopes.parent? f.scope = some p →
      p ∈ heldBy below ds + others := by
    intro p hp
    rw [Arena.parent?_congr hbare] at hp
    cases hparent.symm.trans hp
    exact hheld
  obtain ⟨hother, hself⟩ := env?_releaseFrame (h.balanced_bindAll hf vars) hp
  constructor
  case rest => rfl
  case caller =>
    obtain ⟨env, hcur⟩ := Option.isSome_iff_exists.1 (h.balanced.parent_live hparent)
    refine ⟨env, hcur, (hother _ hcaller).trans ?_⟩
    rw [henv, if_pos rfl, hcur]
    rfl
  case others =>
    intro id hid hne
    exact (hother id hne).trans ((henv id).trans (if_neg hid))
  case own =>
    intro s hs
    obtain ⟨s', hs', -, hrefs⟩ := Arena.slot?_congr hbare.symm hs
    have he : s'.env = s.env := by
      have := henv f.scope
      rw [if_neg hcaller.symm] at this
      unfold Arena.env? at this
      rw [hs', hs] at this
      exact this
    rw [← he, ← hrefs]
    exact hself s' hs'

end Accounted

/-! ## Looking up after a return

What is found outwards from the caller after the return. -/

theorem lookupIn_eq (m : Machine σ) (scope : ScopeId) (x : String) :
    m.lookupIn scope x = (m.scopes.get? scope x).or (Table.get? m.store.properties x) := by
  unfold lookupIn
  cases m.scopes.get? scope x <;> rfl

/-- What a name stands for in an activation: its own variable, or else what it stands for in the caller. -/
theorem Accounted.lookup_eq {others : Multiset ScopeId} {ds : List Driver} (h : Accounted others m ds)
    (hf : m.frames = f :: below) (x : String) : m.lookup x =
      (m.scopes.getLocal? f.scope x).or (m.lookupIn (topScope m.request.root below) x) := by
  have hcur : m.currentScope = f.scope := by
    rw [currentScope_eq, hf]
    rfl
  unfold lookup
  rw [hcur, lookupIn_eq, lookupIn_eq, h.balanced.get?_eq, (h.caller hf).1, Option.or_assoc]
  rfl

namespace Returns

variable {vars : Table Value} {held held' : Multiset ScopeId} {value : String → Option Value}

/-- The caller finds the variables that it has got, and all else where it was: none of the scopes around
its own has changed. -/
theorem get? (h : Returns m f below vars n) (hm : m.scopes.Balanced held) (hn : n.scopes.Balanced held')
    (hparent : m.scopes.parent? f.scope = some (topScope m.request.root below))
    (hvalue : ∀ name v, (name, v) ∈ vars → value name = some v) (x : String) :
    n.scopes.get? (topScope m.request.root below) x =
      if x ∈ Table.keys vars then value x else m.scopes.get? (topScope m.request.root below) x := by
  obtain ⟨env, hbefore, hafter⟩ := h.caller
  have haround : env.parent.bind (n.scopes.get? · x) = env.parent.bind (m.scopes.get? · x) := by
    cases hp : env.parent with
    | none => rfl
    | some p =>
      have hp' : m.scopes.parent? (topScope m.request.root below) = some p :=
        (Arena.parent?_of_env? hbefore).trans hp
      -- Outside of the caller's scope there is neither this scope nor the callee's.
      refine hm.get?_congr hn x fun j hj => h.others j ?_ ?_
      · rintro rfl
        exact hm.not_reaches hp' hj
      · rintro rfl
        exact hm.not_reaches hparent (hj.outwards hp')
  rw [hn.get?_eq, hm.get?_eq, Arena.getLocal?_of_env? hbefore, Arena.parent?_of_env? hbefore,
    Arena.getLocal?_of_env? hafter, Arena.parent?_of_env? hafter]
  show (Table.get? (Table.putAll env.vars vars) x).or (env.parent.bind _) = _
  rw [haround, Table.get?_putAll hvalue]
  split_ifs with hx
  · obtain ⟨⟨name, v⟩, hmem, rfl⟩ := List.mem_map.1 hx
    rw [hvalue name v hmem]
    rfl
  · rfl

theorem lookup (h : Returns m f below vars n) (hm : m.scopes.Balanced held)
    (hn : n.scopes.Balanced held')
    (hparent : m.scopes.parent? f.scope = some (topScope m.request.root below))
    (hvalue : ∀ name v, (name, v) ∈ vars → value name = some v) (x : String) :
    n.lookup x =
      if x ∈ Table.keys vars then value x else m.lookupIn (topScope m.request.root below) x := by
  have hframes : n.frames = below := by
    rw [h.rest]
    rfl
  have hroot : n.request.root = m.request.root := by
    rw [h.rest]
    rfl
  have hstore : n.store = m.store := by
    rw [h.rest]
    rfl
  unfold Machine.lookup
  rw [currentScope_eq, hframes, hroot, lookupIn_eq, lookupIn_eq, hstore, h.get? hm hn hparent hvalue]
  split_ifs with hx
  · obtain ⟨⟨name, v⟩, hmem, rfl⟩ := List.mem_map.1 hx
    rw [hvalue name v hmem]
    rfl
  · rfl

end Returns

/-- After an implicit return names stand, for the caller, for what the callee has under them if they are
results, and else for what they stood for before. -/
theorem Accounted.lookup_returned {others held : Multiset ScopeId} {ds : List Driver}
    (h : Accounted others m ds) (hf : m.frames = f :: below) {results : List String}
    (hr : Returns m f below (bindings results (results.map (m.returned false))) n)
    (hn : n.scopes.Balanced held) (x : String) :
    n.lookup x = (if x ∈ results ∧ x ≠ discard then m.scopes.getLocal? f.scope x else none).or
      (m.lookupIn (topScope m.request.root below) x) := by
  have hmem := bindings_map results (m.returned false)
  have hcallee := h.lookup_eq hf x
  rw [hr.lookup h.balanced hn (h.caller hf).1 (fun name v hb => ((hmem name v).1 hb).2.2) x]
  by_cases hx : x ∈ results ∧ x ≠ discard
  · have hvalue : m.returned false x = m.lookup x := by
      unfold returned
      rw [if_neg hx.2]
      rfl
    rw [if_pos hx, ← hcallee]
    split_ifs with hkey
    · exact hvalue
    · -- Nothing was passed on, so the callee finds nothing, and neither does the caller.
      cases hfound : m.lookup x with
      | some v =>
        have hbound := (hmem x v).2 ⟨hx.1, hx.2, hvalue.trans hfound⟩
        exact absurd (List.mem_map.2 ⟨(x, v), hbound, rfl⟩) hkey
      | none =>
        rw [hfound] at hcallee
        exact (Option.or_eq_none_iff.1 hcallee.symm).2
  · rw [if_neg hx, if_neg]
    · rfl
    · intro hkey
      obtain ⟨⟨name, v⟩, hb, rfl⟩ := List.mem_map.1 hkey
      obtain ⟨hresult, hd, -⟩ := (hmem name v).1 hb
      exact hx ⟨hresult, hd⟩

end Machine

/-! ## The whole picture

The return of any frame in any pool, with an example in which two names are swapped. -/

namespace Pool

variable {σ : Type}

/-- A return from a frame that does not loop, to result names that are all plain. Asked for some names, it
gives the caller's scope the values that these have for the callee, in order, and all as they were before
the return; those that are missing are empty. By itself it only hands on what the callee has of its
own: whatever else there is stands, for the caller, for what it stood for. In both cases one frame is gone
and nothing else has changed. -/
theorem returns_by_name {p : Pool σ} (hp : p.Reachable) {w : Worker σ} (hw : w ∈ p.workers)
    (hactive : p.world.request.detached = false) {f : Frame} {below : List Frame}
    (hf : w.thread.frames = f :: below) (hl : f.looping = false) (hresults : f.results ≠ [])
    (htargets : ∀ target ∈ f.results, Address.IsPlain target) :
    (∀ names, (∀ name ∈ names, Address.IsPlain name) →
      ∃ n, (p.machine w).returnEarly (some names) = (n, true) ∧
        (p.machine w).returnFrame (some names) = (n, true) ∧
        (p.machine w).Returns f below
          (bindings f.results (names.map ((p.machine w).returned true))) n) ∧
    ∃ n, (p.machine w).returnFrame none = (n, true) ∧
      (p.machine w).Returns f below (bindings f.results (f.results.map ((p.machine w).returned false))) n ∧
      ∀ x, n.lookup x =
        (if x ∈ f.results ∧ x ≠ discard then (p.machine w).scopes.getLocal? f.scope x else none).or
          ((p.machine w).lookupIn (topScope p.root below) x) := by
  obtain ⟨others, hothers⟩ := Multiset.exists_cons_of_mem hw
  have hacc := hp.sound.accounted hothers
  have hframes : (p.machine w).frames = f :: below := hf
  constructor
  · intro names hnames
    have he := Machine.returnFrame_of_isPlain hframes hl hactive hresults htargets (some names) hnames
    refine ⟨_, ?_, he, hacc.returns hframes _⟩
    -- Only the frame of a loop returns early in another way.
    rw [Machine.returnEarly_of_not_looping hframes hl]
    exact he
  · have he := Machine.returnFrame_of_isPlain hframes hl hactive hresults htargets none htargets
    have hr := hacc.returns hframes (bindings f.results (f.results.map ((p.machine w).returned false)))
    have hn := Machine.balanced_releaseFrames [f] (hacc.balanced_bindAll hframes
      (bindings f.results (f.results.map ((p.machine w).returned false))))
    exact ⟨_, he, hr, fun x => hacc.lookup_returned hframes hr hn x⟩

/-- A thread whose active frame has variables of its own under the two names that its caller wants. -/
def swapper : Machine Unit :=
  ((World.new (Store.ofProperties []) (Request.new [] none) ()).enter.push "OUTER" []
      [("a", .str "old"), ("c", .str "kept")]).push
    "INNER" ["a", "b"] [("a", .str "1"), ("b", .str "2"), ("c", .str "lost")]

theorem swapper_reachable : (swapper.within [] 0).Reachable := by
  let w := World.new (Store.ofProperties []) (Request.new [] none) ()
  let m := w.enter.push "OUTER" [] [("a", .str "old"), ("c", .str "kept")]
  have hm : (m.within [] 0).Reachable := .begin ⟨rfl, [], none, false, rfl⟩ "OUTER" [] _
  have hturn : Turn 0 m [] swapper [] := .push "INNER" ["a", "b"] _
  exact hm.step (@Step.turn Unit (m.within [] 0) ⟨m.thread, []⟩ 0 _ _ rfl hturn)

/-- It can return them the other way round. If it only ends, its caller gets the two as they are. -/
theorem returns_by_name_swapper :
    (∃ n, swapper.returnFrame (some ["b", "a"]) = (n, true) ∧ n.scopes.env? ⟨1, 0⟩ =
      some ⟨[("a", .str "2"), ("c", .str "kept"), ("b", .str "1")], some ⟨0, 0⟩⟩) ∧
    ∃ n, swapper.returnFrame none = (n, true) ∧ n.lookup "a" = some (.str "1") ∧
      n.lookup "b" = some (.str "2") ∧ n.lookup "c" = some (.str "kept") := by
  have hw : ⟨swapper.thread, []⟩ ∈ (swapper.within [] 0).workers := Multiset.mem_cons_self _ 0
  obtain ⟨hasked, n, hn, -, hlookup⟩ :=
    returns_by_name swapper_reachable hw rfl rfl rfl (by decide) (by decide)
  obtain ⟨n', -, hn', hreturns⟩ := hasked ["b", "a"] (by decide)
  refine ⟨⟨n', hn', ?_⟩, n, hn, hlookup "a", hlookup "b", hlookup "c"⟩
  obtain ⟨env, hbefore, hafter⟩ := hreturns.caller
  cases hbefore
  exact hafter

end Pool
end Sequencer
