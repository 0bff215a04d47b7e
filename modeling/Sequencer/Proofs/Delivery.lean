import Sequencer.Proofs.Mentions

/-!
# Delivery by a call to return

A call to the action `return` uses the keys of its parameters twice. It gives the variables of the callee with these
names the values of the parameters, and it returns by the keys as decorated names. A plain key is read as the variable
that has just been written. Any other key is read as something else, whatever value it has been given, and so the value
does not arrive.
-/

namespace Sequencer

theorem Table.get?_of_mem {α : Type} {t : Table α} (h : (keys t).Nodup) {key : String} {v : α}
    (hmem : (key, v) ∈ t) : get? t key = some v := by
  induction t with
  | nil => cases hmem
  | cons entry t ih =>
    obtain ⟨name, u⟩ := entry
    obtain ⟨hname, hrest⟩ := List.nodup_cons.1 h
    rcases List.mem_cons.1 hmem with he | hmem
    · cases he
      exact if_pos rfl
    · have hne : name ≠ key := by
        rintro rfl
        exact hname (List.mem_map.2 ⟨_, hmem, rfl⟩)
      rw [get?, if_neg hne, ih hrest hmem]

/-- Parameters with these keys. -/
def given (keys : List String) (u : String → Value) : Table Value := keys.map fun key => (key, u key)

theorem keys_given (keys : List String) (u : String → Value) : Table.keys (given keys u) = keys := by
  simp [Table.keys, given, Function.comp_def]

theorem mem_given {keys : List String} {u : String → Value} {key : String} {v : Value}
    (h : (key, v) ∈ given keys u) : key ∈ keys ∧ u key = v := by
  obtain ⟨name, hname, he⟩ := List.mem_map.1 h
  cases he
  exact ⟨hname, rfl⟩

/-- Of some values those in front are skipped, and the one behind them is bound. -/
theorem bindings_skip {x : String} (hx : x ≠ discard) (before after : List (Option Value)) (v : Value) :
    bindings (List.replicate before.length discard ++ [x]) (before ++ some v :: after) = [(x, v)] := by
  induction before with
  | nil => simp [bindings, hx]
  | cons u before ih =>
    rw [List.length_cons, List.replicate_succ]
    simp only [bindings, List.cons_append, List.zip_cons_cons, List.filterMap_cons, if_true] at ih ⊢
    exact ih

namespace Machine

variable {σ : Type} {m n : Machine σ} {f : Frame} {below : List Frame} {params : Table Value}

/-! ## Returning by any names

A return by explicit names reads each of them as a decorated name. Where reading fails, the value is left out. -/

/-- What a return passes on for a name that it is asked for: the empty text where nothing is read. -/
def answer (m : Machine σ) (name : String) : Value :=
  match (m.read name).2 with
  | .ok (some v) => v
  | _ => .str ""

theorem readResults_of_steady {names : List String} (hnames : discard ∉ names)
    (hsteady : ∀ name ∈ names, (m.read name).1 = m) :
    m.readResults true names = (m, names.map fun name => some (m.answer name)) := by
  induction names with
  | nil => rfl
  | cons name names ih =>
    rw [List.mem_cons, not_or] at hnames
    have hrest := ih hnames.2 fun name' hmem => hsteady name' (List.mem_cons_of_mem name hmem)
    have hself := hsteady name List.mem_cons_self
    unfold readResults
    rw [if_neg (Ne.symm hnames.1), List.map_cons, answer]
    cases hread : m.read name with
    | mk o found =>
      rw [hread] at hself
      obtain rfl : o = m := hself
      simp only [hrest]
      rcases found with e | _ | v <;> rfl

/-- Where nothing is wanted nothing is read, and nothing is passed on. -/
theorem returnFrame_of_noResults (hf : m.frames = f :: below) (hresults : f.results = [])
    (explicit : Option (List String)) :
    m.returnFrame explicit = (((m.withFrames below).bindAll []).withScopes (releaseFrames · [f]), true) := by
  unfold returnFrame
  rw [hf]
  simp only [hresults, ite_self, List.isEmpty_nil, if_true]
  cases ho : f.ownsScope with
  | true => simp [releaseFrames, ho, publish, bindAll, withScopes, withRequest]
  | false => simp [releaseFrames, ho, publish, bindAll, withScopes, withRequest]

theorem parameterAddress?_given {keys : List String} {u : String → Value}
    (h : ∀ key, parameterAddress? (u key) = none) : ∀ e ∈ given keys u, parameterAddress? e.2 = none := by
  rintro ⟨key, v⟩ he
  obtain ⟨-, rfl⟩ := mem_given he
  exact h key

theorem resolve_of_plain (h : ∀ e ∈ params, parameterAddress? e.2 = none) : m.resolve params = (m, .ok params) := by
  induction params with
  | nil => rfl
  | cons entry params ih =>
    obtain ⟨key, v⟩ := entry
    rw [resolve_cons_of_plain key (h (key, v) List.mem_cons_self),
      ih fun e hmem => h e (List.mem_cons_of_mem (key, v) hmem)]
    rfl

theorem performCall_return (h : ∀ e ∈ params, parameterAddress? e.2 = none) (result : String) :
    m.performCall ⟨returnAction, params, result⟩ =
      (m.bindAll params).returnEarly (some (Table.keys params)) := by
  have hname : returnAction.isEmpty = false := by decide
  unfold performCall
  simp only [hname, Bool.false_eq_true, if_false, if_true, resolve_of_plain h]

/-! ## Variables and their names

The params of the call are bound under their keys as they are, so that a plain name reads back what was bound. -/

/-- The variables of the current scope after a binding are the bound ones and those that were there. -/
theorem getLocal?_bindAll {value : String → Option Value} (h : ∀ name v, (name, v) ∈ params → value name = some v)
    (m : Machine σ) (id : ScopeId) (x : String) : (m.bindAll params).scopes.getLocal? id x =
      if id = m.currentScope ∧ x ∈ Table.keys params then (m.scopes.env? id).bind fun _ => value x
      else m.scopes.getLocal? id x := by
  have henv : (m.bindAll params).scopes.env? id = _ := Arena.env?_setAll m.scopes m.currentScope params id
  unfold Arena.getLocal?
  rw [henv]
  by_cases hid : id = m.currentScope
  · subst hid
    rw [if_pos rfl]
    cases m.scopes.env? m.currentScope with
    | none => simp
    | some env =>
      show Table.get? (Table.putAll env.vars params) x = _
      rw [Table.get?_putAll h]
      simp
  · rw [if_neg hid, if_neg fun hboth => hid hboth.1]

theorem lookup_bindAll (hlive : m.scopes.isLive m.currentScope) (hdistinct : (Table.keys params).Nodup) {key : String}
    {v : Value} (hmem : (key, v) ∈ params) : (m.bindAll params).lookup key = some v := by
  obtain ⟨env, henv⟩ := Option.isSome_iff_exists.1 hlive
  have hkey : key ∈ Table.keys params := List.mem_map.2 ⟨_, hmem, rfl⟩
  have hlocal : (m.bindAll params).scopes.getLocal? m.currentScope key = some v := by
    rw [getLocal?_bindAll fun name u hu => Table.get?_of_mem hdistinct hu, if_pos ⟨rfl, hkey⟩, henv, Option.bind_some]
    exact Table.get?_of_mem hdistinct hmem
  exact lookupIn_of_local hlocal

/-- Under a plain key the callee has the value of the parameter. -/
theorem answer_bindAll (hlive : m.scopes.isLive m.currentScope) (hdistinct : (Table.keys params).Nodup) {key : String}
    {v : Value} (hmem : (key, v) ∈ params) (hkey : Address.IsPlain key) : (m.bindAll params).answer key = v := by
  unfold answer
  rw [read_of_isPlain _ hkey, lookup_bindAll hlive hdistinct hmem]

/-- Parameters that differ in one value leave machines that are alike but for the variable which gets it. -/
theorem alikeBut_bindAll {k : String} {v w : String → Value} (h : ∀ x, x ≠ k → w x = v x) (m : Machine σ)
    (keys : List String) : AlikeBut k (m.bindAll (given keys v)) (m.bindAll (given keys w)) where
  thread := rfl
  store := rfl
  request := rfl
  links := (quiet_bindAll m _).scopes.trans (quiet_bindAll m _).scopes.symm
  vars id x hx := by
    have hvalue : ∀ (u : String → Value) name c, (name, c) ∈ given keys u → some (u name) = some c :=
      fun u name c hmem => congrArg some (mem_given hmem).2
    rw [getLocal?_bindAll (hvalue w), getLocal?_bindAll (hvalue v), keys_given, keys_given, h x hx]

/-! ## Stores that do not fail

Only the store of the session can fail. Where it does not, reading changes nothing. -/

theorem fetchFrom_of_session (h : m.request.session.isSome) (p : Provider) (bucket key : String) :
    ∃ found, m.fetchFrom p bucket key = .ok found := by
  obtain ⟨session, hs⟩ := Option.isSome_iff_exists.1 h
  cases p with
  | session => exact ⟨_, by simp only [fetchFrom, session?, hs]; rfl⟩
  | _ => exact ⟨_, rfl⟩

/-- Only the failure of a store leaves a mark, and in a session there is none. -/
theorem fail_of_session (h : m.request.session.isSome) {a : Address} {e : StorageError} (he : m.fetch a = .error e) :
    m.fail e = m := by
  unfold fetch at he
  cases hl : a.level with
  | provider p =>
    obtain ⟨found, hfound⟩ := fetchFrom_of_session h p a.bucket a.name
    simp [hl, hfound] at he
  | current | quoted => simp [hl] at he
  | expression | literal | ancestor j =>
    simp only [hl] at he
    split at he <;> cases he
    rfl

theorem read_of_session (h : m.request.session.isSome) (name : String) : (m.read name).1 = m := by
  unfold read
  cases Address.parse name.toList with
  | error e => rfl
  | ok a =>
    show (m.readAddress a).1 = m
    unfold readAddress
    cases he : m.fetch a with
    | ok found => rfl
    | error e =>
      simp only [settle]
      split_ifs
      · rfl
      · exact fail_of_session h he

end Machine

/-! ## The call

A frame that calls an action with explicit names delivers a param exactly if the key of the param, read as a decorated
name, finds its value. -/

open Machine

variable {σ : Type}

/-- A thread of a request is in a frame that does not loop, and the caller of the frame wants plain names. -/
structure Site (p : Pool σ) (w : Worker σ) (f : Frame) (below : List Frame) : Prop where
  reachable : p.Reachable
  mem : w ∈ p.workers
  active : p.world.request.detached = false
  frames : w.thread.frames = f :: below
  once : f.looping = false
  targets : ∀ target ∈ f.results, Address.IsPlain target

/-- The call to return with some parameters takes the frame off and gives the caller their values in order. -/
def Machine.Delivers (m : Machine σ) (f : Frame) (below : List Frame) (params : Table Value) : Prop :=
  ∀ result, ∃ n, m.performCall ⟨returnAction, params, result⟩ = (n, true) ∧
    (m.bindAll params).Returns f below (bindings f.results (params.map fun e => some e.2)) n

namespace Site

variable {p : Pool σ} {w : Worker σ} {f : Frame} {below : List Frame} {params : Table Value}

theorem accounted (h : Site p w f below) : ∃ others, Accounted others (p.machine w) w.loops := by
  obtain ⟨rest, hrest⟩ := Multiset.exists_cons_of_mem h.mem
  exact ⟨_, h.reachable.sound.accounted hrest⟩

/-- What the call gives the caller is what is read under the keys. -/
theorem performCall (h : Site p w f below) (hplain : ∀ e ∈ params, parameterAddress? e.2 = none)
    (hkeys : discard ∉ Table.keys params)
    (hsteady : ∀ key ∈ Table.keys params,
      (((p.machine w).bindAll params).read key).1 = (p.machine w).bindAll params) (result : String) :
    ∃ n, (p.machine w).performCall ⟨returnAction, params, result⟩ = (n, true) ∧
      ((p.machine w).bindAll params).Returns f below (bindings f.results
        ((Table.keys params).map fun key => some (((p.machine w).bindAll params).answer key))) n := by
  obtain ⟨others, hacc⟩ := h.accounted
  have hbound := (hacc.calm (quiet_bindAll (p.machine w) params).calm).1
  have hframes : ((p.machine w).bindAll params).frames = f :: below := h.frames
  -- The values are those that the keys have once the parameters are bound, and reading them changes nothing.
  have hread := readResults_of_steady hkeys hsteady
  refine ⟨_, ?_, hbound.returns hframes _⟩
  rw [performCall_return hplain, returnEarly_of_not_looping hframes h.once]
  by_cases hresults : f.results = []
  · rw [returnFrame_of_noResults hframes hresults, hresults]
    rfl
  · exact returnFrame_of_readResults hframes h.once h.active hresults h.targets (some _) hread

/-- Plain keys are read as what was bound under them. -/
theorem delivers (h : Site p w f below) (hplain : ∀ e ∈ params, parameterAddress? e.2 = none)
    (hdistinct : (Table.keys params).Nodup) (hkeys : discard ∉ Table.keys params)
    (hnames : ∀ key ∈ Table.keys params, Address.IsPlain key) : (p.machine w).Delivers f below params := by
  intro result
  obtain ⟨others, hacc⟩ := h.accounted
  have hlive : (p.machine w).scopes.isLive (p.machine w).currentScope := by
    rw [currentScope_eq]
    exact hacc.isLive_topScope
  obtain ⟨n, hn, hreturns⟩ := h.performCall hplain hkeys (fun key hkey => by
    rw [read_of_isPlain _ (hnames key hkey)]) result
  refine ⟨n, hn, ?_⟩
  -- A plain name has the value that was bound to it.
  have hvalues : (Table.keys params).map (fun key => some (((p.machine w).bindAll params).answer key)) =
      params.map fun e => some e.2 := by
    rw [Table.keys, List.map_map]
    refine List.map_congr_left fun e he => ?_
    exact congrArg some (answer_bindAll hlive hdistinct he (hnames e.1 (List.mem_map.2 ⟨e, he, rfl⟩)))
  rw [hvalues] at hreturns
  exact hreturns

end Site

/-! ### Keys that are not plain

Whether it does can depend on the machine, if the key is an address that says more than a name. A site is made for
each such key at which it fails. -/

/-- Every call to return by these keys delivers, at every site and whatever values are given that are no addresses. -/
def AlwaysDelivered (σ : Type) (keys : List String) : Prop :=
  ∀ (p : Pool σ) (w : Worker σ) (f : Frame) (below : List Frame), Site p w f below →
    ∀ params, Table.keys params = keys → (∀ e ∈ params, parameterAddress? e.2 = none) →
      (p.machine w).Delivers f below params

/-- A thread in a session, in a frame whose caller wants one value from behind some others. -/
def asking (host : σ) (skipped : Nat) : Machine σ :=
  (World.new (.ofProperties []) (Request.new [] (some "s")) host).enter.push "ASK"
    (List.replicate skipped discard ++ ["r"]) []

theorem site_asking (host : σ) (skipped : Nat) : ∃ f, f.results = List.replicate skipped discard ++ ["r"] ∧
    Site ((asking host skipped).within [] 0) ⟨(asking host skipped).thread, []⟩ f [] := by
  refine ⟨_, ?_, .begin ⟨rfl, [], _, false, rfl⟩ "ASK" _ [], Multiset.mem_singleton_self _, rfl, rfl, rfl, ?_⟩
  · rfl
  · intro target hmem
    rcases List.mem_append.1 hmem with hmem | hmem
    · rw [List.eq_of_mem_replicate hmem]
      decide
    · rw [List.mem_singleton.1 hmem]
      decide

/-- What the caller gets under a name is what was read under the key, and if the call delivers it is the value that
was given. -/
theorem answer_of_delivers {host : σ} {before after : List String} {k : String} {f : Frame}
    (hsite : Site ((asking host before.length).within [] 0) ⟨(asking host before.length).thread, []⟩ f [])
    (hresults : f.results = List.replicate before.length discard ++ ["r"]) (hkeys : discard ∉ before ++ k :: after)
    {u : String → Value} (hplain : ∀ key, parameterAddress? (u key) = none)
    (h : (asking host before.length).Delivers f [] (given (before ++ k :: after) u)) :
    ((asking host before.length).bindAll (given (before ++ k :: after) u)).answer k = u k := by
  have hread := hsite.performCall (parameterAddress?_given hplain) (by rwa [keys_given])
    (fun key _ => read_of_session rfl key) ""
  rw [keys_given] at hread
  obtain ⟨n, hn, hread⟩ := hread
  obtain ⟨n', hn', hgiven⟩ := h ""
  -- it is the same call, so that the caller's scope is the same too
  obtain rfl : n = n' := congrArg Prod.fst (hn.symm.trans hn')
  obtain ⟨env, hbefore, hafter⟩ := hread.caller
  obtain ⟨env', hbefore', hafter'⟩ := hgiven.caller
  obtain rfl : env = env' := Option.some.inj (hbefore.symm.trans hbefore')
  have hvars := congrArg Environment.vars (Option.some.inj (hafter.symm.trans hafter'))
  have hone : ∀ g : String → Value,
      bindings f.results ((before ++ k :: after).map fun key => some (g key)) = [("r", g k)] := by
    intro g
    have hskip := bindings_skip (x := "r") (by decide) (before.map fun key => some (g key))
      (after.map fun key => some (g key)) (g k)
    rw [List.length_map] at hskip
    rw [hresults, List.map_append, List.map_cons, hskip]
  have hvalues : (given (before ++ k :: after) u).map (fun e => some e.2) =
      (before ++ k :: after).map fun key => some (u key) := by
    simp [given, Function.comp_def]
  rw [hvalues, hone, hone] at hvars
  have hr : Table.get? (Table.put env.vars "r" _) "r" = Table.get? (Table.put env.vars "r" (u k)) "r" :=
    congrArg (Table.get? · "r") hvars
  rw [Table.get?_put_self, Table.get?_put_self] at hr
  exact Option.some.inj hr

/-- A key under which every value is delivered is plain: under any other the same would be read for two values. -/
theorem isPlain_of_delivers (host : σ) {before after : List String} {k : String}
    (hkeys : discard ∉ before ++ k :: after) (h : AlwaysDelivered σ (before ++ k :: after)) : Address.IsPlain k := by
  obtain ⟨f, hresults, hsite⟩ := site_asking host before.length
  -- Two calls, with different values for this key and the same for all others.
  let u : Bool → String → Value := fun b key => if key = k then .bool b else .null
  have hplain : ∀ b key, parameterAddress? (u b key) = none := by
    intro b key
    show parameterAddress? (if key = k then .bool b else .null) = none
    split_ifs <;> rfl
  have hread : ∀ b, ((asking host before.length).bindAll (given (before ++ k :: after) (u b))).answer k = .bool b := by
    intro b
    have hdelivers := h _ _ f [] hsite _ (keys_given _ (u b)) (parameterAddress?_given (hplain b))
    rw [answer_of_delivers hsite hresults hkeys (hplain b) hdelivers]
    exact if_pos rfl
  by_contra hk
  have halike := alikeBut_bindAll (v := u false) (w := u true) (k := k)
    (fun x hx => (if_neg hx).trans (if_neg hx).symm) (asking host before.length) (before ++ k :: after)
  -- Both would return the same for it, as a name that is not plain does not see its own value.
  have hsame := hread true
  rw [answer, halike.read hk, ← answer, hread false] at hsame
  cases hsame

/-! ### All keys

A list of keys is delivered as a whole exactly if each of them is. -/

/-- The call to return delivers all its parameters, at every site and whatever their values are, exactly if their keys
are plain. -/
theorem delivers_iff [Inhabited σ] {keys : List String} (hdistinct : keys.Nodup) (hkeys : discard ∉ keys) :
    AlwaysDelivered σ keys ↔ ∀ key ∈ keys, Address.IsPlain key := by
  constructor
  · intro h key hmem
    obtain ⟨before, after, rfl⟩ := List.append_of_mem hmem
    exact isPlain_of_delivers default hkeys h
  · rintro hnames p w f below hsite params rfl hplain
    exact hsite.delivers hplain hdistinct hkeys hnames

/-- Two plain keys deliver their values to the caller's two names, in order. -/
theorem delivers_iff_swapper :
    ∃ n, Pool.swapper.performCall ⟨returnAction, [("p", .str "7"), ("q", .str "8")], ""⟩ = (n, true) ∧
      n.scopes.env? ⟨1, 0⟩ = some ⟨[("a", .str "7"), ("c", .str "kept"), ("b", .str "8")], some ⟨0, 0⟩⟩ := by
  have hw : ⟨Pool.swapper.thread, []⟩ ∈ (Pool.swapper.within [] 0).workers := Multiset.mem_cons_self _ 0
  have hsite := Site.mk Pool.swapper_reachable hw rfl rfl rfl (by decide)
  have hkeys : ∀ key ∈ ["p", "q"], Address.IsPlain key := by decide
  have hplain : ∀ e ∈ [("p", Value.str "7"), ("q", Value.str "8")], parameterAddress? e.2 = none := by decide
  obtain ⟨n, hn, hreturns⟩ := (delivers_iff (by decide) (by decide)).2 hkeys _ _ _ _ hsite _ rfl hplain ""
  obtain ⟨env, hbefore, hafter⟩ := hreturns.caller
  cases hbefore
  exact ⟨n, hn, hafter⟩

/-- A key with a point in it delivers the empty text. -/
theorem point_not_delivered :
    ∃ n, (asking () 0).performCall ⟨returnAction, [("a.b", .num (.int 1))], ""⟩ = (n, true) ∧
      n.lookup "r" = some (.str "") :=
  ⟨_, rfl, rfl⟩

end Sequencer
