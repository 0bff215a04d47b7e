import Sequencer.Proofs.Homes
import Sequencer.Proofs.WhileLoop

/-!
# The loop over a collection visits a snapshot

The elements of the collection are read once, when the frame of the loop is on the stack for the first time. Each pass
then gives the scope of the loop the next of them, whatever the body has done in between: to the collection, to the
variables, or with loops of its own that use the same names. The passes before a last one are all alike, so that a run
is told by the elements that are visited, and by how the loop ends after them.
-/

namespace Sequencer

/-! ## Snapshots of collections

The collection is read once, before the first pass, and the passes go over what was read. -/

/-- The elements of what an address has read, with their keys. -/
def elementsOf (collection : Option Value) : List (String × Value) := collection.elim [] Value.elements

/-- The key of an element of a list is its position. -/
theorem getElem?_elementsOf_arr (vs : List Value) (i : Nat) :
    (elementsOf (some (.arr vs)))[i]? = vs[i]?.map fun v => (toString i, v) := by
  show (vs.zipIdx.map fun p => (toString p.2, p.1))[i]? = _
  rw [List.getElem?_map, List.getElem?_zipIdx, Option.map_map, Nat.zero_add]
  rfl

/-- Nothing, and a value that is neither a list nor an object, has no elements. -/
theorem elementsOf_scalar {collection : Option Value} (harr : ∀ vs, collection ≠ some (.arr vs))
    (hobj : ∀ fields, collection ≠ some (.obj fields)) : elementsOf collection = [] := by
  cases collection with
  | none => rfl
  | some v =>
    cases v with
    | arr vs => exact absurd rfl (harr vs)
    | obj fields => exact absurd rfl (hobj fields)
    | _ => rfl

/-- The variable that has the key of an element. -/
def RangeSpec.keyVariable (c : RangeSpec) : String := c.key.getD Machine.keyName

/-- The variable that has the element. -/
def RangeSpec.valueVariable (c : RangeSpec) : String := c.value.getD Machine.valueName

namespace Machine

variable {σ : Type}

/-! ## Visits

A visit binds an element and runs the body. What the loop does is a row of visits, which ends where one of them ends
it. -/

/-- Gives an element, its key and its position to the variables of a loop. -/
def bindItem (m : Machine σ) (key value : String) (index : Nat) (item : String × Value) : Machine σ :=
  m.bindAll [(key, .str item.1), (value, item.2), (indexName, .num (.int index))]

/-- Passes for some elements in order, the first of which has a position. Each pass runs the body to its end, and then
the frame of the loop begins again. -/
inductive Visits (e : Engine σ) (key value : String) (level : Nat) :
    Nat → Machine σ → List (String × Value) → Machine σ → Prop
  | nil {index m} : Visits e key value level index m [] m
  | cons {index m item items n o} (body : RunsBody e level (m.bindItem key value index item) n .finished)
      (ha : n.aborted = false) (rest : Visits e key value level (index + 1) n.rewind items o) :
      Visits e key value level index m (item :: items) o

/-- How a loop over some elements ends: after all of them, or in the pass for one of them. If that pass fails, the
frame and what is above it go without a result. -/
inductive Ranges (e : Engine σ) (key value : String) (level index : Nat) (m : Machine σ)
    (items : List (String × Value)) : Machine σ → Bool → Prop
  | exhausted {n} (visits : Visits e key value level index m items n) :
      Ranges e key value level index m items n.lastReturn true
  | stopped {before item after n o} (split : items = before ++ item :: after)
      (visits : Visits e key value level index m before n)
      (body : RunsBody e level (n.bindItem key value (index + before.length) item) o .stopped)
      (ha : o.aborted = false) : Ranges e key value level index m items (o.withBreak none) true
  | failed {before item after n o} (split : items = before ++ item :: after)
      (visits : Visits e key value level index m before n)
      (run : RunsCycle e (n.bindItem key value (index + before.length) item) level o false) :
      Ranges e key value level index m items (o.unwind level) false

/-- The variables of a loop in its scope are those of an element, and the scope is the one that the body sees. -/
structure Bound (m : Machine σ) (scope : ScopeId) (key value : String) (index : Nat) (item : String × Value) :
    Prop where
  active : m.currentScope = scope
  key : m.scopes.getLocal? scope key = some (.str item.1)
  value : m.scopes.getLocal? scope value = some item.2
  index : m.scopes.getLocal? scope indexName = some (.num (.int index))

section

variable {e : Engine σ} {key value : String} {level index : Nat} {m n o : Machine σ} {item : String × Value}
  {items : List (String × Value)} {ok : Bool}

theorem quiet_bindItem (m : Machine σ) (key value : String) (index : Nat) (item : String × Value) :
    m.Quiet (m.bindItem key value index item) := quiet_bindAll m _

/-- In a live scope the variables are bound, one by one. -/
theorem bound_bindItem (hlive : m.scopes.isLive m.currentScope = true) (hkv : key ≠ value) (hki : key ≠ indexName)
    (hvi : value ≠ indexName) : (m.bindItem key value index item).Bound m.currentScope key value index item := by
  have hscopes : (m.bindItem key value index item).scopes =
      ((m.scopes.set m.currentScope key (.str item.1)).set m.currentScope value item.2).set m.currentScope indexName
        (.num (.int index)) := rfl
  have hstays : ∀ (a : Arena) name v, (a.set m.currentScope name v).isLive m.currentScope = a.isLive m.currentScope :=
    fun a name v => Arena.isLive_congr (Arena.bare_set a _ name v) _
  refine ⟨rfl, ?_, ?_, ?_⟩
  · rw [hscopes, Arena.getLocal?_set, if_neg (fun h => hki h.2), Arena.getLocal?_set, if_neg (fun h => hkv h.2),
      Arena.getLocal?_set, if_pos ⟨rfl, rfl⟩, if_pos hlive]
  · rw [hscopes, Arena.getLocal?_set, if_neg (fun h => hvi h.2), Arena.getLocal?_set, if_pos ⟨rfl, rfl⟩, hstays,
      if_pos hlive]
  · rw [hscopes, Arena.getLocal?_set, if_pos ⟨rfl, rfl⟩, hstays, hstays, if_pos hlive]

/-! ## Passes are visits

The loop of the interpreter takes one element after the other off its list. -/

/-- After a pass the rest is a loop over the elements that are left. -/
theorem Ranges.cons (body : RunsBody e level (m.bindItem key value index item) n .finished)
    (ha : n.aborted = false) (rest : Ranges e key value level (index + 1) n.rewind items o ok) :
    Ranges e key value level index m (item :: items) o ok := by
  cases rest with
  | exhausted visits => exact .exhausted (.cons body ha visits)
  | @stopped before item' after p q split visits run hq =>
    -- Positions are counted from the first element on.
    have hindex : index + 1 + before.length = index + (item :: before).length := by
      rw [List.length_cons]
      omega
    rw [hindex] at run
    exact .stopped (congrArg (item :: ·) split) (.cons body ha visits) run hq
  | @failed before item' after p q split visits run =>
    have hindex : index + 1 + before.length = index + (item :: before).length := by
      rw [List.length_cons]
      omega
    rw [hindex] at run
    exact .failed (congrArg (item :: ·) split) (.cons body ha visits) run

variable {f : Frame} {below : List Frame}

theorem beforePass_over_nil (m : Machine σ) (index : Nat) (key value : String) :
    m.beforePass (.over [] index key value) = (m, .done) := rfl

theorem beforePass_over_cons (m : Machine σ) (item : String × Value) (items : List (String × Value)) (index : Nat)
    (key value : String) :
    m.beforePass (.over (item :: items) index key value) = (m.bindItem key value index item, .run) := rfl

/-- The frame of a loop is at its beginning when a pass begins, and again after the pass. -/
theorem Heads.bindItem (h : Heads f below m) (key value : String) (index : Nat) (item : String × Value) :
    Heads f below (m.bindItem key value index item) :=
  h.quiet (quiet_bindItem m key value index item)

theorem Heads.visited (h : Heads f below m)
    (body : RunsBody e below.length (m.bindItem key value index item) n .finished) (ha : n.aborted = false) :
    Heads f below n.rewind := by
  obtain ⟨activation, hatop⟩ := (h.bindItem key value index item).atop
  exact h.rewind (body.leaves hatop ha)

theorem Visits.heads (h : Visits e key value below.length index m items n) (hm : Heads f below m) :
    Heads f below n := by
  induction h with
  | nil => exact hm
  | cons body ha rest ih =>
    exact ih (hm.visited body ha)

/-- Passes over a list are visits, by recursion on them. -/
theorem Passes.ranges : ∀ {m : Machine σ} {loop : Loop} {f : Frame} {n : Machine σ} {ok : Bool},
    Passes e m loop f n ok → ∀ {below : List Frame} {items : List (String × Value)} {index : Nat},
      loop = .over items index key value → Heads f below m →
      Ranges e key value below.length index m items n ok
  | m, _, f, o, ok, .done hb hr, below, items, index, hloop, h => by
    subst hloop
    cases items with
    | nil =>
      cases hb
      rw [h.returnFrame] at hr
      cases hr
      exact .exhausted .nil
    | cons item items => cases hb
  | m, _, f, _, _, .refused hb, below, items, index, hloop, h => by
    subst hloop
    cases items <;> cases hb
  | m, _, f, _, _, .failed hb run, below, items, index, hloop, h => by
    subst hloop
    cases items with
    | nil => cases hb
    | cons item items =>
      cases hb
      rw [h.depth_pred] at run ⊢
      exact .failed (List.nil_append _).symm .nil run
  | m, _, f, _, _, .broken hb run hmark, below, items, index, hloop, h => by
    subst hloop
    cases items with
    | nil => cases hb
    | cons item items =>
      cases hb
      have hn := h.bindItem key value index item
      rw [h.depth_pred, ← hn.depth_pred] at run hmark
      obtain ⟨p, hbody, hp, rfl⟩ := hn.broken_iff.1 ⟨_, run, hmark⟩
      exact .stopped (List.nil_append _).symm .nil hbody hp
  | m, _, f, _, _, .repeated hb run hmark hnext rest, below, items, index, hloop, h => by
    cases items with
    | nil =>
      subst hloop
      cases hb
    | cons item items =>
      subst hloop
      cases hb
      cases hnext
      have hn := h.bindItem key value index item
      rw [h.depth_pred, ← hn.depth_pred] at run hmark
      obtain ⟨p, hbody, hp, he⟩ := hn.unbroken_iff.1 ⟨_, _, run, hmark, rfl⟩
      rw [he] at rest
      -- the elements that are left do not depend on what the pass did
      exact .cons hbody hp (rest.ranges rfl (h.visited hbody hp))
  | m, _, f, _, _, .stuck hb run hmark hnext, below, items, index, hloop, h => by
    subst hloop
    cases hnext

/-- After some visits the loop goes on with the elements that are left. -/
theorem Visits.passes (h : Visits e key value below.length index m items n) (hm : Heads f below m)
    {after : List (String × Value)}
    (rest : Passes e n (.over after (index + items.length) key value) f o ok) :
    Passes e m (.over (items ++ after) index key value) f o ok := by
  induction h with
  | nil => exact rest
  | @cons index m item items n p body ha visits ih =>
    have hn := hm.bindItem key value index item
    obtain ⟨q, r, run, hmark, he⟩ := hn.unbroken_iff.2 ⟨n, body, ha, rfl⟩
    rw [hn.depth_pred, ← hm.depth_pred] at run hmark
    rw [List.length_cons, ← Nat.add_assoc, Nat.add_right_comm] at rest
    refine .repeated (beforePass_over_cons m item _ index key value) run hmark rfl ?_
    rw [← he]
    exact ih (hm.visited body ha) rest

/-- Visits are passes over a list. -/
theorem Ranges.passes (h : Ranges e key value below.length index m items n ok) (hm : Heads f below m) :
    Passes e m (.over items index key value) f n ok := by
  cases h with
  | @exhausted n visits =>
    rw [← List.append_nil items]
    exact visits.passes hm (.done (beforePass_over_nil _ _ _ _) (visits.heads hm).returnFrame)
  | @stopped before item after n o split visits body ha =>
    subst split
    have hn := (visits.heads hm).bindItem key value (index + before.length) item
    obtain ⟨p, run, hmark⟩ := hn.broken_iff.2 ⟨o, body, ha, rfl⟩
    rw [hn.depth_pred, ← (visits.heads hm).depth_pred] at run hmark
    exact visits.passes hm (.broken (beforePass_over_cons _ _ _ _ _ _) run hmark)
  | @failed before item after n o split visits run =>
    subst split
    rw [← (visits.heads hm).depth_pred] at run ⊢
    exact visits.passes hm (.failed (beforePass_over_cons _ _ _ _ _ _) run)

theorem passes_iff_ranges (h : Heads f below m) : Passes e m (.over items index key value) f n ok ↔
    Ranges e key value below.length index m items n ok :=
  ⟨fun run => run.ranges rfl h, fun run => run.passes h⟩

/-! ## The scope of the loop lives

In all passes the elements are bound in the same scope, which lives until the loop is done. -/

theorem Heads.stance (h : Heads f below m) (ds : List Driver) (others : Multiset (Worker σ)) :
    Stance below (⟨below.length, f⟩ :: ds) 0 others m where
  rests := by
    obtain ⟨activation, hf⟩ := h.frames
    rw [hf]
    exact (RestsOn.refl below).cons _
  loops := le_rfl
  held := Multiset.zero_le _

/-- A pass is one of the orders of turns, with the loop that it belongs to. -/
theorem Heads.leads (h : Heads f below m) (body : RunsBody e below.length m n .finished) (ha : n.aborted = false)
    (ds : List Driver) (others : Multiset (Worker σ)) :
    Leads below (⟨below.length, f⟩ :: ds) 0 others m n.rewind := by
  obtain ⟨p, q, run, hmark, he⟩ := h.unbroken_iff.2 ⟨n, body, ha, rfl⟩
  rw [h.depth_pred] at run hmark
  obtain ⟨hrun, -⟩ := run.leads rfl (h.stance ds others)
  obtain ⟨hbreak, hcore, -⟩ := hrun.takeBreak hmark
  rw [he]
  -- the loop puts its frame back, whatever it loops over
  have hput : (q.repush f).afterPass (.over [] 0 "" "") = (q.repush f, some (.over [] 1 "" "")) := rfl
  exact (hbreak.again hcore hput).1

theorem Visits.reachable (h : Visits e key value below.length index m items n) (hm : Heads f below m) {ds : List Driver}
    {others : Multiset (Worker σ)} (hp : (m.within (⟨below.length, f⟩ :: ds) others).Reachable) :
    (n.within (⟨below.length, f⟩ :: ds) others).Reachable := by
  induction h with
  | nil => exact hp
  | @cons index m item items n p body ha visits ih =>
    have hbind := (hm.stance ds others).refl.calm (quiet_bindItem m key value index item).calm
    have hpass := (hm.bindItem key value index item).leads body ha ds others
    exact ih (hm.visited body ha) ((hbind.trans hpass).above.reachable hp)

/-- A thread works in a scope that lives. -/
theorem isLive_currentScope {ds : List Driver} {others : Multiset (Worker σ)} (hp : (m.within ds others).Reachable) :
    m.scopes.isLive m.currentScope = true := by
  have hacc := hp.sound.accounted (w := ⟨m.thread, ds⟩) rfl
  rw [currentScope_eq]
  exact hacc.isLive_topScope

/-! ## The whole loop

From the command to the end of the loop, in any pool. -/

variable {c : RangeSpec} {params : Table Value} {collection : Option Value}

theorem currentScope_disown (m : Machine σ) : m.disown.currentScope = m.currentScope := by
  unfold disown currentScope
  cases hf : m.frames with
  | nil => simp [hf]
  | cons f below => simp [withFrames, frames]

theorem Quiet.disown (h : m.Quiet n) : m.disown.Quiet n.disown := by
  have hf := h.frames
  unfold Machine.disown
  rw [hf]
  cases m.frames with
  | nil => exact h
  | cons f below => exact h.withFrames _

/-- The elements are read when the frame of the loop is on the stack. -/
theorem enterRange_of_read (hparams : m.resolve c.params = (n, .ok params))
    (hread : ((n.push c.body (splitNames c.result) params).setLooping true).read c.range = (o, .ok collection)) :
    m.enterRange c = (o, some (.over (elementsOf collection) 0 c.keyVariable c.valueVariable)) := by
  unfold enterRange enterLoop
  rw [hparams]
  simp only [hread]
  cases collection <;> rfl

/-- The first pass begins with a frame of its own, whose scope the loop holds. -/
theorem heads_enterRange (hb : m.thread.breakAt = none) (hparams : m.resolve c.params = (n, .ok params))
    (hread : ((n.push c.body (splitNames c.result) params).setLooping true).read c.range = (o, .ok collection)) :
    ∃ f, o.disown.frames = f :: m.frames ∧ Heads f m.frames o.disown := by
  have hresolve := quiet_resolve m c.params
  rw [hparams] at hresolve
  obtain ⟨f, hf, -, hheads⟩ := heads_openLoop (m := n) c.body (splitNames c.result) params (hresolve.breakAt.trans hb)
  have hopen := (quiet_read ((n.push c.body (splitNames c.result) params).setLooping true) c.range).disown
  rw [hread, disown_enterLoop] at hopen
  rw [hresolve.frames] at hf hheads
  exact ⟨f, hopen.frames.trans hf, hheads.quiet hopen⟩

/-- A loop over the elements of a collection visits them in order. -/
theorem performs_iff_ranges (hb : m.thread.breakAt = none) (hparams : m.resolve c.params = (n, .ok params))
    (hread : ((n.push c.body (splitNames c.result) params).setLooping true).read c.range = (o, .ok collection))
    {p : Machine σ} : Performs e m (.loopRange c) p ok ↔
      ∃ q, Ranges e c.keyVariable c.valueVariable m.depth 0 o.disown (elementsOf collection) q ok ∧
        p = q.withScopes (·.release o.currentScope) := by
  -- The loop heads its frame, with the scope that it gives up at the end.
  obtain ⟨f, hf, hheads⟩ := heads_enterRange hb hparams hread
  have hscope : o.currentScope = f.scope := (currentScope_disown o).symm.trans hheads.currentScope
  have henter := enterRange_of_read hparams hread
  rw [hscope]
  constructor
  · intro h
    cases h with
    | immediate hi => cases hi
    | refused hl => cases henter.symm.trans (Option.some.inj hl)
    | looped hl run =>
      cases henter.symm.trans (Option.some.inj hl)
      cases run with
      | frameless hnil => cases hf.symm.trans hnil
      | driven hg run =>
        cases hf.symm.trans hg
        exact ⟨_, (passes_iff_ranges hheads).1 run, rfl⟩
  · rintro ⟨q, h, rfl⟩
    exact .looped (congrArg some henter) (.driven hf ((passes_iff_ranges hheads).2 h))

/-- The loop is one of those that its thread is in, and its scope is among those that are held. -/
theorem reachable_enterRange {ds : List Driver} {others : Multiset (Worker σ)} (hp : (m.within ds others).Reachable)
    (hparams : m.resolve c.params = (n, .ok params))
    (hread : ((n.push c.body (splitNames c.result) params).setLooping true).read c.range = (o, .ok collection))
    (hf : o.disown.frames = f :: below) : (o.disown.within (⟨below.length, f⟩ :: ds) others).Reachable := by
  have hl : m.entered (.loopRange c) = some (o, some _) := congrArg some (enterRange_of_read hparams hread)
  have hentered := entered_cases hl
  obtain ⟨g, hg, howns, -⟩ := hentered.frame
  have hbase : Driver.base ds ≤ m.frames.length :=
    (hp.sound.stacked ⟨m.thread, ds⟩ (Multiset.mem_cons_self _ _)).base_le
  have hs : Stance m.frames ds 0 others m := ⟨.refl _, hbase, Multiset.zero_le _⟩
  have ho : (o.within ds others).Reachable := (hentered.leads hs).above.reachable hp
  rw [disown_of_cons hg] at hf
  cases hf
  exact ho.step (@Pool.Step.turn σ (o.within ds others) ⟨o.thread, ds⟩ others _ _ rfl (.beginLoop hg howns hbase))

end

end Machine

namespace Pool

open Machine

variable {σ : Type}

/-- A loop over a collection visits the elements that it has when the loop begins, each once and in order, whatever
the body does. A run ends after all of them, with the one return of the frame that publishes its results; or in the
pass for one of them, which has ended the loop or has failed. Each pass begins with the variables of its element in the
scope of the loop, and its own return publishes nothing. The elements are those of a list under their positions, or the
fields of an object in their order; anything else has none. That no break is pending when the loop begins is so in every
run, see `Engine.unbroken_at_work`. -/
theorem range_visits_snapshot {p : Pool σ} (hp : p.Reachable) {w : Worker σ} {others : Multiset (Worker σ)}
    (hw : p.workers = w ::ₘ others) (hb : w.thread.breakAt = none) (e : Engine σ) (c : RangeSpec)
    (hkv : c.keyVariable ≠ c.valueVariable) (hki : c.keyVariable ≠ indexName) (hvi : c.valueVariable ≠ indexName)
    {params : Table Value} {q o : Machine σ} {collection : Option Value}
    (hparams : (p.machine w).resolve c.params = (q, .ok params))
    (hread : ((q.push c.body (splitNames c.result) params).setLooping true).read c.range = (o, .ok collection)) :
    (∀ n ok, (∃ fuel, perform e fuel (p.machine w) (.loopRange c) = some (n, ok)) ↔
      ∃ r, Ranges e c.keyVariable c.valueVariable w.thread.frames.length 0 o.disown (elementsOf collection) r ok ∧
        n = r.withScopes (·.release o.currentScope)) ∧
    (∀ before item after r, elementsOf collection = before ++ item :: after →
      Visits e c.keyVariable c.valueVariable w.thread.frames.length 0 o.disown before r →
      (r.bindItem c.keyVariable c.valueVariable before.length item).Bound o.currentScope c.keyVariable
          c.valueVariable before.length item ∧
        ∀ n, RunsBody e w.thread.frames.length
            (r.bindItem c.keyVariable c.valueVariable before.length item) n .finished → n.aborted = false →
          n.returnFrame none = (n.withFrames w.thread.frames, true)) ∧
    (∀ (vs : List Value) (i : Nat), collection = some (.arr vs) →
      (elementsOf collection)[i]? = vs[i]?.map fun v => (toString i, v)) ∧
    (∀ fields, collection = some (.obj fields) → elementsOf collection = fields) ∧
    ((∀ vs, collection ≠ some (.arr vs)) → (∀ fields, collection ≠ some (.obj fields)) →
      elementsOf collection = []) := by
  -- the frame of the loop is on top of those of the thread, with the scope in which all elements are bound
  obtain ⟨f, hf, hheads⟩ := heads_enterRange (m := p.machine w) hb hparams hread
  have hscope : o.currentScope = f.scope := (currentScope_disown o).symm.trans hheads.currentScope
  have hpool : p = (p.machine w).within w.loops others := by
    obtain ⟨world, workers⟩ := p
    obtain rfl : workers = w ::ₘ others := hw
    rfl
  have hstart := reachable_enterRange (hpool ▸ hp) hparams hread hf
  refine ⟨fun n ok => ?_, fun before item after r _ visits => ⟨?_, fun n body ha => ?_⟩, ?_, ?_, elementsOf_scalar⟩
  · rw [perform_iff, performs_iff_ranges hb hparams hread]
    exact Iff.rfl
  -- after any number of visits the machine is one of a pool that can be reached, where the scope lives
  · have hlive := isLive_currentScope (visits.reachable hheads hstart)
    have hactive : r.currentScope = o.currentScope := (visits.heads hheads).currentScope.trans hscope.symm
    rw [← hactive]
    exact bound_bindItem hlive hkv hki hvi
  -- a body that has come to its end leaves the frame, and nothing is published by that
  · obtain ⟨activation, hatop⟩ := ((visits.heads hheads).bindItem _ _ before.length item).atop
    have hn : Atop (f.again activation) w.thread.frames n := body.leaves hatop ha
    obtain ⟨g, hg, -⟩ := hn.frames
    obtain ⟨_, _, he⟩ := returnFrame_eq hg none
    exact Prod.ext (hn.leave hheads.lent) (by rw [he])
  · rintro vs i rfl
    exact getElem?_elementsOf_arr vs i
  · rintro fields rfl
    rfl

/-- A loop over two letters, the last of which it gives to its caller. -/
def overLetters : RangeSpec := ⟨"ITEMS", [("ITEMS", .arr [.str "a", .str "b"])], "BODY", "FOR_VALUE", none, none⟩

/-- An engine with one command, which the host program has and which does nothing. -/
def hosting : Engine Unit :=
  ⟨[("tick", .host ⟨true, fun _ _ => .ok fun _ => .simple () true⟩)], fun _ => .error .notFound⟩

/-- A thread that is about to begin a loop, with an instruction in its body. -/
def letterByLetter : Machine Unit := beginner [("BODY_1", .str "tick:")]

/-- Both letters are visited, and the body dispatches its instruction for each. -/
theorem range_visits_snapshot_letters : ∃ o n r : Machine Unit,
    (∃ fuel, perform hosting fuel letterByLetter (.loopRange overLetters) = some (n, true)) ∧
    (n.lookup "FOR_VALUE").map Value.text = some "b" ∧ n.world.journal.count (.prepared 0 "BODY_1") = 2 ∧
    Ranges hosting "FOR_KEY" "FOR_VALUE" 1 0 o.disown [("0", .str "a"), ("1", .str "b")] r true ∧
    n = r.withScopes (·.release o.currentScope) := by
  have hp : (letterByLetter.within [] 0).Reachable := reachable_beginner _
  obtain ⟨o, hread⟩ : ∃ o, ((letterByLetter.push "BODY" (splitNames "FOR_VALUE") overLetters.params).setLooping
      true).read overLetters.range = (o, .ok (some (.arr [.str "a", .str "b"]))) := ⟨_, rfl⟩
  have hw : (letterByLetter.within [] 0).workers = ⟨letterByLetter.thread, []⟩ ::ₘ 0 := rfl
  obtain ⟨hrun, -⟩ := range_visits_snapshot hp hw rfl hosting overLetters (by decide) (by decide) (by decide)
    (q := letterByLetter) rfl hread
  have hresult : (perform hosting 20 letterByLetter (.loopRange overLetters)).map
      (fun r => (r.2, (r.1.lookup "FOR_VALUE").map Value.text, r.1.world.journal.count (.prepared 0 "BODY_1"))) =
        some (true, some "b", 2) := by
    decide +kernel
  obtain ⟨⟨n, ok⟩, hn, he⟩ := Option.map_eq_some_iff.1 hresult
  have hok : ok = true := congrArg Prod.fst he
  have hlast : (n.lookup "FOR_VALUE").map Value.text = some "b" := congrArg (fun r => r.2.1) he
  have htwice : n.world.journal.count (.prepared 0 "BODY_1") = 2 := congrArg (fun r => r.2.2) he
  subst hok
  obtain ⟨r, hranges, hrelease⟩ := (hrun n true).1 ⟨20, hn⟩
  exact ⟨o, n, r, ⟨20, hn⟩, hlast, htwice, hranges, hrelease⟩

end Pool
end Sequencer
