import Mathlib.Data.Bool.Count
import Sequencer.Proofs.Homes

/-!
# Two saves at a time

A save at a path reads the whole variable, changes the part, and writes the whole back. Each of the two
accesses is atomic, the save is not: between them another context may write the same variable. Of two
saves of different fields that overlap in this way, the one that writes last decides what all of the
variable is, and the field of the other one is what it was before. Saves one after the other keep both
fields.
-/

namespace Sequencer

variable {σ : Type}

/-! ## The steps of a save

A save at a path is a load of the whole variable, and a store of the updated one. Each takes the lock of the arena for
itself. -/

/-- How far a save at a path has come. -/
inductive Stage where
  | ready
  /-- The whole variable has been read; this is what is to be written. -/
  | loaded (c : Value)
  | done
  | failed (e : StorageError)

/-- Whether a save that has come so far has failed. -/
def Stage.outcome : Stage → Except StorageError Unit
  | .failed e => .error e
  | _ => .ok ()

/-- A value to be saved at a path into a variable. -/
structure PathSave where
  address : Address
  path : String
  value : Value
  at_path : address.path = some path
  writable : address.readOnly = false

/-- One atomic step of a save: it reads the variable and changes the part in a copy of its own, or it writes the
copy back. -/
def PathSave.step (p : PathSave) (m : Machine σ) : Stage → Machine σ × Stage
  | .ready =>
    match m.readAddress p.address.container with
    | (m, .error e) => (m, .failed e)
    | (m, .ok c) =>
      match Machine.updated c p.path p.value with
      | .ok c => (m, .loaded c)
      | .error e => (m, .failed e)
  | .loaded c =>
    match m.writeAddress p.address c with
    | (m, .ok ()) => (m, .done)
    | (m, .error e) => (m, .failed e)
  | stage => (m, stage)

/-- A save that nobody interrupts is its two steps. -/
theorem PathSave.saveAddress_eq (p : PathSave) (m : Machine σ) :
    m.saveAddress p.address p.value =
      let (n, stage) := p.step m .ready
      Prod.map id Stage.outcome (p.step n stage) := by
  unfold Machine.saveAddress
  rw [if_neg (by simp [p.writable]), p.at_path]
  simp only [step]
  -- The first step reads the container and changes the part; the second one writes it.
  cases m.readAddress p.address.container with
  | mk n found =>
    cases found with
    | error e => rfl
    | ok c =>
      cases hu : Machine.updated c p.path p.value with
      | error e => simp [hu, Stage.outcome]
      | ok c' =>
        cases hw : n.writeAddress p.address c' with
        | mk o written => cases written <;> simp [hu, hw, Stage.outcome]

/-! ## Two contexts

Both contexts see the same variable at the same place, which may be in a scope that they share or in a store. -/

/-- What two contexts have in common: all of a request, or the store that outlives requests. -/
inductive Shared where
  | request
  | store

namespace Shared

/-- Two machines that see the same of what they share. -/
def Agree : Shared → Machine σ → Machine σ → Prop
  | .request, m, n => m.world = n.world
  | .store, m, n => m.store = n.store

/-- A machine after another one has become `n`. -/
def pass : Shared → Machine σ → Machine σ → Machine σ
  | .request, n, m => ⟨n.world, m.thread⟩
  | .store, n, m => m.withStore fun _ => n.store

/-- Whether a home belongs to what is shared: two requests have no scopes in common. -/
def Covers : Shared → Home → Prop
  | .store, .binding _ _ => False
  | _, _ => True

theorem pass_self {shared : Shared} {m n : Machine σ} (h : shared.Agree n m) : shared.pass n m = m := by
  cases shared with
  | request =>
    have hworld : n.world = m.world := h
    simp only [pass, hworld]
  | store =>
    have hstore : n.store = m.store := h
    simp only [pass, hstore]
    rfl

/-- What one context puts at a shared home, the other one finds put there. -/
theorem pass_putAt {shared : Shared} {m n : Machine σ} {home : Home} (h : shared.Agree n m)
    (hcovers : shared.Covers home) (c : Value) : shared.pass (n.putAt c home) m = m.putAt c home := by
  cases shared with
  | request =>
    obtain ⟨world, thread⟩ := n
    obtain rfl : world = m.world := h
    cases home <;> rfl
  | store =>
    obtain ⟨⟨store, _, _, _, _, _⟩, _⟩ := n
    obtain rfl : store = m.store := h
    cases home with
    | binding scope name => exact hcovers.elim
    | property name | sessionValue session key | cached bucket key => rfl

theorem agree_putAt {shared : Shared} {m n : Machine σ} {home : Home} (h : shared.Agree m n)
    (hcovers : shared.Covers home) (c : Value) : shared.Agree (m.putAt c home) (n.putAt c home) := by
  cases shared with
  | request =>
    obtain ⟨world, thread⟩ := m
    obtain rfl : world = n.world := h
    cases home <;> rfl
  | store =>
    obtain ⟨⟨store, _, _, _, _, _⟩, _⟩ := m
    obtain rfl : store = n.store := h
    cases home with
    | binding scope name => exact hcovers.elim
    | property name | sessionValue session key | cached bucket key => rfl

end Shared

/-- Two saves at a time; a Boolean says which of the two contexts is meant. -/
structure Duel (σ : Type) where
  shared : Shared
  save : Bool → PathSave
  machine : Bool → Machine σ
  stage : Bool → Stage

namespace Duel

/-- The next step of one save. The other context sees what the step has done to all that is shared. -/
def step (d : Duel σ) (s : Bool) : Duel σ :=
  let (m, stage) := (d.save s).step (d.machine s) (d.stage s)
  { d with
    machine := fun t => if t = s then m else d.shared.pass m (d.machine t)
    stage := Function.update d.stage s stage }

/-- Steps of the two saves in some order. -/
def run (d : Duel σ) (schedule : List Bool) : Duel σ := schedule.foldl step d

/-- What the context of one save reads at the path of another, under its own name of the variable. -/
def reading (d : Duel σ) (r s : Bool) : Except StorageError (Option Value) :=
  ((d.machine r).readAddress { (d.save r).address with path := some (d.save s).path }).2

/-- The duel with one save at another stage. -/
def staged (d : Duel σ) (s : Bool) (stage : Stage) : Duel σ :=
  { d with stage := Function.update d.stage s stage }

/-- The duel with another value at a home that both contexts see. -/
def putBoth (d : Duel σ) (c : Value) (home : Home) : Duel σ :=
  { d with machine := fun t => (d.machine t).putAt c home }

/-- Both contexts have the variable at one home, which they share and both can see. -/
structure Joined (d : Duel σ) (home : Home) : Prop where
  agree : ∀ s t, d.shared.Agree (d.machine s) (d.machine t)
  covers : d.shared.Covers home
  at_home : ∀ s, (d.machine s).home? (d.save s).address = some home
  holds : ∀ s, (d.machine s).Holds home
  outermost : ∀ s, (d.machine s).scopes.parent? (d.machine s).request.root = none
  unshadowed : ∀ s, ¬ (d.machine s).Shadowed (d.save s).address

/-- Where a save is not interrupted, its two steps are the save as a context makes it. -/
theorem run_twice {d : Duel σ} {s : Bool} (h : d.stage s = .ready) :
    ((d.run [s, s]).machine s, ((d.run [s, s]).stage s).outcome) =
      (d.machine s).saveAddress (d.save s).address (d.save s).value := by
  rw [(d.save s).saveAddress_eq]
  simp only [run, List.foldl_cons, List.foldl_nil, step, h, if_true, Function.update_self]
  rfl

namespace Joined

variable {d : Duel σ} {home : Home} (h : d.Joined home)
include h

theorem staged (s : Bool) (stage : Stage) : (d.staged s stage).Joined home :=
  ⟨h.agree, h.covers, h.at_home, h.holds, h.outermost, h.unshadowed⟩

theorem fetch_of_at? {s : Bool} {c : Value} (hc : (d.machine s).at? home = some c) :
    (d.machine s).fetch (d.save s).address = .ok (some c) :=
  Machine.fetch_of_at? (h.at_home s) (h.outermost s) (h.unshadowed s) hc

theorem at?_putBoth (c : Value) (s : Bool) : ((d.putBoth c home).machine s).at? home = some c :=
  (d.machine s).at?_putAt_self c (h.holds s)

/-! ### The two steps

A step of one context is nothing to the other, but for the variable that they share. -/

/-- Reading changes nothing but the stage. -/
theorem step_ready {s : Bool} (hstage : d.stage s = .ready) {found : Option Value} {c : Value}
    (hfetch : (d.machine s).fetch (d.save s).address = .ok found)
    (hupdate : Machine.updated found (d.save s).path (d.save s).value = .ok c) :
    d.step s = d.staged s (.loaded c) := by
  have hread : (d.machine s).readAddress (d.save s).address.container = (d.machine s, .ok found) :=
    Machine.readAddress_of_fetch hfetch
  have hmachine : (fun t => if t = s then d.machine s else d.shared.pass (d.machine s) (d.machine t)) =
      d.machine := by
    funext t
    split_ifs with ht
    · rw [ht]
    · exact Shared.pass_self (h.agree s t)
  simp only [step, hstage, PathSave.step, hread, hupdate]
  unfold Duel.staged
  rw [hmachine]

/-- Writing changes the variable for both contexts. -/
theorem step_loaded {s : Bool} {c : Value} (hstage : d.stage s = .loaded c) :
    d.step s = (d.putBoth c home).staged s .done := by
  have hmachine : (fun t => if t = s then (d.machine s).putAt c home
      else d.shared.pass ((d.machine s).putAt c home) (d.machine t)) =
      fun t => (d.machine t).putAt c home := by
    funext t
    split_ifs with ht
    · rw [ht]
    · exact Shared.pass_putAt (h.agree s t) h.covers c
  simp only [step, hstage, PathSave.step, Machine.writeAddress_eq (h.at_home s)]
  unfold Duel.staged putBoth
  rw [hmachine]

theorem putBoth (c : Value) : (d.putBoth c home).Joined home where
  agree s t := Shared.agree_putAt (h.agree s t) h.covers c
  covers := h.covers
  at_home s := ((d.machine s).home?_putAt c home _).trans (h.at_home s)
  holds s := ((d.machine s).holds_putAt c home home).2 (h.holds s)
  outermost s := by
    show ((d.machine s).putAt c home).scopes.parent? ((d.machine s).putAt c home).request.root = none
    rw [Machine.request_putAt, Arena.parent?_congr ((d.machine s).bare_putAt c home)]
    exact h.outermost s
  unshadowed s := Machine.not_shadowed_putAt (h.at_home s) (h.unshadowed s) c

end Joined

/-! ## Fields

Containers of any kind: the update at one field does not touch another one. -/

/-- The fields of a container, if there is one. -/
def fieldsOf : Option Value → Table Value
  | some (.obj fields) => fields
  | _ => []

/-- An object, or nothing that could be one. -/
def IsContainer (found : Option Value) : Prop := found = none ∨ ∃ fields, found = some (.obj fields)

theorem updated_of_container {found : Option Value} (hc : IsContainer found) {path field : String}
    (hp : pathSegments path.toList = [field]) (v : Value) :
    Machine.updated found path v = .ok (.obj (Table.put (fieldsOf found) field v)) := by
  unfold Machine.updated
  obtain rfl | ⟨fields, rfl⟩ := hc
  · simp [Value.buildPath, hp, Value.buildAt, fieldsOf, Table.put]
  · simp [Value.writePath, hp, Value.writeAt, Value.orObject, fieldsOf]

theorem readPath_field {path field : String} (hp : pathSegments path.toList = [field]) (fields : Table Value) :
    (Value.obj fields).readPath path = Table.get? fields field := by
  unfold Value.readPath
  rw [hp]
  show (Table.get? fields field).bind (Value.readAt []) = _
  cases Table.get? fields field <;> rfl

/-! ## All orders of the steps

There are six orders of the four steps. In two of them one save is done before the other begins, and in the others
both load before one stores. -/

/-- Two saves that have not begun yet, of different fields of one variable. Each finds a container, or nothing, and
none is outside of all frames while the outermost scope has a variable of the name. -/
structure Ready (d : Duel σ) (home : Home) (field : Bool → String) (found : Bool → Option Value) : Prop where
  reachable : ∀ s, ∃ p : Pool σ, p.Reachable ∧ ∃ w ∈ p.workers, d.machine s = p.machine w
  agree : ∀ s t, d.shared.Agree (d.machine s) (d.machine t)
  covers : d.shared.Covers home
  at_home : ∀ s, (d.machine s).home? (d.save s).address = some home
  unshadowed : ∀ s, ¬ (d.machine s).Shadowed (d.save s).address
  ready : ∀ s, d.stage s = .ready
  segments : ∀ s, pathSegments (d.save s).path.toList = [field s]
  distinct : ∀ s, field s ≠ field !s
  fetch : ∀ s, (d.machine s).fetch (d.save s).address = .ok (found s)
  container : ∀ s, IsContainer (found s)

/-- Two saves that are both done, after which the variable has certain fields. -/
structure Settled (d : Duel σ) (home : Home) (fields : Table Value) : Prop where
  joined : d.Joined home
  value : ∀ s, (d.machine s).at? home = some (.obj fields)
  done : ∀ s, d.stage s = .done

theorem Settled.reading {d : Duel σ} {home : Home} {fields : Table Value} (h : d.Settled home fields) {s : Bool}
    {field : String} (hp : pathSegments (d.save s).path.toList = [field]) (r : Bool) :
    d.reading r s = .ok (Table.get? fields field) := by
  have hfetch : (d.machine r).fetch { (d.save r).address with path := some (d.save s).path } =
      .ok (some (.obj fields)) := h.joined.fetch_of_at? (h.value r)
  unfold Duel.reading
  rw [Machine.readAddress_of_fetch hfetch]
  show Except.ok ((Value.obj fields).readPath (d.save s).path) = _
  rw [readPath_field hp]

/-- After the second write both saves are done, and the variable is as it was written last. -/
theorem Joined.settled {d : Duel σ} {home : Home} (h : d.Joined home) {s : Bool} {fields : Table Value}
    (hs : d.stage s = .loaded (.obj fields)) (hother : d.stage (!s) = .done) : (d.step s).Settled home fields := by
  rw [h.step_loaded hs]
  refine ⟨(h.putBoth _).staged s .done, fun t => h.at?_putBoth (.obj fields) t, fun t => ?_⟩
  show Function.update d.stage s .done t = .done
  by_cases ht : t = s
  · rw [ht, Function.update_self]
  · rw [Function.update_of_ne ht, Bool.eq_not.2 ht]
    exact hother

namespace Ready

variable {d : Duel σ} {home : Home} {field : Bool → String} {found : Bool → Option Value}
  (h : d.Ready home field found)
include h

theorem joined : d.Joined home where
  agree := h.agree
  covers := h.covers
  at_home := h.at_home
  holds s := by
    obtain ⟨p, hp, w, hw, hm⟩ := h.reachable s
    obtain ⟨rest, hrest⟩ := Multiset.exists_cons_of_mem hw
    have hacc := hp.sound.accounted hrest
    rw [← hm] at hacc
    exact hacc.holds (h.at_home s)
  outermost s := by
    obtain ⟨p, hp, w, -, hm⟩ := h.reachable s
    rw [hm]
    exact hp.parent?_root
  unshadowed := h.unshadowed

/-- The copy with its field that a save loads, of the container that it finds. -/
theorem load {d' : Duel σ} (hd : d'.Joined home) (hsave : d'.save = d.save) {s : Bool} (hs : d'.stage s = .ready)
    {c : Option Value} (hc : IsContainer c) (hfetch : (d'.machine s).fetch (d'.save s).address = .ok c) :
    d'.step s = d'.staged s (.loaded (.obj (Table.put (fieldsOf c) (field s) (d.save s).value))) := by
  apply hd.step_ready hs hfetch
  rw [hsave]
  exact updated_of_container hc (h.segments s) _

/-- One save after the other: the second one finds the field of the first one. -/
theorem settled_serial (s : Bool) : (d.run [s, s, !s, !s]).Settled home
    (Table.put (Table.put (fieldsOf (found s)) (field s) (d.save s).value) (field !s) (d.save !s).value) := by
  have hne : (!s) ≠ s := Bool.not_ne_self s
  show ((((d.step s).step s).step !s).step !s).Settled home _
  rw [h.load h.joined rfl (h.ready s) (h.container s) (h.fetch s)]
  generalize hfields : Table.put (fieldsOf (found s)) (field s) (d.save s).value = fields
  have hloaded := h.joined.staged s (.loaded (.obj fields))
  rw [hloaded.step_loaded (Function.update_self _ _ _)]
  have hwritten := hloaded.putBoth (.obj fields)
  -- The second save reads what the first one has written, with its field in it.
  have hfound := hwritten.fetch_of_at? (hloaded.at?_putBoth (.obj fields) !s)
  have hdone := hwritten.staged s .done
  rw [h.load hdone rfl (s := !s) ?_ (.inr ⟨fields, rfl⟩) hfound]
  · apply Joined.settled (hdone.staged (!s) _)
    · exact Function.update_self _ _ _
    · rw [Bool.not_not]
      exact (Function.update_of_ne hne.symm _ _).trans (Function.update_self _ _ _)
  · refine (Function.update_of_ne hne _ _).trans ?_
    exact (Function.update_of_ne hne _ _).trans (h.ready !s)

/-- Both saves read before one of them writes: the one that writes last has not seen the field of the other. -/
theorem settled_overlap (s l : Bool) : (d.run [s, !s, !l, l]).Settled home
    (Table.put (fieldsOf (found l)) (field l) (d.save l).value) := by
  let copy (t : Bool) : Table Value := Table.put (fieldsOf (found t)) (field t) (d.save t).value
  have hne : ∀ t, (!t) ≠ t := Bool.not_ne_self
  show ((((d.step s).step !s).step !l).step l).Settled home (copy l)
  rw [h.load h.joined rfl (h.ready s) (h.container s) (h.fetch s)]
  have hfirst := h.joined.staged s (.loaded (.obj (copy s)))
  have hready : (d.staged s (.loaded (.obj (copy s)))).stage (!s) = .ready :=
    (Function.update_of_ne (hne s) _ _).trans (h.ready !s)
  rw [h.load hfirst rfl hready (h.container !s) (h.fetch !s)]
  have hboth := hfirst.staged (!s) (.loaded (.obj (copy !s)))
  generalize hd' : (d.staged s (.loaded (.obj (copy s)))).staged (!s) (.loaded (.obj (copy !s))) = d' at hboth
  -- Both have read before either writes, so each has a copy with its own field only.
  have hloaded : ∀ t, d'.stage t = .loaded (.obj (copy t)) := by
    intro t
    rw [← hd']
    by_cases ht : t = s
    · rw [ht]
      exact (Function.update_of_ne (hne s).symm _ _).trans (Function.update_self _ _ _)
    · rw [Bool.eq_not.2 ht]
      exact Function.update_self _ _ _
  show ((d'.step !l).step l).Settled home (copy l)
  rw [hboth.step_loaded (hloaded !l)]
  apply Joined.settled ((hboth.putBoth _).staged (!l) .done)
  · exact (Function.update_of_ne (hne l).symm _ _).trans (hloaded l)
  · exact Function.update_self _ _ _

end Ready

/-- One save after the other. -/
def Serial (schedule : List Bool) : Prop := ∃ s, schedule = [s, s, !s, !s]

/-- Of two saves with two steps each, one comes after the other, or both read before one of them writes. -/
theorem serial_or_overlap {schedule : List Bool} (h : ∀ s, schedule.count s = 2) :
    Serial schedule ∨ ∃ s l, schedule = [s, !s, !l, l] := by
  have hlen : schedule.length = 4 := by
    rw [← List.count_not_add_count schedule true, h, h]
  obtain ⟨a, b, c, d, rfl⟩ := List.length_eq_four.1 hlen
  have htrue := h true
  revert htrue
  clear h hlen
  unfold Serial
  revert a b c d
  decide

/-- Two saves of different fields of one variable, in any order of their steps, where the two steps in a row are the
save as its context makes it: both succeed. One after the other they keep both fields. If both read the variable before
either has written it, it is as the last one to write has made it: this one's field has the new value, and the other
field what it had when the last one read it. Either context can tell. -/
theorem last_write_decides {d : Duel σ} {home : Home} {field : Bool → String} {found : Bool → Option Value}
    (h : d.Ready home field found) {schedule : List Bool} (hs : ∀ s, schedule.count s = 2) :
    (∀ s, ((d.run [s, s]).machine s, ((d.run [s, s]).stage s).outcome) =
      (d.machine s).saveAddress (d.save s).address (d.save s).value) ∧
    (∀ s, (d.run schedule).stage s = .done) ∧
    (Serial schedule → ∀ r s, (d.run schedule).reading r s = .ok (some (d.save s).value)) ∧
    (¬ Serial schedule → ∀ l, schedule.getLast? = some l → ∀ r,
      (d.run schedule).reading r l = .ok (some (d.save l).value) ∧
      (d.run schedule).reading r (!l) = .ok ((found l).bind (·.readPath (d.save !l).path))) := by
  have hsave : (d.run schedule).save = d.save := by
    unfold run
    clear hs
    induction schedule using List.reverseRecOn with
    | nil => rfl
    | append_singleton steps s ih =>
      rw [List.foldl_append]
      exact ih
  have hsegments : ∀ s, pathSegments ((d.run schedule).save s).path.toList = [field s] := by
    intro s
    rw [hsave]
    exact h.segments s
  refine ⟨fun s => run_twice (h.ready s), ?_⟩
  -- either one save is over before the other begins, or both have read before the first writes
  rcases serial_or_overlap hs with hserial | ⟨s, l, rfl⟩
  · refine ⟨?_, fun _ => ?_, fun hnot => absurd hserial hnot⟩
    · obtain ⟨s, rfl⟩ := hserial
      exact (h.settled_serial s).done
    · intro r t
      obtain ⟨s, rfl⟩ := hserial
      rw [(h.settled_serial s).reading (hsegments t) r]
      by_cases ht : t = s
      · rw [ht, Table.get?_put_of_ne _ _ (h.distinct s), Table.get?_put_self]
      · rw [Bool.eq_not.2 ht, Table.get?_put_self]
  · have hsettled := h.settled_overlap s l
    refine ⟨hsettled.done, ?_, ?_⟩
    · rintro ⟨x, hx⟩
      obtain ⟨rfl, hsame, -⟩ : s = x ∧ (!s) = x ∧ _ := by simpa using hx
      exact absurd hsame (Bool.not_ne_self s)
    · intro _ l' hl' r
      obtain rfl : l = l' := by simpa using hl'
      rw [hsettled.reading (hsegments l) r, hsettled.reading (hsegments !l) r]
      refine ⟨by rw [Table.get?_put_self], ?_⟩
      have hne : field (!l) ≠ field l := (h.distinct l).symm
      rw [Table.get?_put_of_ne _ _ hne]
      obtain hc | ⟨fields, hc⟩ := h.container l
      · rw [hc]
        rfl
      · rw [hc, Option.bind_some, readPath_field (h.segments !l)]
        rfl

/-! ### A thread and its copy

A thread and a copy of its stack share all scopes along it. So a race between them is possible, and happens. -/

/-- A thread in its first frame. -/
def rival : Machine Unit := (World.new (.ofProperties []) (.new [] none) ()).enter.push "MAIN" [] []

/-- The thread saves `1` under `x.p`, and its copy `2` under `x.q`, where no variable `x` is. -/
def rivals : Duel Unit where
  shared := .request
  save s :=
    let field := if s then "q" else "p"
    ⟨⟨.current, "", "x", some field, true⟩, field, .num (.int (if s then 2 else 1)), rfl, rfl⟩
  machine s := ⟨rival.fork.1.world, if s then rival.fork.2 else rival.thread⟩
  stage _ := .ready

theorem rivals_ready : rivals.Ready (.binding ⟨1, 0⟩ "x") (fun s => if s then "q" else "p") fun _ => none where
  reachable s := by
    have hp : (rival.within [] 0).Reachable := .begin ⟨rfl, [], none, false, rfl⟩ "MAIN" [] []
    have hfork : (rival.within [] 0).Step
        ⟨rival.fork.1.world, ⟨rival.fork.2, []⟩ ::ₘ ⟨rival.thread, []⟩ ::ₘ 0⟩ :=
      @Pool.Step.fork Unit (rival.within [] 0) ⟨rival.thread, []⟩ 0 rfl
    have hmem : (⟨if s then rival.fork.2 else rival.thread, []⟩ : Worker Unit) ∈
        (⟨rival.fork.2, []⟩ ::ₘ ⟨rival.thread, []⟩ ::ₘ 0 : Multiset (Worker Unit)) := by
      cases s <;> simp
    exact ⟨_, hp.step hfork, _, hmem, rfl⟩
  agree _ _ := rfl
  covers := trivial
  at_home s := by cases s <;> rfl
  unshadowed s := by
    rintro ⟨ho, -⟩
    cases s <;> cases ho
  ready _ := rfl
  segments s := by cases s <;> decide
  distinct s := by cases s <;> decide
  fetch s := by cases s <;> rfl
  container _ := .inl rfl

/-- The thread is the last to write, and the copy's field is gone. -/
theorem last_write_decides_rivals : (∀ s, [true, false, true, false].count s = 2) ∧
    (∀ s, (rivals.run [true, false, true, false]).stage s = .done) ∧
    (∀ s, (rivals.run [true, true, false, false]).reading s true = .ok (some (.num (.int 2)))) ∧
    ∀ r, (rivals.run [true, false, true, false]).reading r false = .ok (some (.num (.int 1))) ∧
      (rivals.run [true, false, true, false]).reading r true = .ok none := by
  have hserial : ∀ s, [true, true, false, false].count s = 2 := by decide
  have hoverlap : ∀ s, [true, false, true, false].count s = 2 := by decide
  have hnot : ¬ Serial [true, false, true, false] := by
    rintro ⟨x, hx⟩
    cases x <;> simp at hx
  obtain ⟨-, -, hboth, -⟩ := last_write_decides rivals_ready hserial
  obtain ⟨-, hdone, -, hlast⟩ := last_write_decides rivals_ready hoverlap
  exact ⟨hoverlap, hdone, fun r => hboth ⟨true, rfl⟩ r true, hlast hnot false rfl⟩

/-- So an interleaving of two saves of different fields, both of which succeed, can lose one of them. -/
theorem update_lost : ¬ ∀ (d : Duel Unit) (home : Home) (field : Bool → String) (found : Bool → Option Value)
    (schedule : List Bool), d.Ready home field found → (∀ s, schedule.count s = 2) →
    (∀ s, (d.run schedule).stage s = .done) →
    ∀ r s, (d.run schedule).reading r s = .ok (some (d.save s).value) := by
  intro hkept
  have hlost : (rivals.run [true, false, true, false]).reading false true = .ok none := rfl
  have hone := hkept rivals _ _ _ [true, false, true, false] rivals_ready (by decide)
    (fun s => by cases s <;> rfl) false true
  rw [hlost] at hone
  cases hone

end Duel
end Sequencer
