import Mathlib.Tactic.SplitIfs
import Sequencer.Stack

/-!
# Failed operations change nothing

An operation on a decorated name first finds out all that it needs and then makes one change. Whatever
goes wrong before the change leaves the machine as it was. There is one exception: a store that fails
aborts the request, if the address does not tolerate that, and then the message of the failure is the
error of the request. A call resolves its parameters before it puts a frame on the stack, so that a
parameter that cannot be read leaves nothing behind either.
-/

namespace Sequencer
namespace Machine

variable {σ : Type}

/-! ## Failures at addresses

An operation at an address fails at one place only, and has not written anything by then. -/

/-- An operation on an address has failed, and has at most aborted the request for the failure of a store. -/
structure FailsAt (m : Machine σ) (a : Address) (e : StorageError) (n : Machine σ) : Prop where
  eq_fail : n = m.fail e
  fatal : ∀ p reason, e = .provider p reason → a.fatal = true

section Addresses

variable {m n : Machine σ} {a : Address} {e : StorageError}

/-- A failure of any other kind than that of a store leaves no mark. -/
theorem FailsAt.of_unmarked (a : Address) (h : ∀ p reason, e ≠ .provider p reason) : m.FailsAt a e m where
  eq_fail := by
    cases e with
    | provider p reason => exact absurd rfl (h p reason)
    | _ => rfl
  fatal p reason he := absurd he (h p reason)

/-- A failure that shows was not tolerated, and leaves no more than an abort behind. -/
theorem settle_error {α : Type} {instead : α} {r : Except StorageError (Machine σ × α)}
    (h : m.settle a instead r = (n, .error e)) : m.FailsAt a e n := by
  cases r with
  | ok x => simp [settle] at h
  | error e' =>
    simp only [settle] at h
    split_ifs at h with ht
    · simp at h
    · obtain ⟨rfl, rfl⟩ : m.fail e' = n ∧ e' = e := by simpa using h
      refine ⟨rfl, ?_⟩
      rintro p reason rfl
      simpa [Address.tolerates] using ht

/-- Reading without a failure leaves the machine alone. -/
theorem readAddress_ok {found : Option Value} (h : m.readAddress a = (n, .ok found)) : n = m := by
  unfold readAddress settle at h
  cases hf : m.fetch a with
  | ok v =>
    rw [hf] at h
    exact (Prod.mk.inj h).1.symm
  | error e =>
    simp only [hf] at h
    split_ifs at h
    · exact (Prod.mk.inj h).1.symm
    · simp at h

/-- Reading fails at its own address. -/
theorem readAddress_error (h : m.readAddress a = (n, .error e)) : m.FailsAt a e n := settle_error h

theorem writeAddress_error {v : Value} (h : m.writeAddress a v = (n, .error e)) : m.FailsAt a e n :=
  settle_error h

/-- The whole variable is as fatal as the part. -/
theorem FailsAt.of_container (h : m.FailsAt a.container e n) : m.FailsAt a e n := ⟨h.eq_fail, h.fatal⟩

/-- Where a part is asked for, the whole variable is read, or the operation fails for it. -/
theorem readContainer_cases {o : Machine σ} {found : Except StorageError (Option Value)}
    (h : m.readAddress a.container = (o, found)) :
    (∃ e, found = .error e ∧ m.FailsAt a e o) ∨ ∃ c, found = .ok c ∧ o = m := by
  cases found with
  | error e => exact .inl ⟨e, rfl, (readAddress_error h).of_container⟩
  | ok c => exact .inr ⟨c, rfl, readAddress_ok h⟩

/-- A path that cannot be followed is no failure of a store. -/
theorem updated_error {c : Option Value} {path : String} {v : Value} (h : updated c path v = .error e) :
    ∀ p reason, e ≠ .provider p reason := by
  rintro p reason rfl
  unfold updated at h
  split at h
  · cases h
  · split at h <;> cases h

/-- Saving at a path fails at the whole variable, or between reading and writing it, where nothing is written yet. -/
theorem saveAddress_error {v : Value} (h : m.saveAddress a v = (n, .error e)) : m.FailsAt a e n := by
  unfold saveAddress at h
  split_ifs at h
  · obtain ⟨rfl, rfl⟩ : m = n ∧ StorageError.readOnly a.name = e := by simpa using h
    exact .of_unmarked a (by simp)
  · cases hp : a.path with
    | none =>
      rw [hp] at h
      exact writeAddress_error h
    | some path =>
      -- the machine is still `m` when the whole variable is written back
      simp only [hp] at h
      rcases hr : m.readAddress a.container with ⟨o, found⟩
      rw [hr] at h
      rcases readContainer_cases hr with ⟨e', rfl, he⟩ | ⟨c, rfl, rfl⟩
      · cases h
        exact he
      · cases hu : updated c path v with
        | ok c' =>
          simp only [hu] at h
          exact writeAddress_error h
        | error e' =>
          obtain ⟨rfl, rfl⟩ : o = n ∧ e' = e := by simpa [hu] using h
          exact .of_unmarked a (updated_error hu)

/-- Deleting does so as well. -/
theorem deleteAddress_error (h : m.deleteAddress a = (n, .error e)) : m.FailsAt a e n := by
  unfold deleteAddress at h
  split_ifs at h
  · obtain ⟨rfl, rfl⟩ : m = n ∧ StorageError.readOnly a.name = e := by simpa using h
    exact .of_unmarked a (by simp)
  · cases hp : a.path with
    | none =>
      rw [hp] at h
      exact settle_error h
    | some path =>
      simp only [hp] at h
      rcases hr : m.readAddress a.container with ⟨o, found⟩
      rw [hr] at h
      -- With a path, a failure is that of reading the whole, of writing it back, or of the removal in between.
      rcases readContainer_cases hr with ⟨e', rfl, he⟩ | ⟨c, rfl, rfl⟩
      · cases h
        exact he
      · cases c with
        | none => simp at h
        | some c =>
          rcases hc : c.removePath path with ⟨c', removed⟩
          simp only [hc] at h
          cases removed with
          | ok _ => exact writeAddress_error h
          | error reason =>
            obtain ⟨rfl, rfl⟩ : o = n ∧ StorageError.path path reason = e := by simpa using h
            exact .of_unmarked a (by simp)

end Addresses

/-! ## Failures at decorated names

A name that cannot be read as an address fails without any address. -/

/-- An operation on a decorated name has failed with `e` and left `n` of the machine `m`: all is as it was,
but a failing store may have aborted the request, if the address is fatal. -/
structure Refused (m : Machine σ) (name : String) (e : StorageError) (n : Machine σ) : Prop where
  thread : n.thread = m.thread
  scopes : n.scopes = m.scopes
  store : n.store = m.store
  request : { n.request with error := m.request.error, aborted := m.request.aborted } = m.request
  host : n.world.host = m.world.host
  cause : n = m ∨ ∃ a p reason, Address.parse name.toList = .ok a ∧ a.fatal = true ∧
    e = .provider p reason ∧ n = m.abort e.message

section Names

variable {m n : Machine σ} {name : String} {e : StorageError}

/-- A failure at an address is one of the name that is read as it. -/
theorem FailsAt.refused {a : Address} (hname : Address.parse name.toList = .ok a) (h : m.FailsAt a e n) :
    m.Refused name e n := by
  obtain ⟨rfl, hfatal⟩ := h
  cases e with
  | provider p reason =>
    exact ⟨rfl, rfl, rfl, rfl, rfl, .inr ⟨a, p, reason, hname, hfatal p reason rfl, rfl, rfl⟩⟩
  | _ => exact ⟨rfl, rfl, rfl, rfl, rfl, .inl rfl⟩

theorem Refused.refl : m.Refused name e m := ⟨rfl, rfl, rfl, rfl, rfl, .inl rfl⟩

/-- Reading that succeeds changes nothing at all. -/
theorem read_ok {found : Option Value} (h : m.read name = (n, .ok found)) : n = m := by
  unfold read at h
  cases hname : Address.parse name.toList with
  | ok a =>
    rw [hname] at h
    exact readAddress_ok h
  | error e => simp [hname] at h

theorem read_refused (h : m.read name = (n, .error e)) : m.Refused name e n := by
  unfold read at h
  cases hname : Address.parse name.toList with
  | ok a =>
    rw [hname] at h
    exact (readAddress_error h).refused hname
  | error e' =>
    obtain ⟨rfl, -⟩ : m = n ∧ StorageError.address e' = e := by simpa [hname] using h
    exact .refl

theorem save_refused {v : Value} (h : m.save name v = (n, .error e)) : m.Refused name e n := by
  unfold save at h
  cases hname : Address.parse name.toList with
  | ok a =>
    rw [hname] at h
    exact (saveAddress_error h).refused hname
  | error e' =>
    obtain ⟨rfl, -⟩ : m = n ∧ StorageError.address e' = e := by simpa [hname] using h
    exact .refl

theorem delete_refused (h : m.delete name = (n, .error e)) : m.Refused name e n := by
  unfold delete at h
  cases hname : Address.parse name.toList with
  | ok a =>
    rw [hname] at h
    exact (deleteAddress_error h).refused hname
  | error e' =>
    obtain ⟨rfl, -⟩ : m = n ∧ StorageError.address e' = e := by simpa [hname] using h
    exact .refl

end Names

/-! ## Failing calls

The parameters are resolved in the order of their names, up to the first one that fails. -/

/-- Parameters of which one cannot be read: those before it can, and it is an address that is refused. -/
def Unresolved (m : Machine σ) (params : Table Value) (e : StorageError) (n : Machine σ) : Prop :=
  ∃ before key v after name resolved, params = before ++ (key, v) :: after ∧
    m.resolve before = (m, .ok resolved) ∧ parameterAddress? v = some name ∧
    m.read name = (n, .error e) ∧ m.Refused name e n

section Parameters

variable {m n : Machine σ} {params : Table Value} {e : StorageError}

/-- A parameter with a value of its own goes in front of what the parameters behind it come to. -/
theorem resolve_cons_of_plain (key : String) {v : Value} (hv : parameterAddress? v = none) :
    m.resolve ((key, v) :: params) = Prod.map id (Except.map ((key, v) :: ·)) (m.resolve params) := by
  simp only [resolve, hv]
  rcases m.resolve params with ⟨o, _ | rest⟩ <;> rfl

/-- A parameter that is read joins those that come after it. -/
theorem resolve_cons_of_read (key : String) {v : Value} {name : String} {found : Option Value}
    (hv : parameterAddress? v = some name) (hr : m.read name = (m, .ok found)) :
    m.resolve ((key, v) :: params) =
      Prod.map id (Except.map ((key, found.getD .null) :: ·)) (m.resolve params) := by
  simp only [resolve, hv, hr]
  rcases m.resolve params with ⟨o, _ | rest⟩ <;> rfl

/-- At the first parameter that cannot be read, the machine is as reading it has left it. -/
theorem resolve_cons_of_refused (key : String) {v : Value} {name : String}
    (hv : parameterAddress? v = some name) (hr : m.read name = (n, .error e)) :
    m.resolve ((key, v) :: params) = (n, .error e) := by
  simp only [resolve, hv, hr]

/-- The first of some parameters is refused, or it comes to a value and the machine is as it was. -/
theorem resolve_cons (m : Machine σ) (key : String) (v : Value) :
    (∃ name n e, parameterAddress? v = some name ∧ m.read name = (n, .error e)) ∨
      ∃ v', ∀ params, m.resolve ((key, v) :: params) =
        Prod.map id (Except.map ((key, v') :: ·)) (m.resolve params) := by
  cases hv : parameterAddress? v with
  | none => exact .inr ⟨v, fun _ => resolve_cons_of_plain key hv⟩
  | some name =>
    cases hr : m.read name with
    | mk n found =>
      cases found with
      | error e => exact .inl ⟨name, n, e, rfl, hr⟩
      | ok found =>
        obtain rfl := read_ok hr
        exact .inr ⟨found.getD .null, fun _ => resolve_cons_of_read key hv hr⟩

/-- The first parameter that cannot be read is what makes the parameters fail. The induction is on the
parameters: those that can be read leave the machine alone, so that the failure is one of `m` itself. -/
theorem resolve_error (h : m.resolve params = (n, .error e)) : m.Unresolved params e n := by
  induction params with
  | nil => simp [resolve] at h
  | cons entry params ih =>
    obtain ⟨key, v⟩ := entry
    obtain ⟨name, o, e', hv, hr⟩ | ⟨v', hcons⟩ := m.resolve_cons key v
    · obtain ⟨rfl, rfl⟩ : o = n ∧ e' = e := by simpa [resolve_cons_of_refused key hv hr] using h
      -- The first parameter is the one that fails, or it is resolved, and a later one fails.
      exact ⟨[], key, v, params, name, [], rfl, rfl, hv, hr, read_refused hr⟩
    · rw [hcons params] at h
      have hrest : m.resolve params = (n, .error e) := by
        rcases hp : m.resolve params with ⟨o, e' | rest⟩
        · obtain ⟨rfl, rfl⟩ : o = n ∧ e' = e := by simpa [hp, Except.map] using h
          rfl
        · simp [hp, Except.map] at h
      obtain ⟨before, key', v'', after, name, resolved, rfl, hb, hfailed⟩ := ih hrest
      have hkey : m.resolve ((key, v) :: before) = (m, .ok ((key, v') :: resolved)) := by
        rw [hcons before, hb]
        rfl
      exact ⟨(key, v) :: before, key', v'', after, name, _, rfl, hkey, hfailed⟩

/-- No frame is pushed, since all parameters are resolved before. -/
theorem call_error {action : String} {results : List String} (h : m.call action results params = (n, .error e)) :
    m.Unresolved params e n := by
  unfold call at h
  split at h
  · simp at h
  · next hp =>
    obtain ⟨rfl, he⟩ := Prod.mk.inj h
    cases he
    exact resolve_error hp

end Parameters

/-! ## All together

What follows for the three operations and for calls: but for an abort nothing is changed. -/

/-- A save or a delete that fails leaves everything as it was, and so does a call that fails, whichever of
its parameters it is that cannot be read: no frame is pushed, no scope allocated and no variable
changed. Only the failure of a store at a fatal address leaves a mark, the abort of the request. -/
theorem failure_changes_nothing (m : Machine σ) :
    (∀ name v n e, m.save name v = (n, .error e) → m.Refused name e n) ∧
    (∀ name n e, m.delete name = (n, .error e) → m.Refused name e n) ∧
    ∀ action results params n e, m.call action results params = (n, .error e) → m.Unresolved params e n := by
  refine ⟨?_, ?_, ?_⟩
  · intro name v n e h
    exact save_refused h
  · intro name n e h
    exact delete_refused h
  · intro action results params n e h
    exact call_error h

/-- A request without a session, before its first frame. -/
def guest : Machine Unit :=
  (World.new (.ofProperties []) (.new [("x", .obj [])] none) ()).enter

/-- The session that a save needs is missing; the path of a removal names nothing; and the second parameter
of a call is in a scope that is not there. -/
theorem failure_changes_nothing_guest :
    (∃ n, guest.save "session:x.y" .null = (n, .error (.provider .session (.noSession "x"))) ∧
      n.aborted = true ∧ guest.Refused "session:x.y" (.provider .session (.noSession "x")) n) ∧
    (∃ n, guest.delete "x.." = (n, .error (.path "." .empty)) ∧
      guest.Refused "x.." (.path "." .empty) n) ∧
    ∃ n, guest.call "A" [] [("a", .str "@x"), ("b", .str "@1:x")] = (n, .error (.noAncestor 1)) ∧
      guest.Unresolved [("a", .str "@x"), ("b", .str "@1:x")] (.noAncestor 1) n := by
  obtain ⟨hsave, hdelete, hcall⟩ := failure_changes_nothing guest
  refine ⟨⟨_, rfl, rfl, ?_⟩, ⟨_, rfl, ?_⟩, ⟨_, rfl, ?_⟩⟩
  · exact hsave "session:x.y" .null _ _ rfl
  · exact hdelete "x.." _ _ rfl
  · exact hcall "A" [] _ _ _ rfl

end Machine
end Sequencer
