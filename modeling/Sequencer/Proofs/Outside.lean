import Sequencer.Proofs.Homes
import Sequencer.Proofs.Return

/-!
# Plain names outside of all frames

Where there is no request, and so no frame either, a plain name is that of a property when it is saved or deleted. When
it is read it is looked for in the outermost scope first. This scope is there even so, and other levels write to it:
`request` does, and so does `0`. A variable of it hides the property from then on.
-/

namespace Sequencer
namespace Machine

variable {σ : Type} {m : Machine σ} {x : String}

/-- The property is saved. -/
theorem save_outside (ho : m.outside = true) (hx : Address.IsPlain x) (v : Value) :
    m.save x v = (m.putAt v (.property x), .ok ()) := by
  have hhome : m.home? ⟨.current, "", x, none, true⟩ = some (.property x) := congrArg some (if_pos ho)
  rw [save, Address.parse_of_isPlain hx]
  exact writeAddress_eq hhome v

/-- The machine without a property. -/
def dropProperty (m : Machine σ) (x : String) : Machine σ :=
  m.withStore fun s => { s with properties := Table.erase s.properties x }

theorem delete_outside (ho : m.outside = true) (hx : Address.IsPlain x) :
    m.delete x = (m.dropProperty x, .ok ()) := by
  have herase : m.erase ⟨.current, "", x, none, true⟩ = .ok (m.dropProperty x) := if_pos ho
  rw [delete, Address.parse_of_isPlain hx]
  simp only [deleteAddress, Address.readOnly, Bool.false_eq_true, if_false, herase, settle]

/-- What is read is the variable of the outermost scope, or else the property. -/
theorem read_outside (ho : m.outside = true) (hroot : m.scopes.parent? m.request.root = none)
    (hx : Address.IsPlain x) :
    m.read x = (m, .ok ((m.request.global? x).or (m.at? (.property x)))) := by
  have hlookup : m.lookup x = (m.request.global? x).or (m.at? (.property x)) := by
    rw [lookup, currentScope_of_outside ho]
    exact lookupIn_root hroot x
  rw [read_of_isPlain m hx, hlookup]

/-- What is saved under a plain name is what is read under it, and what is deleted is gone. -/
def Mirrors (m : Machine σ) (x : String) : Prop :=
  (∀ v n, m.save x v = (n, .ok ()) → n.read x = (n, .ok (some v))) ∧
    ∀ n, m.delete x = (n, .ok ()) → n.read x = (n, .ok none)

end Machine

namespace Pool

variable {σ : Type}

/-- Outside of all frames of a detached request, saving and deleting under a plain name always succeed and do so to the
property, but a variable of the outermost scope is read before and after. So reading mirrors the other two exactly if
this scope has no variable of the name. -/
theorem mirrors_outside_iff {p : Pool σ} (h : p.Reachable) {w : Worker σ} (hdetached : p.world.request.detached = true)
    (hframes : w.thread.frames = []) {x : String} (hx : Address.IsPlain x) :
    (∀ v, ∃ n, (p.machine w).save x v = (n, .ok ()) ∧ n.at? (.property x) = some v ∧
      n.read x = (n, .ok ((p.world.request.global? x).or (some v)))) ∧
    (∃ n, (p.machine w).delete x = (n, .ok ()) ∧ n.at? (.property x) = none ∧
      n.read x = (n, .ok (p.world.request.global? x))) ∧
    ((p.machine w).Mirrors x ↔ p.world.request.global? x = none) := by
  have ho : (p.machine w).outside = true := by
    simp [Machine.outside, Machine.request, Machine.frames, machine, hdetached, hframes]
  -- what is read from a detached request goes to its root scope first, and then to the properties
  have hroot : (p.machine w).scopes.parent? (p.machine w).request.root = none := h.parent?_root
  have hglobal : (p.machine w).request.global? x = p.world.request.global? x := rfl
  rw [← hglobal]
  generalize p.machine w = m at *
  -- a property that is saved is found under its name, behind the globals
  have hput : ∀ v, (m.putAt v (.property x)).at? (.property x) = some v := fun v => m.at?_putAt_self v trivial
  have hsave : ∀ v, (m.putAt v (.property x)).read x =
      (m.putAt v (.property x), .ok ((m.request.global? x).or (some v))) := by
    intro v
    have hread := Machine.read_outside (m := m.putAt v (.property x)) ho hroot hx
    rw [hput] at hread
    exact hread
  -- and one that is deleted is not
  have hdelete : (m.dropProperty x).read x = (m.dropProperty x, .ok (m.request.global? x)) := by
    have hread := Machine.read_outside (m := m.dropProperty x) ho hroot hx
    have hgone : (m.dropProperty x).at? (.property x) = none := Table.get?_erase_self _ x
    rw [hgone, Option.or_none] at hread
    exact hread
  refine ⟨fun v => ⟨_, Machine.save_outside ho hx v, hput v, hsave v⟩,
    ⟨_, Machine.delete_outside ho hx, Table.get?_erase_self _ x, hdelete⟩, ?_, ?_⟩
  · -- a name that is deleted is read as missing, unless a global variable is in its place
    rintro ⟨-, hgone⟩
    have hnone := hgone _ (Machine.delete_outside ho hx)
    rw [hdelete] at hnone
    exact Except.ok.inj (Prod.mk.inj hnone).2
  -- without a global variable in front of it, the property is what is read
  · intro hnone
    refine ⟨fun v n hn => ?_, fun n hn => ?_⟩
    · rw [Machine.save_outside ho hx v] at hn
      cases hn
      rw [hsave, hnone]
      rfl
    · rw [Machine.delete_outside ho hx] at hn
      cases hn
      rw [hdelete, hnone]

/-- A thread without a frame, where there is no request. -/
def idle : Machine Unit := (World.new (.ofProperties []) Request.outside ()).enter

/-- As long as nobody has written to the outermost scope, reading mirrors saving. -/
theorem mirrors_outside_idle : idle.Mirrors "x" := by
  have hbegin : Initial (⟨World.new (.ofProperties []) Request.outside (), 0⟩ : Pool Unit) :=
    ⟨rfl, [], none, true, rfl⟩
  have hp : Reachable (⟨idle.world, {⟨idle.thread, []⟩}⟩ : Pool Unit) :=
    Reachable.step ⟨_, hbegin, .refl⟩ .enter
  obtain ⟨-, -, hiff⟩ := mirrors_outside_iff (w := ⟨idle.thread, []⟩) hp rfl rfl (x := "x") (by decide)
  exact hiff.2 rfl

/-- After a save at the level `request`, what is saved under the plain name is not read, and neither is it gone. -/
theorem request_hides_property : ∃ m, idle.save "request:x" (.num (.int 1)) = (m, .ok ()) ∧
    ∃ n, m.save "x" (.num (.int 2)) = (n, .ok ()) ∧ n.read "x" = (n, .ok (some (.num (.int 1)))) ∧
      ∃ o, n.delete "x" = (o, .ok ()) ∧ o.read "x" = (o, .ok (some (.num (.int 1)))) :=
  ⟨_, rfl, _, rfl, rfl, _, rfl, rfl⟩

end Pool
end Sequencer
