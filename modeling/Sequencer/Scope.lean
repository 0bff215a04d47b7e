import Sequencer.Value.Basic

/-!
# Scopes

A scope is a set of variables with a link to the scope around it. The scopes of a request live in the
slots of an arena. A slot counts the references to its scope: one for whoever allocated it, one for
each scope inside it, and one for each further holder. A scope whose last reference goes is
taken out of its slot, and its link releases the scope around it in turn. The slot is then used again
under a new generation, so that an old handle never reaches the new scope.
-/

namespace Sequencer

/-- A handle on a scope: a slot and the generation in which the scope was put into it. -/
structure ScopeId where
  index : Nat
  generation : UInt32
  deriving Repr, DecidableEq

/-- The variables of one scope and the scope around it. -/
structure Environment where
  vars : Table Value
  parent : Option ScopeId
  deriving Repr

/-- A place for a scope. -/
structure Slot where
  env : Option Environment
  generation : UInt32
  /-- How many references the scope has. -/
  refs : Nat
  deriving Repr

/-- The scopes of a request. -/
structure Arena where
  slots : Array Slot
  /-- The empty slots, the one that was freed last in front. -/
  free : List Nat
  /-- How many scopes there are. -/
  live : Nat
  deriving Repr

namespace Arena

/-- An arena without scopes. -/
def new : Arena := ⟨#[], [], 0⟩

/-- The slot of a handle, as long as its scope is in it. -/
def slot? (a : Arena) (id : ScopeId) : Option Slot :=
  a.slots[id.index]?.filter fun s => s.generation = id.generation && s.env.isSome

/-- The scope of a handle, unless it has been released. -/
def env? (a : Arena) (id : ScopeId) : Option Environment := (a.slot? id).bind (·.env)

/-- Whether the scope of a handle is there. -/
def isLive (a : Arena) (id : ScopeId) : Bool := (a.env? id).isSome

/-- The arena with another content of one slot. -/
def setSlot (a : Arena) (index : Nat) (s : Slot) : Arena :=
  { a with slots := a.slots.setIfInBounds index s }

/-! ## References -/

/-- Adds a reference. A released scope takes none. -/
def retain (a : Arena) (id : ScopeId) : Arena :=
  match a.slot? id with
  | some s => a.setSlot id.index { s with refs := s.refs + 1 }
  | none => a

/-- Puts a scope into a slot, with one reference, and adds one to the scope around it. -/
def alloc (a : Arena) (parent : Option ScopeId) (vars : Table Value) : Arena × ScopeId :=
  let a := match parent with
    | some p => a.retain p
    | none => a
  let env := some ⟨vars, parent⟩
  match a.free with
  | index :: free =>
    let generation := match a.slots[index]? with
      | some s => s.generation
      | none => 0
    ({ slots := a.slots.setIfInBounds index ⟨env, generation, 1⟩, free, live := a.live + 1 },
      ⟨index, generation⟩)
  | [] =>
    ({ slots := a.slots.push ⟨env, 0, 1⟩, free := [], live := a.live + 1 }, ⟨a.slots.size, 0⟩)

/-- Empties a slot: the next scope in it belongs to another generation. -/
def vacate (a : Arena) (index : Nat) (s : Slot) : Arena :=
  { slots := a.slots.setIfInBounds index ⟨none, s.generation + 1, 0⟩
    free := index :: a.free
    live := a.live - 1 }

/-- Takes references away along a chain, for as long as scopes lose their last one. -/
def releaseChain : Nat → Arena → Option ScopeId → Arena
  | 0, a, _ => a
  | _ + 1, a, none => a
  | fuel + 1, a, some id =>
    match a.slot? id with
    | none => a
    | some s =>
      if s.refs > 1 then a.setSlot id.index { s with refs := s.refs - 1 }
      else releaseChain fuel (a.vacate id.index s) (s.env.bind (·.parent))

/-- Takes a reference away. Every scope that this empties leaves one slot fewer to empty, which bounds
the length of the chain. -/
def release (a : Arena) (id : ScopeId) : Arena := a.releaseChain (a.slots.size + 1) (some id)

/-! ## Chains -/

/-- The scope around a scope. -/
def parent? (a : Arena) (id : ScopeId) : Option ScopeId := (a.env? id).bind (·.parent)

/-- The scope that many links up. -/
def ancestor? (a : Arena) (id : ScopeId) : Nat → Option ScopeId
  | 0 => some id
  | n + 1 => (a.parent? id).bind fun p => a.ancestor? p n

/-- The scopes from a handle outwards, up to one that has been released. -/
def chainFrom (a : Arena) : Nat → Option ScopeId → List Environment
  | 0, _ => []
  | _ + 1, none => []
  | fuel + 1, some id =>
    match a.env? id with
    | some env => env :: a.chainFrom fuel env.parent
    | none => []

/-- The scopes from a handle outwards. There are no more than slots. -/
def chain (a : Arena) (id : ScopeId) : List Environment := a.chainFrom (a.slots.size + 1) (some id)

/-! ## Variables -/

/-- The value of a name, looked for from a handle outwards. -/
def getFrom (a : Arena) : Nat → Option ScopeId → String → Option Value
  | 0, _, _ => none
  | _ + 1, none, _ => none
  | fuel + 1, some id, name =>
    match a.env? id with
    | none => none
    | some env =>
      match Table.get? env.vars name with
      | some v => some v
      | none => a.getFrom fuel env.parent name

/-- The value of a name in the innermost scope that has it. -/
def get? (a : Arena) (id : ScopeId) (name : String) : Option Value :=
  a.getFrom (a.slots.size + 1) (some id) name

/-- The value of a name in one scope alone. -/
def getLocal? (a : Arena) (id : ScopeId) (name : String) : Option Value :=
  (a.env? id).bind fun env => Table.get? env.vars name

/-- Changes the variables of a scope. A released scope takes no change. -/
def modifyVars (a : Arena) (id : ScopeId) (f : Table Value → Table Value) : Arena :=
  match a.slot? id with
  | some s => a.setSlot id.index { s with env := s.env.map fun e => { e with vars := f e.vars } }
  | none => a

/-- Gives a name a value in one scope. -/
def set (a : Arena) (id : ScopeId) (name : String) (v : Value) : Arena :=
  a.modifyVars id fun vars => Table.put vars name v

/-- Takes a name out of one scope. -/
def remove (a : Arena) (id : ScopeId) (name : String) : Arena :=
  a.modifyVars id fun vars => Table.erase vars name

/-! ## Laws -/

theorem parent?_of_env? {a : Arena} {id : ScopeId} {env : Environment} (h : a.env? id = some env) :
    a.parent? id = env.parent := by
  unfold parent?
  rw [h]
  rfl

theorem getLocal?_of_env? {a : Arena} {id : ScopeId} {env : Environment} (h : a.env? id = some env)
    (name : String) : a.getLocal? id name = Table.get? env.vars name := by
  unfold getLocal?
  rw [h]
  rfl

/-- A name is looked for in the first scope of a chain, and then in the rest of the chain. -/
theorem getFrom_some (a : Arena) (fuel : Nat) (id : ScopeId) (name : String) :
    a.getFrom (fuel + 1) (some id) name = (a.getLocal? id name).or (a.getFrom fuel (a.parent? id) name) := by
  rw [getFrom]
  cases h : a.env? id with
  | none =>
    unfold getLocal? parent?
    rw [h]
    cases fuel <;> rfl
  | some env =>
    rw [getLocal?_of_env? h, parent?_of_env? h]
    simp only
    cases Table.get? env.vars name <;> rfl

end Arena
end Sequencer
