import Sequencer.Expr.Eval
import Sequencer.Frame
import Sequencer.Instruction
import Sequencer.Template

/-!
# Machines

What a run works on. The world is shared by all threads of a request: the store that outlives the
request, the request itself, what the host program keeps, and a journal of what was done. A thread owns
its stack of frames. A machine is a thread at work in the world.
-/

namespace Sequencer

/-! ## The world -/

/-- What outlives a request. -/
structure Store where
  /-- The instructions of all actions, and settings of any other kind. -/
  properties : Table Value
  /-- The cache, in buckets. -/
  cache : Table (Table Value)
  /-- The values of each session. -/
  sessions : Table (Table Value)
  deriving Repr

/-- A store with the given properties alone. -/
def Store.ofProperties (properties : Table Value) : Store := ⟨properties, [], []⟩

/-- A request and its scopes. -/
structure Request where
  scopes : Arena
  /-- The outermost scope. -/
  root : ScopeId
  /-- The session it belongs to. -/
  session : Option String
  error : Option String
  /-- Whether every run for the request is to stop. -/
  aborted : Bool
  /-- Whether there is no request at all: outside of all frames, saving then means setting a property. -/
  detached : Bool
  deriving Repr

namespace Request

/-- A request whose outermost scope holds the given variables. -/
def new (params : Table Value) (session : Option String) : Request :=
  let (scopes, root) := Arena.new.alloc none params
  ⟨scopes, root, session, none, false, false⟩

/-- What stands for a request where there is none. -/
def outside : Request := { new [] none with detached := true }

def record (r : Request) (message : String) : Request := { r with error := some message }

/-- Records an error and stops every run for the request. -/
def abort (r : Request) (message : String) : Request := { r.record message with aborted := true }

/-- A variable of the outermost scope. -/
def global? (r : Request) (name : String) : Option Value := r.scopes.getLocal? r.root name

end Request

/-- What a run did. -/
inductive Event where
  /-- A thread began an activation of an action. -/
  | entered (thread activation : Nat) (action : String)
  /-- A thread asked for an instruction, at some depth and with some number of scopes. -/
  | fetched (thread activation : Nat) (key : String) (depth live : Nat)
  /-- A command was prepared. -/
  | prepared (thread : Nat) (key : String)
  /-- A prepared command was tried. -/
  | attempted (thread : Nat) (key : String)
  /-- A thread waited for some units of time. -/
  | waited (thread : Nat) (units : Int64)
  /-- A parameter file was looked for. -/
  | opened (path : String)
  /-- The request was aborted by a thread. -/
  | aborted (thread : Nat) (message : String)
  deriving Repr, DecidableEq

/-- What all threads of a request share. -/
structure World (σ : Type) where
  store : Store
  request : Request
  /-- What the commands of the host program keep. -/
  host : σ
  /-- What was done, the latest first. -/
  journal : List Event
  /-- How many activations there have been. -/
  activations : Nat
  /-- How many threads there have been. -/
  threads : Nat

/-- A world in which nothing has been done. -/
def World.new {σ : Type} (store : Store) (request : Request) (host : σ) : World σ :=
  ⟨store, request, host, [], 0, 0⟩

/-! ## Threads -/

/-- Work that a cycle starts on the side and waits for before it ends. -/
inductive Job (σ : Type) where
  /-- An instruction on a copy of the stack. -/
  | instruction (thread : Nat) (frames : List Frame) (instruction : Instruction) (key : String)
  /-- Work of the host program, which says whether it succeeded. -/
  | host (work : σ → σ × Bool)

/-- The jobs that a cycle has to wait for. -/
structure Barrier (σ : Type) where
  pending : List (Job σ)

namespace Barrier

variable {σ : Type}

def new : Barrier σ := ⟨[]⟩

/-- Adds a job behind the others. -/
def register (b : Barrier σ) (job : Job σ) : Barrier σ := ⟨b.pending ++ [job]⟩

end Barrier

/-- One line of control. -/
structure Thread (σ : Type) where
  id : Nat
  /-- The stack; the active frame comes first. -/
  frames : List Frame
  /-- The barrier of the innermost cycle at work. -/
  barrier : Option (Barrier σ)
  /-- The loop that is to end: how many frames are below its own. -/
  breakAt : Option Nat

/-- A thread without frames. -/
def Thread.new {σ : Type} (id : Nat) : Thread σ := ⟨id, [], none, none⟩

/-! ## Machines -/

/-- A thread in the world. -/
structure Machine (σ : Type) where
  world : World σ
  thread : Thread σ

/-- A new thread in a world, without frames. -/
def World.enter {σ : Type} (w : World σ) : Machine σ :=
  ⟨{ w with threads := w.threads + 1 }, Thread.new w.threads⟩

namespace Machine

variable {σ : Type}

def store (m : Machine σ) : Store := m.world.store

def request (m : Machine σ) : Request := m.world.request

def scopes (m : Machine σ) : Arena := m.world.request.scopes

/-- The stack, the active frame first. -/
def frames (m : Machine σ) : List Frame := m.thread.frames

/-- How many frames are on the stack. -/
def depth (m : Machine σ) : Nat := m.frames.length

/-- The level of the active frame: zero for the lowest, and `-1` where there is none. -/
def level (m : Machine σ) : Int := (m.depth : Int) - 1

def withStore (m : Machine σ) (f : Store → Store) : Machine σ :=
  { m with world := { m.world with store := f m.world.store } }

def withRequest (m : Machine σ) (f : Request → Request) : Machine σ :=
  { m with world := { m.world with request := f m.world.request } }

def withScopes (m : Machine σ) (f : Arena → Arena) : Machine σ :=
  m.withRequest fun r => { r with scopes := f r.scopes }

def withFrames (m : Machine σ) (frames : List Frame) : Machine σ :=
  { m with thread := { m.thread with frames } }

def withBarrier (m : Machine σ) (barrier : Option (Barrier σ)) : Machine σ :=
  { m with thread := { m.thread with barrier } }

def withBreak (m : Machine σ) (breakAt : Option Nat) : Machine σ :=
  { m with thread := { m.thread with breakAt } }

/-- Writes an event into the journal. -/
def note (m : Machine σ) (e : Event) : Machine σ :=
  { m with world := { m.world with journal := e :: m.world.journal } }

def aborted (m : Machine σ) : Bool := m.request.aborted

/-- Aborts the request. -/
def abort (m : Machine σ) (message : String) : Machine σ :=
  (m.withRequest (·.abort message)).note (.aborted m.thread.id message)

/-! ## Looking up -/

/-- The scope of the active frame, or the outermost one. -/
def currentScope (m : Machine σ) : ScopeId :=
  match m.frames with
  | f :: _ => f.scope
  | [] => m.request.root

/-- What a name stands for in a scope: a variable of its chain or else a property. -/
def lookupIn (m : Machine σ) (scope : ScopeId) : Lookup := fun name =>
  match m.scopes.get? scope name with
  | some v => some v
  | none => Table.get? m.store.properties name

/-- What a name stands for. -/
def lookup (m : Machine σ) : Lookup := m.lookupIn m.currentScope

/-- The value of an expression. -/
def eval (m : Machine σ) (text : String) : Except EvalError Value :=
  Expr.evalText m.lookup text.toList

/-- The truth of an expression in a scope. -/
def testIn (m : Machine σ) (scope : ScopeId) (text : String) : Except EvalError Bool :=
  Expr.testText (m.lookupIn scope) text.toList

/-- The truth of an expression. -/
def test (m : Machine σ) (text : String) : Except EvalError Bool := m.testIn m.currentScope text

/-- A text with its placeholders expanded. -/
def expand (m : Machine σ) (text : String) : Except EvalError String :=
  match Template.expand m.lookup text.toList with
  | .ok s => .ok (String.ofList s)
  | .error e => .error e

end Machine
end Sequencer
