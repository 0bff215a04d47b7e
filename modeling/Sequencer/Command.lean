import Sequencer.Machine
import Sequencer.Payload

/-!
# Commands

The keyword of an instruction selects a command. A command is first prepared: its payload is checked and
becomes an invocation, which may then be tried several times. Eleven commands are built in and steer the
flow of control. A host program adds its own, which see the machine, change what the host keeps, save and
delete variables, and may abort the request or start work on the side. They do not call actions by
themselves, and the stores are those of the program: a host program that adds a store of its own is left out.
-/

namespace Sequencer

/-- What the outcome of a branch depends on. -/
inductive Predicate where
  /-- The truth of an expression. -/
  | boolean
  /-- Whether its value is empty. -/
  | empty
  /-- Whether its value is a list. -/
  | array
  deriving Repr, DecidableEq

def Predicate.keyword : Predicate → String
  | .boolean => "if"
  | .empty => "ifEmpty"
  | .array => "ifArray"

/-- The commands that are built in. -/
inductive Builtin where
  | call
  | branch (p : Predicate)
  | switch
  | loopFor
  | loopRange
  | leave
  | void
  | breakLoop
  | var
  deriving Repr, DecidableEq

namespace Builtin

def keyword : Builtin → String
  | .call => "call"
  | .branch p => p.keyword
  | .switch => "switch"
  | .loopFor => "for"
  | .loopRange => "range"
  | .leave => "return"
  | .void => "void"
  | .breakLoop => "break"
  | .var => "var"

/-- All of them. -/
def all : List Builtin :=
  [.call, .branch .boolean, .branch .empty, .branch .array, .switch, .loopFor, .loopRange, .leave,
    .void, .breakLoop, .var]

end Builtin

/-- What a host command does to a variable. -/
inductive Update where
  | save (name : String) (v : Value)
  | delete (name : String)

/-- The name of the variable, as an address. -/
def Update.target : Update → String
  | .save name _ => name
  | .delete name => name

/-- What one attempt of a host command leads to: it works on what the host keeps and on variables, may abort the request,
and may start work of its own. It puts no frame on the stack. -/
structure Effect (σ : Type) where
  host : σ
  ok : Bool
  /-- What it does to variables, one after another. A failure stops nothing: the command can tell from the machine that it
  sees what will fail, and leave the rest out. -/
  updates : List Update
  /-- The error with which it aborts the request. -/
  abort : Option String
  /-- Work it starts on the side. -/
  jobs : List (σ → σ × Bool)

/-- The effect of an attempt that changes only what the host keeps. -/
def Effect.simple {σ : Type} (host : σ) (ok : Bool) : Effect σ := ⟨host, ok, [], none, []⟩

/-- A command of the host program. It sees the machine when it is prepared, and again with each attempt. -/
structure HostCommand (σ : Type) where
  /-- Whether it starts its own work on the side. The mark for that is then ignored. -/
  isAsync : Bool
  /-- Checks a payload and says what an attempt does. Either may depend on variables. -/
  prepare : String → Machine σ → Except CommandError (Machine σ → Effect σ)

/-- A registered command. -/
inductive Command (σ : Type) where
  | builtin (b : Builtin)
  | host (c : HostCommand σ)

def Command.isAsync {σ : Type} : Command σ → Bool
  | .builtin _ => false
  | .host c => c.isAsync

/-- A command with its payload, ready to be tried. -/
inductive Invocation (σ : Type) where
  | call (c : CallSpec)
  | branch (p : Predicate) (c : BranchSpec)
  | switch (c : SwitchSpec)
  | loopFor (c : ForSpec)
  | loopRange (c : RangeSpec)
  /-- A return of some names, or of the result names if there are none. -/
  | leave (names : List String)
  | void
  | breakLoop
  | var (c : VarSpec)
  | host (run : Machine σ → Effect σ)

/-! ## Preparing -/

namespace Builtin

open Text

/-- A payload that has to hold something. -/
def require (command field : String) (missing : Bool) : Except CommandError Unit :=
  if missing then .error (.missingField command field) else .ok ()

/-- The first case of a switch that names no action. -/
def badCase? (cases : Table Value) : Option String :=
  (cases.find? fun (_, action) => action.str?.isNone).map (·.1)

/-- Prepares a command. -/
def prepare {σ : Type} (files : FileReader) (b : Builtin) (payload : String) :
    Except CommandError (Invocation σ) :=
  match b with
  | .call => do
    let c ← Payload.read (CallSpec.decode? 0) files b.keyword payload
    require b.keyword "action" c.action.isEmpty
    return .call c
  | .branch p => do
    let c ← Payload.read BranchSpec.decode? files b.keyword payload
    require b.keyword "condition" (isAllBlank c.condition.toList)
    return .branch p c
  | .switch => do
    let c ← Payload.read SwitchSpec.decode? files b.keyword payload
    match badCase? c.cases with
    | some condition => .error (.invalid s!"switch case '{condition}' must name an action")
    | none => return .switch c
  | .loopFor => do
    let c ← Payload.read ForSpec.decode? files b.keyword payload
    require b.keyword "body" c.body.isEmpty
    return .loopFor c
  | .loopRange => do
    let c ← Payload.read RangeSpec.decode? files b.keyword payload
    require b.keyword "range" (isAllBlank c.range.toList)
    require b.keyword "body" (isAllBlank c.body.toList)
    return .loopRange c
  | .leave =>
    match trim payload.toList with
    | '{' :: _ | '@' :: _ => do
      let names ← Payload.read returnNames? files b.keyword payload
      return .leave (splitNames names)
    | _ => .ok (.leave (splitNames payload))
  | .void => .ok .void
  | .breakLoop =>
    if isAllBlank payload.toList then .ok .breakLoop
    else do
      let _ ← Payload.read (Json.Document.table? Json.maxDepth) files b.keyword payload
      return .breakLoop
  | .var => do
    let c ← Payload.read VarSpec.decode? files b.keyword payload
    if c.assign.isEmpty && c.remove.isEmpty then
      .error (.invalid "var needs at least one of assign or remove")
    else return .var c

/-- The parameter file that preparing a command looks for. -/
def file? (b : Builtin) (payload : String) : Option String :=
  if b = .void then none else Payload.fileName? (trim payload.toList)

end Builtin

namespace Command

variable {σ : Type}

/-- Prepares a command. Those that are built in look at the payload only, and evaluate what it says when they are
tried. -/
def prepare (files : FileReader) (payload : String) (m : Machine σ) : Command σ → Except CommandError (Invocation σ)
  | .builtin b => b.prepare files payload
  | .host c =>
    match c.prepare payload m with
    | .ok run => .ok (.host run)
    | .error e => .error e

/-- The parameter file that preparing a command looks for. -/
def file? (payload : String) : Command σ → Option String
  | .builtin b => b.file? payload
  | .host _ => none

end Command

/-! ## Registries -/

/-- The commands under their keywords. -/
abbrev Registry (σ : Type) := Table (Command σ)

/-- The registry of the commands that are built in. -/
def Registry.builtins (σ : Type) : Registry σ :=
  Table.ofEntries (Builtin.all.map fun b => (b.keyword, .builtin b))

end Sequencer
