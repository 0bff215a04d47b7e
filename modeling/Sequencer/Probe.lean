import Sequencer.Command
import Sequencer.Value.Printer

/-!
# Probes

Commands for watching runs from outside. They keep a log and count attempts: one writes a text into the
log, one the state of the machine, one fails until it has been tried often enough, one always fails, and one
starts work on the side.
-/

namespace Sequencer.Probe

/-! ## Snapshots -/

/-- What a snapshot shows of a frame. -/
def frameValue (f : Frame) : Value :=
  .arr [.str f.action, .num (.int f.ip), .arr (f.results.map .str), .bool f.looping, .bool f.ownsScope]

/-- Variables as pairs of a name and the document of its value. -/
def pairs (vars : Table Value) : Value := .arr (vars.map fun (name, v) => .arr [.str name, .str v.json])

/-- The stack from its lowest frame up, the variables of each scope from the active one outwards, and
the number of scopes. -/
def snapshot {σ : Type} (m : Machine σ) : Value :=
  .obj [("level", .num (.int m.level)), ("frames", .arr (m.frames.reverse.map frameValue)),
    ("chain", .arr ((m.scopes.chain m.currentScope).map fun env => pairs env.vars)),
    ("live", .num (.int m.scopes.live))]

/-! ## Commands -/

/-- What the probes keep. -/
structure State where
  /-- The entries of the log, the latest first. -/
  log : List Value
  /-- How often the failing probe has been tried. -/
  attempts : Nat
  deriving Repr

def State.new : State := ⟨[], 0⟩

def State.add (s : State) (entry : Value) : State := { s with log := entry :: s.log }

/-- The text of a payload in the log. -/
def entry (payload : String) : Value := .str (Text.trimmed payload)

/-- Writes its payload into the log. -/
def record : HostCommand State where
  isAsync := false
  prepare payload _ := .ok fun m => .simple (m.world.host.add (entry payload)) true

/-- Whether the counted number of attempts is enough for success. None is enough for zero. -/
def enough (needed attempts : Nat) : Bool := 0 < needed && needed ≤ attempts

/-- Succeeds from the attempt on whose number is its payload. -/
def flaky : HostCommand State where
  isAsync := false
  prepare payload _ :=
    match Decimal.natural? (Text.trim payload.toList) with
    | none => .error (.invalid s!"flaky needs a number, got '{payload}'")
    | some needed => .ok fun m =>
      let s := m.world.host
      .simple { s with attempts := s.attempts + 1 } (enough needed (s.attempts + 1))

/-- Fails. -/
def fail : HostCommand State where
  isAsync := false
  prepare _ _ := .ok fun m => .simple m.world.host false

/-- Writes a snapshot into the log. -/
def snap : HostCommand State where
  isAsync := false
  prepare _ _ := .ok fun m => .simple (m.world.host.add (snapshot m)) true

/-- Writes its payload into the log from the side. Needs a barrier to wait there; the work fails for the
payload `bad`. -/
def spawn : HostCommand State where
  isAsync := true
  prepare payload _ := .ok fun m =>
    if m.thread.barrier.isSome then
      let text := Text.trimmed payload
      ⟨m.world.host, true, [], none, [fun s => (s.add (.str text), text != "bad")]⟩
    else .simple m.world.host false

/-- The built-in commands and the probes. -/
def registry : Registry State :=
  Table.putAll (Registry.builtins State)
    [("record", .host record), ("flaky", .host flaky), ("fail", .host fail), ("snap", .host snap),
      ("spawn", .host spawn)]

end Sequencer.Probe
