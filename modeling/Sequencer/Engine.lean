import Sequencer.Properties
import Sequencer.Run

/-!
# Engines

The ways in which a host program starts runs: an action for a request, an instruction outside of any
request, and an action that is fired by its short name. An engine also checks all instructions that are in
the properties, without running them.
-/

namespace Sequencer

/-- The variable that gets the result of an action that is run for a request. -/
def actionResult : String := "ACTION_RESULT"

/-- What stands in front of the short name of an action that can be fired. -/
def firedPrefix : String := "ACTION_"

namespace Engine

variable {σ : Type}

/-! ## Running -/

/-- Runs an action for the request of a world. Its result lands in the outermost scope. -/
def execute (e : Engine σ) (fuel : Nat) (w : World σ) (action : String) : Option (World σ × Bool) :=
  match (w.enter.push action (splitNames actionResult) []).runCycle e fuel 0 with
  | none => none
  | some (m, ok) => some (m.finish.world, ok)

/-- Waits for the jobs of a command and says how it has ended. -/
def settleCommand (e : Engine σ) (fuel : Nat) (m : Machine σ) (ok : Bool) : Option (World σ × Bool) :=
  match m.join e fuel 0 with
  | none => none
  | some (m, _) => some (m.finish.world, ok && !m.aborted)

/-- Runs one instruction outside of any request: in a world whose request is only a stand-in. -/
def command (e : Engine σ) (fuel : Nat) (w : World σ) (text : String) : Option (World σ × Bool) :=
  let m := w.enter.withBarrier (some .new)
  match m.decode e text with
  | none => some (m.finish.world, false)
  | some (i, c) =>
    match m.dispatch e fuel c i text with
    | none => none
    | some (m, ok) =>
      if ok && 0 < m.depth then
        match m.runCycle e fuel 0 with
        | none => none
        | some (m, ok) => e.settleCommand fuel m ok
      else e.settleCommand fuel m ok

/-! ## Firing -/

/-- How a fired action has ended. -/
inductive Outcome where
  | completed
  /-- There is no such action. -/
  | notImplemented
  | failed
  deriving Repr, DecidableEq

def Outcome.text : Outcome → String
  | .completed => "completed"
  | .notImplemented => "not implemented"
  | .failed => "failed"

/-- What a host program learns of a fired action. -/
structure Report where
  outcome : Outcome
  /-- The result in the outermost scope. -/
  result : Option Value
  error : Option String
  deriving Repr

/-- What the request of a world shows after a fired action. -/
def report (w : World σ) (outcome : Outcome) : Report :=
  ⟨outcome, w.request.global? actionResult, w.request.error⟩

/-- Fires the action of a short name for the request of a world. -/
def fire (e : Engine σ) (fuel : Nat) (w : World σ) (name : String) : Option (World σ × Report) :=
  let action := firedPrefix ++ name
  if Properties.hasAction w.store.properties action then
    match e.execute fuel w action with
    | none => none
    | some (w, ok) => some (w, report w (if ok then .completed else .failed))
  else some (w, report w .notImplemented)

/-! ## Checking -/

/-- What is wrong with an instruction. -/
inductive Complaint where
  | malformed (reason : InstructionError)
  | unknownCommand (keyword : String)
  deriving Repr, DecidableEq

def Complaint.message : Complaint → String
  | .malformed reason => reason.message
  | .unknownCommand keyword => s!"unknown command '{keyword}'"

/-- An instruction with something wrong. -/
structure Issue where
  key : String
  complaint : Complaint
  deriving Repr, DecidableEq

def Issue.text (i : Issue) : String := s!"{i.key}: {i.complaint.message}"

/-- Whether the command of an instruction can be told before expansion: no placeholder comes before the
first colon. -/
def decidable (text : List Char) : Bool :=
  match Text.splitMarker '{' '{' text with
  | some (before, _) => before.contains ':'
  | none => true

/-- What is wrong with the text of an instruction, as far as it can be told. -/
def complaint? (e : Engine σ) (text : List Char) : Option Complaint :=
  if decidable text then
    match Instruction.parse text with
    | .error reason => some (.malformed reason)
    | .ok i => if Table.has e.registry i.command then none else some (.unknownCommand i.command)
  else none

/-- The instructions of an action from a number on, up to the first that is missing or blank. -/
def instructionsFrom (p : Properties) (action : String) : Nat → Nat → List (String × List Char)
  | 0, _ => []
  | fuel + 1, number =>
    let key := Properties.instructionKey action number
    let text := Text.trim (p.text key).toList
    if text.isEmpty then [] else (key, text) :: instructionsFrom p action fuel (number + 1)

/-- The instructions of an action. There are no more than properties. -/
def instructions (p : Properties) (action : String) : List (String × List Char) :=
  instructionsFrom p action p.length 1

/-- What is wrong with the instructions in the properties, action by action. -/
def check (e : Engine σ) (p : Properties) : List Issue :=
  p.actionNames.flatMap fun action =>
    (instructions p action).filterMap fun (key, text) => (e.complaint? text).map fun c => ⟨key, c⟩

end Engine
end Sequencer
