import Sequencer.Decimal.Numeral
import Sequencer.Text.Split

/-!
# Instructions

One step of an action, as written: `[?][!][idle,pause,total,]command:payload`. A question mark lets
the sequence go on when the step fails, an exclamation mark runs it on the side, and three whole
numbers give the wait before the first attempt, the wait between attempts and the budget for
repeating them.
-/

namespace Sequencer

/-- Waits and budget of an instruction, in whole units of time. -/
structure Timing where
  /-- Wait before the first attempt. -/
  idle : Int64
  /-- Wait between attempts; without one there is no second attempt. -/
  pause : Int64
  /-- Budget for repeating. -/
  total : Int64
  deriving Repr, DecidableEq

namespace Timing

/-- No waits, one attempt. -/
def none : Timing := ⟨0, 0, 0⟩

/-- How many attempts the budget allows: the quotient of total and pause, and one. There is no number where the sum
runs over a word of 64 bits; the sum is checked, and whoever asks for it fails. -/
def maxAttempts (t : Timing) : Option Int64 :=
  if t.total < 0 then some 0
  else if t.pause ≤ 0 then some 1
  else if t.total / t.pause = Int64.maxValue then Option.none
  else some (t.total / t.pause + 1)

end Timing

/-- A decoded instruction. -/
structure Instruction where
  /-- Whether a failure ends the sequence. -/
  strict : Bool
  /-- Whether the instruction runs on the side. -/
  parallel : Bool
  timing : Timing
  /-- The command keyword, in front of the first colon. -/
  command : String
  /-- All that follows the colon. -/
  payload : String
  deriving Repr, DecidableEq

/-- One of the three numbers of a timing. -/
inductive TimingPart where
  | idle
  | pause
  | total
  deriving Repr, DecidableEq

/-- The place of a number, in the words of messages. -/
def TimingPart.ordinal : TimingPart → String
  | .idle => "first"
  | .pause => "second"
  | .total => "third"

/-- Why a text is no instruction. -/
inductive InstructionError where
  | empty
  | badTiming (part : TimingPart)
  | missingCommand
  deriving Repr, DecidableEq

def InstructionError.message : InstructionError → String
  | .empty => "empty instruction"
  | .badTiming part =>
    s!"the {part.ordinal} timing value must be an integer number of seconds followed by a comma"
  | .missingCommand => "instruction must have the form command:payload (':' is mandatory)"

namespace Instruction

open Text

/-- The marks at the front of an instruction, in any order and number, with blanks and control
characters between them. -/
def readMarks (strict parallel : Bool) : List Char → Bool × Bool × List Char
  | [] => (strict, parallel, [])
  | c :: r =>
    if c = '?' then readMarks false parallel r
    else if c = '!' then readMarks strict true r
    else if c ≤ ' ' then readMarks strict parallel r
    else (strict, parallel, c :: r)

/-- One number of a timing and the comma after it. -/
def readTimingPart (part : TimingPart) (s : List Char) :
    Except InstructionError (Int64 × List Char) :=
  match splitFirst ',' s with
  | some (before, after) =>
    match Decimal.integer? (trim before) with
    | some n => .ok (Int64.ofInt n, trimStart after)
    | none => .error (.badTiming part)
  | none => .error (.badTiming part)

/-- The three numbers of a timing. -/
def readTiming (s : List Char) : Except InstructionError (Timing × List Char) :=
  match readTimingPart .idle s with
  | .error e => .error e
  | .ok (idle, s) =>
    match readTimingPart .pause s with
    | .error e => .error e
    | .ok (pause, s) =>
      match readTimingPart .total s with
      | .error e => .error e
      | .ok (total, s) => .ok (⟨idle, pause, total⟩, s)

/-- Whether a text begins with a digit. -/
def startsWithDigit : List Char → Bool
  | c :: _ => c.isDigit
  | [] => false

/-- Reads an instruction. -/
def parse (text : List Char) : Except InstructionError Instruction :=
  match readMarks true false text with
  | (strict, parallel, s) =>
    if s.isEmpty then .error .empty
    else
      match (if startsWithDigit s then readTiming s else .ok (.none, s)) with
      | .error e => .error e
      | .ok (timing, s) =>
        match splitFirst ':' s with
        | some (command, payload) =>
          if command.isEmpty then .error .missingCommand
          else
            .ok ⟨strict, parallel, timing, String.ofList (trim command), String.ofList payload⟩
        | none => .error .missingCommand

end Instruction
end Sequencer
