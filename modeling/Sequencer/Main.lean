import Sequencer.CommandLine.Program
import Sequencer.CommandLine.Usage

/-!
# The command line

The outer layer of the program: it reads files and the environment, prints and exits. The program itself is
a function of the files that are known; it is run again until it looks for no other file.
-/

namespace Sequencer.CommandLine

/-- More steps than any run takes. -/
def unbounded : Nat := Nat.pow 2 60

/-- Whether a code of the operating system is a number, which it may also report negated. -/
def isCode (code n : UInt32) : Bool := code = n || code = 0 - n

/-- Why a file cannot be read. -/
def fileError : IO.Error → FileError
  | .noFileOrDirectory .. => .notFound
  | .inappropriateType _ code _ => if isCode code 20 then .notDirectory else .isDirectory
  | .invalidArgument _ code reason => if isCode code 36 then .nameTooLong else .other reason
  | e => .other (toString e)

/-- Reads a file as text. -/
def readText (path : String) : IO (Except FileError String) := do
  if path.toList.contains (Char.ofNat 0) then return .error .badName
  match ← (IO.FS.readBinFile path).toBaseIO with
  | .error e => return .error (fileError e)
  | .ok bytes =>
    match String.fromUTF8? bytes with
    | some text => return .ok text
    | none => return .error .notText

/-- The variables of the environment. -/
def readEnvironment : IO (Table String) := do
  match ← readText "/proc/self/environ" with
  | .error _ => return []
  | .ok text =>
    let entries := Text.splitAll (Char.ofNat 0) text.toList
    return entries.filterMap fun entry =>
      (Text.splitFirst '=' entry).map fun (name, value) => (String.ofList name, String.ofList value)

/-- A number in base sixteen with at least `width` digits. -/
def hexText (width n : Nat) : String :=
  let digits := Nat.toDigits 16 n
  String.ofList (List.replicate (width - digits.length) '0' ++ digits)

/-- A new name for a request. -/
def requestName : IO String := do
  let word (bits : Nat) : IO Nat := IO.rand 0 (Nat.pow 2 bits - 1)
  let a ← word 32
  let b ← word 16
  let c ← word 12
  let d ← word 14
  let e ← word 48
  return String.intercalate "-"
    [hexText 8 a, hexText 4 b, hexText 4 (0x4000 + c), hexText 4 (0x8000 + d), hexText 12 e]

/-- Runs the program with the files that are known, and reads those that it looks for besides. -/
partial def executeReading (env : Table String) (a : Arguments)
    (known : Table (Except FileError String)) : IO (Option Result) := do
  let files : FileReader := fun path => (Table.get? known path).getD (.error .notFound)
  match execute files env unbounded a with
  | none => return none
  | some r =>
    match r.opened.filter fun path => !Table.has known path with
    | [] => return some r
    | missing =>
      let found ← missing.mapM fun path => do return (path, ← readText path)
      executeReading env a (Table.putAll known found)

end Sequencer.CommandLine

open Sequencer CommandLine in
def main (args : List String) : IO UInt32 := do
  match Arguments.parse args with
  | .error e =>
    if e.isQuestion then
      IO.println usage
      return 0
    else
      IO.eprintln s!"error: {e.message}"
      IO.eprintln usage
      return 2
  | .ok a =>
    match ← executeReading (← readEnvironment) a [] with
    | none => return 1
    | some r =>
      IO.print r.stdout
      IO.eprint r.stderr
      match r.failure with
      | none => return 0
      | some f =>
        let causes := String.intercalate ": " (f.causes (← requestName))
        IO.eprintln s!"Error: {causes}"
        return 1
