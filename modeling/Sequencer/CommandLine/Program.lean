import Sequencer.CommandLine.Arguments
import Sequencer.Config.Basic
import Sequencer.Engine

/-!
# The program

What a command line leads to: it loads the configuration and the property files, runs an action, checks all
instructions or lists the actions, and says what is printed and how it ends.
-/

namespace Sequencer.CommandLine

/-- Why the program fails. -/
inductive Failure where
  | config (e : ConfigError)
  | properties (path : String) (e : PropertiesError)
  | noAction
  | actionFailed (action : String)
  | issues (count : Nat)
  deriving Repr, DecidableEq

/-- The causes of a failure, outermost first; `request` names the request that was run for. -/
def Failure.causes (request : String) : Failure → List String
  | .config e => ["Failed to load configuration", e.message]
  | .properties path e => [s!"Failed to load properties from {path}", e.message]
  | .noAction => ["No action given and no default_action configured"]
  | .actionFailed action => [s!"Action {action} failed (request {request})"]
  | .issues count => [s!"{count} issue(s) found"]

/-- What the program prints, and why it fails if it does. -/
structure Result where
  stdout : String
  stderr : String
  failure : Option Failure
  /-- The files that were looked for. -/
  opened : List String
  deriving Repr

namespace Result

def fail (f : Failure) : Result := ⟨"", "", some f, []⟩

/-- Lines, each with its break. -/
def lines (texts : List String) : String := String.join (texts.map fun t => t ++ "\n")

def print (texts : List String) : Result := ⟨lines texts, "", none, []⟩

end Result

/-- The registry of the program. -/
def registry : Registry Unit := Registry.builtins Unit

/-- The properties of some files, loaded in order. -/
def loadAll (files : FileReader) : Properties → List String → Except Failure Properties
  | p, [] => .ok p
  | p, path :: rest =>
    match p.loadFile files path with
    | .ok (p, _) => loadAll files p rest
    | .error e => .error (.properties path e)

/-- The paths that a run has looked for, in order. -/
def openedPaths (journal : List Event) : List String :=
  journal.reverse.filterMap fun
    | .opened path => some path
    | _ => none

/-- Runs an action. Prints its result and the error of the request. -/
def runAction (files : FileReader) (fuel : Nat) (c : Config) (p : Properties)
    (action : Option String) (params : Table Value) : Option Result :=
  match action.or c.defaultAction with
  | none => some (.fail .noAction)
  | some action =>
    let w := World.new (Store.ofProperties p) (Request.new params none) ()
    match Engine.execute ⟨registry, files⟩ fuel w action with
    | none => none
    | some (w, ok) =>
      some
        { stdout := Result.lines ((w.request.global? actionResult).map Value.pretty).toList
          stderr := Result.lines (w.request.error.map fun e => s!"Error: {e}").toList
          failure := if ok then none else some (.actionFailed action)
          opened := openedPaths w.journal }

/-- Checks all instructions and prints what is wrong with them. -/
def checkAll (files : FileReader) (p : Properties) : Result :=
  match Engine.check ⟨registry, files⟩ p with
  | [] => .print [s!"{p.actionNames.length} action(s) checked, no issues."]
  | issues =>
    { Result.print (issues.map Engine.Issue.text) with failure := some (.issues issues.length) }

/-- Lists the actions. -/
def listActions (p : Properties) : Result :=
  match p.actionNames with
  | [] => .print ["No actions defined."]
  | names => .print names

/-- Does a task, with the properties loaded. -/
def perform (files : FileReader) (fuel : Nat) (c : Config) (p : Properties) (t : Task) : Option Result :=
  match t with
  | .run action params => runAction files fuel c p action params
  | .check => some (checkAll files p)
  | .actions => some (listActions p)

/-- Runs the program. -/
def execute (files : FileReader) (env : Table String) (fuel : Nat) (a : Arguments) : Option Result :=
  let o : Overrides := ⟨a.config, a.properties, a.log, a.tickMillis⟩
  let sources := Config.lookedFor files env o
  match Config.build files env o with
  | .error e => some { Result.fail (.config e) with opened := sources }
  | .ok c =>
    match loadAll files [] c.properties with
    | .error f => some { Result.fail f with opened := sources ++ c.properties }
    | .ok p =>
      (perform files fuel c p a.task).map fun r =>
        { r with opened := sources ++ c.properties ++ r.opened }

end Sequencer.CommandLine
