import Sequencer.Command
import Sequencer.Stack

/-!
# What commands do

One attempt of each command that runs no instructions itself: calls and branches only put a frame on the
stack, returns take one off, and assignments change variables. Each says whether the attempt succeeded.
The two loops run their bodies and are found with the runs; what happens between their passes is here.
-/

namespace Sequencer
namespace Machine

variable {σ : Type}

/-! ## Calls -/

/-- The name under which calling means returning. -/
def returnAction : String := "return"

/-- Gives some names values in the current scope. -/
def bindAll (m : Machine σ) (vars : Table Value) : Machine σ :=
  m.withScopes fun a => vars.foldl (fun a (name, v) => a.set m.currentScope name v) a

/-- Calls an action. Without an action there is nothing to do. The action `return` gives the parameters
to the current scope and returns them by their own names. -/
def performCall (m : Machine σ) (c : CallSpec) : Machine σ × Bool :=
  if c.action.isEmpty then (m, true)
  else if c.action = returnAction then
    match m.resolve c.params with
    | (m, .ok params) => (m.bindAll params).returnEarly (some (Table.keys params))
    | (m, .error _) => (m, false)
  else
    match m.call c.action (splitNames c.result) c.params with
    | (m, .ok ()) => (m, true)
    | (m, .error _) => (m, false)

/-- The outcome that a predicate finds for an expression. -/
def testPredicate (m : Machine σ) (p : Predicate) (condition : String) : Except EvalError Bool :=
  match p with
  | .boolean => m.test condition
  | .empty =>
    match m.eval condition with
    | .ok v => .ok v.empty
    | .error e => .error e
  | .array =>
    match m.eval condition with
    | .ok v => .ok v.isArray
    | .error e => .error e

/-- Makes the call for the outcome of a condition, if there is one. -/
def performBranch (m : Machine σ) (p : Predicate) (c : BranchSpec) : Machine σ × Bool :=
  match m.testPredicate p c.condition with
  | .error _ => (m, false)
  | .ok outcome =>
    match (if outcome then c.whenTrue else c.whenFalse) with
    | some call => m.performCall call
    | none => (m, true)

/-- The action of the first case whose condition holds in the outermost scope, or else the default. -/
def selectCase (m : Machine σ) (default : String) : Table Value → Except EvalError String
  | [] => .ok default
  | (condition, action) :: cases =>
    match m.testIn m.request.root condition with
    | .ok true => .ok (action.str?.getD "")
    | .ok false => m.selectCase default cases
    | .error e => .error e

/-- Calls the action that a switch selects. -/
def performSwitch (m : Machine σ) (c : SwitchSpec) : Machine σ × Bool :=
  match m.selectCase c.defaultAction c.cases with
  | .ok action => m.performCall ⟨action, c.params, c.result⟩
  | .error _ => (m, false)

/-! ## Variables -/

/-- The value to assign: that of an expression, the empty text for a blank one, or a value itself. -/
def assigned (m : Machine σ) : Value → Except EvalError Value
  | .str s => if Text.isAllBlank s.toList then .ok (.str "") else m.eval s
  | v => .ok v

/-- Makes assignments in order, up to the first that fails. -/
def assignAll (m : Machine σ) : Table Value → Machine σ × Bool
  | [] => (m, true)
  | (target, v) :: rest =>
    match m.assigned v with
    | .error _ => (m, false)
    | .ok v =>
      match m.save target v with
      | (m, .ok ()) => m.assignAll rest
      | (m, .error _) => (m, false)

/-- Deletes variables in order, up to the first that fails. -/
def deleteAll (m : Machine σ) : List String → Machine σ × Bool
  | [] => (m, true)
  | target :: rest =>
    match m.delete target with
    | (m, .ok ()) => m.deleteAll rest
    | (m, .error _) => (m, false)

def performVar (m : Machine σ) (c : VarSpec) : Machine σ × Bool :=
  match m.assignAll c.assign with
  | (m, true) => m.deleteAll c.remove
  | (m, false) => (m, false)

/-! ## Host commands -/

/-- The machine after a host command has saved or deleted a variable, or has failed to. -/
def update (m : Machine σ) : Update → Machine σ
  | .save name v => (m.save name v).1
  | .delete name => (m.delete name).1

def updateAll (m : Machine σ) (updates : List Update) : Machine σ := updates.foldl update m

/-- The machine after a host command. Work on the side is for the barrier, if there is one. -/
def performHost (m : Machine σ) (run : Machine σ → Effect σ) : Machine σ × Bool :=
  let e := run m
  let m := { m with world := { m.world with host := e.host } }
  let m := m.updateAll e.updates
  let m := match e.abort with
    | some message => m.abort message
    | none => m
  let barrier := m.thread.barrier.map fun b => e.jobs.foldl (fun b job => b.register (.host job)) b
  (m.withBarrier barrier, e.ok)

/-! ## Loops -/

/-- What decides about the passes of a loop. -/
inductive Loop where
  /-- A condition before each pass, where an empty one holds, and assignments after it. -/
  | whileTrue (condition : String) (next : Table Value)
  /-- The elements that are left, the position of the first of them, and the names that they and their
  keys get. -/
  | over (items : List (String × Value)) (index : Nat) (key value : String)

/-- What is to happen next in a loop. -/
inductive Pass where
  | run
  | done
  | fail
  deriving Repr, DecidableEq

/-- The variable for the keys of a collection, unless another is named. -/
def keyName : String := "FOR_KEY"

/-- The variable for the elements of a collection, unless another is named. -/
def valueName : String := "FOR_VALUE"

/-- The variable for the number of the pass. -/
def indexName : String := "FOR_INDEX"

/-- Decides about the next pass, and prepares the scope for it. -/
def beforePass (m : Machine σ) : Loop → Machine σ × Pass
  | .whileTrue condition _ =>
    if condition.isEmpty then (m, .run)
    else
      match m.test condition with
      | .ok true => (m, .run)
      | .ok false => (m, .done)
      | .error _ => (m, .fail)
  | .over [] _ _ _ => (m, .done)
  | .over ((k, v) :: _) index key value =>
    (m.bindAll [(key, .str k), (value, v), (indexName, .num (.int index))], .run)

/-- Ends a pass that another may follow. -/
def afterPass (m : Machine σ) : Loop → Machine σ × Option Loop
  | .whileTrue condition next =>
    match m.assignAll next with
    | (m, true) => (m, some (.whileTrue condition next))
    | (m, false) => (m, none)
  | .over items index key value => (m, some (.over items.tail (index + 1) key value))

/-- Puts the frame of a loop on the stack. -/
def enterLoop (m : Machine σ) (body result : String) (params : Table Value) :
    Machine σ × Except StorageError Unit :=
  match m.resolve params with
  | (m, .ok params) => ((m.push body (splitNames result) params).setLooping true, .ok ())
  | (m, .error e) => (m, .error e)

/-- Begins a loop with a condition. Returns nothing if it fails. -/
def enterFor (m : Machine σ) (c : ForSpec) : Machine σ × Option Loop :=
  match m.enterLoop c.body c.result c.initial with
  | (m, .ok ()) => (m, some (.whileTrue (Text.trimmed c.condition) c.next))
  | (m, .error _) => (m, none)

/-- Begins a loop over the elements of what an address reads inside of the loop. Returns nothing if it
fails. -/
def enterRange (m : Machine σ) (c : RangeSpec) : Machine σ × Option Loop :=
  let level := m.depth
  match m.enterLoop c.body c.result c.params with
  | (m, .error _) => (m, none)
  | (m, .ok ()) =>
    match m.read c.range with
    | (m, .error _) => (m.unwind level, none)
    | (m, .ok v) =>
      let items := match v with
        | some v => v.elements
        | none => []
      (m, some (.over items 0 (c.key.getD keyName) (c.value.getD valueName)))

end Machine
end Sequencer
