import Sequencer.Perform

/-!
# Runs

A cycle drives the stack of a thread from a level upwards: it fetches the next instruction of the active
frame, expands and decodes it, and dispatches it, until no frame is left at the level. Dispatching prepares
the command once and tries it within its budget. An instruction on the side gets a copy of the stack; it is
run when the cycle waits for its jobs at its end, which is one of the orders in which it may run. All of them
are in `Sequencer.Proofs.Scenes`. A loop runs one cycle for each of its passes.

Actions may call each other without end, so that every function here counts down some fuel and returns
nothing once it is spent.
-/

namespace Sequencer

/-- What stays the same through all runs: the commands and the files. -/
structure Engine (σ : Type) where
  registry : Registry σ
  files : FileReader

namespace Machine

variable {σ : Type}

/-! ## Steps of a cycle -/

/-- The instruction that a text is after its expansion, with its command. -/
def decode (e : Engine σ) (m : Machine σ) (text : String) : Option (Instruction × Command σ) :=
  match m.expand text with
  | .error _ => none
  | .ok s =>
    match Instruction.parse s.toList with
    | .error _ => none
    | .ok i => (e.registry.get? i.command).map fun c => (i, c)

/-- Starts an instruction on the side, with a copy of the stack. Two ways in which this can go wrong are not here. A
system that has no thread to give lets the cycle go on without the instruction, see `Scene.Step.refuse`; and the thread is
named for the key, which must not have the character 0 in it. -/
def forkInstruction (m : Machine σ) (i : Instruction) (key : String) : Machine σ :=
  let (m, copy) := m.fork
  m.withBarrier (m.thread.barrier.map (·.register (.instruction copy.id copy.frames i key)))

/-- Waits for some units of time. -/
def wait (m : Machine σ) (units : Int64) : Machine σ := m.note (.waited m.thread.id units)

/-- Prepares a command, which sees the machine after the wait before its first attempt. -/
def prepare (e : Engine σ) (m : Machine σ) (c : Command σ) (i : Instruction) (key : String) :
    Machine σ × Except CommandError (Invocation σ) :=
  let m := if i.timing.idle > 0 then m.wait i.timing.idle else m
  let m := m.note (.prepared m.thread.id key)
  let m := match c.file? i.payload with
    | some path => m.note (.opened path)
    | none => m
  (m, c.prepare e.files i.payload m)

/-- Whether a failed attempt is the last one. -/
def lastAttempt (m : Machine σ) (pause total : Int64) : Bool :=
  pause ≤ 0 || total - pause < 0 || m.aborted

/-- Puts the outcome of a cycle and that of the barrier together. -/
def closeCycle (m : Machine σ) (outer : Option (Barrier σ)) (ok : Bool) : Machine σ × Bool :=
  (m.withBarrier outer, ok && !m.aborted)

/-- Takes the first job off the barrier. -/
def nextJob (m : Machine σ) : Option (Job σ × Machine σ) :=
  match m.thread.barrier with
  | some ⟨job :: rest⟩ => some (job, m.withBarrier (some ⟨rest⟩))
  | _ => none

/-! ## Runs -/

mutual

/-- Runs instructions until no frame is left at the level or above. Fails if a strict instruction fails,
if an instruction cannot be decoded or if the request is aborted. -/
def cycle (e : Engine σ) : Nat → Machine σ → Nat → Option (Machine σ × Bool)
  | 0, _, _ => none
  | fuel + 1, m, level =>
    if m.aborted then some (m, false)
    else
      match m.nextStep level with
      | (m, .drained) => some (m, true)
      | (m, .exhausted) => cycle e fuel (m.returnFrame none).1 level
      | (m, .instruction key text) =>
        match m.decode e text with
        | none => some (m, false)
        | some (i, c) =>
          if i.parallel && !c.isAsync then cycle e fuel (m.forkInstruction i key) level
          else
            match dispatch e fuel m c i key with
            | none => none
            | some (m, ok) => if ok || !i.strict then cycle e fuel m level else some (m, false)

/-- Runs a cycle with a barrier of its own, and all jobs that it leaves there. -/
def runCycle (e : Engine σ) : Nat → Machine σ → Nat → Option (Machine σ × Bool)
  | 0, _, _ => none
  | fuel + 1, m, level =>
    match cycle e fuel (m.withBarrier (some .new)) level with
    | none => none
    | some (done, ok) =>
      match join e fuel done 0 with
      | none => none
      | some (done, _) => some (done.closeCycle m.thread.barrier ok)

/-- Prepares a command and tries it within its budget. -/
def dispatch (e : Engine σ) : Nat → Machine σ → Command σ → Instruction → String →
    Option (Machine σ × Bool)
  | 0, _, _, _, _ => none
  | fuel + 1, m, c, i, key =>
    match m.prepare e c i key with
    | (m, .error _) => some (m, false)
    | (m, .ok invocation) => attempts e fuel m invocation key i.timing.pause i.timing.total

/-- Tries a command until it succeeds or its budget is used up. The attempts are not counted: their number is only told
in messages, as long as it is below `2 ^ 32`. -/
def attempts (e : Engine σ) : Nat → Machine σ → Invocation σ → String → Int64 → Int64 →
    Option (Machine σ × Bool)
  | 0, _, _, _, _, _ => none
  | fuel + 1, m, invocation, key, pause, total =>
    if total < 0 then some (m, false)
    else
      match perform e fuel (m.note (.attempted m.thread.id key)) invocation with
      | none => none
      | some (m, true) => some (m, true)
      | some (m, false) =>
        if m.lastAttempt pause total then some (m, false)
        else attempts e fuel (m.wait pause) invocation key pause (total - pause)

/-- One attempt of a command. -/
def perform (e : Engine σ) : Nat → Machine σ → Invocation σ → Option (Machine σ × Bool)
  | 0, _, _ => none
  | fuel + 1, m, invocation =>
    match invocation with
    | .call c => some (m.performCall c)
    | .branch p c => some (m.performBranch p c)
    | .switch c => some (m.performSwitch c)
    | .leave names => some (m.returnEarly (if names.isEmpty then none else some names))
    | .void => some (m, true)
    | .breakLoop => some m.breakLoop
    | .var c => some (m.performVar c)
    | .host run => some (m.performHost run)
    | .loopFor c =>
      match m.enterFor c with
      | (m, none) => some (m, false)
      | (m, some loop) => drive e fuel m loop
    | .loopRange c =>
      match m.enterRange c with
      | (m, none) => some (m, false)
      | (m, some loop) => drive e fuel m loop

/-- Runs the loop whose frame is active. The reference on the scope of the frame is held here for the
time of all passes. -/
def drive (e : Engine σ) : Nat → Machine σ → Loop → Option (Machine σ × Bool)
  | 0, _, _ => none
  | fuel + 1, m, loop =>
    match m.disown.frames with
    | [] => some (m, false)
    | f :: _ =>
      match passes e fuel m.disown loop f with
      | none => none
      | some (m, ok) => some (m.withScopes (·.release f.scope), ok)

/-- Runs passes of the loop whose frame is active, with `f` as its frame before each pass. -/
def passes (e : Engine σ) : Nat → Machine σ → Loop → Frame → Option (Machine σ × Bool)
  | 0, _, _, _ => none
  | fuel + 1, m, loop, f =>
    let level := m.depth - 1
    match m.beforePass loop with
    | (m, .done) => some ((m.setLooping false).returnFrame none)
    | (m, .fail) => some (m.unwind level, false)
    | (m, .run) =>
      match runCycle e fuel m level with
      | none => none
      | some (m, false) => some (m.unwind level, false)
      | some (m, true) =>
        match (m.unwind level).takeBreak level with
        | (m, true) => some (m, true)
        | (m, false) =>
          match (m.repush f).afterPass loop with
          | (m, some loop) => passes e fuel m loop f
          | (m, none) => some (m.unwind level, false)

/-- Runs the jobs of the barrier in order until none is left. Returns how many have failed. -/
def join (e : Engine σ) : Nat → Machine σ → Nat → Option (Machine σ × Nat)
  | 0, _, _ => none
  | fuel + 1, m, failed =>
    match m.nextJob with
    | none => some (m, failed)
    | some (job, m) =>
      match runJob e fuel m.world job with
      | none => none
      | some (world, ok) => join e fuel { m with world } (if ok then failed else failed + 1)

/-- Runs a job on a thread of its own. The frames that the instruction puts on the copied stack are run to
their ends, and the copy is given up. -/
def runJob (e : Engine σ) : Nat → World σ → Job σ → Option (World σ × Bool)
  | 0, _, _ => none
  | fuel + 1, w, job =>
    match job with
    | .host work =>
      let (host, ok) := work w.host
      some ({ w with host }, ok)
    | .instruction thread frames i key =>
      let m : Machine σ := ⟨w, { Thread.new thread with frames }⟩
      match e.registry.get? i.command with
      | none => some (m.finish.world, false)
      | some c =>
        match dispatch e fuel m c i key with
        | none => none
        | some (m, ok) =>
          if ok && frames.length < m.depth then
            match runCycle e fuel m frames.length with
            | none => none
            | some (m, ok) => some (m.finish.world, ok)
          else some (m.finish.world, ok)

end

end Machine
end Sequencer
