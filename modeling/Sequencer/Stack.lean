import Sequencer.Storage

/-!
# The stack of a thread

Calling and returning. A call puts a frame on the stack whose scope lies inside the caller's. A return
takes it off and saves the selected values under the caller's names for them; nothing else gets out.
A copy of a stack holds references of its own on all of its scopes, so that copy and stack come and go
independently.
-/

namespace Sequencer
namespace Machine

variable {σ : Type}

/-! ## Calling -/

/-- Puts a frame on the stack, in a scope of its own inside the current one. -/
def push (m : Machine σ) (action : String) (results : List String) (params : Table Value) :
    Machine σ :=
  let (scopes, scope) := m.scopes.alloc (some m.currentScope) params
  let activation := m.world.activations
  let frame := ⟨action, 0, results, scope, false, true, activation⟩
  { world :=
      { m.world with
        request := { m.request with scopes }
        activations := activation + 1
        journal := .entered m.thread.id activation action :: m.world.journal }
    thread := { m.thread with frames := frame :: m.frames } }

/-- Puts a frame back on the stack for another activation, in the same scope. -/
def repush (m : Machine σ) (f : Frame) : Machine σ :=
  let activation := m.world.activations
  { world :=
      { m.world with
        activations := activation + 1
        journal := .entered m.thread.id activation f.action :: m.world.journal }
    thread := { m.thread with frames := { f with ip := 0, activation } :: m.frames } }

/-- The address in a parameter that is one: a text behind the sign `@`. -/
def parameterAddress? : Value → Option String
  | .str s =>
    match s.toList with
    | '@' :: r => some (String.ofList r)
    | _ => none
  | _ => none

/-- The parameters with those that are addresses replaced by what these read. -/
def resolve (m : Machine σ) : Table Value → Machine σ × Except StorageError (Table Value)
  | [] => (m, .ok [])
  | (key, v) :: params =>
    match (match parameterAddress? v with
      | some address =>
        match m.read address with
        | (m, .ok found) => (m, .ok (found.getD .null))
        | (m, .error e) => (m, .error e)
      | none => (m, .ok v) : Machine σ × Except StorageError Value) with
    | (m, .error e) => (m, .error e)
    | (m, .ok v) =>
      match m.resolve params with
      | (m, .ok rest) => (m, .ok ((key, v) :: rest))
      | (m, .error e) => (m, .error e)

/-- Calls an action with resolved parameters. -/
def call (m : Machine σ) (action : String) (results : List String) (params : Table Value) :
    Machine σ × Except StorageError Unit :=
  match m.resolve params with
  | (m, .ok params) => (m.push action results params, .ok ())
  | (m, .error e) => (m, .error e)

/-! ## Leaving frames -/

/-- The arena without the references that frames hold. -/
def releaseFrames (scopes : Arena) (frames : List Frame) : Arena :=
  frames.foldl (fun a f => if f.ownsScope then a.release f.scope else a) scopes

/-- Drops every frame above a level. -/
def unwind (m : Machine σ) (level : Nat) : Machine σ :=
  let above := m.depth - level
  (m.withScopes fun a => releaseFrames a (m.frames.take above)).withFrames (m.frames.drop above)

/-- Gives up a thread: all its frames are dropped. -/
def finish (m : Machine σ) : Machine σ := m.unwind 0

/-- Reads the values of names, `none` for one that is to be skipped. A value that is missing is skipped
if the names are implicit and empty if they were asked for. -/
def readResults (m : Machine σ) (asked : Bool) : List String → Machine σ × List (Option Value)
  | [] => (m, [])
  | name :: names =>
    if name = discard then
      let (m, vs) := m.readResults asked names
      (m, none :: vs)
    else
      let (m, found) := m.read name
      let v := match found with
        | .ok (some v) => some v
        | _ => if asked then some (.str "") else none
      let (m, vs) := m.readResults asked names
      (m, v :: vs)

/-- Saves values under names, in pairs. A value that cannot be saved is lost. -/
def publish (m : Machine σ) : List String → List (Option Value) → Machine σ
  | name :: names, v :: vs =>
    match v with
    | none => m.publish names vs
    | some v => if name = discard then m.publish names vs else (m.save name v).1.publish names vs
  | _, _ => m

/-- Takes the active frame off the stack and publishes values under its result names. With `explicit`
names the values are read under those, without they are read under the result names themselves. The
implicit return of a looping frame publishes nothing. Fails if there is no frame. -/
def returnFrame (m : Machine σ) (explicit : Option (List String)) : Machine σ × Bool :=
  match m.frames with
  | [] => (m, false)
  | f :: below =>
    let targets := if f.looping && explicit.isNone then [] else f.results
    let (m, vs) :=
      if targets.isEmpty then (m, []) else m.readResults explicit.isSome (explicit.getD targets)
    let m := (m.withFrames below).publish targets vs
    (if f.ownsScope then m.withScopes (·.release f.scope) else m, true)

/-- The return of an action that asks for it. In the body of a loop it ends the loop too, and
publishes like a last return. -/
def returnEarly (m : Machine σ) (explicit : Option (List String)) : Machine σ × Bool :=
  match m.frames with
  | [] => m.returnFrame explicit
  | f :: below =>
    if f.looping then
      ((m.withFrames ({ f with looping := false } :: below)).withBreak (some below.length)).returnFrame
        explicit
    else m.returnFrame explicit

section
variable {m : Machine σ} {f : Frame} {below : List Frame}

theorem returnFrame_nil (hf : m.frames = []) (explicit : Option (List String)) :
    m.returnFrame explicit = (m, false) := by
  unfold returnFrame
  rw [hf]

theorem returnEarly_nil (hf : m.frames = []) (explicit : Option (List String)) :
    m.returnEarly explicit = (m, false) := by
  unfold returnEarly
  rw [hf]
  exact returnFrame_nil hf explicit

theorem returnEarly_of_looping (hf : m.frames = f :: below) (hl : f.looping = true)
    (explicit : Option (List String)) : m.returnEarly explicit =
      ((m.withFrames ({ f with looping := false } :: below)).withBreak (some below.length)).returnFrame explicit := by
  unfold returnEarly
  rw [hf]
  exact if_pos hl

theorem returnEarly_of_not_looping (hf : m.frames = f :: below) (hl : f.looping = false)
    (explicit : Option (List String)) : m.returnEarly explicit = m.returnFrame explicit := by
  unfold returnEarly
  rw [hf]
  exact if_neg (Bool.eq_false_iff.1 hl)

end

/-! ## Loops -/

/-- Marks the active frame as one that a loop repeats, or as one that it no longer does. -/
def setLooping (m : Machine σ) (looping : Bool) : Machine σ :=
  match m.frames with
  | f :: below => m.withFrames ({ f with looping } :: below)
  | [] => m

theorem setLooping_of_cons {m : Machine σ} {f : Frame} {below : List Frame} (hf : m.frames = f :: below)
    (looping : Bool) : m.setLooping looping = m.withFrames ({ f with looping } :: below) := by
  unfold setLooping
  rw [hf]

/-- Leaves the reference on the scope of the active frame to the loop that repeats the frame. -/
def disown (m : Machine σ) : Machine σ :=
  match m.frames with
  | f :: below => m.withFrames ({ f with ownsScope := false } :: below)
  | [] => m

theorem disown_of_cons {m : Machine σ} {f : Frame} {below : List Frame} (hf : m.frames = f :: below) :
    m.disown = m.withFrames ({ f with ownsScope := false } :: below) := by
  unfold disown
  rw [hf]

/-- Ends the innermost loop. Fails outside of all loops. -/
def breakLoop (m : Machine σ) : Machine σ × Bool :=
  match breakInnermost m.frames with
  | some (frames, index) => ((m.withFrames frames).withBreak (some index), true)
  | none => (m, false)

/-- Takes the mark away that ends the loop at an index. -/
def takeBreak (m : Machine σ) (index : Nat) : Machine σ × Bool :=
  if m.thread.breakAt = some index then (m.withBreak none, true) else (m, false)

theorem takeBreak_eq_true_iff {m n : Machine σ} {index : Nat} :
    m.takeBreak index = (n, true) ↔ m.thread.breakAt = some index ∧ n = m.withBreak none := by
  unfold takeBreak
  split
  · next h => simp [h, eq_comm]
  · next h => simp [h]

theorem takeBreak_eq_false_iff {m n : Machine σ} {index : Nat} :
    m.takeBreak index = (n, false) ↔ m.thread.breakAt ≠ some index ∧ n = m := by
  unfold takeBreak
  split
  · next h => simp [h]
  · next h => simp [h, eq_comm]

/-! ## Copies -/

/-- The arena with a reference for each of some frames. -/
def retainFrames (scopes : Arena) (frames : List Frame) : Arena :=
  frames.foldl (fun a f => a.retain f.scope) scopes

/-- A new thread with a copy of the stack. -/
def fork (m : Machine σ) : Machine σ × Thread σ :=
  let id := m.world.threads
  let m := m.withScopes fun a => retainFrames a m.frames
  ({ m with world := { m.world with threads := id + 1 } },
    { Thread.new id with frames := m.frames.map fun f => { f with ownsScope := true } })

/-! ## Fetching -/

/-- What the stack offers next. -/
inductive Step where
  /-- No frame is left at the level or above it. -/
  | drained
  /-- The active frame has no more instructions. -/
  | exhausted
  | instruction (key text : String)
  deriving Repr, DecidableEq

/-- Fetches the next instruction of the active frame: the trimmed text under the name of the action and
the next number. -/
def nextStep (m : Machine σ) (level : Nat) : Machine σ × Step :=
  if m.depth ≤ level then (m, .drained)
  else
    match m.frames with
    | [] => (m, .drained)
    | f :: below =>
      if f.exhausted then (m, .exhausted)
      else
        let f := f.advance
        let m := m.withFrames (f :: below)
        let m := m.note (.fetched m.thread.id f.activation f.key m.depth m.scopes.live)
        let text := match m.lookup f.key with
          | some v => Text.trimmed v.text
          | none => ""
        if text.isEmpty then (m, .exhausted) else (m, .instruction f.key text)

end Machine
end Sequencer
