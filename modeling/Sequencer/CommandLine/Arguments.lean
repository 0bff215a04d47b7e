import Sequencer.Json.Decode
import Sequencer.Text.Split

/-!
# Arguments

The arguments of the command line: options, a subcommand, and options and an action behind it. An option
that stands alone takes the next argument as its value unless that looks like an option, and its value is
checked when the next option or plain argument comes, or at the end. The options that are not about one run
may stand on either side of the subcommand; those behind it replace those in front.
-/

namespace Sequencer.CommandLine

open Text

/-- Options with a value. -/
inductive OptionName where
  | config
  | properties
  | tickMillis
  | log
  | param
  deriving Repr, DecidableEq

def OptionName.word : OptionName → String
  | .config => "config"
  | .properties => "properties"
  | .tickMillis => "tick-millis"
  | .log => "log"
  | .param => "param"

/-- What is wrong with the arguments, or that they ask for help. -/
inductive UsageError where
  | unknownArgument (argument : String)
  /-- The value of an option is of the wrong form. -/
  | badValue (option : OptionName)
  /-- An option has no value, or an empty one where that cannot be. -/
  | missingValue (option : OptionName)
  /-- An option is given twice. -/
  | repeated (option : OptionName)
  /-- A value is attached to the option for help. -/
  | attachedValue
  | unknownCommand (word : String)
  | missingCommand
  | help
  /-- There are no arguments at all. -/
  | noArguments
  deriving Repr, DecidableEq

/-! ## Options -/

/-- What has been given in front of the subcommand, or behind it. -/
structure Given where
  config : Option String
  properties : Option (List String)
  tickMillis : Option Nat
  log : Option String
  params : List (String × Value)
  action : Option String
  /-- The option whose value is still to be checked, and the value once it has come. -/
  pending : Option (OptionName × Option String)
  /-- Whether all that follows is plain. -/
  plain : Bool
  deriving Repr

namespace Given

def nothing : Given := ⟨none, none, none, none, [], none, none, false⟩

/-- Whether no option has been given. -/
def isEmpty (g : Given) : Bool :=
  g.config.isNone && g.properties.isNone && g.tickMillis.isNone && g.log.isNone && g.params.isEmpty

/-- A parameter `name=value`. A value that is a document is that value, and any other one a text. -/
def param? (text : String) : Option (String × Value) :=
  match splitFirst '=' text.toList with
  | none => none
  | some (name, value) =>
    let name := trim name
    if name.isEmpty then none
    else some (String.ofList name, (Json.value? value).getD (Value.ofChars value))

/-- Takes an option once. -/
def once {α : Type} (o : OptionName) (old : Option α) (new : α) : Except UsageError (Option α) :=
  if old.isSome then .error (.repeated o) else .ok (some new)

/-- Takes an option with its value. -/
def accept (g : Given) (o : OptionName) (value : String) : Except UsageError Given :=
  match o with
  | .config => do return { g with config := ← once o g.config value }
  | .log => do return { g with log := ← once o g.log value }
  | .tickMillis =>
    if g.tickMillis.isSome then .error (.repeated o)
    else
      match Decimal.natural? value.toList with
      | some n => .ok { g with tickMillis := some n }
      | none => .error (.badValue o)
  | .properties =>
    if value.isEmpty then .error (.missingValue o)
    else .ok { g with properties := some (g.properties.getD [] ++ [value]) }
  | .param =>
    match param? value with
    | some p => .ok { g with params := g.params ++ [p] }
    | none => .error (.badValue o)

/-- Checks the option that is still to be checked. -/
def resolve (g : Given) : Except UsageError Given :=
  match g.pending with
  | none => .ok g
  | some (o, none) => .error (.missingValue o)
  | some (o, some value) => { g with pending := none }.accept o value

/-- Whether the next argument is the value of an option. -/
def awaits (g : Given) : Bool :=
  match g.pending with
  | some (_, none) => true
  | _ => false

/-- Takes the value of the option that awaits one. -/
def supply (g : Given) (value : String) : Given :=
  { g with pending := g.pending.map fun (o, _) => (o, some value) }

end Given

/-! ## Levels -/

/-- The subcommands. -/
inductive Subcommand where
  | run
  | check
  | actions
  deriving Repr, DecidableEq

def Subcommand.word : Subcommand → String
  | .run => "run"
  | .check => "check"
  | .actions => "actions"

def Subcommand.ofWord? (word : String) : Option Subcommand :=
  [Subcommand.run, .check, .actions].find? fun c => c.word = word

/-- The word that asks for help. -/
def helpWord : String := "help"

/-- Where arguments are read: in front of the subcommand, or behind it. -/
inductive Position where
  | front
  | behind (c : Subcommand)
  deriving Repr, DecidableEq

/-- The options at a position. -/
def Position.options : Position → List OptionName
  | .behind .run => [.config, .properties, .tickMillis, .log, .param]
  | _ => [.config, .properties, .tickMillis, .log]

/-- An argument that looks like an option. -/
inductive Flag where
  | help (attached : Bool)
  /-- An option, with the value that is attached to it. -/
  | option (o : OptionName) (value : Option String)
  | unknown

/-- The option that a word names at a position, with an attached value. -/
def longFlag (p : Position) (word : String) (value : Option String) : Flag :=
  if word = helpWord then .help value.isSome
  else
    match p.options.find? fun o => o.word = word with
    | some o => .option o value
    | none => .unknown

/-- A value right behind a letter; an equals sign may stand between them. -/
def attachedValue : List Char → Option String
  | [] => none
  | '=' :: r => some (String.ofList r)
  | r => some (String.ofList r)

/-- The option that an argument is, if it looks like one: it begins with a dash and is not a dash alone. -/
def flag? (p : Position) (argument : String) : Option Flag :=
  match argument.toList with
  | '-' :: '-' :: r =>
    match splitFirst '=' r with
    | some (word, value) => some (longFlag p (String.ofList word) (some (String.ofList value)))
    | none => some (longFlag p (String.ofList r) none)
  | '-' :: 'h' :: _ => some (.help false)
  | '-' :: 'p' :: r =>
    if p = .behind .run then some (.option .param (attachedValue r)) else some .unknown
  | '-' :: _ :: _ => some .unknown
  | _ => none

/-- What comes of asking for help about some words: help, if there is help about them. -/
def helpOn : List String → UsageError
  | [] => .help
  | word :: rest =>
    if word = helpWord ∨ (Subcommand.ofWord? word).isSome then
      match rest with
      | [] => .help
      | next :: _ => .unknownCommand next
    else .unknownCommand word

/-- A plain argument that has no place. -/
def misplaced (p : Position) (g : Given) (argument : String) : UsageError :=
  match p with
  | .behind _ => .unknownArgument argument
  | .front =>
    if g.plain && (argument = helpWord || (Subcommand.ofWord? argument).isSome) then
      .unknownArgument argument
    else .unknownCommand argument

/-- Takes a plain argument: the action of a run. -/
def plainArgument (p : Position) (g : Given) (argument : String) : Except UsageError Given :=
  if p = .behind .run && g.action.isNone then
    match g.resolve with
    | .ok g => .ok { g with action := some argument }
    | .error e => .error e
  else .error (misplaced p g argument)

/-- Reads arguments at a position, in front of the subcommand up to it. Returns it with what follows. -/
def scan (p : Position) : List String → Given →
    Except UsageError (Given × Option (Subcommand × List String))
  | [], g => .ok (g, none)
  | a :: rest, g =>
    let plain : Except UsageError (Given × Option (Subcommand × List String)) :=
      match plainArgument p g a with
      | .ok g => scan p rest g
      | .error e => .error e
    if g.plain then plain
    else if p = .front && !g.awaits && a = helpWord then .error (helpOn rest)
    else
      match (if p = .front && !g.awaits then Subcommand.ofWord? a else none) with
      | some c => .ok (g, some (c, rest))
      | none =>
        if a = "--" then scan p rest { g with plain := true }
        else
          match flag? p a with
          | some .unknown => .error (.unknownArgument a)
          | some (.help true) => .error .attachedValue
          | some (.help false) =>
            match g.resolve with
            | .ok _ => .error .help
            | .error e => .error e
          | some (.option o value) =>
            match g.resolve with
            | .error e => .error e
            | .ok g =>
              match value with
              | none => scan p rest { g with pending := some (o, none) }
              | some v =>
                match g.accept o v with
                | .ok g => scan p rest g
                | .error e => .error e
          | none => if g.awaits then scan p rest (g.supply a) else plain

/-! ## Command lines -/

/-- What to do. -/
inductive Task where
  | run (action : Option String) (params : Table Value)
  | check
  | actions
  deriving Repr

/-- A command line. -/
structure Arguments where
  config : Option String
  properties : List String
  tickMillis : Option Nat
  log : Option String
  task : Task
  deriving Repr

/-- The command line of what is given in front of a subcommand and behind it. -/
def Arguments.combine (front behind : Given) (c : Subcommand) : Arguments where
  config := behind.config.or front.config
  properties := ((behind.properties.or front.properties).getD [])
  tickMillis := behind.tickMillis.or front.tickMillis
  log := behind.log.or front.log
  task := match c with
    | .run => .run behind.action (Table.ofEntries behind.params)
    | .check => .check
    | .actions => .actions

/-- Reads a command line. What is wrong behind the subcommand is found before what is wrong in front. -/
def Arguments.parse (args : List String) : Except UsageError Arguments :=
  match scan .front args .nothing with
  | .error e => .error e
  | .ok (front, none) =>
    match front.resolve with
    | .error e => .error e
    | .ok front => .error (if front.isEmpty then .noArguments else .missingCommand)
  | .ok (front, some (c, rest)) =>
    match scan (.behind c) rest .nothing with
    | .error e => .error e
    | .ok (behind, _) =>
      match behind.resolve with
      | .error e => .error e
      | .ok behind =>
        match front.resolve with
        | .error e => .error e
        | .ok front => .ok (.combine front behind c)

end Sequencer.CommandLine
