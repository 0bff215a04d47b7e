import Sequencer.Config.Dotenv
import Sequencer.Config.Location
import Sequencer.Files

/-!
# Configuration

Which property files are loaded, what is logged, how long a unit of time is, and which action is run by
default. The values come from defaults, a TOML file, the environment, and overrides, where the later wins.
-/

namespace Sequencer

/-! ## Configurations -/

/-- A configuration. -/
structure Config where
  /-- The property files, in the order in which they are loaded. -/
  properties : List String
  logFilter : String
  /-- The length of a unit of time in milliseconds. -/
  tickMillis : Nat
  /-- The action that is run when none is named. -/
  defaultAction : Option String
  deriving Repr, DecidableEq

/-- Why there is no configuration. -/
inductive ConfigError where
  /-- The file is missing or malformed, or some value is of the wrong kind. -/
  | unloadable (path : String)
  | zeroTick
  | blankAction
  deriving Repr, DecidableEq

def ConfigError.message : ConfigError → String
  | .unloadable path => s!"Failed to load configuration from {path}"
  | .zeroTick => "tick_millis must be greater than zero"
  | .blankAction => "default_action must not be blank"

/-- Values that win over all others, and property files that come after all others. -/
structure Overrides where
  path : Option String
  properties : List String
  logFilter : Option String
  tickMillis : Option Nat
  deriving Repr

namespace Config

/-- The configuration without any settings. -/
def default : Config := ⟨[], "info", 1000, none⟩

/-- No overrides. -/
def noOverrides : Overrides := ⟨none, [], none, none⟩

/-- The file that is read if it exists and no other is named. -/
def defaultPath : String := "relay.toml"

/-- The variable that names the file. -/
def pathVariable : String := "RELAY_CONFIG_PATH"

/-- The file that adds to the environment. -/
def dotenvPath : String := ".env"

/-- The path with the extension of a TOML file, if it ends in a name. What stands for the same directory
behind the name does not count. -/
def withExtension? (path : String) : Option String :=
  match (Text.splitAll '/' path.toList).reverse.dropWhile fun part => part = [] || part = ['.'] with
  | [] | ['.', '.'] :: _ => none
  | parts => some (String.ofList (['/'].intercalate parts.reverse) ++ ".toml")

/-- The text of the file of a path, or of the file with the extension added. -/
def source? (files : FileReader) (path : String) : Option String :=
  match files path with
  | .ok text => some text
  | .error _ =>
    (withExtension? path).bind fun path =>
      match files path with
      | .ok text => some text
      | .error _ => none

/-- The settings of the file. A file that need not exist has none if it does not, and one that stands for a
moment is no configuration. -/
def fileSettings? (files : FileReader) (path : String) (required : Bool) :
    Option (List (String × Setting)) :=
  match source? files path with
  | some text =>
    (Toml.read? (Toml.dropMark text.toList)).bind fun entries =>
      if Toml.isMoment entries then none else some (Setting.ofEntries entries)
  | none => if required then none else some []

/-- A setting by its name, or a default. -/
def field? {α : Type} (read : Setting → Option α) (default : α) (s : Settings) (name : String) :
    Option α :=
  match Table.get? s name with
  | some v => read v
  | none => some default

/-- The configuration that some settings describe. -/
def ofSettings? (s : Settings) : Option Config := do
  let properties ← field? Setting.texts? default.properties s "properties"
  let logFilter ← field? Setting.text? default.logFilter s "log_filter"
  let tickMillis ← field? Setting.word? default.tickMillis s "tick_millis"
  let action ← field? (fun v => (Setting.text? v).map some) none s "default_action"
  return ⟨properties, logFilter, tickMillis, action⟩

/-- The settings in front of all others. -/
def defaultSettings : Settings :=
  [("log_filter", .scalar (.text default.logFilter)),
    ("tick_millis", .scalar (.int default.tickMillis))]

/-- The configuration of a file and the environment. -/
def load? (files : FileReader) (env : Table String) (path : String) (required : Bool) :
    Option Config :=
  (fileSettings? files path required).bind fun file =>
    ofSettings? ((defaultSettings.setAll file).setAll (Settings.ofEnvironment env))

/-- A configuration that can be used, or what is wrong with it. -/
def validate (c : Config) : Except ConfigError Config :=
  if c.tickMillis = 0 then .error .zeroTick
  else
    match c.defaultAction with
    | some action => if Text.isAllBlank action.toList then .error .blankAction else .ok c
    | none => .ok c

/-- The environment with the variables of the environment file. -/
def environment (files : FileReader) (env : Table String) : Table String :=
  match files dotenvPath with
  | .ok text => Dotenv.apply env text
  | .error _ => env

/-- The file that is read, and whether it has to exist: one that is named does. -/
def sourcePath (env : Table String) (o : Overrides) : String × Bool :=
  match o.path.or (Table.get? env pathVariable) with
  | some path => (path, true)
  | none => (defaultPath, false)

/-- The files that building a configuration looks for. -/
def lookedFor (files : FileReader) (env : Table String) (o : Overrides) : List String :=
  let path := (sourcePath (environment files env) o).1
  dotenvPath :: path :: (withExtension? path).toList

/-- The configuration from all sources. -/
def build (files : FileReader) (env : Table String) (o : Overrides) : Except ConfigError Config :=
  let env := environment files env
  let (path, required) := sourcePath env o
  match load? files env path required with
  | none => .error (.unloadable path)
  | some c =>
    validate
      { c with
        properties := c.properties ++ o.properties
        logFilter := o.logFilter.getD c.logFilter
        tickMillis := o.tickMillis.getD c.tickMillis }

end Config
end Sequencer
