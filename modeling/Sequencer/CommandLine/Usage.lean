import Sequencer.CommandLine.Arguments

/-!
# Usage

What the program says about its arguments.
-/

namespace Sequencer.CommandLine

/-- The name of the program. -/
def programName : String := "relay"

/-- How to call the program. -/
def usage : String :=
  String.intercalate "\n"
    [s!"Usage: {programName} [OPTIONS] <COMMAND>", "",
      "Commands:",
      "  run [ACTION]   Run an action as the top-level sequence of a new request",
      "  check          Decode every instruction and report unknown commands or bad decorations",
      "  actions        List the actions defined in the loaded properties",
      "  help           Print this message", "",
      "Options:",
      "      --config <CONFIG>            Path to config file (overrides default search)",
      "      --properties <PROPERTIES>    Property file holding actions (repeatable)",
      "      --tick-millis <TICK_MILLIS>  Length of one timing unit in milliseconds",
      "      --log <LOG>                  Log filter (overrides the config file)",
      "  -p, --param <KEY=VALUE>          Request parameter of a run (repeatable)",
      "  -h, --help                       Print this message"]

namespace UsageError

/-- Whether the arguments were a question that the usage answers. -/
def isQuestion : UsageError → Bool
  | .help => true
  | _ => false

def message : UsageError → String
  | .unknownArgument argument => s!"unexpected argument '{argument}' found"
  | .badValue o => s!"invalid value for '--{o.word}'"
  | .missingValue o => s!"a value is required for '--{o.word}' but none was supplied"
  | .repeated o => s!"the argument '--{o.word}' cannot be used multiple times"
  | .attachedValue => s!"unexpected value for '--{helpWord}' found"
  | .unknownCommand word => s!"unrecognized subcommand '{word}'"
  | .missingCommand => s!"'{programName}' requires a subcommand but one was not provided"
  | .help => "help requested"
  | .noArguments => "no arguments given"

end UsageError
end Sequencer.CommandLine
