import Lacuna.Model.Command

/-!
# The command line

`parse_cli_args` of `main.cpp`. The arguments are read from left to right; a name of an option
is tested for before anything positional, and the value of an option is whatever comes next.
-/

set_option autoImplicit false

namespace Lacuna.Model

/-! ## The names tested for -/

/-- `a == "-h" || a == "--help" || a == "help"`. -/
def isHelp (a : Bytes) : Bool := a = text "-h" || a = text "--help" || a = text "help"

/-- `a == "-V" || a == "--version" || a == "version"`. -/
def isVersion (a : Bytes) : Bool := a = text "-V" || a = text "--version" || a = text "version"

/-- `a == "-q" || a == "--quiet"`. -/
def isQuiet (a : Bytes) : Bool := a = text "-q" || a = text "--quiet"

/-- `a == "-v" || a == "--verbose"`. -/
def isVerbose (a : Bytes) : Bool := a = text "-v" || a = text "--verbose"

/-- `a == "--json"`. -/
def isJson (a : Bytes) : Bool := a = text "--json"

/-- `a == "-o" || a == "--output"`. -/
def isOutput (a : Bytes) : Bool := a = text "-o" || a = text "--output"

/-- `a == "-a" || a == "--algo" || a == "--algorithm"`. -/
def isAlgo (a : Bytes) : Bool := a = text "-a" || a = text "--algo" || a = text "--algorithm"

/-- `a == "rle" || a == "huffman" || a == "auto"`. -/
def isLegacyAlgo (a : Bytes) : Bool := a = text "rle" || a = text "huffman" || a = text "auto"

/-! ## `parse_cli_args` -/

/-- What a rejected command line leaves: the options read so far, and the line on standard
error. -/
abbrev CliRejection := CliOptions × Bytes

/-- The last part of the loop body: `a` is a positional argument. -/
def parsePositional (console : Console) (opt : CliOptions) (a : Bytes) :
    Except CliRejection CliOptions :=
  if opt.command.isEmpty then .ok { opt with command := a }
  else if opt.positionalTarget.isEmpty then .ok { opt with positionalTarget := a }
  else if opt.algorithm.isNone && isLegacyAlgo a then .ok { opt with algorithm := some a }
  else .error (opt, errorLine console "Unexpected argument: " a)

/-- `while (idx < args.size())`: `.ok` is the options when `true` is returned. -/
def parseArgs (console : Console) : List Bytes → CliOptions → Except CliRejection CliOptions
  | [], opt => .ok opt
  | a :: rest, opt =>
    if isHelp a then .ok { opt with showHelp := true }
    else if isVersion a then .ok { opt with showVersion := true }
    else if isQuiet a then parseArgs console rest { opt with quiet := true }
    else if isVerbose a then parseArgs console rest { opt with verbose := true }
    else if isJson a then parseArgs console rest { opt with jsonOutput := true }
    else if isOutput a then
      match rest with
      | [] => .error (opt, errorLine console "Option requires argument: " a)
      | value :: rest => parseArgs console rest { opt with outputPath := some value }
    else if isAlgo a then
      match rest with
      | [] => .error (opt, errorLine console "Option requires argument: " a)
      | value :: rest => parseArgs console rest { opt with algorithm := some value }
    else
      match parsePositional console opt a with
      | .error rejected => .error rejected
      | .ok opt => parseArgs console rest opt

/-- `parse_cli_args(argc, argv, opt)` on the arguments behind the program name. -/
def parseCliArgs (console : Console) (args : List Bytes) : Except CliRejection CliOptions :=
  parseArgs console args {}

end Lacuna.Model
