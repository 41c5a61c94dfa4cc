import Lacuna.Analysis.CommandLine

/-!
# Which targets can be named

The keywords `help` and `version` are commands, but the loop tests every positional argument for
them. So a file of either name cannot be the target of a command: the help text or the version is
shown instead, and the program ends successfully. Every other target is read as it is given, and
the values of options are never looked at (`parseCliArgs_iff`).
-/

set_option autoImplicit false

namespace Lacuna.Results

open Model

/-- The commands that work on a target. -/
def targetCommands : List Bytes :=
  [text "compress", text "decompress", text "info", text "benchmark"]

/-- `command target [-q] [-v] [--json] [-o output] [-a algo]`. -/
def fullCommandLine (command target : Bytes) (quiet verbose json : Bool)
    (output algo : Option Bytes) : List Bytes :=
  [command, target] ++ (if quiet then [text "-q"] else []) ++
    (if verbose then [text "-v"] else []) ++ (if json then [text "--json"] else []) ++
    (output.elim [] fun path => [text "-o", path]) ++
    (algo.elim [] fun name => [text "-a", name])

/-- What this command line is meant for. -/
def intendedOptions (command target : Bytes) (quiet verbose json : Bool)
    (output algo : Option Bytes) : CliOptions :=
  { command := command
    positionalTarget := target
    outputPath := output
    algorithm := algo
    jsonOutput := json
    quiet := quiet
    verbose := verbose
    showHelp := false
    showVersion := false }

/-- The option groups of this command line. -/
def fullGroups (quiet verbose json : Bool) (output algo : Option Bytes) : List OptionGroup :=
  (if quiet then [.quiet ⟨text "-q", by decide⟩] else []) ++
    (if verbose then [.verbose ⟨text "-v", by decide⟩] else []) ++
    (if json then [.json ⟨text "--json", by decide⟩] else []) ++
    (output.elim [] fun path => [.output ⟨text "-o", by decide⟩ path]) ++
    (algo.elim [] fun name => [.algo ⟨text "-a", by decide⟩ name])

/-- The command line is the command, the target and these groups. -/
theorem fullCommandLine_eq (command target : Bytes) (quiet verbose json : Bool)
    (output algo : Option Bytes) :
    fullCommandLine command target quiet verbose json output algo =
      command :: target ::
        (fullGroups quiet verbose json output algo).flatMap OptionGroup.tokens := by
  cases quiet <;> cases verbose <;> cases json <;> cases output <;> cases algo <;> rfl

/-- Option groups set what they are meant for. -/
theorem foldl_fullGroups (command target : Bytes) (quiet verbose json : Bool)
    (output algo : Option Bytes) :
    (fullGroups quiet verbose json output algo).foldl OptionGroup.apply
        { command := command, positionalTarget := target } =
      intendedOptions command target quiet verbose json output algo := by
  cases quiet <;> cases verbose <;> cases json <;> cases output <;> cases algo <;> rfl

/-- A command line of option groups only is accepted. -/
theorem parseArgs_groups (console : Console) (gs : List OptionGroup) (opt : CliOptions) :
    parseArgs console (gs.flatMap OptionGroup.tokens) opt =
      .ok (gs.foldl OptionGroup.apply opt) := by
  induction gs generalizing opt with
  | nil => rfl
  | cons g gs ih => rw [List.flatMap_cons, parseArgs_group, ih, List.foldl_cons]

/-- A command is no keyword, and not empty. -/
theorem isPositional_command (command : Bytes) (h : command ∈ targetCommands) :
    IsPositional command ∧ command.isEmpty = false := by
  simp only [targetCommands, List.mem_cons, List.not_mem_nil, or_false] at h
  rcases h with rfl | rfl | rfl | rfl <;> decide

/-- Names of options begin with a dash and are longer than it. -/
theorem ne_of_head? {target name : Bytes} (hdash : target = dash ∨ target.head? ≠ some 45)
    (hname : name ≠ dash ∧ name.head? = some 45) : target ≠ name := by
  rintro rfl
  rcases hdash with h | h
  · exact hname.1 h
  · exact h hname.2

/-- A target that does not look like an option is positional, unless it is one of the two
keywords without a dash. -/
theorem isPositional_target (target : Bytes) (hdash : target = dash ∨ target.head? ≠ some 45)
    (hhelp : target ≠ text "help") (hversion : target ≠ text "version") :
    IsPositional target := by
  have hname : ∀ name : Bytes, name ≠ dash ∧ name.head? = some 45 →
      decide (target = name) = false := by
    intro name h
    exact decide_eq_false (ne_of_head? hdash h)
  simp only [IsPositional, isHelp, isVersion, isQuiet, isVerbose, isJson, isOutput, isAlgo,
    hname (text "-h") (by decide), hname (text "--help") (by decide),
    hname (text "-V") (by decide), hname (text "--version") (by decide),
    hname (text "-q") (by decide), hname (text "--quiet") (by decide),
    hname (text "-v") (by decide), hname (text "--verbose") (by decide),
    hname (text "--json") (by decide), hname (text "-o") (by decide),
    hname (text "--output") (by decide), hname (text "-a") (by decide),
    hname (text "--algo") (by decide), hname (text "--algorithm") (by decide),
    decide_eq_false hhelp, decide_eq_false hversion, Bool.or_self, and_self]

/-- The command in front is read first. -/
theorem parseArgs_command (console : Console) (command : Bytes) (h : command ∈ targetCommands)
    (rest : List Bytes) :
    parseCliArgs console (command :: rest) = parseArgs console rest { command := command } := by
  rw [parseCliArgs, parseArgs_positional console command (isPositional_command command h).1]
  rfl

/-- A target that is no keyword is read next. -/
theorem parseArgs_target (console : Console) (command target : Bytes)
    (hcommand : command ∈ targetCommands) (htarget : IsPositional target)
    (rest : List Bytes) :
    parseArgs console (target :: rest) { command := command } =
      parseArgs console rest { command := command, positionalTarget := target } := by
  have hempty := (isPositional_command command hcommand).2
  rw [parseArgs_positional console target htarget]
  simp only [parsePositional, hempty, Bool.false_eq_true, if_false, List.isEmpty_nil, if_true]
  rfl

/-- **Which targets can be named.** For each command that works on a target, every target that is
`-` or does not begin with a dash, every choice of the flags and all values of the
options, the command line is accepted and read as it is meant if and only if the target is
neither `help` nor `version`. -/
theorem parseCliArgs_iff (console : Console) (command target : Bytes)
    (hcommand : command ∈ targetCommands) (hdash : target = dash ∨ target.head? ≠ some 45)
    (quiet verbose json : Bool) (output algo : Option Bytes) :
    parseCliArgs console (fullCommandLine command target quiet verbose json output algo) =
        .ok (intendedOptions command target quiet verbose json output algo) ↔
      target ≠ text "help" ∧ target ≠ text "version" := by
  rw [fullCommandLine_eq, parseArgs_command console command hcommand]
  constructor
  · intro h
    constructor
    · rintro rfl
      unfold parseArgs at h
      have hshown := congrArg CliOptions.showHelp (Except.ok.inj h)
      exact absurd hshown (by decide : true ≠ false)
    · rintro rfl
      unfold parseArgs at h
      have hshown := congrArg CliOptions.showVersion (Except.ok.inj h)
      exact absurd hshown (by decide : true ≠ false)
  · rintro ⟨hhelp, hversion⟩
    rw [parseArgs_target console command target hcommand
      (isPositional_target target hdash hhelp hversion), parseArgs_groups, foldl_fullGroups]

/-- `decompress a.lac -q -o -V -a --help`. -/
theorem parseCliArgs_iff_flagLike :
    parseCliArgs plainConsole (fullCommandLine (text "decompress") (text "a.lac") true false false
        (some (text "-V")) (some (text "--help"))) =
      .ok (intendedOptions (text "decompress") (text "a.lac") true false false
        (some (text "-V")) (some (text "--help"))) :=
  (parseCliArgs_iff plainConsole (text "decompress") (text "a.lac") (by decide)
    (Or.inr (by decide)) true false false (some (text "-V"))
    (some (text "--help"))).mpr ⟨by decide, by decide⟩

/-- `compress help` shows the help text and has no target. -/
theorem compress_help :
    parseCliArgs plainConsole (fullCommandLine (text "compress") (text "help") false false false
        none none) = .ok { command := text "compress", showHelp := true } ∧
      parseCliArgs plainConsole (fullCommandLine (text "compress") (text "help") false false false
        none none) ≠
        .ok (intendedOptions (text "compress") (text "help") false false false none none) := by
  refine ⟨rfl, ?_⟩
  intro h
  have hshown := congrArg CliOptions.showHelp (Except.ok.inj h)
  exact absurd hshown (by decide : true ≠ false)

end Lacuna.Results
