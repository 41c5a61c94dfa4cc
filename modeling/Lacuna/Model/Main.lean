import Lacuna.Model.BenchmarkReport
import Lacuna.Model.Cli
import Lacuna.Model.Info
import Lacuna.Model.Scan

/-!
# The program

`main` of `main.cpp`: the arguments are parsed, the word in front chooses one of the commands,
and what the command returns becomes the exit status. A run of the program is given the machine
it finds, its arguments and the world, and leaves a status and another world.
-/

set_option autoImplicit false

namespace Lacuna.Model

/-- What a run of the program finds and does not change. Beside the host these are the spelling
of a duration, the terminal behind standard error, the directories as a scan sees them with the
depth up to which it is followed, what `std::filesystem::relative` calls a listed file, and what the
clock measures over its two trials. -/
structure Machine (Dir : Type) where
  host : Host
  milliseconds : Milliseconds
  stderrIsTty : Bool
  graph : DirectoryGraph Dir
  depth : ℕ
  entryAt : Bytes → EntryType Dir
  relativeName : Bytes → Path → Bytes
  trialElapsed : Bytes → Float × Float

variable {Dir : Type}

/-! ## Texts -/

/-- `KNOWN_COMMANDS`. -/
def knownCommands : List Bytes :=
  [text "compress", text "decompress", text "info", text "benchmark", text "help",
    text "version"]

/-- `print_version()`, as the text it writes. -/
def versionText (console : Console) : Bytes :=
  List.flatten [
    text "lacuna ", lacunaVersion, text " (C++20, ", console.cyan (text "Core Red Project"),
    text ")\n"]

/-- `print_onboarding()`, as the text it writes. -/
def onboarding (console : Console) : Bytes :=
  List.flatten [
    text "\n",
    console.bold (text "  ┌─────────────────────────────────────────────────────────────┐\n"),
    console.bold (text "  │ "), console.magenta (text "✦"), text " ",
    console.bold (console.cyan (text "L A C U N A")), text " ",
    console.dim (text "v" ++ lacunaVersion), text "  ", console.dim (text "Core Red Project"),
    text "                       │\n",
    console.bold (text "  └─────────────────────────────────────────────────────────────┘\n"),
    text "  ", console.dim (text "High-performance zero-dependency binary data compression"),
    text "\n\n",
    console.bold (text "  Quick Start:"), text "\n",
    text "    ", console.cyan (text "lacuna compress"), text " <input_file>        ",
    console.dim (text "Auto-select best algorithm (RLE/Huffman)"), text "\n",
    text "    ", console.cyan (text "lacuna decompress"), text " <file.lac>        ",
    console.dim (text "Restore file to original state"), text "\n",
    text "    ", console.cyan (text "lacuna info"), text " <file.lac>              ",
    console.dim (text "Display compression ratio & metadata"), text "\n",
    text "    ", console.cyan (text "lacuna benchmark"), text " <directory>       ",
    console.dim (text "Compare algorithms across test data"), text "\n\n",
    text "  Run ", console.yellow (text "lacuna --help"),
    text " for options, pipes, and JSON output flags.\n\n"]

/-! ## The benchmark of a directory -/

/-- `dir / name` of `std::filesystem::path`: a separator is added unless there is one. -/
def joinName (dir name : Bytes) : Bytes :=
  if dir.isEmpty || dir.getLast? = some 47 then dir ++ name else dir ++ text "/" ++ name

/-- The path of an entry below the directory the scan started from. -/
def listedPath (dirPath : Bytes) (path : Path) : Bytes := path.foldl joinName dirPath

namespace Machine

/-- A listed file, as the loop of `run_benchmark` finds it. -/
def listedFile (machine : Machine Dir) (dirPath : Bytes) (w : World) (path : Path) :
    BenchmarkFile :=
  let name := listedPath dirPath path
  { fileName := machine.relativeName dirPath path
    contents := (w.openFile machine.host name).map IStream.rest
    rleElapsed := (machine.trialElapsed name).1
    huffElapsed := (machine.trialElapsed name).2 }

/-- `terminal::is_color_enabled(std::cerr)`. -/
def colorOnStderr (machine : Machine Dir) : Bool :=
  { machine.host.console with stdoutIsTty := machine.stderrIsTty }.isColorEnabled

/-- The line about the file under way; `processed` counts it. -/
def progressLine (machine : Machine Dir) (total processed : ℕ) (path : Path) : Bytes :=
  List.flatten [
    text "\r", machine.host.console.cyan (text "⠋"), text " Benchmarking [", decimal processed,
    text "/", decimal total, text "] ", machine.host.console.dim (path.getLastD []), text "..."]

/-- What the loop writes to standard error: a line for each file, over the one before, and the
sequence that erases the last. -/
def progress (machine : Machine Dir) (jsonOutput quiet : Bool) (paths : List Path) : Bytes :=
  let showProgress := !jsonOutput && !quiet && machine.colorOnStderr
  if showProgress && !paths.isEmpty then
    (paths.zipIdx 1).flatMap (fun entry => machine.progressLine paths.length entry.2 entry.1) ++
      text "\r" ++ 27 :: text "[K"
  else []

/-- `run_benchmark(dir_path, json_output, quiet)` with its scan and its progress. A scan that is
followed too deep does not come to an end. -/
def benchmark (machine : Machine Dir) (dirPath : Bytes) (jsonOutput quiet : Bool) (w : World) :
    Except Fault (Bool × World) :=
  match machine.entryAt dirPath with
  | .directory dir =>
    match scanDirectory machine.graph machine.depth (.directory dir) with
    | none => .error .divergence
    | some paths =>
      .ok (runBenchmark machine.host machine.milliseconds true
        (paths.map (machine.listedFile dirPath w)) dirPath jsonOutput quiet
        (w.complain (machine.progress jsonOutput quiet paths)))
  | _ =>
    .ok (runBenchmark machine.host machine.milliseconds false [] dirPath jsonOutput quiet w)

end Machine

/-! ## `main` -/

/-- What is said about an unknown command, and the usage. -/
def unknownCommand (host : Host) (command : Bytes) : Except Fault Bytes := do
  let line := errorLine host.console "Unknown command: '" (command ++ text "'")
  let suggestion ← findSuggestion host.target command knownCommands
  if suggestion.isEmpty then return line ++ text "\n" ++ usage host.console
  return line ++ text "  " ++ host.console.dim (text "Did you mean: ") ++
    host.console.yellow suggestion ++ text "?\n\n" ++ usage host.console

/-- The commands, with what they return: `opt.command` chooses one. -/
def dispatch (machine : Machine Dir) (opt : CliOptions) (w : World) :
    Except Fault (Bool × World) :=
  let host := machine.host
  if opt.command = text "compress" || opt.command = text "c" then handleCompress host opt w
  else if opt.command = text "decompress" || opt.command = text "d" then
    handleDecompress host opt w
  else if opt.command = text "info" || opt.command = text "i" then .ok (handleInfo host opt w)
  else if opt.command = text "benchmark" || opt.command = text "bench" || opt.command = text "b"
  then
    let dir := if opt.positionalTarget.isEmpty then text "." else opt.positionalTarget
    machine.benchmark dir opt.jsonOutput opt.quiet w
  else (unknownCommand host opt.command).map fun message => (false, w.complain message)

/-- The body of `main` behind the parser. -/
def runOptions (machine : Machine Dir) (opt : CliOptions) (w : World) :
    Except Fault (Bool × World) :=
  let console := machine.host.console
  if opt.showVersion then .ok (true, w.print (versionText console))
  else if opt.showHelp then .ok (true, w.print (usage console))
  else if opt.command.isEmpty then .ok (true, w.print (onboarding console))
  else dispatch machine opt w

/-- The exit status for a returned value. -/
def exitStatus (ok : Bool) : ℕ := if ok then 0 else 1

/-- `main(argc, argv)` on the arguments behind the program name: the exit status, and the world
that is left. -/
def main (machine : Machine Dir) (args : List Bytes) (w : World) : Except Fault (ℕ × World) :=
  match parseCliArgs machine.host.console args with
  | .error (_, line) => .ok (exitStatus false, w.complain line)
  | .ok opt => (runOptions machine opt w).map fun result => (exitStatus result.1, result.2)

end Lacuna.Model
