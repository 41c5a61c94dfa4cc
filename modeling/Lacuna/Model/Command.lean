import Lacuna.Model.Trial
import Lacuna.Model.World

/-!
# The commands

`handle_compress` and `handle_decompress` of `main.cpp`. Either ends with the value it returns
and the world it leaves; the texts they print are those of the sources.
-/

set_option autoImplicit false

namespace Lacuna.Model

/-- `LACUNA_VERSION`. -/
def lacunaVersion : Bytes := text "0.1.1"

/-- `KNOWN_ALGOS`. -/
def knownAlgos : List Bytes := [text "rle", text "huffman", text "auto"]

/-- `struct CliOptions`. -/
structure CliOptions where
  command : Bytes := []
  positionalTarget : Bytes := []
  outputPath : Option Bytes := none
  algorithm : Option Bytes := none
  jsonOutput : Bool := false
  quiet : Bool := false
  verbose : Bool := false
  showHelp : Bool := false
  showVersion : Bool := false

/-! ## Messages -/

/-- `print_usage(os)`, as the text it writes. -/
def usage (console : Console) : Bytes :=
  List.flatten [
    console.bold (text "Lacuna"), text " ", console.dim (text "v" ++ lacunaVersion), text " — ",
    text "Minimalist binary data compression CLI\n\n",
    console.bold (text "USAGE:\n"), text "  lacuna <command> [options] <target>\n",
    text "  lacuna [options]\n\n",
    console.bold (text "COMMANDS:\n"), text "  ", console.cyan (text "compress"),
    text " <file> [algo]     Compress file (default: auto)\n",
    text "  ", console.cyan (text "decompress"),
    text " <file.lac>      Decompress .lac archive\n",
    text "  ", console.cyan (text "info"),
    text " <file.lac>            Inspect .lac headers and compression metrics\n",
    text "  ", console.cyan (text "benchmark"),
    text " <dir>           Benchmark RLE vs Huffman across a directory\n",
    text "  ", console.cyan (text "help"),
    text "                       Show this help menu\n",
    text "  ", console.cyan (text "version"),
    text "                    Display version information\n\n",
    console.bold (text "OPTIONS:\n"), text "  ", console.yellow (text "-o, --output"),
    text " <path>        Custom destination output path (or '-' for stdout)\n",
    text "  ", console.yellow (text "-a, --algo"),
    text " <rle|huffman>   Explicit compression algorithm\n",
    text "  ", console.yellow (text "-q, --quiet"),
    text "                Suppress non-error output\n",
    text "  ", console.yellow (text "-v, --verbose"),
    text "              Show detailed execution diagnostics\n",
    text "  ", console.yellow (text "    --json"),
    text "                 Output machine-readable JSON (info, benchmark, compress)\n",
    text "  ", console.yellow (text "-h, --help"),
    text "                 Display help information\n",
    text "  ", console.yellow (text "-V, --version"),
    text "              Display version information\n\n",
    console.bold (text "EXAMPLES:\n"), text "  ",
    console.dim (text "# Compress with automatic trial-selection:"), text "\n",
    text "  lacuna compress document.txt\n\n",
    text "  ", console.dim (text "# Compress via UNIX pipe:"), text "\n",
    text "  cat data.bin | lacuna compress - -o output.lac\n\n",
    text "  ", console.dim (text "# Inspect compression ratio in JSON format:"), text "\n",
    text "  lacuna info document.txt.lac --json\n\n",
    text "  ", console.dim (text "# Benchmark an entire data directory:"), text "\n",
    text "  lacuna benchmark ./test_data\n"]

/-- The line `icon_error() << " " << red(message) << detail << "\n"`. -/
def errorLine (console : Console) (message : String) (detail : Bytes) : Bytes :=
  console.iconError ++ text " " ++ console.red (text message) ++ detail ++ text "\n"

/-- How the JSON reports show a path: `shown` in the place of `-`. -/
def shownPath (shown : String) (path : Bytes) : Bytes := if path = dash then text shown else path

/-! ## `handle_compress` -/

/-- The target of a compression: what `file_data` becomes, or the text of the error. -/
def readTarget (host : Host) (w : World) (inputPath : Bytes) : Except Bytes Bytes :=
  if inputPath = dash then .ok host.stdin
  else
    match w.getFileSize host inputPath with
    | .error said => .error (said ++ errorLine host.console
        "Input file does not exist or is not a regular file: " inputPath)
    | .ok _ =>
      match w.openFile host inputPath with
      | none => .error (errorLine host.console
          "Failed to open input file for reading: " inputPath)
      | some input => .ok input.rest

/-- `selected_algo`, `algo_name` and `serialized_data`. -/
structure Selection where
  selectedAlgo : UInt8
  algoName : Bytes
  serializedData : Bytes

/-- The branch for an explicit algorithm: the id and the name of `algo_str`. -/
def algorithmNamed (algoStr : Bytes) : Option (UInt8 × Bytes) :=
  if algoStr = text "rle" then some (0x01, text "RLE")
  else if algoStr = text "huffman" then some (0x02, text "Huffman")
  else none

/-- What is said about an unknown algorithm. -/
def unknownAlgorithm (host : Host) (algoStr : Bytes) : Except Fault Bytes := do
  let suggestion ← findSuggestion host.target algoStr knownAlgos
  let line := errorLine host.console "Unknown algorithm: '" (algoStr ++ text "'")
  if suggestion.isEmpty then return line
  return line ++ text "  " ++ host.console.dim (text "Did you mean: ") ++
    host.console.yellow suggestion ++ text "?\n"

/-- The branch that selects the algorithm with the smaller archive. -/
def selectAutomatically (host : Host) (inputPath fileData : Bytes) : Except Bytes Selection :=
  let rleResult := runTrial host.target host.elapsed fileData 0x01
  let huffResult := runTrial host.target host.elapsed fileData 0x02
  if !rleResult.success && !huffResult.success then
    .error (errorLine host.console "Compression trials failed for: " inputPath)
  else if huffResult.success &&
      (!rleResult.success || huffResult.compressedSize < rleResult.compressedSize) then
    .ok { selectedAlgo := 0x02
          algoName := text "Huffman"
          serializedData := huffResult.serializedData }
  else
    .ok { selectedAlgo := 0x01
          algoName := text "RLE"
          serializedData := rleResult.serializedData }

/-- The archive `handle_compress` makes of the data, or the text of the error. -/
def selectArchive (host : Host) (opt : CliOptions) (inputPath fileData : Bytes) :
    Except Fault (Except Bytes Selection) :=
  match opt.algorithm with
  | none => .ok (selectAutomatically host inputPath fileData)
  | some algoStr =>
    if algoStr = text "auto" then .ok (selectAutomatically host inputPath fileData)
    else
      match algorithmNamed algoStr with
      | none =>
        match unknownAlgorithm host algoStr with
        | .error fault => .error fault
        | .ok message => .ok (.error message)
      | some (selectedAlgo, algoName) =>
        let result := runTrial host.target host.elapsed fileData selectedAlgo
        if !result.success then
          .ok (.error (errorLine host.console "Compression failed for: " inputPath))
        else
          .ok (.ok { selectedAlgo := selectedAlgo
                     algoName := algoName
                     serializedData := result.serializedData })

/-- `out_dest` of `handle_compress`. -/
def compressDest (opt : CliOptions) : Bytes :=
  opt.outputPath.getD
    (if opt.positionalTarget = dash then dash else opt.positionalTarget ++ text ".lac")

/-- The saving in per cent. -/
def ratio (origSz compSz : UInt64) : Float :=
  if 0 < origSz then (1.0 - compSz.toFloat / origSz.toFloat) * 100.0 else 0.0

/-- The JSON report of `handle_compress`. After `std::fixed` and `std::setprecision(2)` the
duration is printed so too. -/
def compressJson (host : Host) (inputPath outDest algoName : Bytes) (origSz compSz : UInt64) :
    Bytes :=
  List.flatten [
    text "\x7b\n",
    text "  \"status\": \"success\",\n",
    text "  \"input\": \"", shownPath "<stdin>" inputPath, text "\",\n",
    text "  \"output\": \"", shownPath "<stdout>" outDest, text "\",\n",
    text "  \"algorithm\": \"", algoName, text "\",\n",
    text "  \"original_bytes\": ", decimal origSz.toNat, text ",\n",
    text "  \"compressed_bytes\": ", decimal compSz.toNat, text ",\n",
    text "  \"ratio_pct\": ", host.numbers.fixed (ratio origSz compSz), text ",\n",
    text "  \"duration_ms\": ", host.numbers.fixed host.elapsed, text "\n",
    text "\x7d\n"]

/-- The line about the elapsed time. -/
def elapsedLine (host : Host) : Bytes :=
  text "  " ++ host.console.dim (text "Elapsed:") ++ text " " ++
    host.numbers.general host.elapsed ++ text " ms\n"

/-- The text report of `handle_compress`. -/
def compressSummary (host : Host) (inputPath outDest algoName : Bytes)
    (origSz compSz : UInt64) : Bytes :=
  let console := host.console
  let percent := (host.numbers.toString (ratio origSz compSz)).take 5 ++ text "%"
  List.flatten [
    console.iconSuccess, text " ", console.bold (text "Compressed"), text " ",
    console.cyan inputPath, text " -> ", console.bold outDest, text "\n",
    text "  ", console.dim (text "Algorithm:"), text " ", console.yellow algoName, text " ",
    console.dim (text "│ Size:"), text " ", formatBytes host.numbers origSz, text " -> ",
    formatBytes host.numbers compSz, text " ", console.dim (text "│ Ratio:"), text " ",
    if 0.0 ≤ ratio origSz compSz then console.green percent else console.red percent,
    text "\n"]

/-- What `handle_compress` prints when it has written the archive. -/
def compressReport (host : Host) (opt : CliOptions) (outDest algoName : Bytes)
    (origSz compSz : UInt64) : Bytes :=
  if opt.jsonOutput then
    compressJson host opt.positionalTarget outDest algoName origSz compSz
  else if !opt.quiet && outDest ≠ dash then
    compressSummary host opt.positionalTarget outDest algoName origSz compSz ++
      (if opt.verbose then elapsedLine host else [])
  else []

/-- The end of `handle_compress`: the archive is written and reported. -/
def emitArchive (host : Host) (opt : CliOptions) (w : World) (fileData : Bytes)
    (chosen : Selection) : Bool × World :=
  let outDest := compressDest opt
  let report := compressReport host opt outDest chosen.algoName
    (UInt64.ofNat fileData.length) (UInt64.ofNat chosen.serializedData.length)
  if outDest = dash then
    let w := { w with stdout := (w.stdout.write chosen.serializedData).flush }
    (true, w.print report)
  else if !host.writable outDest then
    (false, w.complain
      (errorLine host.console "Failed to open output file for writing: " outDest))
  else
    let out := (host.device outDest).write chosen.serializedData
    -- the destructor of `out` closes the file, whichever way the block is left
    let w := w.store outDest out.flush.accepted
    if !out.good then
      (false, w.complain
        (errorLine host.console "Failed to write compressed data to: " outDest))
    else (true, w.print report)

/-- `handle_compress(opt)`. -/
def handleCompress (host : Host) (opt : CliOptions) (w : World) : Except Fault (Bool × World) :=
  let inputPath := opt.positionalTarget
  if inputPath.isEmpty then
    .ok (false, w.complain
      (errorLine host.console "Missing target input file for compression." [] ++
        usage host.console))
  else
    match readTarget host w inputPath with
    | .error message => .ok (false, w.complain message)
    | .ok fileData =>
      match selectArchive host opt inputPath fileData with
      | .error fault => .error fault
      | .ok (.error message) => .ok (false, w.complain message)
      | .ok (.ok chosen) => .ok (emitArchive host opt w fileData chosen)

/-! ## `handle_decompress` -/

/-- `out_dest` of `handle_decompress`. -/
def decompressDest (opt : CliOptions) : Bytes :=
  match opt.outputPath with
  | some path => path
  | none =>
    if opt.positionalTarget = dash then dash
    else if (text ".lac").isSuffixOf opt.positionalTarget then
      opt.positionalTarget.take (opt.positionalTarget.length - 4)
    else opt.positionalTarget ++ text ".decompressed"

/-- The stream `in_ptr` points to; `none` is a file that could not be opened. -/
def openArchive (host : Host) (w : World) (inputPath : Bytes) : Option IStream :=
  if inputPath = dash then some (IStream.ofBytes host.stdin) else w.openFile host inputPath

/-- The JSON report of `handle_decompress`. -/
def decompressJson (host : Host) (inputPath outDest : Bytes) (restored : UInt64) : Bytes :=
  List.flatten [
    text "\x7b\n",
    text "  \"status\": \"success\",\n",
    text "  \"input\": \"", shownPath "<stdin>" inputPath, text "\",\n",
    text "  \"output\": \"", shownPath "<stdout>" outDest, text "\",\n",
    text "  \"restored_bytes\": ", decimal restored.toNat, text ",\n",
    text "  \"duration_ms\": ", host.numbers.general host.elapsed, text "\n",
    text "\x7d\n"]

/-- The text report of `handle_decompress`. -/
def decompressSummary (host : Host) (inputPath outDest : Bytes) (restored : UInt64) : Bytes :=
  let console := host.console
  List.flatten [
    console.iconSuccess, text " ", console.bold (text "Decompressed"), text " ",
    console.cyan inputPath, text " -> ", console.bold outDest, text " ", console.dim (text "("),
    formatBytes host.numbers restored, console.dim (text ")"), text "\n"]

/-- What `handle_decompress` prints when it has restored the data. -/
def decompressReport (host : Host) (opt : CliOptions) (outDest : Bytes) (restored : UInt64) :
    Bytes :=
  if opt.jsonOutput then decompressJson host opt.positionalTarget outDest restored
  else if !opt.quiet && outDest ≠ dash then
    decompressSummary host opt.positionalTarget outDest restored ++
      (if opt.verbose then elapsedLine host else [])
  else []

/-- The world after `*out_ptr` was written to: standard output, or the file at `out_dest`. -/
def World.keepOutput (w : World) (outDest : Bytes) (out : OStream) : World :=
  if outDest = dash then { w with stdout := out } else w.store outDest out.accepted

/-- The end of `handle_decompress`, once the destination is open: the payload is decoded into
it, and the destination is removed again if that fails. -/
def restorePayload (host : Host) (opt : CliOptions) (w : World) (header : Header)
    (input : IStream) (out : OStream) : Except Fault (Bool × World) :=
  let inputPath := opt.positionalTarget
  let outDest := decompressDest opt
  match selectCompressor host.target header.algorithmId with
  | none =>
    .ok (false, (w.keepOutput outDest out).complain
      (errorLine host.console "Unsupported algorithm ID: " (decimal header.algorithmId.toNat)))
  | some compressor =>
    match compressor.decompress input out header.originalSize with
    | .error fault => .error fault
    | .ok (none, out) =>
      let w := (w.keepOutput outDest out).complain
        (errorLine host.console "Decompression failed or payload corrupted in: " inputPath)
      if outDest ≠ dash then .ok (false, w.remove outDest) else .ok (false, w)
    | .ok (some decompressedBytes, out) =>
      .ok (true,
        (w.keepOutput outDest out).print (decompressReport host opt outDest decompressedBytes))

/-- `handle_decompress(opt)`. Opening the destination truncates it, and where it is the archive
itself this is what the open input stream reads on from. -/
def handleDecompress (host : Host) (opt : CliOptions) (w : World) :
    Except Fault (Bool × World) :=
  let inputPath := opt.positionalTarget
  if inputPath.isEmpty then
    .ok (false, w.complain
      (errorLine host.console "Missing target .lac file for decompression." [] ++
        usage host.console))
  else
    match openArchive host w inputPath with
    | none =>
      .ok (false, w.complain (errorLine host.console "Failed to open input file: " inputPath))
    | some input =>
      match readHeader input with
      | (none, _) =>
        .ok (false, w.complain
          (errorLine host.console "Invalid or corrupted .lac header in: " inputPath))
      | (some header, input) =>
        let outDest := decompressDest opt
        if outDest = dash then restorePayload host opt w header input w.stdout
        else if !host.writable outDest then
          .ok (false, w.complain
            (errorLine host.console "Failed to open destination output file: " outDest))
        else
          let w := w.store outDest []
          let input :=
            if outDest = inputPath then { input with rest := host.residue input.rest } else input
          restorePayload host opt w header input (host.device outDest)

end Lacuna.Model
