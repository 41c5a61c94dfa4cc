import Lacuna.Model.Benchmark
import Lacuna.Model.Command

/-!
# What a benchmark prints

`run_benchmark` of `utils/benchmark.cpp` around its loop: the refusal of a path that is no
directory, the short answer for a directory without matching files, and the records as JSON or
as a table. The progress line, which goes to standard error, belongs to `Machine`.
-/

set_option autoImplicit false

namespace Lacuna.Model

/-- How durations are spelt: by `operator<<` after `std::fixed << std::setprecision(3)`. -/
abbrev Milliseconds := Float → Bytes

/-! ## JSON -/

/-- One record of the JSON report; `last` is the condition of the comma behind it. -/
def benchmarkRecord (host : Host) (milliseconds : Milliseconds) (r : BenchmarkResult)
    (last : Bool) : Bytes :=
  List.flatten [
    text "    \x7b\n",
    text "      \"file\": \"", r.fileName, text "\",\n",
    text "      \"original_bytes\": ", decimal r.originalSize.toNat, text ",\n",
    text "      \"rle\": \x7b \"bytes\": ", decimal r.rleSize,
    text ", \"ratio_pct\": ", host.numbers.fixed r.rleRatio,
    text ", \"duration_ms\": ", milliseconds r.rleTimeMs, text " \x7d,\n",
    text "      \"huffman\": \x7b \"bytes\": ", decimal r.huffSize,
    text ", \"ratio_pct\": ", host.numbers.fixed r.huffRatio,
    text ", \"duration_ms\": ", milliseconds r.huffTimeMs, text " \x7d,\n",
    text "      \"winner\": \"", r.recommendedAlgo, text "\"\n",
    text "    \x7d", if last then [] else text ",", text "\n"]

/-- The JSON report of `run_benchmark`. -/
def benchmarkJson (host : Host) (milliseconds : Milliseconds) (dirPath : Bytes)
    (results : List BenchmarkResult) : Bytes :=
  List.flatten [
    text "\x7b\n  \"directory\": \"", dirPath, text "\",\n",
    text "  \"files_count\": ", decimal results.length, text ",\n",
    text "  \"results\": [\n",
    results.zipIdx.flatMap fun entry =>
      benchmarkRecord host milliseconds entry.1 (!decide (entry.2 + 1 < results.length)),
    text "  ]\n\x7d\n"]

/-- The JSON report on a directory without matching files. -/
def emptyBenchmarkJson (dirPath : Bytes) : Bytes :=
  List.flatten [
    text "\x7b\"directory\":\"", dirPath, text "\",\"files_count\":0,\"results\":[]\x7d\n"]

/-! ## The table -/

/-- A field of the table: `std::left << std::setw(width) << content`. -/
def column (width : ℕ) (content : Bytes) : Bytes :=
  content ++ List.replicate (width - content.length) 32

/-- The line above and below the table. -/
def tableRule : Bytes := List.replicate 105 45 ++ text "\n"

/-- The head of the table. -/
def tableHeader (console : Console) : Bytes :=
  List.flatten [
    tableRule,
    text "| ", column 30 (console.bold (text "File Name")),
    text " | ", column 11 (console.bold (text "Orig Size")),
    text " | ", column 11 (console.bold (text "RLE Ratio")),
    text " | ", column 11 (console.bold (text "Huff Ratio")),
    text " | ", column 11 (console.bold (text "RLE Time")),
    text " | ", column 11 (console.bold (text "Huff Time")),
    text " | ", column 11 (console.bold (text "Winner")),
    text " |\n",
    tableRule]

/-- `fn`: a name of more than 30 bytes is cut off in front. -/
def tableName (fileName : Bytes) : Bytes :=
  if 30 < fileName.length then text "..." ++ fileName.drop (fileName.length - 27) else fileName

/-- One line of the table. -/
def tableRow (host : Host) (milliseconds : Milliseconds) (res : BenchmarkResult) : Bytes :=
  List.flatten [
    text "| ", column 30 (tableName res.fileName),
    text " | ", column 11 (decimal res.originalSize.toNat ++ text " B"),
    text " | ", column 11 (host.numbers.fixed res.rleRatio ++ text "%"),
    text " | ", column 11 (host.numbers.fixed res.huffRatio ++ text "%"),
    text " | ", column 11 (milliseconds res.rleTimeMs ++ text " ms"),
    text " | ", column 11 (milliseconds res.huffTimeMs ++ text " ms"),
    text " | ", column 11
      (if res.recommendedAlgo = text "Huffman" then host.console.cyan (text "Huffman")
        else host.console.yellow (text "RLE")),
    text " |\n"]

/-- The table of `run_benchmark`. -/
def benchmarkTable (host : Host) (milliseconds : Milliseconds) (results : List BenchmarkResult) :
    Bytes :=
  tableHeader host.console ++ results.flatMap (tableRow host milliseconds) ++ tableRule

/-! ## The command -/

/-- The line about a directory without matching files. -/
def noMatchingFiles (console : Console) (dirPath : Bytes) : Bytes :=
  console.iconInfo ++
    text " No matching files (.json, .yaml, .yml, .toml, .txt) found in: " ++ dirPath ++ text "\n"

/-- `run_benchmark(dir_path, json_output, quiet)`. What `is_directory` says about the path and
the files `scan_directory` finds there are given. -/
def runBenchmark (host : Host) (milliseconds : Milliseconds) (isDirectory : Bool)
    (files : List BenchmarkFile) (dirPath : Bytes) (jsonOutput quiet : Bool) (w : World) :
    Bool × World :=
  if !isDirectory then
    (false, w.complain (errorLine host.console "Benchmark path is not a directory: " dirPath))
  else if files.isEmpty then
    if jsonOutput then (true, w.print (emptyBenchmarkJson dirPath))
    else if !quiet then (true, w.print (noMatchingFiles host.console dirPath))
    else (true, w)
  else
    let results := benchmarkResults host.target files
    if jsonOutput then (true, w.print (benchmarkJson host milliseconds dirPath results))
    else if quiet then (true, w)
    else (true, w.print (benchmarkTable host milliseconds results))

end Lacuna.Model
