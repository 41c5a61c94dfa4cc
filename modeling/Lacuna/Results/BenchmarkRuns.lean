import Lacuna.Analysis.DirectoryScan
import Lacuna.Results.AutoSelection
import Lacuna.Results.ExitStatus
import Lacuna.Results.JsonOutput

/-!
# What a benchmark reports

From the directories to the text on standard output: a benchmark that prints JSON lists the files
below its directory that have one of the extensions and can be opened, in the order of their paths,
and says of each how long the two archives of its contents are, and which codec the compressing
command would select (`main_benchmark_json`).
-/

set_option autoImplicit false

namespace Lacuna.Results

open Model Library

variable {Dir : Type}

/-! ## The records -/

/-- The record of a file that holds `data`. -/
def measured (T : Target) (file : BenchmarkFile) (data : Bytes) : BenchmarkResult where
  fileName := file.fileName
  originalSize := UInt64.ofNat data.length
  rleSize := (archive T 0x01 data).length
  huffSize := (archive T 0x02 data).length
  rleRatio := trialRatio (UInt64.ofNat data.length) (archive T 0x01 data).length
  huffRatio := trialRatio (UInt64.ofNat data.length) (archive T 0x02 data).length
  rleTimeMs := file.rleElapsed
  huffTimeMs := file.huffElapsed
  recommendedAlgo := algorithmName (smallerId T data)

/-- **The loop records every file that can be opened**: no trial fails. -/
theorem benchmarkFile_eq (T : Target) (file : BenchmarkFile) :
    benchmarkFile T file = file.contents.map (measured T file) := by
  unfold benchmarkFile
  cases file.contents with
  | none => rfl
  | some data =>
    simp only [runTrial_archive T _ data 0x01 (Or.inl rfl),
      runTrial_archive T _ data 0x02 (Or.inr rfl)]
    by_cases hsmaller : (archive T 0x02 data).length < (archive T 0x01 data).length
    · simp [measured, smallerId, algorithmName, hsmaller]
    · simp [measured, smallerId, algorithmName, hsmaller]

/-- The files that can be opened, with what they hold. -/
def opened (files : List BenchmarkFile) : List (BenchmarkFile × Bytes) :=
  files.filterMap fun file => file.contents.map fun data => (file, data)

/-- The records are those of the files that can be opened. -/
theorem benchmarkResults_eq (T : Target) (files : List BenchmarkFile) :
    benchmarkResults T files = (opened files).map fun entry => measured T entry.1 entry.2 := by
  rw [benchmarkResults, opened, List.map_filterMap]
  congr 1
  funext file
  rw [benchmarkFile_eq, Option.map_map]
  rfl

/-! ## The report -/

/-- What an item of the report says of a file. -/
structure RecordOf (T : Target) (entry : BenchmarkFile × Bytes) (item : Json) : Prop where
  file : item.fields (text "file") = [.string entry.1.fileName]
  originalBytes : item.fields (text "original_bytes") =
    [.number (decimal (UInt64.ofNat entry.2.length).toNat)]
  rle : ∃ codec, item.fields (text "rle") = [codec] ∧
    codec.fields (text "bytes") = [.number (decimal (archive T 0x01 entry.2).length)]
  huffman : ∃ codec, item.fields (text "huffman") = [codec] ∧
    codec.fields (text "bytes") = [.number (decimal (archive T 0x02 entry.2).length)]
  winner : item.fields (text "winner") = [.string (algorithmName (smallerId T entry.2))]

/-- What the report says: the directory, the number of files, and an item for each. -/
structure ReportsFiles (T : Target) (dirPath : Bytes) (entries : List (BenchmarkFile × Bytes))
    (v : Json) : Prop where
  directory : v.fields (text "directory") = [.string dirPath]
  filesCount : v.fields (text "files_count") = [.number (decimal entries.length)]
  results : ∃ items, v.fields (text "results") = [.array items] ∧
    List.Forall₂ (RecordOf T) entries items

section

variable (host : Host) (milliseconds : Milliseconds)
  (hnumbers : PrintsNumbers host.numbers milliseconds)

/-- The raw record of a file. -/
theorem recordOf_recordRaw (entry : BenchmarkFile × Bytes) :
    RecordOf host.target entry
      (recordRaw host milliseconds hnumbers (measured host.target entry.1 entry.2)).value := by
  have hwinner : (winnerOf (measured host.target entry.1 entry.2)).1 =
      algorithmName (smallerId host.target entry.2) := by
    have hmem : measured host.target entry.1 entry.2 ∈
        benchmarkResults host.target [{ entry.1 with contents := some entry.2 }] := by
      rw [benchmarkResults_eq]
      exact List.mem_singleton.mpr rfl
    have hname : (measured host.target entry.1 entry.2).recommendedAlgo =
        algorithmName (smallerId host.target entry.2) := by simp only [measured]
    rw [← hname, ← winner_of_mem_benchmarkResults host.target _ _ hmem]
  refine ⟨rfl, rfl, ⟨_, rfl, rfl⟩, ⟨_, rfl, rfl⟩, ?_⟩
  rw [← hwinner]
  rfl

/-- The raw report of a benchmark. -/
theorem reportsFiles_benchmarkRaw (dirPath : Bytes) (files : List BenchmarkFile) :
    ReportsFiles host.target dirPath (opened files)
      (benchmarkRaw host milliseconds hnumbers dirPath
        (benchmarkResults host.target files)).value := by
  rw [benchmarkResults_eq]
  refine ⟨rfl, ?_, _, rfl, ?_⟩
  · rw [← List.length_map (fun entry => measured host.target entry.1 entry.2)]
    rfl
  · rw [List.map_map, List.map_map, List.forall₂_map_right_iff]
    exact List.forall₂_same.mpr fun entry _ =>
      recordOf_recordRaw host milliseconds hnumbers entry

include hnumbers in
/-- **The report of a benchmark, as it is read**, if all the names in it are plain. -/
theorem exists_report (dirPath : Bytes) (files : List BenchmarkFile) (hdir : IsPlain dirPath)
    (hfiles : ∀ file ∈ files, IsPlain file.fileName) :
    ∃ v, IsJsonText (if files.isEmpty then emptyBenchmarkJson dirPath
        else benchmarkJson host milliseconds dirPath (benchmarkResults host.target files)) v ∧
      ReportsFiles host.target dirPath (opened files) v := by
  cases files with
  | nil =>
    refine ⟨(emptyBenchmarkRaw dirPath).value, ?_, rfl, rfl, [], rfl, .nil⟩
    rw [if_pos List.isEmpty_nil, emptyBenchmarkJson_eq]
    exact (emptyBenchmarkRaw dirPath).isJsonText (List.forall_mem_singleton.mpr hdir)
  | cons file files =>
    refine ⟨_, ?_, reportsFiles_benchmarkRaw host milliseconds hnumbers dirPath (file :: files)⟩
    rw [if_neg (by simp), benchmarkJson_eq host milliseconds hnumbers dirPath _
      (winner_of_mem_benchmarkResults host.target (file :: files))]
    apply RawJson.isJsonText
    rw [shown_benchmarkRaw, List.forall_mem_cons, List.forall_mem_map]
    refine ⟨hdir, fun r hr => ?_⟩
    obtain ⟨f, hf, hrecord⟩ := List.mem_filterMap.mp hr
    rw [benchmarkFile_eq] at hrecord
    obtain ⟨data, -, rfl⟩ := Option.map_eq_some_iff.mp hrecord
    exact hfiles f hf

end

/-! ## Runs -/

/-- The options ask for a benchmark of the directory, with its report as JSON. -/
structure Benchmarks (opt : CliOptions) (dirPath : Bytes) : Prop where
  version : opt.showVersion = false
  help : opt.showHelp = false
  command : opt.command = text "benchmark" ∨ opt.command = text "bench" ∨ opt.command = text "b"
  target : (if opt.positionalTarget.isEmpty then text "." else opt.positionalTarget) = dirPath
  json : opt.jsonOutput = true

/-- **A benchmark is run by `run_benchmark`.** -/
theorem runOptions_of_benchmarks (machine : Machine Dir) (opt : CliOptions) (w : World)
    (dirPath : Bytes) (h : Benchmarks opt dirPath) :
    runOptions machine opt w = machine.benchmark dirPath true opt.quiet w := by
  have htests : opt.command.isEmpty = false ∧
      (opt.command = text "compress" || opt.command = text "c") = false ∧
      (opt.command = text "decompress" || opt.command = text "d") = false ∧
      (opt.command = text "info" || opt.command = text "i") = false ∧
      (opt.command = text "benchmark" || opt.command = text "bench" ||
        opt.command = text "b") = true := by
    rcases h.command with hcommand | hcommand | hcommand
    · rw [hcommand]
      decide
    · rw [hcommand]
      decide
    · rw [hcommand]
      decide
  obtain ⟨hne, hcompress, hdecompress, hinfo, hbenchmark⟩ := htests
  simp only [runOptions, dispatch, h.version, h.help, hne, hcompress, hdecompress, hinfo,
    hbenchmark, h.target, h.json, Bool.false_eq_true, if_false, if_true]

/-- A benchmark of a directory prints its report. -/
theorem runBenchmark_json (host : Host) (milliseconds : Milliseconds) (files : List BenchmarkFile)
    (dirPath : Bytes) (quiet : Bool) (w : World) :
    runBenchmark host milliseconds true files dirPath true quiet w =
      (true, w.print (if files.isEmpty then emptyBenchmarkJson dirPath
        else benchmarkJson host milliseconds dirPath (benchmarkResults host.target files))) := by
  unfold runBenchmark
  cases files <;> rfl

/-- How a benchmark ends that prints JSON: the files are as they were, nothing is on standard error,
and on standard output is a report on the files of `paths` that can be opened, which are listed in
ascending order and are all that lie below the directory with one of the extensions. -/
structure Benchmarked (machine : Machine Dir) (files : FileSystem) (dirPath : Bytes) (dir : Dir)
    (paths : List Path) (w : World) : Prop where
  files_eq : w.files = files
  stderr_eq : w.stderr = []
  ascending : paths.Pairwise (· < ·)
  complete : ∀ p, p ∈ paths ↔ machine.graph.Listed dir p
  reported : ∃ report v, w.stdout = (machine.host.device dash).write report ∧
    IsJsonText report v ∧
      ReportsFiles machine.host.target dirPath
        (opened (paths.map (machine.listedFile dirPath (World.start machine.host files)))) v

/-- **A benchmark, from the directories to its report.** Where the scan of the directory ends, all
names are plain and floating-point numbers print as JSON numbers, the run succeeds, and its report
is JSON that says of each file what the compressing command would make of it. -/
theorem main_benchmark_json (machine : Machine Dir) (args : List Bytes) (opt : CliOptions)
    (files : FileSystem) (dirPath : Bytes) (dir : Dir) (paths : List Path)
    (hnumbers : PrintsNumbers machine.host.numbers machine.milliseconds)
    (hparse : parseCliArgs machine.host.console args = .ok opt)
    (hbenchmarks : Benchmarks opt dirPath) (hentry : machine.entryAt dirPath = .directory dir)
    (hscan : scanDirectory machine.graph machine.depth (.directory dir) = some paths)
    (hdir : IsPlain dirPath) (hnames : ∀ p ∈ paths, IsPlain (machine.relativeName dirPath p)) :
    ∃ w, main machine args (World.start machine.host files) = .ok (0, w) ∧
      Benchmarked machine files dirPath dir paths w := by
  have hbenchmark : machine.benchmark dirPath true opt.quiet (World.start machine.host files) =
      .ok (runBenchmark machine.host machine.milliseconds true
        (paths.map (machine.listedFile dirPath (World.start machine.host files))) dirPath true
        opt.quiet (World.start machine.host files)) := by
    simp only [Machine.benchmark, hentry, hscan, progress_json, World.complain, List.append_nil]
  rw [← runOptions_of_benchmarks machine opt _ dirPath hbenchmarks, runBenchmark_json]
    at hbenchmark
  obtain ⟨hsorted, hmem⟩ := scanDirectory_spec machine.graph machine.depth dir paths hscan
  have hplain : ∀ file ∈ paths.map (machine.listedFile dirPath (World.start machine.host files)),
      IsPlain file.fileName := by
    rw [List.forall_mem_map]
    exact hnames
  obtain ⟨v, hv, hreports⟩ := exists_report machine.host machine.milliseconds hnumbers dirPath
    (paths.map (machine.listedFile dirPath (World.start machine.host files))) hdir hplain
  exact ⟨_, main_of_parsed machine args _ _ opt true hparse hbenchmark, rfl, rfl, hsorted, hmem, _,
    v, rfl, hv, hreports⟩

/-- A machine on which a scan follows three directories. -/
def threeDeepMachine : Machine Bool := { oneWayMachine with depth := 3 }

/-- The file of the subdirectory, with nothing in it. -/
def emptyBelow : FileSystem := Function.update noFiles (text "d/a/x.json") (some [])

/-- The benchmark of the directory above. -/
theorem main_benchmark_json_below :
    ∃ w, main threeDeepMachine [text "benchmark", text "d", text "--json"]
        (World.start threeDeepMachine.host emptyBelow) = .ok (0, w) ∧
      Benchmarked threeDeepMachine emptyBelow (text "d") true [[text "a", text "x.json"]] w := by
  refine main_benchmark_json threeDeepMachine _ _ emptyBelow (text "d") true
    [[text "a", text "x.json"]] (printsNumbers_plainHost [] none .atWrite) rfl
    ⟨rfl, rfl, Or.inl rfl, rfl, rfl⟩ rfl (by decide +kernel)
    (isPlain_of_isAscii (by decide) (by decide)) ?_
  intro p hp
  obtain rfl := List.mem_singleton.mp hp
  exact isPlain_of_isAscii (by decide) (by decide)

end Lacuna.Results
