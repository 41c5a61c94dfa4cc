import Lacuna.Analysis.Commands
import Lacuna.Analysis.JsonReports

/-!
# The JSON reports are JSON for plain paths only

The reports are meant for programs that read them, but the paths are put between quotes as they
are. A report is JSON that gives the paths if and only if no path has a quote, a backslash or a
control character in it, and all are UTF-8: this holds of each of the four commands that print
one, and of the benchmark for any list of files.
-/

set_option autoImplicit false

namespace Lacuna.Results

open Model Library

/-! ## What the reports should say -/

/-- The report is JSON and gives the input and the output. -/
def GivesInputOutput (report inputPath outDest : Bytes) : Prop :=
  ∃ v, IsJsonText report v ∧
    v.fields (text "input") = [.string (shownPath "<stdin>" inputPath)] ∧
    v.fields (text "output") = [.string (shownPath "<stdout>" outDest)]

/-- The report is JSON and gives the file. -/
def GivesFile (report inputPath : Bytes) : Prop :=
  ∃ v, IsJsonText report v ∧ v.fields (text "file") = [.string inputPath]

/-- The report is JSON and gives the directory and the files in their order. -/
def GivesDirectory (report dirPath : Bytes) (fileNames : List Bytes) : Prop :=
  ∃ v, IsJsonText report v ∧
    v.fields (text "directory") = [.string dirPath] ∧
    ∃ items, v.fields (text "results") = [.array items] ∧
      items.map (Json.fields (text "file")) = fileNames.map fun name => [.string name]

/-! ## The reports -/

/-- What stands for a standard stream is plain. -/
theorem isPlain_shownPath (shown : String) (hshown : IsAscii (text shown))
    (hunescaped : IsUnescaped (text shown)) (path : Bytes) :
    IsPlain (shownPath shown path) ↔ IsPlain path := by
  unfold shownPath
  split
  next hdash =>
    subst hdash
    have hplain : IsPlain dash := ⟨IsAscii.isUtf8 (by decide), by decide⟩
    exact iff_of_true ⟨hshown.isUtf8, hunescaped⟩ hplain
  next => exact Iff.rfl

/-- The two paths of a report are plain. -/
theorem isPlain_shownPaths (inputPath outDest : Bytes) :
    (∀ p ∈ [shownPath "<stdin>" inputPath, shownPath "<stdout>" outDest], IsPlain p) ↔
      IsPlain inputPath ∧ IsPlain outDest := by
  rw [List.forall_mem_cons, List.forall_mem_singleton,
    isPlain_shownPath "<stdin>" (by decide) (by decide),
    isPlain_shownPath "<stdout>" (by decide) (by decide)]

section

variable (host : Host) (milliseconds : Milliseconds)
  (hnumbers : PrintsNumbers host.numbers milliseconds)
include hnumbers

/-- **The report of a compression** gives its paths if and only if they are plain. -/
theorem givesInputOutput_compressJson (inputPath outDest : Bytes) (algoName : JsonWord)
    (origSz compSz : UInt64) :
    GivesInputOutput (compressJson host inputPath outDest algoName.1 origSz compSz) inputPath
        outDest ↔ IsPlain inputPath ∧ IsPlain outDest := by
  rw [compressJson_eq host milliseconds hnumbers, ← isPlain_shownPaths]
  apply RawJson.exists_isJsonText_iff (compressRaw host milliseconds hnumbers inputPath outDest
    algoName origSz compSz)
  · exact ⟨rfl, rfl⟩
  · rintro x ⟨hinput, houtput⟩
    rw [compressRaw, RawJson.good_object]
    simp [word, wholeNumber, hinput, houtput]

/-- **The report of a decompression** gives its paths if and only if they are plain. -/
theorem givesInputOutput_decompressJson (inputPath outDest : Bytes) (restored : UInt64) :
    GivesInputOutput (decompressJson host inputPath outDest restored) inputPath outDest ↔
      IsPlain inputPath ∧ IsPlain outDest := by
  rw [decompressJson_eq host milliseconds hnumbers, ← isPlain_shownPaths]
  apply RawJson.exists_isJsonText_iff (decompressRaw host milliseconds hnumbers inputPath outDest
    restored)
  · exact ⟨rfl, rfl⟩
  · rintro x ⟨hinput, houtput⟩
    rw [decompressRaw, RawJson.good_object]
    simp [word, wholeNumber, hinput, houtput]

/-- **The report of an inspection** gives its path if and only if it is plain. -/
theorem givesFile_infoJson (inputPath : Bytes) (algoStr : JsonWord) (header : Header)
    (compressedSize : ℕ) :
    GivesFile (infoJson host inputPath algoStr.1 header compressedSize) inputPath ↔
      IsPlain inputPath := by
  rw [infoJson_eq host milliseconds hnumbers, ← List.forall_mem_singleton (p := IsPlain)]
  apply RawJson.exists_isJsonText_iff (infoRaw host milliseconds hnumbers inputPath algoStr header
    compressedSize)
  · rfl
  · intro x hfile
    rw [infoRaw, RawJson.good_object]
    simp [word, wholeNumber, hfile]

/-- What a reader finds in a record is its file. -/
theorem good_recordRaw {r : BenchmarkResult} {item : Json}
    (h : item.fields (text "file") = [.string r.fileName]) :
    (recordRaw host milliseconds hnumbers r).good item := by
  rw [recordRaw, RawJson.good_object]
  simp [word, wholeNumber, codecRaw, RawJson.good_object, h]

/-- The report of a benchmark shows the directory and the files. -/
theorem shown_benchmarkRaw (dirPath : Bytes) (results : List BenchmarkResult) :
    (benchmarkRaw host milliseconds hnumbers dirPath results).shown =
      dirPath :: results.map BenchmarkResult.fileName := by
  have hrecords : ((results.map (recordRaw host milliseconds hnumbers)).flatMap RawJson.shown) =
      results.map BenchmarkResult.fileName := by
    rw [List.flatMap_map]
    exact List.flatMap_pure_eq_map BenchmarkResult.fileName results
  rw [← hrecords, ← List.append_nil (List.flatMap _ _)]
  rfl

/-- **The report of a benchmark** gives the directory and the files if and only if all these
paths are plain. -/
theorem givesDirectory_benchmarkJson (dirPath : Bytes) (results : List BenchmarkResult)
    (hwinners : ∀ r ∈ results, r.recommendedAlgo = (winnerOf r).1) :
    GivesDirectory (benchmarkJson host milliseconds dirPath results) dirPath
        (results.map BenchmarkResult.fileName) ↔
      IsPlain dirPath ∧ ∀ r ∈ results, IsPlain r.fileName := by
  have hplain : (∀ p ∈ (benchmarkRaw host milliseconds hnumbers dirPath results).shown,
      IsPlain p) ↔ IsPlain dirPath ∧ ∀ r ∈ results, IsPlain r.fileName := by
    rw [shown_benchmarkRaw, List.forall_mem_cons, List.forall_mem_map]
  rw [benchmarkJson_eq host milliseconds hnumbers dirPath results hwinners, ← hplain]
  apply RawJson.exists_isJsonText_iff (benchmarkRaw host milliseconds hnumbers dirPath results)
  · refine ⟨rfl, (results.map (recordRaw host milliseconds hnumbers)).map RawJson.value, rfl, ?_⟩
    rw [List.map_map, List.map_map, List.map_map]
    rfl
  · rintro x ⟨hdirectory, items, hresults, hfiles⟩
    have hitems : List.Forall₂ RawJson.good
        (results.map (recordRaw host milliseconds hnumbers)) items := by
      rw [← List.forall₂_eq_eq_eq, List.forall₂_map_left_iff, List.forall₂_map_right_iff] at hfiles
      rw [List.forall₂_map_left_iff]
      exact (List.forall₂_map_left_iff.mp hfiles.flip).imp fun r item h =>
        good_recordRaw host milliseconds hnumbers h
    rw [benchmarkRaw, RawJson.good_object]
    simp only [List.forall_mem_cons, List.not_mem_nil, false_imp_iff, implies_true, and_true, word,
      hdirectory, hresults, RawJson.good_quoted, wholeNumber, RawJson.good_number,
      RawJson.good_array, true_and]
    exact ⟨items, rfl, hitems⟩

end

/-- **The report on a directory without matching files** gives it if and only if it is plain. -/
theorem givesDirectory_emptyBenchmarkJson (dirPath : Bytes) :
    GivesDirectory (emptyBenchmarkJson dirPath) dirPath [] ↔ IsPlain dirPath := by
  rw [emptyBenchmarkJson_eq, ← List.forall_mem_singleton (p := IsPlain)]
  apply RawJson.exists_isJsonText_iff (emptyBenchmarkRaw dirPath)
  · exact ⟨rfl, [], rfl, rfl⟩
  · rintro x ⟨hdirectory, items, hresults, -⟩
    rw [emptyBenchmarkRaw, RawJson.good_object]
    simp [word, wholeNumber, hdirectory, hresults, emptyList]

/-! ## What the commands print -/

/-- What is printed goes to standard output. -/
theorem stdout_print (w : World) (message : Bytes) :
    (w.print message).stdout = w.stdout.write message := rfl

/-- A file that is written leaves standard output as it is. -/
theorem stdout_store (w : World) (path contents : Bytes) :
    (w.store path contents).stdout = w.stdout := rfl

/-- A program starts with nothing on standard output. -/
theorem stdout_start (host : Host) (files : FileSystem) :
    (World.start host files).stdout = host.device dash := rfl

/-- The automatic selection chooses one of two names. -/
theorem exists_algoName_of_automatic (host : Host) (inputPath fileData : Bytes)
    (chosen : Selection) (h : selectAutomatically host inputPath fileData = .ok chosen) :
    ∃ algoName : JsonWord, chosen.algoName = algoName.1 := by
  unfold selectAutomatically at h
  simp only at h
  split at h
  · cases h
  · split at h
    · cases h
      exact ⟨word "Huffman" (by decide), rfl⟩
    · cases h
      exact ⟨word "RLE" (by decide), rfl⟩

/-- An algorithm that is asked for has one of two names. -/
theorem exists_algoName_of_named (algoStr : Bytes) (selectedAlgo : UInt8) (name : Bytes)
    (h : algorithmNamed algoStr = some (selectedAlgo, name)) :
    ∃ algoName : JsonWord, name = algoName.1 := by
  unfold algorithmNamed at h
  split at h
  · cases h
    exact ⟨word "RLE" (by decide), rfl⟩
  · split at h
    · cases h
      exact ⟨word "Huffman" (by decide), rfl⟩
    · cases h

/-- A selected algorithm has one of two names. -/
theorem exists_algoName (host : Host) (opt : CliOptions) (inputPath fileData : Bytes)
    (chosen : Selection) (h : selectArchive host opt inputPath fileData = .ok (.ok chosen)) :
    ∃ algoName : JsonWord, chosen.algoName = algoName.1 := by
  unfold selectArchive at h
  split at h
  · exact exists_algoName_of_automatic host inputPath fileData chosen (Except.ok.inj h)
  · split at h
    · exact exists_algoName_of_automatic host inputPath fileData chosen (Except.ok.inj h)
    · split at h
      · split at h <;> cases h
      · rename_i hnamed
        simp only at h
        split at h
        · cases h
        · cases h
          exact exists_algoName_of_named _ _ _ hnamed

/-- What a successful compression to a file prints as JSON. -/
theorem exists_compressJson (host : Host) (files : FileSystem)
    (opt : CliOptions) (hjson : opt.jsonOutput = true) (hdest : compressDest opt ≠ dash)
    (w : World) (hrun : handleCompress host opt (World.start host files) = .ok (true, w)) :
    ∃ (algoName : JsonWord) (origSz compSz : UInt64), w.stdout = (host.device dash).write
      (compressJson host opt.positionalTarget (compressDest opt) algoName.1 origSz compSz) := by
  obtain ⟨fileData, chosen, hproduces, hopened⟩ := exists_produces_of_true host opt files w hrun
  obtain ⟨algoName, hname⟩ := exists_algoName host opt _ fileData chosen hproduces.select
  have hwritable := hopened.resolve_left hdest
  rw [handleCompress_of_produces host opt files fileData chosen hproduces, emitArchive] at hrun
  simp only [hdest, if_false, hwritable, Bool.not_true, Bool.false_eq_true] at hrun
  split at hrun
  · cases hrun
  · cases hrun
    refine ⟨algoName, UInt64.ofNat fileData.length,
      UInt64.ofNat chosen.serializedData.length, ?_⟩
    rw [← hname, stdout_print, compressReport, if_pos hjson, stdout_store,
      stdout_start]

/-- What a successful decompression to a file prints as JSON. -/
theorem exists_decompressJson (host : Host) (files : FileSystem)
    (opt : CliOptions) (hjson : opt.jsonOutput = true) (hdest : decompressDest opt ≠ dash)
    (w : World) (hrun : handleDecompress host opt (World.start host files) = .ok (true, w)) :
    ∃ restored : UInt64, w.stdout = (host.device dash).write
      (decompressJson host opt.positionalTarget (decompressDest opt) restored) := by
  obtain ⟨header, input, data, hextracts, hcarries, hgood, -⟩ :=
    exists_extracts_of_true host opt files w hrun
  rw [handleDecompress_of_carries host opt files header input hextracts data hcarries hgood,
    World.keepOutput, openedWorld, if_neg hdest, if_neg hdest] at hrun
  cases hrun
  refine ⟨header.originalSize, ?_⟩
  rw [stdout_print, decompressReport, if_pos hjson, stdout_store,
    stdout_store, stdout_start]

/-- The label of an algorithm id is a word of the sources. -/
theorem exists_algorithmLabel (algorithmId : UInt8) :
    ∃ algoStr : JsonWord, algorithmLabel algorithmId = algoStr.1 := by
  unfold algorithmLabel
  split
  · exact ⟨word "RLE" (by decide), rfl⟩
  · split
    · exact ⟨word "Huffman" (by decide), rfl⟩
    · exact ⟨word "Unknown" (by decide), rfl⟩

/-- What a successful inspection prints as JSON. -/
theorem exists_infoJson (host : Host) (files : FileSystem)
    (opt : CliOptions) (hjson : opt.jsonOutput = true) (w : World)
    (hrun : handleInfo host opt (World.start host files) = (true, w)) :
    ∃ (algoStr : JsonWord) (header : Header) (compressedSize : ℕ),
      w.stdout = (host.device dash).write
        (infoJson host opt.positionalTarget algoStr.1 header compressedSize) := by
  unfold handleInfo at hrun
  simp only at hrun
  split at hrun
  · cases hrun
  split at hrun
  · cases hrun
  rename_i compressedSize _
  split at hrun
  · cases hrun
  split at hrun
  · cases hrun
  rename_i header _
  cases hrun
  obtain ⟨algoStr, hlabel⟩ := exists_algorithmLabel header.algorithmId
  refine ⟨algoStr, header, compressedSize, ?_⟩
  rw [← hlabel, stdout_print, infoReport, if_pos hjson, stdout_start]

/-- The records of a benchmark name one of two winners. -/
theorem winner_of_mem_benchmarkResults (T : Target) (bfiles : List BenchmarkFile)
    (r : BenchmarkResult) (hr : r ∈ benchmarkResults T bfiles) :
    r.recommendedAlgo = (winnerOf r).1 := by
  rw [benchmarkResults, List.mem_filterMap] at hr
  obtain ⟨file, -, hfile⟩ := hr
  unfold benchmarkFile at hfile
  split at hfile
  · cases hfile
  simp only at hfile
  split at hfile
  · cases hfile
  have hr := Option.some.inj hfile
  have hwinner : r.recommendedAlgo = text "Huffman" ∨ r.recommendedAlgo = text "RLE" := by
    rw [← hr]
    simp only
    split
    · exact Or.inl rfl
    · exact Or.inr rfl
  unfold winnerOf
  rcases hwinner with hwinner | hwinner
  · rw [hwinner]
    rfl
  · rw [hwinner, if_neg (by decide)]
    rfl

/-- What a benchmark prints as JSON. -/
theorem stdout_runBenchmark (host : Host) (files : FileSystem) (milliseconds : Milliseconds)
    (isDirectory : Bool) (bfiles : List BenchmarkFile) (dirPath : Bytes) (quiet : Bool) (w : World)
    (hrun : runBenchmark host milliseconds isDirectory bfiles dirPath true quiet
      (World.start host files) = (true, w)) :
    w.stdout = (host.device dash).write
      (if bfiles.isEmpty then emptyBenchmarkJson dirPath
        else benchmarkJson host milliseconds dirPath (benchmarkResults host.target bfiles)) := by
  unfold runBenchmark at hrun
  split at hrun
  · cases hrun
  split at hrun
  next hempty =>
    cases hrun
    rw [if_pos hempty, stdout_print, stdout_start]
  next hempty =>
    cases hrun
    rw [if_neg hempty, stdout_print, stdout_start]

/-- **The JSON reports give their paths if and only if the paths are plain.** -/
theorem jsonOutput_iff (host : Host) (milliseconds : Milliseconds)
    (hnumbers : PrintsNumbers host.numbers milliseconds) (files : FileSystem) :
    (∀ opt w, opt.jsonOutput = true → compressDest opt ≠ dash →
      handleCompress host opt (World.start host files) = .ok (true, w) →
      ∃ report, w.stdout = (host.device dash).write report ∧
        (GivesInputOutput report opt.positionalTarget (compressDest opt) ↔
          IsPlain opt.positionalTarget ∧ IsPlain (compressDest opt))) ∧
    (∀ opt w, opt.jsonOutput = true → decompressDest opt ≠ dash →
      handleDecompress host opt (World.start host files) = .ok (true, w) →
      ∃ report, w.stdout = (host.device dash).write report ∧
        (GivesInputOutput report opt.positionalTarget (decompressDest opt) ↔
          IsPlain opt.positionalTarget ∧ IsPlain (decompressDest opt))) ∧
    (∀ opt w, opt.jsonOutput = true →
      handleInfo host opt (World.start host files) = (true, w) →
      ∃ report, w.stdout = (host.device dash).write report ∧
        (GivesFile report opt.positionalTarget ↔ IsPlain opt.positionalTarget)) ∧
    ∀ isDirectory bfiles dirPath quiet w,
      runBenchmark host milliseconds isDirectory bfiles dirPath true quiet
        (World.start host files) = (true, w) →
      ∃ report, w.stdout = (host.device dash).write report ∧
        (GivesDirectory report dirPath
            ((benchmarkResults host.target bfiles).map BenchmarkResult.fileName) ↔
          IsPlain dirPath ∧ ∀ r ∈ benchmarkResults host.target bfiles, IsPlain r.fileName) := by
  refine ⟨?_, ?_, ?_, ?_⟩
  · intro opt w hjson hdest hrun
    obtain ⟨algoName, origSz, compSz, hstdout⟩ :=
      exists_compressJson host files opt hjson hdest w hrun
    refine ⟨_, hstdout, ?_⟩
    apply givesInputOutput_compressJson host milliseconds hnumbers
  · intro opt w hjson hdest hrun
    obtain ⟨restored, hstdout⟩ := exists_decompressJson host files opt hjson hdest w hrun
    refine ⟨_, hstdout, ?_⟩
    apply givesInputOutput_decompressJson host milliseconds hnumbers
  · intro opt w hjson hrun
    obtain ⟨algoStr, header, compressedSize, hstdout⟩ :=
      exists_infoJson host files opt hjson w hrun
    refine ⟨_, hstdout, ?_⟩
    apply givesFile_infoJson host milliseconds hnumbers
  · intro isDirectory bfiles dirPath quiet w hrun
    refine ⟨_, stdout_runBenchmark host files milliseconds isDirectory bfiles dirPath quiet w hrun,
      ?_⟩
    cases bfiles with
    | nil =>
      have hnone : benchmarkResults host.target [] = [] := rfl
      rw [hnone]
      simp [givesDirectory_emptyBenchmarkJson]
    | cons file bfiles =>
      apply givesDirectory_benchmarkJson host milliseconds hnumbers
      exact winner_of_mem_benchmarkResults host.target (file :: bfiles)

/-! ## Runs -/

/-- How durations are spelt in the runs below. -/
def zeroMilliseconds : Milliseconds := fun _ => text "0.000"

/-- The numbers of the runs below are JSON numbers. -/
theorem printsNumbers_plainHost (stdin : Bytes) (room : Option ℕ) (report : Report) :
    PrintsNumbers (plainHost stdin room report).numbers zeroMilliseconds where
  fixed _ := rfl
  general _ := rfl
  milliseconds _ := rfl

/-- The options `target --json -o output -a rle`. -/
def jsonOptions (target output : String) : CliOptions where
  positionalTarget := text target
  outputPath := some (text output)
  algorithm := some (text "rle")
  jsonOutput := true

/-- An archive of nothing. -/
def oneArchive (path : String) : FileSystem := fun p =>
  if p = text path then some (archive Target.scan 0x01 []) else none

/-- An empty file in a directory. -/
def emptyJsonFile : BenchmarkFile where
  fileName := text "x.json"
  contents := some []
  rleElapsed := 0
  huffElapsed := 0

set_option maxRecDepth 4000 in
/-- It is recorded. -/
theorem fileNames_emptyJsonFile :
    (benchmarkResults (plainHost [] none .atWrite).target [emptyJsonFile]).map
      BenchmarkResult.fileName = [text "x.json"] := by
  rfl

/-- ASCII that needs no escape is plain. -/
theorem isPlain_of_isAscii {p : Bytes} (hascii : IsAscii p) (hunescaped : IsUnescaped p) :
    IsPlain p := ⟨hascii.isUtf8, hunescaped⟩

/-- A name with a quote in it is not plain. -/
theorem not_isPlain_quote : ¬ IsPlain (text "a\"b") := by
  rintro ⟨-, hunescaped⟩
  exact absurd hunescaped (by decide)

/-- Four runs: nothing is compressed from standard input, the archive is decompressed and
inspected, and a directory is benchmarked that has a quote in its name. -/
theorem jsonOutput_iff_quotedDirectory :
    (∃ w report,
      handleCompress (plainHost [] none .atWrite) (jsonOptions "-" "b.lac")
        (World.start (plainHost [] none .atWrite) (oneArchive "a.lac")) = .ok (true, w) ∧
      w.stdout = ((plainHost [] none .atWrite).device dash).write report ∧
      GivesInputOutput report (text "-") (text "b.lac")) ∧
    (∃ w report,
      handleDecompress (plainHost [] none .atWrite) (jsonOptions "a.lac" "a")
        (World.start (plainHost [] none .atWrite) (oneArchive "a.lac")) = .ok (true, w) ∧
      w.stdout = ((plainHost [] none .atWrite).device dash).write report ∧
      GivesInputOutput report (text "a.lac") (text "a")) ∧
    (∃ w report,
      handleInfo (plainHost [] none .atWrite) (jsonOptions "a.lac" "a")
        (World.start (plainHost [] none .atWrite) (oneArchive "a.lac")) = (true, w) ∧
      w.stdout = ((plainHost [] none .atWrite).device dash).write report ∧
      GivesFile report (text "a.lac")) ∧
    ∃ w report,
      runBenchmark (plainHost [] none .atWrite) zeroMilliseconds true [emptyJsonFile]
        (text "a\"b") true false
        (World.start (plainHost [] none .atWrite) (oneArchive "a.lac")) = (true, w) ∧
      w.stdout = ((plainHost [] none .atWrite).device dash).write report ∧
      ¬ GivesDirectory report (text "a\"b") [text "x.json"] := by
  obtain ⟨hcompress, hdecompress, hinfo, hbenchmark⟩ :=
    jsonOutput_iff (plainHost [] none .atWrite) zeroMilliseconds
      (printsNumbers_plainHost [] none .atWrite) (oneArchive "a.lac")
  refine ⟨?_, ?_, ?_, ?_⟩
  · obtain ⟨report, hstdout, hiff⟩ :=
      hcompress (jsonOptions "-" "b.lac") _ rfl (by decide) rfl
    refine ⟨_, report, rfl, hstdout, hiff.mpr ⟨?_, ?_⟩⟩
    · exact isPlain_of_isAscii (by decide) (by decide)
    · exact isPlain_of_isAscii (by decide) (by decide)
  · obtain ⟨report, hstdout, hiff⟩ :=
      hdecompress (jsonOptions "a.lac" "a") _ rfl (by decide) rfl
    refine ⟨_, report, rfl, hstdout, hiff.mpr ⟨?_, ?_⟩⟩
    · exact isPlain_of_isAscii (by decide) (by decide)
    · exact isPlain_of_isAscii (by decide) (by decide)
  · obtain ⟨report, hstdout, hiff⟩ := hinfo (jsonOptions "a.lac" "a") _ rfl rfl
    refine ⟨_, report, rfl, hstdout, hiff.mpr ?_⟩
    exact isPlain_of_isAscii (by decide) (by decide)
  · obtain ⟨report, hstdout, hiff⟩ :=
      hbenchmark true [emptyJsonFile] (text "a\"b") false _ rfl
    rw [fileNames_emptyJsonFile] at hiff
    exact ⟨_, report, rfl, hstdout, fun hgives => not_isPlain_quote (hiff.mp hgives).1⟩

set_option maxRecDepth 2000 in
/-- A directory without matching files that has a quote in its name: the report is no JSON. -/
theorem not_givesDirectory_quote :
    ∃ w, runBenchmark (plainHost [] none .atWrite) zeroMilliseconds true [] (text "a\"b") true false
        (World.start (plainHost [] none .atWrite) noFiles) = (true, w) ∧
      w.stdout.accepted =
        text "\x7b\"directory\":\"a\"b\",\"files_count\":0,\"results\":[]\x7d\n" ∧
      ¬ GivesDirectory w.stdout.accepted (text "a\"b") [] := by
  have haccepted : (((plainHost [] none .atWrite).device dash).write
      (emptyBenchmarkJson (text "a\"b"))).accepted = emptyBenchmarkJson (text "a\"b") :=
    ((plainHost [] none .atWrite).write_device_of_takes dash _
      (plainHost_takes [] dash .atWrite _)).1
  have htext : emptyBenchmarkJson (text "a\"b") =
      text "\x7b\"directory\":\"a\"b\",\"files_count\":0,\"results\":[]\x7d\n" := by
    decide
  refine ⟨_, rfl, ?_, fun hgives => ?_⟩
  · exact haccepted.trans htext
  have hreport : GivesDirectory (emptyBenchmarkJson (text "a\"b")) (text "a\"b") [] :=
    haccepted ▸ hgives
  exact not_isPlain_quote ((givesDirectory_emptyBenchmarkJson _).mp hreport)

end Lacuna.Results
