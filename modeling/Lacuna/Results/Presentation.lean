import Lacuna.Results.AutoSelection
import Lacuna.Results.Sessions

/-!
# Presentation

The flags `--json`, `--quiet` and `--verbose`, the colours, the spelling of numbers and what the
clock measures are for the reader. A run that differs from another in nothing else returns the
same value, ends with the same files, and pipes the same bytes where no JSON is asked for
(`main_presentation`).
-/

set_option autoImplicit false

namespace Lacuna.Results

open Model Library

variable {Dir : Type}

/-- What a run is shown with: the terminal, the spelling of numbers and names, what the clock
measures, and the flags about output. -/
structure Presentation where
  console : Console
  numbers : Numbers
  elapsed : Float
  milliseconds : Milliseconds
  stderrIsTty : Bool
  relativeName : Bytes → Path → Bytes
  trialElapsed : Bytes → Float × Float
  jsonOutput : Bool
  quiet : Bool
  verbose : Bool

/-- The same host, presented otherwise. -/
def Presentation.host (p : Presentation) (host : Host) : Host :=
  { host with console := p.console, numbers := p.numbers, elapsed := p.elapsed }

/-- The same machine, presented otherwise. -/
def Presentation.machine (p : Presentation) (machine : Machine Dir) : Machine Dir :=
  { machine with
    host := p.host machine.host
    milliseconds := p.milliseconds
    stderrIsTty := p.stderrIsTty
    relativeName := p.relativeName
    trialElapsed := p.trialElapsed }

/-- The same request, presented otherwise. -/
def Presentation.options (p : Presentation) (opt : CliOptions) : CliOptions :=
  { opt with jsonOutput := p.jsonOutput, quiet := p.quiet, verbose := p.verbose }

/-- Two outcomes that differ in what is shown only: the same fault, or the same value and the
same files, and where the output is `piped` the same bytes on standard output. -/
inductive Alike {ρ : Type} (piped : Prop) :
    Except Fault (ρ × World) → Except Fault (ρ × World) → Prop
  | fault (f : Fault) : Alike piped (.error f) (.error f)
  | returns (r : ρ) (w w' : World) : w'.files = w.files → (piped → w'.stdout = w.stdout) →
    Alike piped (.ok (r, w)) (.ok (r, w'))

section

variable {ρ σ : Type} {piped : Prop}

/-- Outcomes are alike when their values are read in the same way. -/
theorem Alike.map {x y : Except Fault (ρ × World)} (h : Alike piped x y) (f : ρ → σ) :
    Alike piped (x.map fun r => (f r.1, r.2)) (y.map fun r => (f r.1, r.2)) := by
  cases h with
  | fault fault => exact .fault fault
  | returns r w w' hfiles hout => exact .returns (f r) w w' hfiles hout

/-- Complaints are not compared. -/
theorem alike_complain (r : ρ) (w : World) (said said' : Bytes) :
    Alike piped (.ok (r, w.complain said)) (.ok (r, w.complain said')) :=
  .returns r _ _ rfl fun _ => rfl

/-- Reports are compared where they would get into a pipe. -/
theorem alike_print (r : ρ) (w : World) (said said' : Bytes) (h : piped → said = said') :
    Alike piped (.ok (r, w.print said)) (.ok (r, w.print said')) :=
  .returns r _ _ rfl fun hpiped => by rw [h hpiped]

end

/-! ## The commands -/

variable (p : Presentation) (host : Host) (opt : CliOptions) (w : World)

/-- The target is read alike, or the error is told in another way. -/
theorem readTarget_presented (inputPath : Bytes) :
    (∃ data, readTarget host w inputPath = .ok data ∧
      readTarget (p.host host) w inputPath = .ok data) ∨
    ∃ line line', readTarget host w inputPath = .error line ∧
      readTarget (p.host host) w inputPath = .error line' := by
  have hsize : w.getFileSize (p.host host) inputPath = w.getFileSize host inputPath := rfl
  have hopen : w.openFile (p.host host) inputPath = w.openFile host inputPath := rfl
  unfold readTarget
  rw [hsize, hopen]
  split
  · exact Or.inl ⟨_, rfl, rfl⟩
  split
  · exact Or.inr ⟨_, _, rfl, rfl⟩
  split
  · exact Or.inr ⟨_, _, rfl, rfl⟩
  · exact Or.inl ⟨_, rfl, rfl⟩

/-- The choice of the archive, told in another way. -/
inductive SelectsAlike : Except Fault (Except Bytes Selection) →
    Except Fault (Except Bytes Selection) → Prop
  | fault (f : Fault) : SelectsAlike (.error f) (.error f)
  | error (said said' : Bytes) : SelectsAlike (.ok (.error said)) (.ok (.error said'))
  | selected (chosen : Selection) : SelectsAlike (.ok (.ok chosen)) (.ok (.ok chosen))

/-- **The same archive is selected**: what the clock measures does not decide. -/
theorem selectArchive_presented (inputPath data : Bytes) :
    SelectsAlike (selectArchive host opt inputPath data)
      (selectArchive (p.host host) (p.options opt) inputPath data) := by
  have hauto : SelectsAlike (.ok (selectAutomatically host inputPath data))
      (.ok (selectAutomatically (p.host host) inputPath data)) := by
    rw [selectAutomatically_eq, selectAutomatically_eq]
    exact .selected _
  have hopt : (p.options opt).algorithm = opt.algorithm := rfl
  unfold selectArchive
  rw [hopt]
  cases opt.algorithm with
  | none => exact hauto
  | some algoStr =>
    simp only
    split
    · exact hauto
    cases hnamed : algorithmNamed algoStr with
    | none =>
      -- the name is unknown to both, and so are the suggestions
      have hsuggestion : findSuggestion (p.host host).target algoStr knownAlgos =
          findSuggestion host.target algoStr knownAlgos := rfl
      unfold unknownAlgorithm
      rw [hsuggestion]
      cases findSuggestion host.target algoStr knownAlgos with
      | error fault => exact .fault fault
      | ok suggestion =>
        simp only [bind, Except.bind]
        cases suggestion.isEmpty with
        | true => exact .error _ _
        | false => exact .error _ _
    | some named =>
      obtain ⟨selectedAlgo, algoName⟩ := named
      have hcodec : IsCodec selectedAlgo := by
        unfold algorithmNamed at hnamed
        split_ifs at hnamed
        · cases hnamed
          exact Or.inl rfl
        · cases hnamed
          exact Or.inr rfl
      simp only [runTrial_archive _ _ _ _ hcodec, Bool.not_true, Bool.false_eq_true, if_false]
      exact .selected _

/-- Whether nothing but the payload goes to standard output. -/
def Piped (dest : Bytes) : Prop :=
  dest = dash ∧ opt.jsonOutput = false ∧ p.jsonOutput = false

/-- The end of a compression. -/
theorem emitArchive_presented (data : Bytes) (chosen : Selection) :
    Alike (Piped p opt (compressDest opt)) (.ok (emitArchive host opt w data chosen))
      (.ok (emitArchive (p.host host) (p.options opt) w data chosen)) := by
  have hdest : compressDest (p.options opt) = compressDest opt := rfl
  have hdevice : (p.host host).device = host.device := rfl
  have hwritable : (p.host host).writable = host.writable := rfl
  unfold emitArchive
  simp only [hdest, hdevice, hwritable]
  split
  · rename_i hdash
    apply alike_print
    rintro ⟨-, hjson, hjson'⟩
    simp only [compressReport, hdash, hjson, Presentation.options, hjson', ne_eq,
      not_true_eq_false, decide_false, Bool.and_false, Bool.false_eq_true, if_false]
  split
  · exact alike_complain _ _ _ _
  split
  · exact alike_complain _ _ _ _
  · rename_i hdash _ _
    exact alike_print _ _ _ _ fun hpiped => absurd hpiped.1 hdash

/-- **A compression, presented otherwise.** -/
theorem handleCompress_presented :
    Alike (Piped p opt (compressDest opt)) (handleCompress host opt w)
      (handleCompress (p.host host) (p.options opt) w) := by
  have htarget : (p.options opt).positionalTarget = opt.positionalTarget := rfl
  unfold handleCompress
  simp only [htarget]
  split
  · exact alike_complain _ _ _ _
  rcases readTarget_presented p host w opt.positionalTarget with
    ⟨data, hread, hread'⟩ | ⟨line, line', hread, hread'⟩
  · simp only [hread, hread']
    have hselect := selectArchive_presented p host opt opt.positionalTarget data
    generalize selectArchive host opt opt.positionalTarget data = selected at hselect ⊢
    generalize selectArchive (p.host host) (p.options opt) opt.positionalTarget data =
      selected' at hselect ⊢
    cases hselect with
    | fault f => exact .fault f
    | error said said' => exact alike_complain _ _ _ _
    | selected chosen => exact emitArchive_presented p host opt w data chosen
  · simp only [hread, hread']
    exact alike_complain _ _ _ _

/-- A decompression, once the destination is open. -/
theorem restorePayload_presented (header : Header) (input : IStream) (out : OStream) :
    Alike (Piped p opt (decompressDest opt)) (restorePayload host opt w header input out)
      (restorePayload (p.host host) (p.options opt) w header input out) := by
  have hdest : decompressDest (p.options opt) = decompressDest opt := rfl
  have htarget : (p.host host).target = host.target := rfl
  have hfiles : ∀ said : Bytes, (w.complain said).files = w.files := fun _ => rfl
  unfold restorePayload
  simp only [hdest, htarget]
  split
  · exact alike_complain _ _ _ _
  split
  · exact .fault _
  · rename_i out' _
    by_cases hdash : decompressDest opt = dash
    · rw [if_neg (not_not.mpr hdash), if_neg (not_not.mpr hdash)]
      exact alike_complain _ _ _ _
    · rw [if_pos hdash, if_pos hdash]
      exact .returns _ _ _ rfl fun _ => rfl
  · apply alike_print
    rintro ⟨hdash, hjson, hjson'⟩
    simp only [decompressReport, hdash, hjson, Presentation.options, hjson', ne_eq,
      not_true_eq_false, decide_false, Bool.and_false, Bool.false_eq_true, if_false]

/-- **A decompression, presented otherwise.** -/
theorem handleDecompress_presented :
    Alike (Piped p opt (decompressDest opt)) (handleDecompress host opt w)
      (handleDecompress (p.host host) (p.options opt) w) := by
  have hdest : decompressDest (p.options opt) = decompressDest opt := rfl
  have htarget : (p.options opt).positionalTarget = opt.positionalTarget := rfl
  have hopen : openArchive (p.host host) w opt.positionalTarget =
      openArchive host w opt.positionalTarget := rfl
  have hwritable : (p.host host).writable = host.writable := rfl
  unfold handleDecompress
  simp only [hdest, htarget, hopen, hwritable]
  split
  · exact alike_complain _ _ _ _
  split
  · exact alike_complain _ _ _ _
  split
  · exact alike_complain _ _ _ _
  split
  · exact restorePayload_presented p host opt w _ _ _
  split
  · exact alike_complain _ _ _ _
  · exact restorePayload_presented p host opt _ _ _ _

/-- **An inspection, presented otherwise.** -/
theorem handleInfo_presented :
    Alike False (.ok (handleInfo host opt w))
      (.ok (handleInfo (p.host host) (p.options opt) w)) := by
  have htarget : (p.options opt).positionalTarget = opt.positionalTarget := rfl
  have hsize : w.getFileSize (p.host host) opt.positionalTarget =
      w.getFileSize host opt.positionalTarget := rfl
  have hopen : w.openFile (p.host host) opt.positionalTarget =
      w.openFile host opt.positionalTarget := rfl
  unfold handleInfo
  simp only [htarget, hsize, hopen]
  split
  · exact alike_complain _ _ _ _
  split
  · exact alike_complain _ _ _ _
  split
  · exact alike_complain _ _ _ _
  split
  · exact alike_complain _ _ _ _
  · exact alike_print _ _ _ _ False.elim

/-- What a benchmark prints changes no file, and a path is a directory for both or for neither. -/
theorem runBenchmark_presented (milliseconds milliseconds' : Milliseconds) (isDirectory : Bool)
    (files files' : List BenchmarkFile) (dirPath : Bytes)
    (jsonOutput quiet jsonOutput' quiet' : Bool) (w' : World) (hw : w'.files = w.files) :
    Alike False (.ok (runBenchmark host milliseconds isDirectory files dirPath jsonOutput quiet w))
      (.ok (runBenchmark (p.host host) milliseconds' isDirectory files' dirPath jsonOutput' quiet'
        w')) := by
  have hruns : ∀ (host : Host) (milliseconds : Milliseconds) (files : List BenchmarkFile)
      (jsonOutput quiet : Bool) (w : World),
      (runBenchmark host milliseconds isDirectory files dirPath jsonOutput quiet w).1 =
          isDirectory ∧
        (runBenchmark host milliseconds isDirectory files dirPath jsonOutput quiet w).2.files =
          w.files := by
    intro host milliseconds files jsonOutput quiet w
    unfold runBenchmark
    cases isDirectory with
    | false => exact ⟨rfl, rfl⟩
    | true =>
      simp only [Bool.not_true, Bool.false_eq_true, if_false]
      split_ifs <;> exact ⟨rfl, rfl⟩
  have hrun := hruns host milliseconds files jsonOutput quiet w
  have hrun' := hruns (p.host host) milliseconds' files' jsonOutput' quiet' w'
  generalize runBenchmark host milliseconds isDirectory files dirPath jsonOutput quiet w =
    result at hrun ⊢
  generalize runBenchmark (p.host host) milliseconds' isDirectory files' dirPath jsonOutput' quiet'
    w' = result' at hrun' ⊢
  obtain ⟨ok, u⟩ := result
  obtain ⟨ok', u'⟩ := result'
  obtain ⟨rfl, hu⟩ := hrun
  obtain ⟨rfl, hu'⟩ := hrun'
  exact .returns _ _ _ (hu'.trans (hw.trans hu.symm)) False.elim

/-- **A benchmark, presented otherwise.** -/
theorem benchmark_presented (machine : Machine Dir) (dirPath : Bytes) :
    Alike False (machine.benchmark dirPath opt.jsonOutput opt.quiet w)
      ((p.machine machine).benchmark dirPath p.jsonOutput p.quiet w) := by
  have hgraph : (p.machine machine).graph = machine.graph := rfl
  have hdepth : (p.machine machine).depth = machine.depth := rfl
  have hentry : (p.machine machine).entryAt = machine.entryAt := rfl
  unfold Machine.benchmark
  rw [hgraph, hdepth, hentry]
  split
  · split
    · exact .fault _
    · exact runBenchmark_presented p machine.host _ _ _ _ _ _ _ _ _ _ _ _ rfl
  · exact runBenchmark_presented p machine.host _ _ _ _ _ _ _ _ _ _ _ _ rfl

/-! ## The program -/

/-- Whether a run writes a payload to standard output and asks for no JSON behind it. -/
def PipedRun : Prop :=
  opt.task ≠ .other ∧ opt.destination = none ∧ opt.jsonOutput = false ∧ p.jsonOutput = false

/-- Less is compared where less is piped. -/
theorem Alike.mono {ρ : Type} {piped piped' : Prop} {x y : Except Fault (ρ × World)}
    (h : Alike piped x y) (hle : piped' → piped) : Alike piped' x y := by
  cases h with
  | fault f => exact .fault f
  | returns r w w' hfiles hout => exact .returns r w w' hfiles fun h => hout (hle h)

/-- **Options, presented otherwise.** -/
theorem runOptions_presented (machine : Machine Dir) :
    Alike (PipedRun p opt) (runOptions machine opt w)
      (runOptions (p.machine machine) (p.options opt) w) := by
  have htask : (p.options opt).task = opt.task := rfl
  cases hopt : opt.task with
  | compress =>
    rw [runOptions_of_compress machine opt w hopt,
      runOptions_of_compress (p.machine machine) (p.options opt) w (htask.trans hopt)]
    refine (handleCompress_presented p machine.host opt w).mono ?_
    rintro ⟨-, hdest, hjson, hjson'⟩
    rw [CliOptions.destination, hopt] at hdest
    simp only at hdest
    split_ifs at hdest with hdash
    exact ⟨hdash, hjson, hjson'⟩
  | decompress =>
    rw [runOptions_of_decompress machine opt w hopt,
      runOptions_of_decompress (p.machine machine) (p.options opt) w (htask.trans hopt)]
    refine (handleDecompress_presented p machine.host opt w).mono ?_
    rintro ⟨-, hdest, hjson, hjson'⟩
    rw [CliOptions.destination, hopt] at hdest
    simp only at hdest
    split_ifs at hdest with hdash
    exact ⟨hdash, hjson, hjson'⟩
  | other =>
    have hnot : PipedRun p opt → False := fun h => h.1 hopt
    refine Alike.mono ?_ hnot
    have hversion : (p.options opt).showVersion = opt.showVersion := rfl
    have hhelp : (p.options opt).showHelp = opt.showHelp := rfl
    have hcommand : (p.options opt).command = opt.command := rfl
    have htarget : (p.options opt).positionalTarget = opt.positionalTarget := rfl
    unfold runOptions
    simp only [hversion, hhelp, hcommand]
    split
    · exact alike_print _ _ _ _ False.elim
    split
    · exact alike_print _ _ _ _ False.elim
    split
    · exact alike_print _ _ _ _ False.elim
    unfold dispatch
    simp only [hcommand, htarget]
    split
    · exact (handleCompress_presented p machine.host opt w).mono False.elim
    split
    · exact (handleDecompress_presented p machine.host opt w).mono False.elim
    split
    · exact handleInfo_presented p machine.host opt w
    split
    · exact benchmark_presented p opt w machine _
    · -- the suggestion is the same, told in another way
      have hsuggestion : findSuggestion (p.machine machine).host.target opt.command knownCommands =
          findSuggestion machine.host.target opt.command knownCommands := rfl
      unfold unknownCommand
      rw [hsuggestion]
      cases findSuggestion machine.host.target opt.command knownCommands with
      | error fault => exact .fault fault
      | ok suggestion =>
        simp only [bind, Except.bind]
        cases suggestion.isEmpty with
        | true => exact alike_complain _ _ _ _
        | false => exact alike_complain _ _ _ _

/-- **Presentation does not matter.** Two accepted command lines whose options differ in the flags
about output only, on machines that differ only in the terminal, in the spelling of numbers and
names and in what the clock measures: both runs meet the same fault, or both return the same
status and leave the same files. Where they write to standard output and neither asks for JSON,
they write the same bytes there. -/
theorem main_presentation (machine : Machine Dir) (args args' : List Bytes) (files : FileSystem)
    (hparse : parseCliArgs machine.host.console args = .ok opt)
    (hparse' : parseCliArgs p.console args' = .ok (p.options opt)) :
    Alike (PipedRun p opt) (main machine args (World.start machine.host files))
      (main (p.machine machine) args' (World.start (p.machine machine).host files)) := by
  have hconsole : (p.machine machine).host.console = p.console := rfl
  have hstart : World.start (p.machine machine).host files = World.start machine.host files := rfl
  unfold main
  rw [hconsole, hstart, hparse, hparse']
  exact (runOptions_presented p opt (World.start machine.host files) machine).map exitStatus

/-- Colours, no report, and a clock that stands still. -/
def quietColours : Presentation where
  console :=
    { noColor := none, clicolorForce := some (text "1"), term := none, stdoutIsTty := false }
  numbers := { fixed := fun _ => text "0.00", general := fun _ => text "0",
               toString := fun _ => text "0.000000" }
  elapsed := 0
  milliseconds := fun _ => text "0.000"
  stderrIsTty := true
  relativeName := fun _ path => path.getLastD []
  trialElapsed := fun _ => (0, 0)
  jsonOutput := false
  quiet := true
  verbose := false

/-- A filter and a quiet filter. -/
theorem main_presentation_filter :
    Alike (PipedRun quietColours { command := text "compress", positionalTarget := dash })
      (main (plainMachine (plainHost [7, 7] none .atWrite)) [text "compress", text "-"]
        (World.start (plainHost [7, 7] none .atWrite) noFiles))
      (main (quietColours.machine (plainMachine (plainHost [7, 7] none .atWrite)))
        [text "-q", text "compress", text "-"]
        (World.start (plainHost [7, 7] none .atWrite) noFiles)) :=
  main_presentation quietColours { command := text "compress", positionalTarget := dash }
    (plainMachine (plainHost [7, 7] none .atWrite)) [text "compress", text "-"]
    [text "-q", text "compress", text "-"] noFiles rfl rfl

end Lacuna.Results
