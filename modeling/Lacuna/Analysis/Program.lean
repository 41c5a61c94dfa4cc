import Lacuna.Analysis.Commands
import Lacuna.Model.Main

/-!
# What a run of the program does

The options a command line is parsed to ask for a compression, a decompression, or something
that leaves every file alone (`Task`); and they name the one path that may be written to
(`CliOptions.destination`). Everything about a run is read off a few lists: the ways through
`main` (`main_cases`, `runsAs_runOptions`), and the ways in which the two commands can end
(`handleCompress_cases`, `handleDecompress_ends`).
-/

set_option autoImplicit false

namespace Lacuna.Model

variable {Dir : Type}

/-! ## The task -/

/-- What options ask for, as far as files are concerned. -/
inductive Task where
  | compress
  | decompress
  | other
deriving DecidableEq

/-- The task behind the tests of `main`. -/
def CliOptions.task (opt : CliOptions) : Task :=
  if opt.showVersion || opt.showHelp then .other
  else if opt.command = text "compress" || opt.command = text "c" then .compress
  else if opt.command = text "decompress" || opt.command = text "d" then .decompress
  else .other

/-- The path that may be written to; standard output is no path. -/
def CliOptions.destination (opt : CliOptions) : Option Bytes :=
  match opt.task with
  | .compress => if compressDest opt = dash then none else some (compressDest opt)
  | .decompress => if decompressDest opt = dash then none else some (decompressDest opt)
  | .other => none

/-- Options that ask for a compression. -/
theorem CliOptions.of_task_compress {opt : CliOptions} (h : opt.task = .compress) :
    opt.showVersion = false ∧ opt.showHelp = false ∧
      (opt.command = text "compress" ∨ opt.command = text "c") := by
  unfold CliOptions.task at h
  split at h
  · cases h
  rename_i hshow
  split at h
  · rename_i hcommand
    rw [Bool.or_eq_true, not_or, Bool.not_eq_true, Bool.not_eq_true] at hshow
    rw [Bool.or_eq_true, decide_eq_true_eq, decide_eq_true_eq] at hcommand
    exact ⟨hshow.1, hshow.2, hcommand⟩
  · split at h <;> cases h

/-- Options that ask for a decompression. -/
theorem CliOptions.of_task_decompress {opt : CliOptions} (h : opt.task = .decompress) :
    opt.showVersion = false ∧ opt.showHelp = false ∧
      (opt.command = text "decompress" ∨ opt.command = text "d") := by
  unfold CliOptions.task at h
  split at h
  · cases h
  rename_i hshow
  split at h
  · cases h
  split at h
  · rename_i hcommand
    rw [Bool.or_eq_true, not_or, Bool.not_eq_true, Bool.not_eq_true] at hshow
    rw [Bool.or_eq_true, decide_eq_true_eq, decide_eq_true_eq] at hcommand
    exact ⟨hshow.1, hshow.2, hcommand⟩
  · cases h

/-- **A compression is run by `handle_compress`.** -/
theorem runOptions_of_compress (machine : Machine Dir) (opt : CliOptions) (w : World)
    (h : opt.task = .compress) :
    runOptions machine opt w = handleCompress machine.host opt w := by
  obtain ⟨hversion, hhelp, hcommand⟩ := CliOptions.of_task_compress h
  have hne : opt.command.isEmpty = false := by
    rcases hcommand with hcommand | hcommand
    · rw [hcommand]
      decide
    · rw [hcommand]
      decide
  have htest : (opt.command = text "compress" || opt.command = text "c") = true := by
    rw [Bool.or_eq_true, decide_eq_true_eq, decide_eq_true_eq]
    exact hcommand
  simp only [runOptions, dispatch, hversion, hhelp, hne, htest, Bool.false_eq_true, if_false,
    if_true]

/-- **A decompression is run by `handle_decompress`.** -/
theorem runOptions_of_decompress (machine : Machine Dir) (opt : CliOptions) (w : World)
    (h : opt.task = .decompress) :
    runOptions machine opt w = handleDecompress machine.host opt w := by
  obtain ⟨hversion, hhelp, hcommand⟩ := CliOptions.of_task_decompress h
  have hne : opt.command.isEmpty = false ∧
      (opt.command = text "compress" || opt.command = text "c") = false := by
    rcases hcommand with hcommand | hcommand
    · rw [hcommand]
      decide
    · rw [hcommand]
      decide
  have htest : (opt.command = text "decompress" || opt.command = text "d") = true := by
    rw [Bool.or_eq_true, decide_eq_true_eq, decide_eq_true_eq]
    exact hcommand
  simp only [runOptions, dispatch, hversion, hhelp, hne, htest, Bool.false_eq_true, if_false,
    if_true]

/-- The ways through the tests of `main`, with what each comes to: a text is printed, one of the
commands is run, or the word in front is unknown. -/
inductive RunsAs (machine : Machine Dir) (opt : CliOptions) (w : World) :
    Except Fault (Bool × World) → Prop
  | print (message : Bytes) : opt.task = .other → RunsAs machine opt w (.ok (true, w.print message))
  | compress : opt.task = .compress → RunsAs machine opt w (handleCompress machine.host opt w)
  | decompress : opt.task = .decompress →
    RunsAs machine opt w (handleDecompress machine.host opt w)
  | info : opt.task = .other → opt.command = text "info" ∨ opt.command = text "i" →
    RunsAs machine opt w (.ok (handleInfo machine.host opt w))
  | benchmark (dirPath : Bytes) : opt.task = .other →
    RunsAs machine opt w (machine.benchmark dirPath opt.jsonOutput opt.quiet w)
  | unknown : opt.task = .other → RunsAs machine opt w
    ((unknownCommand machine.host opt.command).map fun message => (false, w.complain message))

/-- **What the options are run as.** -/
theorem runsAs_runOptions (machine : Machine Dir) (opt : CliOptions) (w : World) :
    RunsAs machine opt w (runOptions machine opt w) := by
  cases htask : opt.task with
  | compress =>
    rw [runOptions_of_compress machine opt w htask]
    exact .compress htask
  | decompress =>
    rw [runOptions_of_decompress machine opt w htask]
    exact .decompress htask
  | other =>
    unfold runOptions
    simp only
    split
    · exact .print _ htask
    rename_i hversion
    split
    · exact .print _ htask
    rename_i hhelp
    split
    · exact .print _ htask
    have hother := htask
    unfold CliOptions.task at hother
    rw [if_neg (by simp [hversion, hhelp])] at hother
    split_ifs at hother with hcompress hdecompress
    unfold dispatch
    simp only
    rw [if_neg hcompress, if_neg hdecompress]
    split
    · rename_i hinfo
      rw [Bool.or_eq_true, decide_eq_true_eq, decide_eq_true_eq] at hinfo
      exact .info htask hinfo
    split
    · exact .benchmark _ htask
    · exact .unknown htask

/-! ## How a run ends -/

/-- **The two ways through `main`**: the command line is rejected, or what its options ask for
is done and the value returned becomes the status. -/
theorem main_cases (machine : Machine Dir) (args : List Bytes) (w w' : World) (status : ℕ)
    (hrun : main machine args w = .ok (status, w')) :
    (∃ opt line, parseCliArgs machine.host.console args = .error (opt, line) ∧ status = 1 ∧
      w' = w.complain line) ∨
    ∃ opt ok, parseCliArgs machine.host.console args = .ok opt ∧
      runOptions machine opt w = .ok (ok, w') ∧ status = exitStatus ok := by
  unfold main at hrun
  split at hrun
  · rename_i opt line hparse
    cases hrun
    exact Or.inl ⟨opt, line, hparse, rfl, rfl⟩
  · rename_i opt hparse
    right
    cases hresult : runOptions machine opt w with
    | error fault =>
      rw [hresult] at hrun
      cases hrun
    | ok result =>
      obtain ⟨ok, w''⟩ := result
      rw [hresult] at hrun
      cases hrun
      exact ⟨opt, ok, hparse, hresult, rfl⟩

/-- The status tells the value. -/
@[simp] theorem exitStatus_eq_zero (ok : Bool) : exitStatus ok = 0 ↔ ok = true := by
  cases ok <;> decide

/-- An accepted command line runs its options. -/
theorem main_of_parsed (machine : Machine Dir) (args : List Bytes) (w w' : World)
    (opt : CliOptions) (ok : Bool) (hparse : parseCliArgs machine.host.console args = .ok opt)
    (hrun : runOptions machine opt w = .ok (ok, w')) :
    main machine args w = .ok (exitStatus ok, w') := by
  simp only [main, hparse, hrun, Except.map]

/-! ## Files -/

/-- A benchmark leaves the files alone. -/
theorem files_benchmark (machine : Machine Dir) (dirPath : Bytes) (jsonOutput quiet : Bool)
    (w w' : World) (ok : Bool)
    (hrun : machine.benchmark dirPath jsonOutput quiet w = .ok (ok, w')) :
    w'.files = w.files := by
  have hfiles : ∀ isDirectory files w, (runBenchmark machine.host machine.milliseconds isDirectory
      files dirPath jsonOutput quiet w).2.files = w.files := by
    intro isDirectory files w
    unfold runBenchmark
    split_ifs <;> rfl
  unfold Machine.benchmark at hrun
  split at hrun
  · split at hrun
    · cases hrun
    · rw [Except.ok.injEq] at hrun
      have hsame := congrArg (fun result => result.2.files) hrun
      exact hsame.symm.trans (hfiles _ _ _)
  · rw [Except.ok.injEq] at hrun
    have hsame := congrArg (fun result => result.2.files) hrun
    exact hsame.symm.trans (hfiles _ _ _)

/-- An inspection leaves the files alone. -/
theorem files_handleInfo (host : Host) (opt : CliOptions) (w : World) :
    (handleInfo host opt w).2.files = w.files := by
  unfold handleInfo
  simp only
  repeat' split
  all_goals rfl

/-- **Whatever is neither a compression nor a decompression leaves every file alone.** -/
theorem files_of_other (machine : Machine Dir) (opt : CliOptions) (w w' : World) (ok : Bool)
    (h : opt.task = .other) (hrun : runOptions machine opt w = .ok (ok, w')) :
    w'.files = w.files := by
  have hbranch := runsAs_runOptions machine opt w
  rw [hrun] at hbranch
  generalize hresult : (Except.ok (ok, w') : Except Fault (Bool × World)) = result at hbranch
  cases hbranch with
  | print message =>
    cases hresult
    rfl
  | compress htask => rw [h] at htask; cases htask
  | decompress htask => rw [h] at htask; cases htask
  | info =>
    rw [Except.ok.injEq] at hresult
    exact (congrArg (fun result => result.2.files) hresult).trans
      (files_handleInfo machine.host opt w)
  | benchmark dirPath => exact files_benchmark machine dirPath _ _ w w' ok hresult.symm
  | unknown =>
    cases hsaid : unknownCommand machine.host opt.command with
    | error fault =>
      rw [hsaid] at hresult
      cases hresult
    | ok message =>
      rw [hsaid] at hresult
      cases hresult
      rfl

/-- **How a compression can end.** Either it fails before a file is opened and changes none, or
there is an archive, which goes to standard output or to a file. -/
theorem handleCompress_cases (host : Host) (opt : CliOptions) (files : FileSystem) (ok : Bool)
    (w : World) (hrun : handleCompress host opt (World.start host files) = .ok (ok, w)) :
    (ok = false ∧ w.files = files) ∨
    ∃ fileData chosen, Produces host opt files fileData chosen ∧
      ((compressDest opt = dash ∧ ok = true ∧ w.files = files) ∨
        (compressDest opt ≠ dash ∧ host.writable (compressDest opt) = true ∧
          ok = ((host.device (compressDest opt)).write chosen.serializedData).good ∧
          w.files = Function.update files (compressDest opt)
            (some ((host.device (compressDest opt)).write chosen.serializedData).accepted))) := by
  by_cases hopened : ∃ fileData chosen, Produces host opt files fileData chosen ∧
      (compressDest opt = dash ∨ host.writable (compressDest opt) = true)
  · obtain ⟨fileData, chosen, hproduces, hopen⟩ := hopened
    refine Or.inr ⟨fileData, chosen, hproduces, ?_⟩
    rw [handleCompress_of_produces host opt files fileData chosen hproduces] at hrun
    by_cases hdest : compressDest opt = dash
    · rw [emitArchive_stdout host opt files fileData chosen hdest] at hrun
      cases hrun
      exact Or.inl ⟨hdest, rfl, rfl⟩
    · have hwritable := hopen.resolve_left hdest
      obtain ⟨w', hemit, hfiles, -⟩ :=
        emitArchive_file host opt files fileData chosen hdest hwritable
      rw [hemit] at hrun
      cases hrun
      exact Or.inr ⟨hdest, hwritable, rfl, hfiles⟩
  · exact Or.inl (handleCompress_of_not_opened host opt files hopened ok w hrun)

/-- **How a decompression can end.** Either it fails before a file is opened and changes none,
or it has got as far as a payload: the data it carries have been written, or it was refused and
a file opened for it is gone. -/
theorem handleDecompress_ends (host : Host) (opt : CliOptions) (files : FileSystem) (ok : Bool)
    (w : World) (hrun : handleDecompress host opt (World.start host files) = .ok (ok, w)) :
    (ok = false ∧ w.files = files) ∨
    ∃ header input, Extracts host opt files header input ∧
      ((∃ data, ok = true ∧ Carries host header (payloadStream host opt input) data ∧
          ((host.device (decompressDest opt)).write data).good = true ∧
          w.files = if decompressDest opt = dash then files
            else Function.update files (decompressDest opt)
              (some ((host.device (decompressDest opt)).write data).accepted)) ∨
        (ok = false ∧ w.files = if decompressDest opt = dash then files
          else Function.update files (decompressDest opt) none)) := by
  by_cases hextracts : ∃ header input, Extracts host opt files header input
  · obtain ⟨header, input, hextracts⟩ := hextracts
    refine Or.inr ⟨header, input, hextracts, ?_⟩
    rcases handleDecompress_cases host opt files header input hextracts ok w hrun with
      ⟨rfl, data, hcarries, hgood⟩ | ⟨rfl, hrefuses⟩
    · rw [handleDecompress_of_carries host opt files header input hextracts data hcarries
        hgood] at hrun
      cases hrun
      exact Or.inl ⟨data, rfl, hcarries, hgood, files_keepOutput host opt files _⟩
    · obtain ⟨w', hrun', hfiles⟩ :=
        handleDecompress_of_refuses host opt files header input hextracts hrefuses
      rw [hrun'] at hrun
      cases hrun
      exact Or.inr ⟨rfl, hfiles⟩
  · exact Or.inl (handleDecompress_of_not_extracts host opt files hextracts ok w hrun)

/-- A decompression that does not get as far as a payload returns. -/
theorem exists_handleDecompress_of_not_extracts (host : Host) (opt : CliOptions)
    (files : FileSystem) (h : ¬ ∃ header input, Extracts host opt files header input) :
    ∃ w, handleDecompress host opt (World.start host files) = .ok (false, w) := by
  unfold handleDecompress
  simp only
  split
  · exact ⟨_, rfl⟩
  rename_i hne
  split
  · exact ⟨_, rfl⟩
  rename_i archive hopen
  split
  · exact ⟨_, rfl⟩
  rename_i header input hread
  by_cases husable : decompressDest opt = dash ∨ host.writable (decompressDest opt) = true
  · exact absurd ⟨header, input, by simpa using hne, ⟨archive, hopen, hread⟩, husable⟩ h
  · rw [not_or, Bool.not_eq_true] at husable
    rw [if_neg husable.1, husable.2]
    exact ⟨_, rfl⟩

end Lacuna.Model
