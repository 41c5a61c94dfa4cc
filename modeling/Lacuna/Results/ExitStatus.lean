import Mathlib.Data.Set.Finite.Lattice
import Lacuna.Analysis.Totality
import Lacuna.Results.DirectoryListing
import Lacuna.Results.Sessions

/-!
# The exit status

A run of the program ends with one of two statuses (`main_ends`), and what it has written to
standard error tells which: nothing but progress where it succeeded, an error line where it failed,
in front of all but what the system says about a path it cannot resolve (`main_verdict`). A run that
failed has written nothing to standard output, except for a decompression that was writing there.
-/

set_option autoImplicit false

namespace Lacuna.Results

open Model Library

variable {Dir : Type}

/-! ## Every run ends -/

/-- **Every run ends.** On a machine with a 64-bit `size_t` and finitely many directories, none of
those a benchmark can be started on leading to a cycle, there is a depth with which every run
returns, whatever its arguments, the files, the devices and the contents are. -/
theorem main_ends [Finite Dir] (machine : Machine Dir)
    (hbits : machine.host.target.sizeBits = 64)
    (hacyclic : ∀ dirPath dir, machine.entryAt dirPath = .directory dir →
      Acyclic machine.graph.Step dir) :
    ∃ depth, ∀ depth' ≥ depth, ∀ args files, ∃ status w,
      main { machine with depth := depth' } args (World.start machine.host files) =
        .ok (status, w) := by
  have hends : ∀ dir : Dir, ∃ depth, ∀ depth' ≥ depth, Acyclic machine.graph.Step dir →
      ∃ paths, scanDirectory machine.graph depth' (.directory dir) = some paths := by
    intro dir
    by_cases hdir : Acyclic machine.graph.Step dir
    · obtain ⟨depth, hdepth⟩ :=
        exists_scanDirectory machine.graph dir ((acc_iff_acyclic dir).mpr hdir)
      exact ⟨depth, fun depth' hge _ => hdepth depth' hge⟩
    · exact ⟨0, fun _ _ h => absurd h hdir⟩
  choose depthOf hdepthOf using hends
  obtain ⟨depth, hdepth⟩ := (Set.finite_range depthOf).bddAbove
  refine ⟨depth, fun depth' hge args files => ?_⟩
  apply exists_main { machine with depth := depth' } hbits
  intro dirPath dir hentry
  have hle : depthOf dir ≤ depth := hdepth ⟨dir, rfl⟩
  exact hdepthOf dir depth' (hle.trans hge) (hacyclic dirPath dir hentry)

/-- A machine on which every path but the empty one names a directory with a subdirectory. -/
def oneWayMachine : Machine Bool where
  host := plainHost [] none .atWrite
  milliseconds := fun _ => text "0.000"
  stderrIsTty := true
  graph := oneWay
  depth := 0
  entryAt := fun dirPath => if dirPath.isEmpty then .other else .directory true
  relativeName := fun _ path => path.getLastD []
  trialElapsed := fun _ => (0, 0)

/-- Its runs end. -/
theorem main_ends_oneWayMachine :
    ∃ depth, ∀ depth' ≥ depth, ∀ args files, ∃ status w,
      main { oneWayMachine with depth := depth' } args
        (World.start oneWayMachine.host files) = .ok (status, w) := by
  refine main_ends oneWayMachine rfl ?_
  intro dirPath dir hentry
  simp only [oneWayMachine] at hentry
  split at hentry
  · cases hentry
  · cases hentry
    exact acyclic_of_unique oneWay_unique

/-! ## What the status says -/

/-- How a command ends, from a world and in another: it returns true, and on standard error is
what was said on the way; or it returns false, with an error line on standard error, behind the line
about a path whose size was asked for and that could not be resolved; and then nothing is on
standard output, unless that is where it was writing. -/
inductive Says (host : Host) (said : Bytes) (sized : Bytes → Prop) (writing : Prop) (w w' : World) :
    Bool → Prop
  | success : w'.stderr = w.stderr ++ said → Says host said sized writing w w' true
  | failure (message : String) (detail more : Bytes) :
    w'.stderr = w.stderr ++ (errorLine host.console message detail ++ more) →
    writing ∨ w'.stdout = w.stdout → Says host said sized writing w w' false
  | unresolved (path what : Bytes) (message : String) (detail : Bytes) : sized path →
    host.access path = .unresolved what →
    w'.stderr = w.stderr ++ (fileSystemError what ++ errorLine host.console message detail) →
    w'.stdout = w.stdout → Says host said sized writing w w' false

section

variable {host : Host} {said : Bytes} {sized : Bytes → Prop} {writing : Prop} {w : World}

/-- What is only printed says nothing. -/
theorem says_print (message : Bytes) : Says host [] sized writing w (w.print message) true :=
  .success (List.append_nil _).symm

/-- An error line with more behind it. -/
theorem says_complain (message : String) (detail more : Bytes) :
    Says host said sized writing w (w.complain (errorLine host.console message detail ++ more))
      false :=
  .failure message detail more rfl (Or.inr rfl)

/-- An error line alone. -/
theorem says_complain_line (message : String) (detail : Bytes) :
    Says host said sized writing w (w.complain (errorLine host.console message detail)) false :=
  .failure message detail [] (by rw [List.append_nil]; rfl) (Or.inr rfl)

/-- An error line behind what was said about the size of a file. -/
theorem says_complain_size (path front : Bytes) (message : String) (detail : Bytes)
    (hsized : sized path) (hsize : w.getFileSize host path = .error front) :
    Says host said sized writing w
      (w.complain (front ++ errorLine host.console message detail)) false := by
  unfold World.getFileSize at hsize
  split at hsize
  · rename_i what haccess
    cases hsize
    exact .unresolved path what message detail hsized haccess rfl rfl
  split at hsize
  · cases hsize
    exact says_complain_line message detail
  · cases hsize

end

/-- What is said about a target that cannot be read. -/
theorem says_readTarget (host : Host) (said : Bytes) (writing : Prop) (w : World)
    (inputPath line : Bytes) (h : readTarget host w inputPath = .error line) :
    Says host said (· = inputPath) writing w (w.complain line) false := by
  unfold readTarget at h
  split at h
  · cases h
  split at h
  · rename_i front hsize
    cases h
    exact says_complain_size inputPath front _ _ rfl hsize
  split at h
  · cases h
    exact says_complain_line _ _
  · cases h

/-- What is said where no archive is made begins with an error line. -/
theorem selectArchive_error (host : Host) (opt : CliOptions) (inputPath fileData text : Bytes)
    (h : selectArchive host opt inputPath fileData = .ok (.error text)) :
    ∃ message detail more, text = errorLine host.console message detail ++ more := by
  have hauto : ∀ text, selectAutomatically host inputPath fileData = .error text → False := by
    intro text htext
    obtain ⟨chosen, hchosen, -⟩ := selectAutomatically_archive host inputPath fileData
    rw [hchosen] at htext
    cases htext
  unfold selectArchive at h
  split at h
  · exact (hauto text (Except.ok.inj h)).elim
  split at h
  · exact (hauto text (Except.ok.inj h)).elim
  split at h
  · split at h
    · cases h
    · rename_i said hsaid
      cases h
      unfold unknownAlgorithm at hsaid
      cases hsuggestion : findSuggestion host.target _ knownAlgos with
      | error fault =>
        rw [hsuggestion] at hsaid
        cases hsaid
      | ok suggestion =>
        rw [hsuggestion] at hsaid
        simp only [bind, Except.bind] at hsaid
        split at hsaid
        · cases hsaid
          exact ⟨_, _, [], (List.append_nil _).symm⟩
        · cases hsaid
          simp only [List.append_assoc]
          exact ⟨_, _, _, rfl⟩
  · simp only at h
    split at h
    · cases h
      exact ⟨_, _, [], (List.append_nil _).symm⟩
    · cases h

/-- **What `handle_compress` says.** -/
theorem says_handleCompress (host : Host) (opt : CliOptions) (w w' : World) (ok : Bool)
    (hrun : handleCompress host opt w = .ok (ok, w')) :
    Says host [] (· = opt.positionalTarget) False w w' ok := by
  unfold handleCompress at hrun
  simp only at hrun
  split at hrun
  · cases hrun
    exact says_complain _ _ _
  split at hrun
  · rename_i line hline
    cases hrun
    exact says_readTarget host [] False w _ line hline
  split at hrun
  · cases hrun
  · rename_i said hsaid
    cases hrun
    obtain ⟨message, detail, more, rfl⟩ := selectArchive_error host opt _ _ said hsaid
    exact says_complain message detail more
  · rename_i fileData _ chosen _
    rw [Except.ok.injEq] at hrun
    unfold emitArchive at hrun
    simp only at hrun
    split at hrun
    · cases hrun
      exact .success (List.append_nil _).symm
    split at hrun
    · cases hrun
      exact says_complain_line _ _
    split at hrun
    · cases hrun
      exact .failure _ _ [] (by rw [List.append_nil]; rfl) (Or.inr rfl)
    · cases hrun
      exact .success (List.append_nil _).symm

/-- The world keeps what was said when the output is kept. -/
@[simp] theorem stderr_keepOutput (w : World) (dest : Bytes) (out : OStream) :
    (w.keepOutput dest out).stderr = w.stderr := by
  unfold World.keepOutput
  split <;> rfl

/-- And so does standard output, unless it is what was written to. -/
theorem stdout_keepOutput (w : World) (dest : Bytes) (out : OStream) (hdest : dest ≠ dash) :
    (w.keepOutput dest out).stdout = w.stdout := by
  unfold World.keepOutput
  rw [if_neg hdest]
  rfl

/-- What the end of a decompression says. -/
theorem says_restorePayload (host : Host) (opt : CliOptions) (w w' : World) (header : Header)
    (input : IStream) (out : OStream) (ok : Bool)
    (hrun : restorePayload host opt w header input out = .ok (ok, w')) :
    Says host [] (fun _ => False) (decompressDest opt = dash) w w' ok := by
  have hout : ∀ out, decompressDest opt = dash ∨
      (w.keepOutput (decompressDest opt) out).stdout = w.stdout := by
    intro out
    by_cases hdest : decompressDest opt = dash
    · exact Or.inl hdest
    · exact Or.inr (stdout_keepOutput w _ out hdest)
  unfold restorePayload at hrun
  simp only at hrun
  split at hrun
  · cases hrun
    refine .failure "Unsupported algorithm ID: " (decimal header.algorithmId.toNat) [] ?_ (hout _)
    rw [List.append_nil, World.complain, stderr_keepOutput]
  split at hrun
  · cases hrun
  · rename_i out' _
    split at hrun
    · cases hrun
      refine .failure "Decompression failed or payload corrupted in: " opt.positionalTarget [] ?_
        (hout out')
      rw [List.append_nil, World.remove, World.complain, stderr_keepOutput]
    · cases hrun
      refine .failure "Decompression failed or payload corrupted in: " opt.positionalTarget [] ?_
        (hout out')
      rw [List.append_nil, World.complain, stderr_keepOutput]
  · cases hrun
    refine .success ?_
    rw [List.append_nil, World.print, stderr_keepOutput]

/-- **What `handle_decompress` says.** -/
theorem says_handleDecompress (host : Host) (opt : CliOptions) (w w' : World) (ok : Bool)
    (hrun : handleDecompress host opt w = .ok (ok, w')) :
    Says host [] (fun _ => False) (decompressDest opt = dash) w w' ok := by
  unfold handleDecompress at hrun
  simp only at hrun
  split at hrun
  · cases hrun
    exact says_complain _ _ _
  split at hrun
  · cases hrun
    exact says_complain_line _ _
  split at hrun
  · cases hrun
    exact says_complain_line _ _
  split at hrun
  · exact says_restorePayload host opt w w' _ _ _ ok hrun
  split at hrun
  · cases hrun
    exact says_complain_line _ _
  · -- opening the destination says nothing
    cases says_restorePayload host opt _ w' _ _ _ ok hrun with
    | success hsaid => exact .success hsaid
    | failure message detail more hsaid hout => exact .failure message detail more hsaid hout
    | unresolved _ _ _ _ hsized => exact hsized.elim

/-- **What `handle_info` says.** -/
theorem says_handleInfo (host : Host) (opt : CliOptions) (w : World) (result : Bool × World)
    (hrun : handleInfo host opt w = result) :
    Says host [] (· = opt.positionalTarget) False w result.2 result.1 := by
  subst hrun
  unfold handleInfo
  simp only
  split
  · exact says_complain _ _ _
  split
  · rename_i front hsize
    exact says_complain_size _ front _ _ rfl hsize
  split
  · exact says_complain_line _ _
  split
  · exact says_complain_line _ _
  · exact says_print _

/-- What a benchmark says, beside its progress. -/
theorem says_benchmark (machine : Machine Dir) (dirPath : Bytes) (jsonOutput quiet : Bool)
    (w w' : World) (ok : Bool)
    (hrun : machine.benchmark dirPath jsonOutput quiet w = .ok (ok, w')) :
    ∃ paths, Says machine.host (machine.progress jsonOutput quiet paths) (fun _ => False) False
      w w' ok := by
  unfold Machine.benchmark at hrun
  split at hrun
  · split at hrun
    · cases hrun
    · rename_i paths _
      refine ⟨paths, ?_⟩
      rw [Except.ok.injEq] at hrun
      unfold runBenchmark at hrun
      rw [if_neg (by decide)] at hrun
      split_ifs at hrun
      all_goals
        cases hrun
        refine .success ?_
        rfl
  · refine ⟨[], ?_⟩
    cases hrun
    exact says_complain_line _ _

/-- What is said about an unknown command begins with an error line. -/
theorem unknownCommand_ok (host : Host) (command said : Bytes)
    (h : unknownCommand host command = .ok said) :
    ∃ message detail more, said = errorLine host.console message detail ++ more := by
  unfold unknownCommand at h
  cases hsuggestion : findSuggestion host.target command knownCommands with
  | error fault =>
    rw [hsuggestion] at h
    cases h
  | ok suggestion =>
    rw [hsuggestion] at h
    simp only [bind, Except.bind] at h
    split at h
    · cases h
      simp only [List.append_assoc]
      exact ⟨_, _, _, rfl⟩
    · cases h
      simp only [List.append_assoc]
      exact ⟨_, _, _, rfl⟩

/-- A rejected command line is answered by an error line. -/
theorem parseArgs_error (console : Console) (args : List Bytes) (opt opt' : CliOptions)
    (line : Bytes) (h : parseArgs console args opt = .error (opt', line)) :
    ∃ message detail, line = errorLine console message detail := by
  fun_induction parseArgs console args opt
  case case1 | case2 | case3 => cases h
  case case4 | case5 | case6 | case8 | case10 | case12 =>
    rename_i ih
    exact ih h
  case case7 | case9 =>
    -- an option without its value
    cases h
    exact ⟨_, _, rfl⟩
  case case11 =>
    rename_i rejected hrejected
    cases h
    unfold parsePositional at hrejected
    split_ifs at hrejected
    cases hrejected
    exact ⟨_, _, rfl⟩

/-- The options ask for a command that asks for the size of its target. -/
def AsksSize (opt : CliOptions) : Prop :=
  opt.task = .compress ∨ opt.command = text "info" ∨ opt.command = text "i"

/-- How a run of the program ends: with status 0 and nothing but progress on standard error, or
with status 1 and an error line there, in front of all but the line about a path whose size was
asked for and that could not be resolved, and then with nothing on standard output, unless the run
is a decompression to standard output. -/
inductive Verdict (machine : Machine Dir) (args : List Bytes) (w : World) : ℕ → Prop
  | success (jsonOutput quiet : Bool) (paths : List Path) :
    w.stderr = machine.progress jsonOutput quiet paths → Verdict machine args w 0
  | failure (message : String) (detail more : Bytes) :
    w.stderr = errorLine machine.host.console message detail ++ more →
    (∃ opt, parseCliArgs machine.host.console args = .ok opt ∧ opt.task = .decompress ∧
        decompressDest opt = dash) ∨ w.stdout = machine.host.device dash →
    Verdict machine args w 1
  | unresolved (opt : CliOptions) (what : Bytes) (message : String) (detail : Bytes) :
    parseCliArgs machine.host.console args = .ok opt → AsksSize opt →
    machine.host.access opt.positionalTarget = .unresolved what →
    w.stderr = fileSystemError what ++ errorLine machine.host.console message detail →
    w.stdout = machine.host.device dash → Verdict machine args w 1

/-- There is no progress to see where JSON is asked for. -/
theorem progress_json (machine : Machine Dir) (quiet : Bool) (paths : List Path) :
    machine.progress true quiet paths = [] := rfl

/-- What a command says becomes the verdict. -/
theorem verdict_of_says (machine : Machine Dir) (args : List Bytes) (files : FileSystem)
    (jsonOutput quiet : Bool) (paths : List Path) (sized : Bytes → Prop) (writing : Prop)
    (w : World) (ok : Bool)
    (hsized : ∀ path, sized path → ∃ opt, parseCliArgs machine.host.console args = .ok opt ∧
      AsksSize opt ∧ opt.positionalTarget = path)
    (hwriting : writing → ∃ opt, parseCliArgs machine.host.console args = .ok opt ∧
      opt.task = .decompress ∧ decompressDest opt = dash)
    (h : Says machine.host (machine.progress jsonOutput quiet paths) sized writing
      (World.start machine.host files) w ok) : Verdict machine args w (exitStatus ok) := by
  cases h with
  | success hsaid => exact .success jsonOutput quiet paths hsaid
  | failure message detail more hsaid hout =>
    exact .failure message detail more hsaid (hout.imp hwriting id)
  | unresolved path what message detail hpath haccess hsaid hout =>
    obtain ⟨opt, hparse, hasks, rfl⟩ := hsized path hpath
    exact .unresolved opt what message detail hparse hasks haccess hsaid hout

/-- **The exit status tells what happened.** Every run that returns has one of the two statuses,
and what it has written agrees with it; so where no progress is shown, the status is 0 exactly if
standard error is empty. -/
theorem main_verdict (machine : Machine Dir) (args : List Bytes) (files : FileSystem)
    (status : ℕ) (w : World)
    (hrun : main machine args (World.start machine.host files) = .ok (status, w)) :
    Verdict machine args w status ∧
      (machine.colorOnStderr = false → (status = 0 ↔ w.stderr = [])) := by
  have hverdict : Verdict machine args w status := by
    rcases main_cases machine args _ w status hrun with
      ⟨opt, line, hparse, rfl, rfl⟩ | ⟨opt, ok, hparse, hresult, rfl⟩
    · obtain ⟨message, detail, rfl⟩ :=
        parseArgs_error machine.host.console args {} opt line hparse
      exact .failure message detail [] (by rw [List.append_nil]; rfl) (Or.inr rfl)
    have hsilent : ∀ {sized : Bytes → Prop} {writing : Prop} {w : World} {ok : Bool},
        (∀ path, sized path → ∃ opt, parseCliArgs machine.host.console args = .ok opt ∧
          AsksSize opt ∧ opt.positionalTarget = path) →
        (writing → ∃ opt, parseCliArgs machine.host.console args = .ok opt ∧
          opt.task = .decompress ∧ decompressDest opt = dash) →
        Says machine.host [] sized writing (World.start machine.host files) w ok →
        Verdict machine args w (exitStatus ok) := by
      intro sized writing w ok hsized hwriting hsays
      rw [← progress_json machine true []] at hsays
      exact verdict_of_says machine args files true true [] sized writing w ok hsized hwriting
        hsays
    have hnone : ∀ path : Bytes, False → ∃ opt, parseCliArgs machine.host.console args = .ok opt ∧
        AsksSize opt ∧ opt.positionalTarget = path := fun _ => False.elim
    have hbranch := runsAs_runOptions machine opt (World.start machine.host files)
    rw [hresult] at hbranch
    generalize hcommand : (Except.ok (ok, w) : Except Fault (Bool × World)) = result at hbranch
    cases hbranch with
    | print message =>
      cases hcommand
      exact hsilent hnone False.elim (says_print message)
    | compress htask =>
      refine hsilent ?_ False.elim
        (says_handleCompress machine.host opt _ w ok hcommand.symm)
      exact fun path hpath => ⟨opt, hparse, Or.inl htask, hpath.symm⟩
    | decompress htask =>
      exact hsilent hnone (fun hdest => ⟨opt, hparse, htask, hdest⟩)
        (says_handleDecompress machine.host opt _ w ok hcommand.symm)
    | info htask hinfo =>
      refine hsilent ?_ False.elim
        (says_handleInfo machine.host opt _ (ok, w) (Except.ok.inj hcommand).symm)
      exact fun path hpath => ⟨opt, hparse, Or.inr hinfo, hpath.symm⟩
    | benchmark dirPath =>
      obtain ⟨paths, hsays⟩ := says_benchmark machine dirPath _ _ _ w ok hcommand.symm
      exact verdict_of_says machine args files _ _ paths _ False w ok hnone False.elim hsays
    | unknown =>
      cases hsaid : unknownCommand machine.host opt.command with
      | error fault =>
        rw [hsaid] at hcommand
        cases hcommand
      | ok said =>
        rw [hsaid] at hcommand
        cases hcommand
        obtain ⟨message, detail, more, rfl⟩ := unknownCommand_ok machine.host _ said hsaid
        exact hsilent hnone False.elim (says_complain message detail more)
  refine ⟨hverdict, fun hcolor => ?_⟩
  have hblank : text " " ≠ [] := by decide
  cases hverdict with
  | success jsonOutput quiet paths hsaid =>
    refine iff_of_true rfl ?_
    rw [hsaid, Machine.progress, hcolor]
    simp
  | failure message detail more hsaid =>
    refine iff_of_false (by decide) ?_
    rw [hsaid, errorLine]
    simp [hblank]
  | unresolved opt what message detail hparse hasks haccess hsaid =>
    refine iff_of_false (by decide) ?_
    rw [hsaid, errorLine]
    simp [hblank]

/-- A machine on which every path leads through too many links. -/
def loopMachine : Machine Unit :=
  plainMachine { plainHost [] none .atWrite with
    access := fun _ => .unresolved (text "Too many levels of symbolic links") }

/-- An inspection there fails, and says so in two lines. -/
theorem main_verdict_loop :
    ∃ w, w.stderr = fileSystemError (text "Too many levels of symbolic links") ++
        errorLine loopMachine.host.console
          "Compressed file does not exist or is not accessible: " (text "a") ∧
      Verdict loopMachine [text "info", text "a"] w 1 ∧
      (loopMachine.colorOnStderr = false → ((1 : ℕ) = 0 ↔ w.stderr = [])) :=
  ⟨_, rfl, main_verdict loopMachine [text "info", text "a"] noFiles 1 _ rfl⟩

end Lacuna.Results
