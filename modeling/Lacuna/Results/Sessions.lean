import Lacuna.Analysis.Shelf
import Lacuna.Results.WriteFailures

/-!
# What sessions do to the files

Whatever is run, and however it ends, a path holds what the last run with that destination left
there, and each command leaves only few things (`session_provenance`). On regular machines a
session does what the same session does on the shelf (`session_refines_shelf`). And data that
were packed stay restorable through everything that does not write over their archive, on every
machine that can open the files (`session_restores`).
-/

set_option autoImplicit false

namespace Lacuna.Results

open Model Library

variable {Dir : Type}

/-! ## Provenance -/

/-- What a run can leave at its destination `q`, from the files it found: what was there, as much
of an archive of the data it read as the device took, as much of the data it restored, or
nothing. The status tells which, up to a device that reports only at the flush. -/
inductive Leaves (e : Event Dir) (files : FileSystem) (q : Bytes) : Option Bytes → Prop
  | untouched : e.status = 1 → Leaves e files q (files q)
  | archive (opt : CliOptions) (fileData : Bytes) (algorithmId : UInt8) (part missing : Bytes) :
    e.PacksTo opt q → IsCodec algorithmId →
    readTarget e.machine.host (World.start e.machine.host files) opt.positionalTarget =
      .ok fileData →
    Model.archive e.machine.host.target algorithmId fileData = part ++ missing →
    (e.status = 0 ↔ missing = [] ∨ e.machine.host.report q = .atFlush) →
    Leaves e files q (some part)
  | data (opt : CliOptions) (header : Header) (input : IStream) (part missing : Bytes) :
    e.UnpacksTo opt q → Extracts e.machine.host opt files header input →
    Carries e.machine.host header (payloadStream e.machine.host opt input) (part ++ missing) →
    e.status = 0 → missing = [] ∨ e.machine.host.report q = .atFlush →
    Leaves e files q (some part)
  | nothing (opt : CliOptions) : e.UnpacksTo opt q → e.status = 1 → Leaves e files q none

/-- What a device has accepted of a write, and when the write leaves it good. -/
theorem exists_accepted (host : Host) (name data : Bytes) :
    ∃ missing, data = ((host.device name).write data).accepted ++ missing ∧
      (((host.device name).write data).good = true ↔
        missing = [] ∨ host.report name = .atFlush) := by
  obtain ⟨missing, hmissing⟩ := host.accepted_append_missing name data
  refine ⟨missing, hmissing, ?_⟩
  have htakes : host.Takes name data.length ↔ missing = [] := by
    rw [← accepted_eq_iff]
    nth_rewrite 2 [hmissing]
    exact List.self_eq_append_right
  rw [host.good_write_iff, htakes]

/-- One run leaves one of these things. -/
theorem leaves_of_step {e : Event Dir} {files files' : FileSystem} (h : e.Step files files')
    (q : Bytes) (hq : e.destination = some q) : Leaves e files q (files' q) := by
  cases h.effect with
  | none hidle =>
    refine .untouched (hidle.resolve_right ?_)
    rw [hq]
    simp
  | packed opt p fileData chosen hpacks hproduces hstatus =>
    obtain rfl : p = q := Option.some.inj (hpacks.destination.symm.trans hq)
    obtain ⟨ha, harchive⟩ := selectArchive_archive e.machine.host opt _ _ _ hproduces.select
    obtain ⟨missing, hmissing, hgood⟩ := exists_accepted e.machine.host p chosen.serializedData
    rw [Function.update_self]
    refine .archive opt fileData chosen.selectedAlgo _ missing hpacks ha hproduces.read
      (harchive ▸ hmissing) ?_
    rw [hstatus, exitStatus_eq_zero, hgood]
  | restored opt p header input data hunpacks hextracts hcarries hgood hstatus =>
    obtain rfl : p = q := Option.some.inj (hunpacks.destination.symm.trans hq)
    obtain ⟨missing, hmissing, hgood'⟩ := exists_accepted e.machine.host p data
    rw [Function.update_self]
    exact .data opt header input _ missing hunpacks hextracts (hmissing ▸ hcarries) hstatus
      (hgood'.mp hgood)
  | removed opt p hunpacks hstatus =>
    obtain rfl : p = q := Option.some.inj (hunpacks.destination.symm.trans hq)
    rw [Function.update_self]
    exact .nothing opt hunpacks hstatus

/-- **Provenance.** In every session, whatever its runs are given, find and return, each path
holds what it held at the start if it is no run's destination, and otherwise one of the things
that the last run with that destination can leave there. -/
theorem session_provenance {files files' : FileSystem} {es : List (Event Dir)}
    (h : Session files es files') (q : Bytes) :
    ((∀ e ∈ es, e.destination ≠ some q) ∧ files' q = files q) ∨
    ∃ before e after found, es = before ++ e :: after ∧ Session files before found ∧
      e.destination = some q ∧ (∀ c ∈ after, c.destination ≠ some q) ∧
      Leaves e found q (files' q) := by
  rcases h.last_change Event.changesOnly_step q with
    hnever | ⟨before, e, after, found, left, hes, hbefore, hstep, -, hdest, hafter, hq⟩
  · exact Or.inl hnever
  · refine Or.inr ⟨before, e, after, found, hes, hbefore, hdest, hafter, ?_⟩
    rw [hq]
    exact leaves_of_step hstep q hdest

/-! ## A session to look at -/

/-- A machine around a host, without a directory. -/
def plainMachine (host : Host) : Machine Unit where
  host := host
  milliseconds := fun _ => text "0.000"
  stderrIsTty := false
  graph := { entries := fun _ => none, nodup := by intro dir es hes; cases hes }
  depth := 1
  entryAt := fun _ => .other
  relativeName := fun _ path => path.getLastD []
  trialElapsed := fun _ => (0, 0)

/-- One byte on standard input is packed into the file `a`. -/
def packOneByte : Event Unit where
  machine := plainMachine (plainHost [7] none .atWrite)
  args := [text "compress", text "-", text "-o", text "a", text "-a", text "rle"]
  status := 0

/-- The files with that package. -/
def oneByteFiles : FileSystem :=
  Function.update noFiles (text "a") (some (archive Target.scan 0x01 [7]))

/-- The run that makes it. -/
theorem step_packOneByte : packOneByte.Step noFiles oneByteFiles := ⟨_, rfl, rfl⟩

/-- The package is unpacked into the file `c`. -/
def unpackOneByte : Event Unit where
  machine := plainMachine (plainHost [] none .atWrite)
  args := [text "decompress", text "a", text "-o", text "c"]
  status := 0

/-- The files with the package and with what was in it. -/
def restoredFiles : FileSystem := Function.update oneByteFiles (text "c") (some [7])

/-- The run that restores it. -/
theorem step_unpackOneByte : unpackOneByte.Step oneByteFiles restoredFiles :=
  ⟨_, rfl, Function.update_idem _ _ _⟩

/-- Where the file `a` has its contents from, after both runs. -/
theorem session_provenance_packUnpack :
    ((∀ e ∈ [packOneByte, unpackOneByte], e.destination ≠ some (text "a")) ∧
      restoredFiles (text "a") = noFiles (text "a")) ∨
    ∃ before e after found, [packOneByte, unpackOneByte] = before ++ e :: after ∧
      Session noFiles before found ∧ e.destination = some (text "a") ∧
      (∀ c ∈ after, c.destination ≠ some (text "a")) ∧
      Leaves e found (text "a") (restoredFiles (text "a")) :=
  session_provenance
    (.cons _ _ _ _ _ step_packOneByte (.cons _ _ _ _ _ step_unpackOneByte (.nil _))) (text "a")

/-! ## Refinement -/

/-- A step of a run that is regular on the files it finds. -/
def RegularStep (files : FileSystem) (e : Event Dir) (files' : FileSystem) : Prop :=
  e.Regular files ∧ e.Step files files'

/-- **Sessions are sessions on the shelf.** Every session of regular runs, whatever they read,
write and return, can be followed on the shelf that starts with nothing but plain items: the
same runs with the same statuses lead there to items whose bytes are the files at the end. -/
theorem session_refines_shelf {files files' : FileSystem} {es : List (Event Dir)}
    (h : Run RegularStep files es files') :
    ∃ shelf, Run Shelf.Step (Shelf.ofFiles files) es shelf ∧ shelf.Represents files' := by
  refine h.simulate (R := fun files shelf => Shelf.Represents shelf files) ?_
    (Shelf.represents_ofFiles files)
  rintro files e files' shelf hshelf ⟨hregular, hstep⟩
  exact exists_shelf_step hshelf hregular hstep

/-- Packing is regular. -/
theorem regular_packOneByte : packOneByte.Regular noFiles where
  bits := rfl
  report _ _ := rfl
  stdin_fits := by decide
  files_fit := by
    intro p contents hcontents
    cases hcontents

/-- So is unpacking. -/
theorem regular_unpackOneByte : unpackOneByte.Regular oneByteFiles where
  bits := rfl
  report _ _ := rfl
  stdin_fits := by decide
  files_fit := by
    intro p contents hcontents
    rw [oneByteFiles, Function.update_apply] at hcontents
    split at hcontents
    · cases hcontents
      decide
    · cases hcontents

/-- The byte is packed and unpacked on the shelf, too. -/
theorem session_refines_shelf_packUnpack :
    ∃ shelf, Run Shelf.Step (Shelf.ofFiles noFiles) [packOneByte, unpackOneByte] shelf ∧
      shelf.Represents restoredFiles :=
  session_refines_shelf
    (.cons _ _ _ _ _ ⟨regular_packOneByte, step_packOneByte⟩
      (.cons _ _ _ _ _ ⟨regular_unpackOneByte, step_unpackOneByte⟩ (.nil _)))

/-! ## Restoration -/

/-- How a decompression of `q` by these options ends, if `data` were packed there: it succeeds if
and only if the archive can be read, the destination opened, and its device has room or does not
say that it has none; and then the data have been delivered, if there was room. -/
structure RestoresFrom (host : Host) (opt : CliOptions) (q data : Bytes) (status : ℕ)
    (w : World) : Prop where
  succeeds : status = 0 ↔ host.readable q = true ∧
    (decompressDest opt = dash ∨ host.writable (decompressDest opt) = true) ∧
    (host.Takes (decompressDest opt) data.length ∨ host.report (decompressDest opt) = .atFlush)
  delivered : status = 0 → (Delivered w (decompressDest opt) data ↔
    host.Takes (decompressDest opt) data.length)

/-- A decompression that fails, where it cannot succeed. -/
theorem RestoresFrom.of_false {host : Host} {opt : CliOptions} {q data : Bytes} {w : World}
    (h : ¬ (host.readable q = true ∧
      (decompressDest opt = dash ∨ host.writable (decompressDest opt) = true) ∧
      (host.Takes (decompressDest opt) data.length ∨
        host.report (decompressDest opt) = .atFlush))) :
    RestoresFrom host opt q data (exitStatus false) w where
  succeeds := iff_of_false (by decide) h
  delivered hzero := by cases hzero

/-- A decompression of an archive. -/
theorem restoresFrom_archive (machine : Machine Dir) (args : List Bytes) (opt : CliOptions)
    (files : FileSystem) (T : Target) (algorithmId : UInt8) (ha : IsCodec algorithmId)
    (q data : Bytes) (hbits : machine.host.target.sizeBits = 64) (hlen : data.length < 2 ^ 64)
    (hparse : parseCliArgs machine.host.console args = .ok opt) (htask : opt.task = .decompress)
    (htarget : opt.positionalTarget = q) (hq : q ≠ dash) (hne : q ≠ [])
    (hdest : decompressDest opt ≠ q) (hfile : files q = some (archive T algorithmId data)) :
    ∃ status w, main machine args (World.start machine.host files) = .ok (status, w) ∧
      RestoresFrom machine.host opt q data status w := by
  have hrun : ∀ ok w, handleDecompress machine.host opt (World.start machine.host files) =
      .ok (ok, w) → main machine args (World.start machine.host files) =
        .ok (exitStatus ok, w) := by
    intro ok w hrun
    exact main_of_parsed machine args _ w opt ok hparse
      ((runOptions_of_decompress machine opt _ htask).trans hrun)
  have hread := readHeader_file (archiveHeader algorithmId data) (archivePayload T algorithmId data)
    (archiveHeader_valid algorithmId data ha)
  set input := behindHeader (archiveHeader algorithmId data) (archivePayload T algorithmId data)
  -- the run gets as far as the payload exactly if both files can be opened
  have hextracts : (∃ header input, Extracts machine.host opt files header input) ↔
      machine.host.readable q = true ∧
        (decompressDest opt = dash ∨ machine.host.writable (decompressDest opt) = true) := by
    have hopen : openArchive machine.host (World.start machine.host files) opt.positionalTarget =
        if machine.host.readable q then some (IStream.ofBytes (archive T algorithmId data))
        else none := by
      rw [htarget, openArchive, if_neg hq, World.openFile, World.start]
      simp only [hfile, Option.map_some]
    constructor
    · rintro ⟨header, input, -, ⟨opened, hopened, -⟩, husable⟩
      refine ⟨?_, husable⟩
      by_contra hunreadable
      rw [hopen, if_neg hunreadable] at hopened
      cases hopened
    · rintro ⟨hreadable, husable⟩
      refine ⟨archiveHeader algorithmId data, input, htarget ▸ hne, ?_, husable⟩
      rw [if_pos hreadable] at hopen
      exact ⟨_, hopen, hread⟩
  by_cases hopen : ∃ header input, Extracts machine.host opt files header input
  · have husable := hextracts.mp hopen
    obtain ⟨header, input', hopen⟩ := hopen
    have hstream : payloadStream machine.host opt input' = input' := by
      apply if_neg
      rintro ⟨-, hsame⟩
      exact hdest (hsame.trans htarget)
    -- the payload carries the data
    obtain ⟨rfl, rfl⟩ : header = archiveHeader algorithmId data ∧ input' = input := by
      obtain ⟨opened, hopened, hread'⟩ := hopen.opened
      rw [htarget] at hopened
      obtain rfl := openArchive_file machine.host files q _ opened hq hfile hopened
      rw [archive, hread, Prod.mk.injEq, Option.some.injEq] at hread'
      exact ⟨hread'.1.symm, hread'.2.symm⟩
    have hcarries : Carries machine.host (archiveHeader algorithmId data)
        (payloadStream machine.host opt input) data := by
      rw [hstream]
      exact restores_archivePayload T machine.host.target algorithmId ha data
        (by rw [hbits]; exact hlen) input rfl rfl
    by_cases hgood : ((machine.host.device (decompressDest opt)).write data).good = true
    · have hdone := handleDecompress_of_carries machine.host opt files _ _ hopen data hcarries hgood
      refine ⟨_, _, hrun _ _ hdone, ?_, fun _ => ?_⟩
      · rw [exitStatus_eq_zero, ← machine.host.good_write_iff]
        simp only [husable, hgood, true_and]
      · unfold Delivered
        by_cases hdash : decompressDest opt = dash
        · simp only [hdash, if_true, World.keepOutput, World.print]
          rw [← OStream.write_append]
          exact prefix_accepted_iff machine.host data _
        · have hkept := files_keepOutput machine.host opt files
            ((machine.host.device (decompressDest opt)).write data)
          rw [if_neg hdash] at hkept ⊢
          rw [World.print, hkept, Function.update_self, Option.some.injEq]
          exact accepted_eq_iff machine.host _ data
    · have hrefuses : Refuses machine.host (archiveHeader algorithmId data)
          (payloadStream machine.host opt input)
          (machine.host.device (decompressDest opt)) := by
        obtain ⟨c, hc, hrestores⟩ := hcarries
        have hdec := hrestores _ (machine.host.good_device (decompressDest opt))
        rw [if_neg hgood] at hdec
        exact ⟨c, _, hc, hdec⟩
      obtain ⟨w, hfailed, -⟩ :=
        handleDecompress_of_refuses machine.host opt files _ _ hopen hrefuses
      refine ⟨_, _, hrun _ _ hfailed, .of_false ?_⟩
      rw [← machine.host.good_write_iff]
      exact fun h => hgood h.2.2
  · obtain ⟨w, hfailed⟩ := exists_handleDecompress_of_not_extracts machine.host opt files hopen
    rw [hextracts] at hopen
    exact ⟨_, _, hrun _ _ hfailed, .of_false fun h => hopen ⟨h.1, h.2.1⟩⟩

/-- **What was packed into `q` stays there** through every session that does not write to `q`. -/
theorem packed_kept {files files₁ files₂ : FileSystem} {es : List (Event Dir)}
    (e : Event Dir) (opt : CliOptions) (q data : Bytes) (hpacks : e.PacksTo opt q)
    (hstatus : e.status = 0) (hreport : e.machine.host.report q = .atWrite)
    (hread : readTarget e.machine.host (World.start e.machine.host files) opt.positionalTarget =
      .ok data)
    (hstep : e.Step files files₁) (hsession : Session files₁ es files₂)
    (hkept : ∀ c ∈ es, c.destination ≠ some q) :
    ∃ chosen, selectArchive e.machine.host opt opt.positionalTarget data = .ok (.ok chosen) ∧
      files₂ q = some chosen.serializedData := by
  obtain ⟨fileData, chosen, hproduces, hgood, rfl⟩ := hpacks.files hstep hstatus
  obtain rfl : fileData = data := Except.ok.inj (hproduces.read.symm.trans hread)
  refine ⟨chosen, hproduces.select, ?_⟩
  rw [hsession.frame Event.changesOnly_step q hkept, Function.update_self,
    e.machine.host.accepted_of_good q _ hreport hgood]

/-- **What was packed can be unpacked.** A run packs the data it reads into `q` and succeeds, on a
device that reports at the write. Then, after any session that does not write to `q`, on every
machine with a 64-bit `size_t`, a decompression of `q` to another destination ends, and
succeeds if and only if it can open the two and the destination does not say that it is full; and
then it has delivered these data, whatever became of the file they were read from, if and only if
the destination had room for them. -/
theorem session_restores {files files₁ files₂ : FileSystem} {es : List (Event Dir)}
    (e : Event Dir) (opt : CliOptions) (q data : Bytes) (hpacks : e.PacksTo opt q)
    (hstatus : e.status = 0) (hreport : e.machine.host.report q = .atWrite)
    (hread : readTarget e.machine.host (World.start e.machine.host files) opt.positionalTarget =
      .ok data)
    (hlen : data.length < 2 ^ 64) (hstep : e.Step files files₁)
    (hsession : Session files₁ es files₂)
    (hkept : ∀ c ∈ es, c.destination ≠ some q) (machine : Machine Dir) (args : List Bytes)
    (opt' : CliOptions) (hbits : machine.host.target.sizeBits = 64)
    (hparse : parseCliArgs machine.host.console args = .ok opt')
    (htask : opt'.task = .decompress) (htarget : opt'.positionalTarget = q)
    (hdest : decompressDest opt' ≠ q) (hne : q ≠ []) :
    ∃ status w, main machine args (World.start machine.host files₂) = .ok (status, w) ∧
      RestoresFrom machine.host opt' q data status w := by
  obtain ⟨chosen, hselect, hfile⟩ :=
    packed_kept e opt q data hpacks hstatus hreport hread hstep hsession hkept
  obtain ⟨ha, harchive⟩ := selectArchive_archive e.machine.host opt _ _ _ hselect
  rw [harchive] at hfile
  exact restoresFrom_archive machine args opt' files₂ e.machine.host.target chosen.selectedAlgo ha
    q data hbits hlen hparse htask htarget hpacks.file hne hdest hfile

/-- That package is packed once more, into the file `b`. -/
def packPackage : Event Unit where
  machine := plainMachine (plainHost [] none .atWrite)
  args := [text "c", text "a", text "-o", text "b", text "-a", text "rle"]
  status := 0

/-- The files with both packages. -/
def twoPackages : FileSystem :=
  Function.update oneByteFiles (text "b")
    (some (archive Target.scan 0x01 (archive Target.scan 0x01 [7])))

/-- The byte is restored from the first of them. -/
theorem session_restores_twoPackages :
    ∃ status w, main (plainMachine (plainHost [] none .atWrite))
        [text "d", text "a", text "-o", text "c"]
        (World.start (plainHost [] none .atWrite) twoPackages) = .ok (status, w) ∧
      RestoresFrom (plainHost [] none .atWrite)
        { command := text "d", positionalTarget := text "a", outputPath := some (text "c") }
        (text "a") [7] status w := by
  have hpacks : packOneByte.PacksTo
      { command := text "compress"
        positionalTarget := dash
        outputPath := some (text "a")
        algorithm := some (text "rle") } (text "a") := ⟨rfl, rfl, rfl, by decide⟩
  have hstep : packPackage.Step oneByteFiles twoPackages := ⟨_, rfl, rfl⟩
  refine session_restores packOneByte _ (text "a") [7] hpacks rfl rfl rfl (by decide)
    step_packOneByte (.cons _ _ _ _ _ hstep (.nil _)) ?_ (plainMachine (plainHost [] none .atWrite))
    _ _ rfl rfl rfl rfl (by decide) (by decide)
  intro c hc
  obtain rfl := List.mem_singleton.mp hc
  decide

end Lacuna.Results
