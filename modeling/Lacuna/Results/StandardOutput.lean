import Lacuna.Analysis.Commands

/-!
# What the commands put on standard output

With the destination `-` the data goes to standard output, and so do the reports. The text
report is left out there, the JSON report is not: what is put on standard output is exactly the
data when no JSON report is asked for, and then one command can be piped into the other.
-/

set_option autoImplicit false

namespace Lacuna.Results

open Model

/-- Standard output takes the data and nothing more: there is room for it, and the JSON report
is not asked for or finds no room. -/
def TakesOnly (host : Host) (opt : CliOptions) (data : Bytes) : Prop :=
  host.Takes dash data.length ∧ (opt.jsonOutput = false ∨ ¬ host.Takes dash (data.length + 1))

/-- With the destination `-` a compression reports something only as JSON. -/
theorem compressReport_eq_nil_iff (host : Host) (opt : CliOptions) (algoName : Bytes)
    (origSz compSz : UInt64) :
    compressReport host opt dash algoName origSz compSz = [] ↔ opt.jsonOutput = false := by
  have hjson : compressJson host opt.positionalTarget dash algoName origSz compSz ≠ [] := by
    rw [compressJson, List.flatten_cons]
    exact List.append_ne_nil_of_left_ne_nil (by decide) _
  cases hflag : opt.jsonOutput <;> simp [compressReport, hflag, hjson]

/-- With the destination `-` a decompression reports something only as JSON. -/
theorem decompressReport_eq_nil_iff (host : Host) (opt : CliOptions) (restored : UInt64) :
    decompressReport host opt dash restored = [] ↔ opt.jsonOutput = false := by
  have hjson : decompressJson host opt.positionalTarget dash restored ≠ [] := by
    rw [decompressJson, List.flatten_cons]
    exact List.append_ne_nil_of_left_ne_nil (by decide) _
  cases hflag : opt.jsonOutput <;> simp [decompressReport, hflag, hjson]

/-- Data and a report written to standard output leave exactly the data there if and only if
there is no report or no room for one. -/
theorem accepted_report_iff (host : Host) (opt : CliOptions) (data report : Bytes)
    (hreport : report = [] ↔ opt.jsonOutput = false) (htakes : host.Takes dash data.length) :
    (((host.device dash).write data).write report).accepted = data ↔ TakesOnly host opt data := by
  rw [← OStream.write_append, host.accepted_append_iff dash data report htakes, hreport]
  exact ⟨fun h => ⟨htakes, h⟩, fun h => h.2⟩

/-- **What a compression to standard output puts there**: the archive and nothing else if and
only if standard output takes just that. -/
theorem compress_stdout_iff (host : Host) (opt : CliOptions) (files : FileSystem)
    (fileData : Bytes) (chosen : Selection) (hproduces : Produces host opt files fileData chosen)
    (hdest : compressDest opt = dash) :
    (∀ w, handleCompress host opt (World.start host files) = .ok (true, w) →
      w.stdout.accepted = chosen.serializedData) ↔
    TakesOnly host opt chosen.serializedData := by
  have hrun := handleCompress_of_produces host opt files fileData chosen hproduces
  rw [emitArchive_stdout host opt files fileData chosen hdest] at hrun
  have hreport := compressReport_eq_nil_iff host opt chosen.algoName
    (UInt64.ofNat fileData.length) (UInt64.ofNat chosen.serializedData.length)
  generalize compressReport host opt dash chosen.algoName (UInt64.ofNat fileData.length)
    (UInt64.ofNat chosen.serializedData.length) = report at hrun hreport
  rw [forall_ok_true_iff hrun]
  simp only
  by_cases htakes : host.Takes dash chosen.serializedData.length
  · obtain ⟨-, -, hflush⟩ := host.write_device_of_takes dash chosen.serializedData htakes
    rw [hflush]
    exact accepted_report_iff host opt chosen.serializedData report hreport htakes
  · -- the flush fails, and what was accepted is too short
    obtain ⟨-, hbad⟩ := host.write_device_of_not_takes dash chosen.serializedData htakes
    have hshort := host.length_accepted_lt dash chosen.serializedData [] htakes
    rw [List.append_nil] at hshort
    rw [OStream.write_of_not_good _ _ hbad, OStream.flush]
    refine ⟨fun h => ?_, fun h => absurd h.1 htakes⟩
    rw [h] at hshort
    omega

/-- **What a decompression to standard output puts there**: the restored data and nothing else
if and only if standard output takes just that, or reports that it does not. -/
theorem decompress_stdout_iff (host : Host) (opt : CliOptions) (files : FileSystem)
    (header : Header) (input : IStream) (data : Bytes)
    (hextracts : Extracts host opt files header input)
    (hcarries : Carries host header (payloadStream host opt input) data)
    (hdest : decompressDest opt = dash) :
    (∀ w, handleDecompress host opt (World.start host files) = .ok (true, w) →
      w.stdout.accepted = data) ↔
    TakesOnly host opt data ∨
      (¬ host.Takes dash data.length ∧ host.report dash = .atWrite) := by
  have hcarried := handleDecompress_of_carries host opt files header input hextracts data hcarries
  have hreport := decompressReport_eq_nil_iff host opt header.originalSize
  simp only [hdest, World.keepOutput, if_true] at hcarried
  generalize decompressReport host opt dash header.originalSize = report at hcarried hreport
  by_cases hgood : ((host.device dash).write data).good = true
  · have hrun := hcarried hgood
    rw [forall_ok_true_iff hrun]
    change (((host.device dash).write data).write report).accepted = data ↔ _
    by_cases htakes : host.Takes dash data.length
    · rw [accepted_report_iff host opt data report hreport htakes]
      exact ⟨Or.inl, fun h => h.resolve_right fun hnot => hnot.1 htakes⟩
    · -- the refusal shows at the flush only, and what was accepted is too short
      have hlate := ((host.good_write_iff dash data).mp hgood).resolve_left htakes
      have hshort := host.length_accepted_lt dash data report htakes
      rw [← OStream.write_append]
      constructor
      · intro h
        rw [h] at hshort
        omega
      · rintro (h | h)
        · exact absurd h.1 htakes
        · rw [hlate] at h
          exact absurd h.2 (by decide)
  · -- the destination reports that it is full, and no run succeeds
    have hfull := hgood
    rw [host.good_write_iff dash data, not_or] at hfull
    have hearly : host.report dash = .atWrite := by
      cases hreport : host.report dash with
      | atWrite => rfl
      | atFlush => exact absurd hreport hfull.2
    refine ⟨fun _ => Or.inr ⟨hfull.1, hearly⟩, fun _ w hrun => ?_⟩
    rcases handleDecompress_cases host opt files header input hextracts true w hrun with
      ⟨-, data', hcarries', hgood'⟩ | ⟨hok, -⟩
    · rw [hdest, ← hcarries.unique hcarries'] at hgood'
      exact absurd hgood' hgood
    · cases hok

/-- An archive on standard input is a payload that carries its data. -/
theorem extracts_stdin (host : Host) (opt : CliOptions) (files : FileSystem) (T : Target)
    (algorithmId : UInt8) (ha : IsCodec algorithmId) (data : Bytes)
    (hstdin : host.stdin = archive T algorithmId data) (htarget : opt.positionalTarget = dash)
    (hdest : decompressDest opt = dash) (hlen : data.length < 2 ^ host.target.sizeBits) :
    Extracts host opt files (archiveHeader algorithmId data)
      (behindHeader (archiveHeader algorithmId data) (archivePayload T algorithmId data)) ∧
    Carries host (archiveHeader algorithmId data)
      (payloadStream host opt (behindHeader (archiveHeader algorithmId data)
        (archivePayload T algorithmId data))) data := by
  have hread := readHeader_file (archiveHeader algorithmId data)
    (archivePayload T algorithmId data) (archiveHeader_valid algorithmId data ha)
  constructor
  · refine ⟨?_, ⟨IStream.ofBytes host.stdin, ?_, ?_⟩, Or.inl hdest⟩
    · rw [htarget]
      decide
    · rw [openArchive, if_pos htarget]
    · rw [hstdin, archive]
      exact hread
  · have hstream : payloadStream host opt (behindHeader (archiveHeader algorithmId data)
        (archivePayload T algorithmId data)) = behindHeader (archiveHeader algorithmId data)
        (archivePayload T algorithmId data) := if_neg fun h => h.1 hdest
    rw [hstream]
    exact restores_archivePayload T host.target algorithmId ha data hlen _ rfl rfl

/-- **The pipe law.** A compression to standard output returns true, and where it puts exactly
the archive there, a decompression that reads it from standard input and writes to a standard
output which takes just the data returns true and restores them. -/
theorem pipe_restores (host : Host) (opt : CliOptions) (files : FileSystem) (fileData : Bytes)
    (chosen : Selection) (hproduces : Produces host opt files fileData chosen)
    (hdest : compressDest opt = dash) (htakes : TakesOnly host opt chosen.serializedData) :
    ∃ w, handleCompress host opt (World.start host files) = .ok (true, w) ∧
      ∀ (host' : Host) (opt' : CliOptions) (files' : FileSystem),
        opt'.positionalTarget = dash → decompressDest opt' = dash →
        host'.stdin = w.stdout.accepted → fileData.length < 2 ^ host'.target.sizeBits →
        TakesOnly host' opt' fileData →
        ∃ w', handleDecompress host' opt' (World.start host' files') = .ok (true, w') ∧
          w'.stdout.accepted = fileData := by
  have hrun := handleCompress_of_produces host opt files fileData chosen hproduces
  rw [emitArchive_stdout host opt files fileData chosen hdest] at hrun
  have hexact := (compress_stdout_iff host opt files fileData chosen hproduces hdest).mpr htakes
  refine ⟨_, hrun, ?_⟩
  intro host' opt' files' htarget hdest' hstdin hlen htakes'
  obtain ⟨ha, hdata⟩ := selectArchive_archive host opt _ _ _ hproduces.select
  rw [hexact _ hrun, hdata] at hstdin
  obtain ⟨hextracts, hcarries⟩ :=
    extracts_stdin host' opt' files' host.target chosen.selectedAlgo ha fileData hstdin htarget
      hdest' hlen
  have hgood := (host'.write_device_of_takes dash fileData htakes'.1).2.1
  have hrun' := handleDecompress_of_carries host' opt' files' _ _ hextracts fileData hcarries
    (by rw [hdest']; exact hgood)
  refine ⟨_, hrun', ?_⟩
  exact (decompress_stdout_iff host' opt' files' _ _ fileData hextracts hcarries hdest').mpr
    (Or.inl htakes') _ hrun'

/-- **When standard output carries exactly the data.** With the destination `-`, a successful
compression puts the archive and nothing else on standard output, and a successful
decompression the restored data and nothing else, if and only if standard output takes just
that; and then one can be piped into the other. -/
theorem stdout_exact_iff (host : Host) (opt : CliOptions) (files : FileSystem) :
    (compressDest opt = dash → ∀ fileData chosen, Produces host opt files fileData chosen →
      ((∀ w, handleCompress host opt (World.start host files) = .ok (true, w) →
        w.stdout.accepted = chosen.serializedData) ↔
      TakesOnly host opt chosen.serializedData)) ∧
    (decompressDest opt = dash → ∀ header input data, Extracts host opt files header input →
      Carries host header (payloadStream host opt input) data →
      ((∀ w, handleDecompress host opt (World.start host files) = .ok (true, w) →
        w.stdout.accepted = data) ↔
      TakesOnly host opt data ∨
        (¬ host.Takes dash data.length ∧ host.report dash = .atWrite))) ∧
    (compressDest opt = dash → ∀ fileData chosen, Produces host opt files fileData chosen →
      TakesOnly host opt chosen.serializedData →
      ∃ w, handleCompress host opt (World.start host files) = .ok (true, w) ∧
        ∀ (host' : Host) (opt' : CliOptions) (files' : FileSystem),
          opt'.positionalTarget = dash → decompressDest opt' = dash →
          host'.stdin = w.stdout.accepted → fileData.length < 2 ^ host'.target.sizeBits →
          TakesOnly host' opt' fileData →
          ∃ w', handleDecompress host' opt' (World.start host' files') = .ok (true, w') ∧
            w'.stdout.accepted = fileData) := by
  refine ⟨?_, ?_, ?_⟩
  · intro hdest fileData chosen hproduces
    exact compress_stdout_iff host opt files fileData chosen hproduces hdest
  · intro hdest header input data hextracts hcarries
    exact decompress_stdout_iff host opt files header input data hextracts hcarries hdest
  · intro hdest fileData chosen hproduces htakes
    exact pipe_restores host opt files fileData chosen hproduces hdest htakes

/-- One byte through the pipe. -/
theorem stdout_exact_iff_oneByte :
    ∃ w, handleCompress (plainHost [7] none .atWrite)
        { positionalTarget := dash, algorithm := some (text "rle") }
        (World.start (plainHost [7] none .atWrite) noFiles) = .ok (true, w) ∧
      ∃ w', handleDecompress (plainHost w.stdout.accepted none .atWrite)
          { positionalTarget := dash }
          (World.start (plainHost w.stdout.accepted none .atWrite) noFiles) = .ok (true, w') ∧
        w'.stdout.accepted = [7] := by
  obtain ⟨w, hrun, hpipe⟩ := (stdout_exact_iff (plainHost [7] none .atWrite)
    { positionalTarget := dash, algorithm := some (text "rle") } noFiles).2.2 rfl _ _
    (produces_oneByte none .atWrite _ rfl rfl) ⟨plainHost_takes _ _ _ _, Or.inl rfl⟩
  refine ⟨w, hrun, hpipe _ _ noFiles rfl rfl rfl ?_ ⟨plainHost_takes _ _ _ _, Or.inl rfl⟩⟩
  exact Nat.one_lt_two_pow (by decide : (64 : ℕ) ≠ 0)

/-- With a JSON report, the archive is not all there is on standard output. -/
theorem stdout_inexact_json :
    ¬ ∀ w, handleCompress (plainHost [7] none .atWrite)
          { positionalTarget := dash, algorithm := some (text "rle"), jsonOutput := true }
          (World.start (plainHost [7] none .atWrite) noFiles) = .ok (true, w) →
        w.stdout.accepted = archive Target.scan 0x01 [7] := by
  intro h
  obtain ⟨-, hjson | hfull⟩ := (compress_stdout_iff _ _ noFiles _ _
    (produces_oneByte none .atWrite _ rfl rfl) rfl).mp h
  · cases hjson
  · exact hfull (plainHost_takes _ _ _ _)

end Lacuna.Results
