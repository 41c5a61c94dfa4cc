import Lacuna.Analysis.Commands

/-!
# Destinations that fill up

A destination may take only its first bytes, and may say so at the write or only when it is
flushed. The decompressors check what they write, so that a decompression notices the first
kind of failure and removes its file; neither command looks at the stream again after the last
write, and a compression that fails leaves its file behind.
-/

set_option autoImplicit false

namespace Lacuna.Results

open Model

/-- The destination has taken all of the data. -/
def Delivered (w : World) (dest data : Bytes) : Prop :=
  if dest = dash then data <+: w.stdout.accepted else w.files dest = some data

instance (w : World) (dest data : Bytes) : Decidable (Delivered w dest data) :=
  inferInstanceAs (Decidable (if dest = dash then data <+: w.stdout.accepted else _ = _))

/-- No file is left half written: one that was opened is gone again, and if none was opened then
no file has changed. -/
def NothingLeft (files : FileSystem) (w : World) (dest : Bytes) (opened : Prop) : Prop :=
  (opened → w.files dest = none) ∧ (¬ opened → w.files = files)

/-- `handle_compress` is all or nothing: it returns true only if the destination took every byte
of the archive, and when it returns false nothing is left there. -/
def CompressAllOrNothing (host : Host) (opt : CliOptions) (files : FileSystem) : Prop :=
  ∀ ok w, handleCompress host opt (World.start host files) = .ok (ok, w) →
    (ok = true → ∃ fileData chosen, Produces host opt files fileData chosen ∧
      Delivered w (compressDest opt) chosen.serializedData) ∧
    (ok = false → NothingLeft files w (compressDest opt)
      (compressDest opt ≠ dash ∧ host.writable (compressDest opt) = true ∧
        ∃ fileData chosen, Produces host opt files fileData chosen))

/-- `handle_decompress` is all or nothing, with the restored data in the place of the archive. -/
def DecompressAllOrNothing (host : Host) (opt : CliOptions) (files : FileSystem) : Prop :=
  ∀ ok w, handleDecompress host opt (World.start host files) = .ok (ok, w) →
    (ok = true → ∃ header input data, Extracts host opt files header input ∧
      Carries host header (payloadStream host opt input) data ∧
      Delivered w (decompressDest opt) data) ∧
    (ok = false → NothingLeft files w (decompressDest opt)
      (decompressDest opt ≠ dash ∧ ∃ header input, Extracts host opt files header input))

/-- Data written to standard output has been delivered, with a flush between it and what comes
after it or without, if and only if there was room for it. -/
theorem prefix_accepted_iff (host : Host) (data more : Bytes) :
    data <+: ((host.device dash).write (data ++ more)).accepted ↔ host.Takes dash data.length := by
  constructor
  · intro h
    by_contra htakes
    have hshort := host.length_accepted_lt dash data more htakes
    have hlong := h.length_le
    omega
  · intro htakes
    cases hroom : host.room dash with
    | none =>
      rw [OStream.write_unlimited (host.device dash) (data ++ more) hroom rfl]
      exact ⟨more, rfl⟩
    | some room =>
      have hfit := htakes room hroom
      rw [Host.device, hroom, OStream.write_fresh_accepted, List.take_append,
        List.take_of_length_le hfit]
      exact List.prefix_append _ _

/-- So it is with a flush in front of what comes after: if that fails, nothing more is written. -/
theorem prefix_accepted_flush_iff (host : Host) (data more : Bytes) :
    data <+: ((((host.device dash).write data).flush).write more).accepted ↔
      host.Takes dash data.length := by
  by_cases htakes : host.Takes dash data.length
  · rw [(host.write_device_of_takes dash data htakes).2.2, ← OStream.write_append]
    exact prefix_accepted_iff host data more
  · obtain ⟨-, hbad⟩ := host.write_device_of_not_takes dash data htakes
    have hshort := host.length_accepted_lt dash data [] htakes
    rw [List.append_nil] at hshort
    rw [OStream.write_of_not_good _ _ hbad, OStream.flush]
    exact iff_of_false (fun h => absurd h.length_le (by simpa using hshort)) htakes

/-- What a device accepted is all of the data if and only if it has room for them. -/
theorem accepted_eq_iff (host : Host) (name data : Bytes) :
    ((host.device name).write data).accepted = data ↔ host.Takes name data.length := by
  constructor
  · intro h
    by_contra htakes
    have hshort := host.length_accepted_lt name data [] htakes
    rw [List.append_nil, h] at hshort
    omega
  · intro htakes
    exact (host.write_device_of_takes name data htakes).1

/-! ## Compression -/

/-- A compression that is all or nothing has written to a destination with room for the
archive. -/
theorem takes_of_compressAllOrNothing (host : Host) (opt : CliOptions) (files : FileSystem)
    (hall : CompressAllOrNothing host opt files) (fileData : Bytes) (chosen : Selection)
    (hproduces : Produces host opt files fileData chosen)
    (hopen : compressDest opt = dash ∨ host.writable (compressDest opt) = true) :
    host.Takes (compressDest opt) chosen.serializedData.length := by
  have hrun := handleCompress_of_produces host opt files fileData chosen hproduces
  by_cases hdest : compressDest opt = dash
  · rw [emitArchive_stdout host opt files fileData chosen hdest] at hrun
    obtain ⟨fileData', chosen', hproduces', hdelivered⟩ := (hall _ _ hrun).1 rfl
    rw [← (hproduces.unique hproduces').2, Delivered, if_pos hdest] at hdelivered
    rw [hdest]
    exact (prefix_accepted_flush_iff host _ _).mp hdelivered
  · have hwritable := hopen.resolve_left hdest
    obtain ⟨w, hemit, hfiles, -⟩ :=
      emitArchive_file host opt files fileData chosen hdest hwritable
    rw [hemit] at hrun
    obtain ⟨htrue, hfalse⟩ := hall _ _ hrun
    cases hgood : ((host.device (compressDest opt)).write chosen.serializedData).good with
    | true =>
      obtain ⟨fileData', chosen', hproduces', hdelivered⟩ := htrue hgood
      rw [← (hproduces.unique hproduces').2, Delivered, if_neg hdest, hfiles,
        Function.update_self, Option.some.injEq] at hdelivered
      exact (accepted_eq_iff host _ _).mp hdelivered
    | false =>
      -- the file is still there
      have hgone := (hfalse hgood).1 ⟨hdest, hwritable, fileData, chosen, hproduces⟩
      rw [hfiles, Function.update_self] at hgone
      cases hgone

/-- A compression that writes to a destination with room for the archive delivers it. -/
theorem delivered_of_takes (host : Host) (opt : CliOptions) (files : FileSystem)
    (fileData : Bytes) (chosen : Selection) (hproduces : Produces host opt files fileData chosen)
    (hopen : compressDest opt = dash ∨ host.writable (compressDest opt) = true)
    (htakes : host.Takes (compressDest opt) chosen.serializedData.length) :
    ∃ w, handleCompress host opt (World.start host files) = .ok (true, w) ∧
      Delivered w (compressDest opt) chosen.serializedData := by
  rw [handleCompress_of_produces host opt files fileData chosen hproduces]
  by_cases hdest : compressDest opt = dash
  · rw [hdest] at htakes
    rw [emitArchive_stdout host opt files fileData chosen hdest]
    refine ⟨_, rfl, ?_⟩
    rw [Delivered, if_pos hdest]
    exact (prefix_accepted_flush_iff host _ _).mpr htakes
  · obtain ⟨haccepted, hgood, -⟩ := host.write_device_of_takes _ _ htakes
    obtain ⟨w, hemit, hfiles, -⟩ :=
      emitArchive_file host opt files fileData chosen hdest (hopen.resolve_left hdest)
    rw [hemit, hgood]
    refine ⟨w, rfl, ?_⟩
    rw [Delivered, if_neg hdest, hfiles, Function.update_self, haccepted]

/-- How a compression ends that has come to an archive: when it succeeds; whether the archive is
then at its destination; which files there are; and what is on standard output, where the report
with the name of the algorithm is the last thing that is printed. -/
structure Emits (host : Host) (opt : CliOptions) (files : FileSystem) (fileData : Bytes)
    (chosen : Selection) (ok : Bool) (w : World) : Prop where
  succeeds : ok = true ↔ compressDest opt = dash ∨ host.writable (compressDest opt) = true ∧
    (host.Takes (compressDest opt) chosen.serializedData.length ∨
      host.report (compressDest opt) = .atFlush)
  delivered : ok = true → (Delivered w (compressDest opt) chosen.serializedData ↔
    host.Takes (compressDest opt) chosen.serializedData.length)
  files_eq : w.files =
    if compressDest opt ≠ dash ∧ host.writable (compressDest opt) = true then
      Function.update files (compressDest opt)
        (some ((host.device (compressDest opt)).write chosen.serializedData).accepted)
    else files
  reported : ok = true → w.stdout =
    (if compressDest opt = dash then ((host.device dash).write chosen.serializedData).flush
      else host.device dash).write
      (compressReport host opt (compressDest opt) chosen.algoName (UInt64.ofNat fileData.length)
        (UInt64.ofNat chosen.serializedData.length))

/-- **What becomes of an archive** that is emitted. -/
theorem emits_emitArchive (host : Host) (opt : CliOptions) (files : FileSystem) (fileData : Bytes)
    (chosen : Selection) :
    Emits host opt files fileData chosen
      (emitArchive host opt (World.start host files) fileData chosen).1
      (emitArchive host opt (World.start host files) fileData chosen).2 := by
  by_cases hdest : compressDest opt = dash
  · rw [emitArchive_stdout host opt files fileData chosen hdest]
    refine ⟨iff_of_true rfl (Or.inl hdest), fun _ => ?_, ?_, fun _ => ?_⟩
    · rw [Delivered, if_pos hdest, hdest]
      exact prefix_accepted_flush_iff host _ _
    · rw [if_neg fun h => h.1 hdest]
      rfl
    · rw [if_pos hdest, hdest]
  · cases hwritable : host.writable (compressDest opt) with
    | false =>
      obtain ⟨w, hemit, hfiles⟩ :=
        emitArchive_unwritable host opt files fileData chosen hdest hwritable
      rw [hemit]
      refine ⟨iff_of_false Bool.false_ne_true ?_, fun h => (by cases h), ?_, fun h => (by cases h)⟩
      · rintro (hdash | ⟨hopen, -⟩)
        · exact hdest hdash
        · rw [hwritable] at hopen
          cases hopen
      · rw [if_neg fun h => Bool.false_ne_true (hwritable.symm.trans h.2)]
        exact hfiles
    | true =>
      obtain ⟨w, hemit, hfiles, hstdout⟩ :=
        emitArchive_file host opt files fileData chosen hdest hwritable
      rw [hemit]
      refine ⟨?_, fun _ => ?_, ?_, fun h => ?_⟩
      · rw [host.good_write_iff]
        simp only [hdest, hwritable, false_or, true_and]
      · rw [Delivered, if_neg hdest, hfiles, Function.update_self, Option.some.injEq]
        exact accepted_eq_iff host _ _
      · rw [if_pos ⟨hdest, hwritable⟩]
        exact hfiles
      · rw [if_neg hdest]
        exact hstdout h

/-- **When a compression is all or nothing**: if and only if the destination, in case it is
written to, takes the whole archive. -/
theorem compress_allOrNothing_iff (host : Host) (opt : CliOptions) (files : FileSystem) :
    CompressAllOrNothing host opt files ↔
    ∀ fileData chosen, Produces host opt files fileData chosen →
      (compressDest opt = dash ∨ host.writable (compressDest opt) = true) →
      host.Takes (compressDest opt) chosen.serializedData.length := by
  refine ⟨takes_of_compressAllOrNothing host opt files, ?_⟩
  intro htakes ok w hrun
  by_cases hopened : ∃ fileData chosen, Produces host opt files fileData chosen ∧
      (compressDest opt = dash ∨ host.writable (compressDest opt) = true)
  · obtain ⟨fileData, chosen, hproduces, hopen⟩ := hopened
    obtain ⟨w', hrun', hdelivered⟩ := delivered_of_takes host opt files fileData chosen hproduces
      hopen (htakes fileData chosen hproduces hopen)
    rw [hrun] at hrun'
    cases hrun'
    exact ⟨fun _ => ⟨fileData, chosen, hproduces, hdelivered⟩, fun hok => (by cases hok)⟩
  · obtain ⟨rfl, hfiles⟩ := handleCompress_of_not_opened host opt files hopened ok w hrun
    refine ⟨fun hok => (by cases hok), fun _ => ⟨?_, fun _ => hfiles⟩⟩
    rintro ⟨-, hwritable, fileData, chosen, hproduces⟩
    exact absurd ⟨fileData, chosen, hproduces, Or.inr hwritable⟩ hopened

/-! ## Decompression -/

/-- What a successful decompression has delivered, and when that is the data the payload
carries. -/
theorem delivered_decompress_iff (host : Host) (opt : CliOptions) (files : FileSystem)
    (header : Header) (data : Bytes) :
    Delivered (((openedWorld host opt files).keepOutput (decompressDest opt)
        ((host.device (decompressDest opt)).write data)).print
          (decompressReport host opt (decompressDest opt) header.originalSize))
      (decompressDest opt) data ↔ host.Takes (decompressDest opt) data.length := by
  unfold Delivered
  by_cases hdest : decompressDest opt = dash
  · rw [if_pos hdest, hdest]
    simp only [World.print, World.keepOutput, if_true]
    rw [← OStream.write_append]
    exact prefix_accepted_iff host data _
  · rw [if_neg hdest]
    simp only [World.print, files_keepOutput, hdest, if_false, Function.update_self,
      Option.some.injEq]
    exact accepted_eq_iff host _ data

/-- A decompression that is all or nothing and has data to restore has written to a destination
with room for them, or one that reports a refusal at the write. -/
theorem takes_of_decompressAllOrNothing (host : Host) (opt : CliOptions) (files : FileSystem)
    (hall : DecompressAllOrNothing host opt files) (header : Header) (input : IStream)
    (data : Bytes) (hextracts : Extracts host opt files header input)
    (hcarries : Carries host header (payloadStream host opt input) data) :
    host.Takes (decompressDest opt) data.length ∨
      host.report (decompressDest opt) = .atWrite := by
  by_contra hcon
  rw [not_or] at hcon
  -- the refusal shows at no write, and the run succeeds
  have hgood : ((host.device (decompressDest opt)).write data).good = true := by
    rw [host.good_write_iff]
    cases hreport : host.report (decompressDest opt) with
    | atWrite => exact absurd hreport hcon.2
    | atFlush => exact Or.inr rfl
  have hrun :=
    handleDecompress_of_carries host opt files header input hextracts data hcarries hgood
  obtain ⟨header', input', data', hextracts', hcarries', hdelivered⟩ := (hall _ _ hrun).1 rfl
  obtain ⟨rfl, rfl⟩ := hextracts.unique hextracts'
  obtain rfl := hcarries.unique hcarries'
  exact hcon.1 ((delivered_decompress_iff host opt files header data).mp hdelivered)

/-- A refused payload leaves nothing behind. -/
theorem nothingLeft_of_refuses (host : Host) (opt : CliOptions) (files : FileSystem)
    (header : Header) (input : IStream) (hextracts : Extracts host opt files header input)
    (hrefuses : Refuses host header (payloadStream host opt input)
      (host.device (decompressDest opt))) :
    ∃ w, handleDecompress host opt (World.start host files) = .ok (false, w) ∧
      NothingLeft files w (decompressDest opt)
        (decompressDest opt ≠ dash ∧ ∃ header input, Extracts host opt files header input) := by
  obtain ⟨w, hrun, hfiles⟩ :=
    handleDecompress_of_refuses host opt files header input hextracts hrefuses
  refine ⟨w, hrun, ?_, ?_⟩
  · rintro ⟨hdest, -⟩
    rw [hfiles, if_neg hdest, Function.update_self]
  · intro hclosed
    have hdest : decompressDest opt = dash := by
      by_contra hdest
      exact hclosed ⟨hdest, header, input, hextracts⟩
    rw [hfiles, if_pos hdest]

/-- **When a decompression is all or nothing**: if and only if the destination takes all of the
data the payload carries, if it carries any, or reports at the write that it does not. -/
theorem decompress_allOrNothing_iff (host : Host) (opt : CliOptions) (files : FileSystem) :
    DecompressAllOrNothing host opt files ↔
    ∀ header input data, Extracts host opt files header input →
      Carries host header (payloadStream host opt input) data →
      host.Takes (decompressDest opt) data.length ∨
        host.report (decompressDest opt) = .atWrite := by
  refine ⟨takes_of_decompressAllOrNothing host opt files, ?_⟩
  intro hcondition ok w hrun
  by_cases hextracts : ∃ header input, Extracts host opt files header input
  · obtain ⟨header, input, hextracts⟩ := hextracts
    rcases handleDecompress_cases host opt files header input hextracts ok w hrun with
      ⟨rfl, data, hcarries, hgood⟩ | ⟨rfl, hrefuses⟩
    · have htakes : host.Takes (decompressDest opt) data.length := by
        by_contra htakes
        have hearly := (hcondition header input data hextracts hcarries).resolve_left htakes
        have hlate := ((host.good_write_iff _ data).mp hgood).resolve_left htakes
        exact absurd (hearly.symm.trans hlate) (by decide)
      rw [handleDecompress_of_carries host opt files header input hextracts data hcarries
        hgood] at hrun
      cases hrun
      refine ⟨fun _ => ⟨header, input, data, hextracts, hcarries, ?_⟩, fun hok => (by cases hok)⟩
      exact (delivered_decompress_iff host opt files header data).mpr htakes
    · obtain ⟨w', hrun', hnothing⟩ :=
        nothingLeft_of_refuses host opt files header input hextracts hrefuses
      rw [hrun] at hrun'
      cases hrun'
      exact ⟨fun hok => (by cases hok), fun _ => hnothing⟩
  · obtain ⟨rfl, hfiles⟩ := handleDecompress_of_not_extracts host opt files hextracts ok w hrun
    refine ⟨fun hok => (by cases hok), fun _ => ⟨?_, fun _ => hfiles⟩⟩
    rintro ⟨-, hopened⟩
    exact absurd hopened hextracts

/-! ## Both commands -/

/-- **When the commands are all or nothing.** A compression is if and only if the destination
takes the whole archive, in case it is written to; a decompression is if and only if the
destination takes all of the data its payload carries, or reports at the write that it does
not. -/
theorem allOrNothing_iff (host : Host) (opt : CliOptions) (files : FileSystem) :
    (CompressAllOrNothing host opt files ↔
      ∀ fileData chosen, Produces host opt files fileData chosen →
        (compressDest opt = dash ∨ host.writable (compressDest opt) = true) →
        host.Takes (compressDest opt) chosen.serializedData.length) ∧
    (DecompressAllOrNothing host opt files ↔
      ∀ header input data, Extracts host opt files header input →
        Carries host header (payloadStream host opt input) data →
        host.Takes (decompressDest opt) data.length ∨
          host.report (decompressDest opt) = .atWrite) :=
  ⟨compress_allOrNothing_iff host opt files, decompress_allOrNothing_iff host opt files⟩

/-- On a device with room for three bytes a compression to a file returns false and leaves the
three bytes there, and one to standard output returns true. -/
theorem not_allOrNothing_full :
    ¬ CompressAllOrNothing (plainHost [7] (some 3) .atWrite)
      { positionalTarget := dash, outputPath := some (text "a"), algorithm := some (text "rle") }
      noFiles ∧
    ¬ CompressAllOrNothing (plainHost [7] (some 3) .atFlush)
      { positionalTarget := dash, algorithm := some (text "rle") } noFiles := by
  constructor
  · intro hall
    have hgone := ((hall false _ rfl).2 rfl).1
      ⟨by decide, rfl, _, _, produces_oneByte (some 3) .atWrite _ rfl rfl⟩
    cases hgone
  · intro hall
    obtain ⟨fileData, chosen, hproduces, hdelivered⟩ := (hall true _ rfl).1 rfl
    obtain ⟨-, rfl⟩ := (produces_oneByte (some 3) .atFlush _ rfl rfl).unique hproduces
    exact absurd hdelivered (by decide)

end Lacuna.Results
