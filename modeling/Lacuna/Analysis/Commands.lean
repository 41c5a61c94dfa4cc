import Lacuna.Analysis.Archive
import Lacuna.Model.Command

/-!
# What the commands do

Each of the two commands has one successful way to its end, and everything before that leaves
the file system and standard output alone. For a compression the way is described by
`Produces`: there is data and an archive of it. For a decompression it is described by
`Extracts`: there is a header, a payload behind it, and a destination that can be opened; and
what then happens depends on whether the payload carries some data (`Carries`) or the
decompressor refuses it.
-/

set_option autoImplicit false

namespace Lacuna.Model

/-! ## Devices -/

/-- The device behind a name takes at least `n` bytes. -/
def Host.Takes (host : Host) (name : Bytes) (n : ℕ) : Prop :=
  ∀ room, host.room name = some room → n ≤ room

/-- A device that does not take `n` bytes has room for fewer. -/
theorem Host.exists_room_of_not_takes (host : Host) (name : Bytes) (n : ℕ)
    (h : ¬ host.Takes name n) : ∃ room, host.room name = some room ∧ room < n := by
  simpa [Host.Takes] using h

/-- A fresh stream is good. -/
@[simp] theorem Host.good_device (host : Host) (name : Bytes) :
    (host.device name).good = true := rfl

/-- What a device that has room for a write is left as: the bytes are accepted, and there is
nothing for a flush to report. -/
theorem Host.write_device_of_takes (host : Host) (name data : Bytes)
    (htakes : host.Takes name data.length) :
    ((host.device name).write data).accepted = data ∧
      ((host.device name).write data).good = true ∧
      ((host.device name).write data).flush = (host.device name).write data := by
  cases hroom : host.room name with
  | none =>
    have hwrite := OStream.write_unlimited (host.device name) data hroom rfl
    rw [hwrite]
    exact ⟨rfl, rfl, OStream.flush_of_not_refused _ rfl⟩
  | some room =>
    have hwrite := OStream.write_fits (host.device name) data room hroom rfl (htakes room hroom)
    rw [hwrite]
    exact ⟨rfl, rfl, OStream.flush_of_not_refused _ rfl⟩

/-- A device without room for a write shows the refusal at the write or at the flush. -/
theorem Host.write_device_of_not_takes (host : Host) (name data : Bytes)
    (htakes : ¬ host.Takes name data.length) :
    ((host.device name).write data).good = decide (host.report name = .atFlush) ∧
      ((host.device name).write data).flush.good = false := by
  obtain ⟨room, hroom, hlong⟩ := host.exists_room_of_not_takes name data.length htakes
  constructor
  · rw [Host.device, hroom, OStream.write_fresh_good, decide_eq_false (Nat.not_le_of_lt hlong),
      Bool.false_or]
  · rw [OStream.write_overflows (host.device name) data room hroom rfl hlong]
    cases hreport : host.report name <;>
      simp [OStream.good, OStream.flush, Host.device, OStream.fresh, hreport]

/-- **When a write leaves a device good**: it took everything, or it is late to say that it did
not. -/
theorem Host.good_write_iff (host : Host) (name data : Bytes) :
    ((host.device name).write data).good = true ↔
      host.Takes name data.length ∨ host.report name = .atFlush := by
  by_cases htakes : host.Takes name data.length
  · exact ⟨fun _ => Or.inl htakes, fun _ => (host.write_device_of_takes name data htakes).2.1⟩
  · rw [(host.write_device_of_not_takes name data htakes).1, decide_eq_true_eq]
    exact ⟨Or.inr, fun h => h.resolve_left htakes⟩

/-- A device without room for a write accepts less than all of it, whatever comes after it. -/
theorem Host.length_accepted_lt (host : Host) (name data more : Bytes)
    (htakes : ¬ host.Takes name data.length) :
    ((host.device name).write (data ++ more)).accepted.length < data.length := by
  obtain ⟨room, hroom, hlong⟩ := host.exists_room_of_not_takes name data.length htakes
  rw [Host.device, hroom, OStream.write_fresh_accepted, List.length_take]
  omega

/-- What a device accepted of a write is a prefix of it. -/
theorem Host.accepted_append_missing (host : Host) (name data : Bytes) :
    ∃ missing, data = ((host.device name).write data).accepted ++ missing := by
  cases hroom : host.room name with
  | none =>
    have hwrite := OStream.write_unlimited (host.device name) data hroom rfl
    rw [hwrite]
    exact ⟨[], (List.append_nil data).symm⟩
  | some room =>
    rw [Host.device, hroom, OStream.write_fresh_accepted]
    exact ⟨data.drop room, (List.take_append_drop room data).symm⟩

/-- **What a second text adds to a first one**: the device has accepted just the first if and
only if the second is empty or finds no room at all. -/
theorem Host.accepted_append_iff (host : Host) (name data more : Bytes)
    (htakes : host.Takes name data.length) :
    ((host.device name).write (data ++ more)).accepted = data ↔
      more = [] ∨ ¬ host.Takes name (data.length + 1) := by
  cases hroom : host.room name with
  | none =>
    have hwrite := OStream.write_unlimited (host.device name) (data ++ more) hroom rfl
    have htakes' : host.Takes name (data.length + 1) := by
      intro room hsome
      rw [hroom] at hsome
      cases hsome
    rw [hwrite]
    constructor
    · intro h
      exact Or.inl (List.append_right_eq_self.mp h)
    · rintro (rfl | h)
      · exact List.append_nil data
      · exact absurd htakes' h
  | some room =>
    have hfit := htakes room hroom
    have hiff : host.Takes name (data.length + 1) ↔ data.length + 1 ≤ room := by
      simp [Host.Takes, hroom]
    have haccepted : ((host.device name).write (data ++ more)).accepted =
        (data ++ more).take room := by
      rw [Host.device, hroom]
      exact OStream.write_fresh_accepted room _ _
    rw [haccepted, hiff, List.take_append, List.take_of_length_le hfit,
      List.append_right_eq_self, List.take_eq_nil_iff]
    constructor
    · rintro (h | h)
      · exact Or.inr (by omega)
      · exact Or.inl h
    · rintro (h | h)
      · exact Or.inr h
      · exact Or.inl (by omega)

/-- What holds of every successful run, where the successful run is known. -/
theorem forall_ok_true_iff {result : Except Fault (Bool × World)} {w : World}
    (hrun : result = .ok (true, w)) (P : World → Prop) :
    (∀ w', result = .ok (true, w') → P w') ↔ P w := by
  constructor
  · intro h
    exact h w hrun
  · intro h w' hrun'
    rw [hrun] at hrun'
    cases hrun'
    exact h

/-! ## Compression -/

/-- The compression of a target gets as far as an archive. -/
structure Produces (host : Host) (opt : CliOptions) (files : FileSystem) (fileData : Bytes)
    (chosen : Selection) : Prop where
  target_ne : opt.positionalTarget ≠ []
  read : readTarget host (World.start host files) opt.positionalTarget = .ok fileData
  select : selectArchive host opt opt.positionalTarget fileData = .ok (.ok chosen)

/-- **What is read of a path** is what the file there holds, if it can be opened. -/
theorem readTarget_eq_ok_iff (host : Host) (files : FileSystem) (path fileData : Bytes)
    (hpath : path ≠ dash) : readTarget host (World.start host files) path = .ok fileData ↔
      host.readable path = true ∧ files path = some fileData := by
  rw [readTarget, if_neg hpath, World.getFileSize, World.openFile, Host.readable]
  cases host.access path with
  | unresolved what => simp [Access.readable]
  | resolved readable writable =>
    simp only [World.start]
    cases files path with
    | none => simp
    | some data => cases readable <;> simp [Access.readable, IStream.ofBytes]

/-- What is read of a file that is there is what it holds. -/
theorem readTarget_file (host : Host) (files : FileSystem) (path data fileData : Bytes)
    (hpath : path ≠ dash) (hdata : files path = some data)
    (hread : readTarget host (World.start host files) path = .ok fileData) : fileData = data := by
  have hfile := ((readTarget_eq_ok_iff host files path fileData hpath).mp hread).2
  exact Option.some.inj (hfile.symm.trans hdata)

/-- Automatic selection ends with an archive of the data. -/
theorem selectAutomatically_archive (host : Host) (inputPath fileData : Bytes) :
    ∃ chosen, selectAutomatically host inputPath fileData = .ok chosen ∧
      IsCodec chosen.selectedAlgo ∧
      chosen.serializedData = archive host.target chosen.selectedAlgo fileData := by
  obtain ⟨hrle, hrleData⟩ :=
    runTrial_eq host.target host.elapsed fileData 0x01 (Or.inl rfl)
  obtain ⟨hhuff, hhuffData⟩ :=
    runTrial_eq host.target host.elapsed fileData 0x02 (Or.inr rfl)
  unfold selectAutomatically
  simp only [hrle, hhuff, Bool.not_true, Bool.and_self, Bool.false_eq_true, if_false]
  split
  · refine ⟨_, rfl, Or.inr rfl, ?_⟩
    simp only
    exact hhuffData
  · refine ⟨_, rfl, Or.inl rfl, ?_⟩
    simp only
    exact hrleData

/-- A named algorithm is one of the two codecs. -/
theorem isCodec_of_algorithmNamed (algoStr : Bytes) (selectedAlgo : UInt8) (algoName : Bytes)
    (h : algorithmNamed algoStr = some (selectedAlgo, algoName)) : IsCodec selectedAlgo := by
  unfold algorithmNamed at h
  split at h
  · cases h
    exact Or.inl rfl
  · split at h
    · cases h
      exact Or.inr rfl
    · cases h

/-- **What is selected is an archive of the data**, with the algorithm named or the smaller
one. -/
theorem selectArchive_archive (host : Host) (opt : CliOptions) (inputPath fileData : Bytes)
    (chosen : Selection) (h : selectArchive host opt inputPath fileData = .ok (.ok chosen)) :
    IsCodec chosen.selectedAlgo ∧
      chosen.serializedData = archive host.target chosen.selectedAlgo fileData := by
  obtain ⟨auto, hauto, hcodec, hdata⟩ := selectAutomatically_archive host inputPath fileData
  unfold selectArchive at h
  rw [hauto] at h
  split at h
  · cases h
    exact ⟨hcodec, hdata⟩
  · split at h
    · cases h
      exact ⟨hcodec, hdata⟩
    · split at h
      · split at h <;> cases h
      · rename_i selectedAlgo algoName hnamed
        have ha := isCodec_of_algorithmNamed _ _ _ hnamed
        obtain ⟨hsuccess, hserialized⟩ :=
          runTrial_eq host.target host.elapsed fileData selectedAlgo ha
        simp only [hsuccess, Bool.not_true, Bool.false_eq_true, if_false, Except.ok.injEq] at h
        subst h
        exact ⟨ha, hserialized⟩

/-- Emitting an archive to standard output succeeds, whatever becomes of the bytes. -/
theorem emitArchive_stdout (host : Host) (opt : CliOptions) (files : FileSystem)
    (fileData : Bytes) (chosen : Selection) (hdest : compressDest opt = dash) :
    emitArchive host opt (World.start host files) fileData chosen =
      (true, { World.start host files with
        stdout := (((host.device dash).write chosen.serializedData).flush).write
          (compressReport host opt dash chosen.algoName (UInt64.ofNat fileData.length)
            (UInt64.ofNat chosen.serializedData.length)) }) := by
  simp only [emitArchive, hdest, if_true]
  rfl

/-- Emitting an archive to a file leaves there what the device accepted, and succeeds unless
the device reported that it is full; then the report is printed. -/
theorem emitArchive_file (host : Host) (opt : CliOptions) (files : FileSystem)
    (fileData : Bytes) (chosen : Selection) (hdest : compressDest opt ≠ dash)
    (hwritable : host.writable (compressDest opt) = true) :
    ∃ w, emitArchive host opt (World.start host files) fileData chosen =
        (((host.device (compressDest opt)).write chosen.serializedData).good, w) ∧
      w.files = Function.update files (compressDest opt)
        (some ((host.device (compressDest opt)).write chosen.serializedData).accepted) ∧
      (((host.device (compressDest opt)).write chosen.serializedData).good = true →
        w.stdout = (host.device dash).write (compressReport host opt (compressDest opt)
          chosen.algoName (UInt64.ofNat fileData.length)
          (UInt64.ofNat chosen.serializedData.length))) := by
  simp only [emitArchive, hdest, if_false, hwritable, Bool.not_true, Bool.false_eq_true]
  cases hgood : ((host.device (compressDest opt)).write chosen.serializedData).good with
  | true => exact ⟨_, rfl, rfl, fun _ => rfl⟩
  | false => exact ⟨_, rfl, rfl, fun h => absurd h Bool.false_ne_true⟩

/-- Emitting an archive to a file that cannot be opened fails and changes no file. -/
theorem emitArchive_unwritable (host : Host) (opt : CliOptions) (files : FileSystem)
    (fileData : Bytes) (chosen : Selection) (hdest : compressDest opt ≠ dash)
    (hwritable : host.writable (compressDest opt) = false) :
    ∃ w, emitArchive host opt (World.start host files) fileData chosen = (false, w) ∧
      w.files = files := by
  simp only [emitArchive, hdest, if_false, hwritable, Bool.not_false, if_true]
  exact ⟨_, rfl, rfl⟩

/-- **A compression that produces an archive emits it.** -/
theorem handleCompress_of_produces (host : Host) (opt : CliOptions) (files : FileSystem)
    (fileData : Bytes) (chosen : Selection) (h : Produces host opt files fileData chosen) :
    handleCompress host opt (World.start host files) =
      .ok (emitArchive host opt (World.start host files) fileData chosen) := by
  have hne : opt.positionalTarget.isEmpty = false := by simpa using h.target_ne
  simp only [handleCompress, hne, Bool.false_eq_true, if_false, h.read, h.select]

/-- A compression that produces no archive returns false and changes no file. -/
theorem handleCompress_of_not_produces (host : Host) (opt : CliOptions) (files : FileSystem)
    (h : ¬ ∃ fileData chosen, Produces host opt files fileData chosen) (ok : Bool) (w : World)
    (hrun : handleCompress host opt (World.start host files) = .ok (ok, w)) :
    ok = false ∧ w.files = files := by
  unfold handleCompress at hrun
  simp only at hrun
  split at hrun
  · cases hrun
    exact ⟨rfl, rfl⟩
  · rename_i hne
    split at hrun
    · cases hrun
      exact ⟨rfl, rfl⟩
    · rename_i fileData hread
      split at hrun
      · cases hrun
      · cases hrun
        exact ⟨rfl, rfl⟩
      · rename_i chosen hselect
        exact absurd ⟨fileData, chosen, by simpa using hne, hread, hselect⟩ h

/-- A compression that could not open its destination, or had no archive to write, returns false
and changes no file. -/
theorem handleCompress_of_not_opened (host : Host) (opt : CliOptions) (files : FileSystem)
    (h : ¬ ∃ fileData chosen, Produces host opt files fileData chosen ∧
      (compressDest opt = dash ∨ host.writable (compressDest opt) = true)) (ok : Bool) (w : World)
    (hrun : handleCompress host opt (World.start host files) = .ok (ok, w)) :
    ok = false ∧ w.files = files := by
  by_cases hproduces : ∃ fileData chosen, Produces host opt files fileData chosen
  · obtain ⟨fileData, chosen, hproduces⟩ := hproduces
    have hclosed : compressDest opt ≠ dash ∧ host.writable (compressDest opt) = false := by
      rw [← Bool.not_eq_true, ne_eq, ← not_or]
      intro hopen
      exact h ⟨fileData, chosen, hproduces, hopen⟩
    obtain ⟨w', hemit, hfiles⟩ :=
      emitArchive_unwritable host opt files fileData chosen hclosed.1 hclosed.2
    rw [handleCompress_of_produces host opt files fileData chosen hproduces, hemit] at hrun
    cases hrun
    exact ⟨rfl, hfiles⟩
  · exact handleCompress_of_not_produces host opt files hproduces ok w hrun

/-- **What a successful compression did**: it made an archive, and could open the destination. -/
theorem exists_produces_of_true (host : Host) (opt : CliOptions) (files : FileSystem) (w : World)
    (hrun : handleCompress host opt (World.start host files) = .ok (true, w)) :
    ∃ fileData chosen, Produces host opt files fileData chosen ∧
      (compressDest opt = dash ∨ host.writable (compressDest opt) = true) := by
  by_contra hopened
  have hok := (handleCompress_of_not_opened host opt files hopened true w hrun).1
  cases hok

/-- One run produces one archive. -/
theorem Produces.unique {host : Host} {opt : CliOptions} {files : FileSystem}
    {fileData fileData' : Bytes} {chosen chosen' : Selection}
    (h : Produces host opt files fileData chosen)
    (h' : Produces host opt files fileData' chosen') :
    fileData = fileData' ∧ chosen = chosen' := by
  have hdata : fileData = fileData' := Except.ok.inj (h.read.symm.trans h'.read)
  subst hdata
  exact ⟨rfl, Except.ok.inj (Except.ok.inj (h.select.symm.trans h'.select))⟩

/-! ## Decompression -/

/-- The decompression of a target gets as far as a payload: there is a header, and a
destination that can be written to. -/
structure Extracts (host : Host) (opt : CliOptions) (files : FileSystem) (header : Header)
    (input : IStream) : Prop where
  target_ne : opt.positionalTarget ≠ []
  opened : ∃ archive, openArchive host (World.start host files) opt.positionalTarget =
    some archive ∧ readHeader archive = (some header, input)
  usable : decompressDest opt = dash ∨ host.writable (decompressDest opt) = true

/-- The stream the payload is decoded from, once the destination is open. -/
def payloadStream (host : Host) (opt : CliOptions) (input : IStream) : IStream :=
  if decompressDest opt ≠ dash ∧ decompressDest opt = opt.positionalTarget then
    { input with rest := host.residue input.rest }
  else input

/-- The world once the destination is open. -/
def openedWorld (host : Host) (opt : CliOptions) (files : FileSystem) : World :=
  if decompressDest opt = dash then World.start host files
  else (World.start host files).store (decompressDest opt) []

/-- The payload behind a header carries `data`: the decompressor the header selects restores
it. -/
def Carries (host : Host) (header : Header) (input : IStream) (data : Bytes) : Prop :=
  ∃ c, selectCompressor host.target header.algorithmId = some c ∧
    Restores c input header.originalSize data

/-- The decompressor the header selects returns `nullopt` on the payload and the output. -/
def Refuses (host : Host) (header : Header) (input : IStream) (out : OStream) : Prop :=
  ∃ c out', selectCompressor host.target header.algorithmId = some c ∧
    c.decompress input out header.originalSize = .ok (none, out')

/-- A stream opened on an archive is fresh. -/
theorem good_of_openArchive {host : Host} {w : World} {path : Bytes} {archive : IStream}
    (h : openArchive host w path = some archive) : archive.good = true := by
  unfold openArchive World.openFile at h
  split at h
  · cases h
    rfl
  · split at h
    · obtain ⟨contents, -, rfl⟩ := Option.map_eq_some_iff.mp h
      rfl
    · cases h

/-- A stream opened on a file is one over its contents. -/
theorem openArchive_file (host : Host) (files : FileSystem) (path file : Bytes)
    (archive : IStream) (hpath : path ≠ dash) (hfile : files path = some file)
    (hopen : openArchive host (World.start host files) path = some archive) :
    archive = IStream.ofBytes file := by
  simp only [openArchive, hpath, if_false, World.openFile, World.start, hfile,
    Option.map_some] at hopen
  split at hopen
  · exact (Option.some.inj hopen).symm
  · cases hopen

/-- The header is valid and the payload can be read. -/
theorem Extracts.valid {host : Host} {opt : CliOptions} {files : FileSystem} {header : Header}
    {input : IStream} (h : Extracts host opt files header input) :
    header.Valid ∧ (payloadStream host opt input).good = true := by
  obtain ⟨archive, hopen, hread⟩ := h.opened
  obtain ⟨hvalid, hgood, -⟩ :=
    readHeader_some archive header input (good_of_openArchive hopen) hread
  refine ⟨hvalid, ?_⟩
  unfold payloadStream
  split
  · exact hgood
  · exact hgood

/-- One run reads one header. -/
theorem Extracts.unique {host : Host} {opt : CliOptions} {files : FileSystem}
    {header header' : Header} {input input' : IStream}
    (h : Extracts host opt files header input) (h' : Extracts host opt files header' input') :
    header = header' ∧ input = input' := by
  obtain ⟨archive, hopen, hread⟩ := h.opened
  obtain ⟨archive', hopen', hread'⟩ := h'.opened
  have harchive : archive = archive' := Option.some.inj (hopen.symm.trans hopen')
  subst harchive
  rw [hread, Prod.mk.injEq, Option.some.injEq] at hread'
  exact hread'

/-- **A decompression that gets as far as a payload decodes it** into the destination. -/
theorem handleDecompress_of_extracts (host : Host) (opt : CliOptions) (files : FileSystem)
    (header : Header) (input : IStream) (h : Extracts host opt files header input) :
    handleDecompress host opt (World.start host files) =
      restorePayload host opt (openedWorld host opt files) header (payloadStream host opt input)
        (host.device (decompressDest opt)) := by
  have hne : opt.positionalTarget.isEmpty = false := by simpa using h.target_ne
  obtain ⟨archive, hopen, hread⟩ := h.opened
  simp only [handleDecompress, hne, Bool.false_eq_true, if_false, hopen, hread]
  by_cases hdash : decompressDest opt = dash
  · simp only [openedWorld, payloadStream, hdash, if_true, ne_eq, not_true_eq_false, false_and,
      if_false]
    rfl
  · have hwritable : host.writable (decompressDest opt) = true := h.usable.resolve_left hdash
    simp only [openedWorld, payloadStream, hdash, hwritable, Bool.not_true, Bool.false_eq_true,
      if_false, ne_eq, not_false_eq_true, true_and]

/-- A decompression that does not get that far returns false and changes no file. -/
theorem handleDecompress_of_not_extracts (host : Host) (opt : CliOptions) (files : FileSystem)
    (h : ¬ ∃ header input, Extracts host opt files header input) (ok : Bool) (w : World)
    (hrun : handleDecompress host opt (World.start host files) = .ok (ok, w)) :
    ok = false ∧ w.files = files := by
  unfold handleDecompress at hrun
  simp only at hrun
  split at hrun
  · cases hrun
    exact ⟨rfl, rfl⟩
  rename_i hne
  split at hrun
  · cases hrun
    exact ⟨rfl, rfl⟩
  rename_i archive hopen
  split at hrun
  · cases hrun
    exact ⟨rfl, rfl⟩
  rename_i header input hread
  by_cases husable : decompressDest opt = dash ∨ host.writable (decompressDest opt) = true
  · exact absurd ⟨header, input, by simpa using hne, ⟨archive, hopen, hread⟩, husable⟩ h
  · rw [not_or, Bool.not_eq_true] at husable
    rw [if_neg husable.1, husable.2] at hrun
    cases hrun
    exact ⟨rfl, rfl⟩

/-! ## The end of a decompression -/

/-- The files after the destination was opened and written: at the destination is what its
device accepted, and everything else is as it was. -/
theorem files_keepOutput (host : Host) (opt : CliOptions) (files : FileSystem) (out : OStream) :
    ((openedWorld host opt files).keepOutput (decompressDest opt) out).files =
      if decompressDest opt = dash then files
      else Function.update files (decompressDest opt) (some out.accepted) := by
  unfold openedWorld World.keepOutput
  split
  · rfl
  · exact Function.update_idem _ _ _

/-- **A payload that carries data**: the command returns what the destination reports, and if
that is success the data has been written to it. -/
theorem handleDecompress_of_carries (host : Host) (opt : CliOptions) (files : FileSystem)
    (header : Header) (input : IStream) (h : Extracts host opt files header input)
    (data : Bytes) (hcarries : Carries host header (payloadStream host opt input) data)
    (hgood : ((host.device (decompressDest opt)).write data).good = true) :
    handleDecompress host opt (World.start host files) =
      .ok (true, ((openedWorld host opt files).keepOutput (decompressDest opt)
        ((host.device (decompressDest opt)).write data)).print
          (decompressReport host opt (decompressDest opt) header.originalSize)) := by
  obtain ⟨c, hc, hrestores⟩ := hcarries
  rw [handleDecompress_of_extracts host opt files header input h]
  simp only [restorePayload, hc, hrestores _ (host.good_device _), hgood, if_true]

/-- **A payload that is refused**: the command returns false, a file opened as its destination
is gone, and no other file has changed. -/
theorem handleDecompress_of_refuses (host : Host) (opt : CliOptions) (files : FileSystem)
    (header : Header) (input : IStream) (h : Extracts host opt files header input)
    (hrefuses : Refuses host header (payloadStream host opt input)
      (host.device (decompressDest opt))) :
    ∃ w, handleDecompress host opt (World.start host files) = .ok (false, w) ∧
      w.files = if decompressDest opt = dash then files
        else Function.update files (decompressDest opt) none := by
  obtain ⟨c, out', hc, hdec⟩ := hrefuses
  rw [handleDecompress_of_extracts host opt files header input h]
  simp only [restorePayload, hc, hdec]
  have hfiles := files_keepOutput host opt files out'
  by_cases hdash : decompressDest opt = dash
  · simp only [hdash, ne_eq, not_true_eq_false, if_false, if_true] at hfiles ⊢
    exact ⟨_, rfl, hfiles⟩
  · simp only [hdash, ne_eq, not_false_eq_true, if_true, if_false] at hfiles ⊢
    refine ⟨_, rfl, ?_⟩
    change Function.update (((openedWorld host opt files).keepOutput _ out').files) _ none = _
    rw [hfiles, Function.update_idem]

/-- **How a decompression that gets as far as a payload ends**: it restored the data the
payload carries, or it was refused. -/
theorem handleDecompress_cases (host : Host) (opt : CliOptions) (files : FileSystem)
    (header : Header) (input : IStream) (h : Extracts host opt files header input) (ok : Bool)
    (w : World) (hrun : handleDecompress host opt (World.start host files) = .ok (ok, w)) :
    (ok = true ∧ ∃ data, Carries host header (payloadStream host opt input) data ∧
      ((host.device (decompressDest opt)).write data).good = true) ∨
    (ok = false ∧ Refuses host header (payloadStream host opt input)
      (host.device (decompressDest opt))) := by
  obtain ⟨hvalid, hgood⟩ := h.valid
  obtain ⟨c, hc, -⟩ := exists_compressor host.target header.algorithmId hvalid.2
  rw [handleDecompress_of_extracts host opt files header input h] at hrun
  simp only [restorePayload, hc] at hrun
  cases hdec : c.decompress (payloadStream host opt input) (host.device (decompressDest opt))
      header.originalSize with
  | error fault =>
    rw [hdec] at hrun
    cases hrun
  | ok result =>
    obtain ⟨r, out'⟩ := result
    rw [hdec] at hrun
    cases r with
    | none =>
      right
      refine ⟨?_, c, out', hc, hdec⟩
      simp only at hrun
      split at hrun
      · cases hrun
        rfl
      · cases hrun
        rfl
    | some v =>
      left
      obtain ⟨data, hrestores, -, -⟩ := restores_of_value host.target header.algorithmId c hc _ _ _
        hgood (host.good_device _) v out' hdec
      have hvalue := hrestores _ (host.good_device (decompressDest opt))
      rw [hdec, Except.ok.injEq, Prod.mk.injEq] at hvalue
      cases hrun
      exact ⟨rfl, data, ⟨c, hc, hrestores⟩, (Option.ite_none_right_eq_some.mp hvalue.1.symm).1⟩

/-- **What a successful decompression did**: it found a payload that carries some data, and wrote
them to a destination that stayed good. -/
theorem exists_extracts_of_true (host : Host) (opt : CliOptions) (files : FileSystem) (w : World)
    (hrun : handleDecompress host opt (World.start host files) = .ok (true, w)) :
    ∃ header input data, Extracts host opt files header input ∧
      Carries host header (payloadStream host opt input) data ∧
      ((host.device (decompressDest opt)).write data).good = true ∧
      w.files = if decompressDest opt = dash then files
        else Function.update files (decompressDest opt)
          (some ((host.device (decompressDest opt)).write data).accepted) := by
  by_cases hextracts : ∃ header input, Extracts host opt files header input
  · obtain ⟨header, input, hextracts⟩ := hextracts
    rcases handleDecompress_cases host opt files header input hextracts true w hrun with
      ⟨-, data, hcarries, hgood⟩ | ⟨hok, -⟩
    · rw [handleDecompress_of_carries host opt files header input hextracts data hcarries
        hgood] at hrun
      cases hrun
      exact ⟨header, input, data, hextracts, hcarries, hgood,
        files_keepOutput host opt files ((host.device (decompressDest opt)).write data)⟩
    · cases hok
  · obtain ⟨hok, -⟩ := handleDecompress_of_not_extracts host opt files hextracts true w hrun
    cases hok

/-- A payload carries at most one byte string. -/
theorem Carries.unique {host : Host} {header : Header} {input : IStream} {data data' : Bytes}
    (h : Carries host header input data) (h' : Carries host header input data') :
    data = data' := by
  obtain ⟨c, hc, hrestores⟩ := h
  obtain ⟨c', hc', hrestores'⟩ := h'
  have hcodec : c = c' := Option.some.inj (hc.symm.trans hc')
  subst hcodec
  have hboth := (hrestores OStream.memory rfl).symm.trans (hrestores' OStream.memory rfl)
  rw [Except.ok.injEq, Prod.mk.injEq] at hboth
  have haccepted := congrArg OStream.accepted hboth.2
  rw [OStream.write_memory_accepted, OStream.write_memory_accepted] at haccepted
  exact haccepted

/-! ## A host to run the commands on -/

/-- A host without colour on which every path can be opened, and all devices are alike. -/
def plainHost (stdin : Bytes) (room : Option ℕ) (report : Report) : Host where
  target := Target.scan
  console := { noColor := none, clicolorForce := none, term := none, stdoutIsTty := false }
  numbers :=
    { fixed := fun _ => text "0.00"
      general := fun _ => text "0"
      toString := fun _ => text "0.000000" }
  elapsed := 0
  stdin := stdin
  access := fun _ => .resolved true true
  room := fun _ => room
  report := fun _ => report
  residue := fun rest => rest

/-- Without a bound on the room every device takes everything. -/
theorem plainHost_takes (stdin name : Bytes) (report : Report) (n : ℕ) :
    (plainHost stdin none report).Takes name n := by
  intro room hroom
  cases hroom

/-- No file at all. -/
def noFiles : FileSystem := fun _ => none

/-- One byte on standard input for the run-length codec, and what is made of it. -/
theorem produces_oneByte (room : Option ℕ) (report : Report) (opt : CliOptions)
    (htarget : opt.positionalTarget = dash) (halgo : opt.algorithm = some (text "rle")) :
    Produces (plainHost [7] room report) opt noFiles [7]
      { selectedAlgo := 0x01
        algoName := text "RLE"
        serializedData := archive Target.scan 0x01 [7] } := by
  refine ⟨?_, ?_, ?_⟩
  · rw [htarget]
    decide
  · rw [htarget]
    rfl
  · rw [selectArchive, halgo]
    rfl

end Lacuna.Model
