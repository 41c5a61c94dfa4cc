import Lacuna.Analysis.Commands

/-!
# Default names

Without a destination of its own a compression writes next to its target, under the target's
name followed by `.lac`, and a decompression of that name writes to the name before the suffix,
whatever the name is. So the two commands one after the other restore the file
(`default_names_restore`), whatever has been done to it in between; and no third file is
touched.
-/

set_option autoImplicit false

namespace Lacuna.Results

open Model

/-- The suffix of an archive's name. -/
def lac : Bytes := text ".lac"

/-- A compression of `p` and a decompression of `p` followed by `.lac`, both without a
destination of their own. -/
structure DefaultNames (opt opt' : CliOptions) (p : Bytes) : Prop where
  compressTarget : opt.positionalTarget = p
  compressOutput : opt.outputPath = none
  decompressTarget : opt'.positionalTarget = p ++ lac
  decompressOutput : opt'.outputPath = none

/-- What restoring a file leaves: the file holds its data, next to it is an archive of them, made
on the target `T`, whose header records their number, and every other path is as it was. -/
structure Restored (T : Target) (files files' : FileSystem) (p data : Bytes) : Prop where
  data_back : files' p = some data
  archive_kept : ∃ algorithmId, IsCodec algorithmId ∧
    files' (p ++ lac) = some (archive T algorithmId data) ∧
    ∃ header input, readHeader (IStream.ofBytes (archive T algorithmId data)) =
        (some header, input) ∧ header.originalSize.toNat = data.length
  others : ∀ q, q ≠ p → q ≠ p ++ lac → files' q = files q

/-! ## The names -/

/-- No name with a suffix is `-`. -/
theorem append_lac_ne_dash (p : Bytes) : p ++ lac ≠ dash := by
  intro h
  have hlength := congrArg List.length h
  rw [List.length_append] at hlength
  have hlac : lac.length = 4 := by decide
  have hdash : dash.length = 1 := by decide
  omega

/-- No name is the same with the suffix. -/
theorem append_lac_ne (p : Bytes) : p ++ lac ≠ p := by
  intro h
  have hnil : lac = [] := List.append_right_eq_self.mp h
  exact absurd hnil (by decide)

/-- Where a compression without a destination writes. -/
theorem compressDest_default (opt : CliOptions) (p : Bytes) (htarget : opt.positionalTarget = p)
    (houtput : opt.outputPath = none) (hp : p ≠ dash) : compressDest opt = p ++ lac := by
  rw [compressDest, houtput, htarget, if_neg hp]
  rfl

/-- **Where a decompression without a destination writes**: the suffix is taken off again, be it
the only one or not. -/
theorem decompressDest_default (opt : CliOptions) (p : Bytes)
    (htarget : opt.positionalTarget = p ++ lac) (houtput : opt.outputPath = none) :
    decompressDest opt = p := by
  have hsuffix : (text ".lac").isSuffixOf (p ++ lac) = true :=
    List.isSuffixOf_iff_suffix.mpr (List.suffix_append p lac)
  have hlength : (p ++ lac).length - 4 = p.length := by
    rw [List.length_append]
    exact Nat.add_sub_cancel p.length 4
  unfold decompressDest
  rw [houtput]
  simp only [htarget, if_neg (append_lac_ne_dash p), hsuffix, if_true, hlength, List.take_left]

/-! ## The compression -/

/-- A successful compression without a destination leaves, next to its target, what the device
there accepted of an archive of the target's data. -/
theorem files_compress_default (host : Host) (opt : CliOptions) (files : FileSystem)
    (p data : Bytes) (htarget : opt.positionalTarget = p) (houtput : opt.outputPath = none)
    (hp : p ≠ dash) (hdata : files p = some data) (w : World)
    (hrun : handleCompress host opt (World.start host files) = .ok (true, w)) :
    ∃ algorithmId, IsCodec algorithmId ∧
      w.files = Function.update files (p ++ lac)
        (some ((host.device (p ++ lac)).write
          (archive host.target algorithmId data)).accepted) := by
  have hdest := compressDest_default opt p htarget houtput hp
  obtain ⟨fileData, chosen, hproduces, hopen⟩ := exists_produces_of_true host opt files w hrun
  have hfile : compressDest opt ≠ dash := hdest ▸ append_lac_ne_dash p
  have hread := hproduces.read
  rw [htarget] at hread
  have hfileData : fileData = data := readTarget_file host files p data fileData hp hdata hread
  obtain ⟨ha, harchive⟩ := selectArchive_archive host opt _ _ _ hproduces.select
  obtain ⟨w', hemit, hfiles, -⟩ :=
    emitArchive_file host opt files fileData chosen hfile (hopen.resolve_left hfile)
  rw [handleCompress_of_produces host opt files fileData chosen hproduces, hemit,
    Except.ok.injEq, Prod.mk.injEq] at hrun
  rw [hdest, harchive, hfileData] at hfiles
  exact ⟨chosen.selectedAlgo, ha, hrun.2 ▸ hfiles⟩

/-! ## The decompression -/

/-- A successful decompression of an archive next to its data: a header has been read, the
payload behind it carries some data, and they have been written over the file. -/
theorem files_decompress_default (host : Host) (opt : CliOptions) (files : FileSystem)
    (p file : Bytes) (htarget : opt.positionalTarget = p ++ lac) (houtput : opt.outputPath = none)
    (hp : p ≠ dash) (hfile : files (p ++ lac) = some file) (w : World)
    (hrun : handleDecompress host opt (World.start host files) = .ok (true, w)) :
    ∃ header input data, readHeader (IStream.ofBytes file) = (some header, input) ∧
      Carries host header input data ∧ ((host.device p).write data).good = true ∧
      w.files = Function.update files p (some ((host.device p).write data).accepted) := by
  have hdest := decompressDest_default opt p htarget houtput
  obtain ⟨header, input, data, hextracts, hcarries, hgood, hfiles⟩ :=
    exists_extracts_of_true host opt files w hrun
  obtain ⟨archive, hopen, hread⟩ := hextracts.opened
  rw [htarget] at hopen
  have harchive : archive = IStream.ofBytes file :=
    openArchive_file host files (p ++ lac) file archive (append_lac_ne_dash p) hfile hopen
  -- the archive is not the file that is written to
  have hstream : payloadStream host opt input = input := by
    apply if_neg
    rintro ⟨-, hsame⟩
    rw [hdest, htarget] at hsame
    exact append_lac_ne p hsame.symm
  rw [hstream] at hcarries
  rw [hdest] at hgood
  rw [hdest, if_neg hp] at hfiles
  exact ⟨header, input, data, harchive ▸ hread, hcarries, hgood, hfiles⟩

/-! ## One after the other -/

/-- **What a device kept of an archive**: if it can be decompressed, it is the whole archive, and
what is restored are its data. -/
theorem accepted_of_carries (host host' : Host) (name data : Bytes) (algorithmId : UInt8)
    (ha : IsCodec algorithmId) (hlen : data.length < 2 ^ host'.target.sizeBits) (header : Header)
    (input : IStream) (restored : Bytes) (out : OStream) (hout : out.good = true)
    (hread : readHeader (IStream.ofBytes ((host.device name).write
      (archive host.target algorithmId data)).accepted) = (some header, input))
    (hcarries : Carries host' header input restored)
    (hgood : (out.write restored).good = true) :
    ((host.device name).write (archive host.target algorithmId data)).accepted =
      archive host.target algorithmId data ∧ restored = data := by
  have hfile := readHeader_file (archiveHeader algorithmId data)
    (archivePayload host.target algorithmId data) (archiveHeader_valid algorithmId data ha)
  obtain ⟨missing, hcut⟩ :=
    host.accepted_append_missing name (archive host.target algorithmId data)
  obtain ⟨c, hc, hrestores⟩ := hcarries
  by_cases hmissing : missing = []
  · rw [hmissing, List.append_nil] at hcut
    rw [← hcut, archive, hfile, Prod.mk.injEq, Option.some.injEq] at hread
    obtain ⟨rfl, rfl⟩ := hread
    have hwhole := restores_archivePayload host.target host'.target algorithmId ha data hlen
      (behindHeader (archiveHeader algorithmId data)
        (archivePayload host.target algorithmId data)) rfl rfl
    have hcarries : Carries host' (archiveHeader algorithmId data) _ restored :=
      ⟨c, hc, hrestores⟩
    exact ⟨hcut.symm, hcarries.unique hwhole⟩
  · -- a cut archive is rejected, on every device
    exfalso
    rcases rejected_of_cut host.target host'.target data algorithmId ha
      (host'.target.lt_two_pow_64 hlen) out hout _ missing hcut hmissing with
      hnone | ⟨header', input', c', out', hread', hc', hdec⟩
    · rw [hread] at hnone
      cases hnone
    · rw [hread, Prod.mk.injEq, Option.some.injEq] at hread'
      obtain ⟨rfl, rfl⟩ := hread'
      obtain rfl : c = c' := Option.some.inj (hc.symm.trans hc')
      rw [hrestores out hout, if_pos hgood] at hdec
      cases hdec

/-- **Default names restore the file.** If a compression of `p` and then a decompression of `p`
followed by `.lac` both return true, `p` holds its data again, the archive is next to it, and
nothing else has changed, whatever was at `p` in between. The device of the second run either has
room for the data or says at the write that it has not. -/
theorem default_names_restore (host host' : Host) (opt opt' : CliOptions) (files : FileSystem)
    (p data : Bytes) (hnames : DefaultNames opt opt' p) (hp : p ≠ dash)
    (hdata : files p = some data) (hlen : data.length < 2 ^ host'.target.sizeBits)
    (hdevice : host'.Takes p data.length ∨ host'.report p = .atWrite) (stored : Option Bytes)
    (w w' : World) (hcompress : handleCompress host opt (World.start host files) = .ok (true, w))
    (hdecompress : handleDecompress host' opt'
      (World.start host' (Function.update w.files p stored)) = .ok (true, w')) :
    Restored host.target files w'.files p data := by
  obtain ⟨algorithmId, ha, hfiles⟩ := files_compress_default host opt files p data
    hnames.compressTarget hnames.compressOutput hp hdata w hcompress
  have hnext := append_lac_ne p
  obtain ⟨header, input, restored, hread, hcarries, hgood, hfiles'⟩ :=
    files_decompress_default host' opt' _ p _ hnames.decompressTarget hnames.decompressOutput hp
      (by rw [Function.update_of_ne hnext, hfiles, Function.update_self]) w' hdecompress
  obtain ⟨hwhole, rfl⟩ := accepted_of_carries host host' (p ++ lac) data algorithmId ha hlen header
    input restored (host'.device p) rfl hread hcarries hgood
  have htakes : host'.Takes p restored.length := by
    rcases hdevice with htakes | hearly
    · exact htakes
    · refine ((host'.good_write_iff p restored).mp hgood).resolve_right ?_
      rw [hearly]
      decide
  rw [Function.update_idem, (host'.write_device_of_takes p restored htakes).1, hfiles,
    hwhole] at hfiles'
  constructor
  · rw [hfiles', Function.update_self]
  · refine ⟨algorithmId, ha, ?_, _, _, readHeader_file (archiveHeader algorithmId restored) _
      (archiveHeader_valid algorithmId restored ha), ?_⟩
    · rw [hfiles', Function.update_of_ne hnext, Function.update_self]
    · exact UInt64.toNat_ofNat_of_lt' (host'.target.lt_two_pow_64 hlen)
  · intro q hq hqlac
    rw [hfiles', Function.update_of_ne hq, Function.update_of_ne hqlac]

/-- One byte in a file that already has the suffix. -/
def suffixedFile : FileSystem := fun path => if path = text "a.lac" then some [7] else none

/-- That file is removed once it has been compressed, and restored. -/
theorem default_names_restore_suffixed :
    ∃ w w', handleCompress (plainHost [] none .atWrite)
        { positionalTarget := text "a.lac", algorithm := some (text "rle") }
        (World.start (plainHost [] none .atWrite) suffixedFile) = .ok (true, w) ∧
      handleDecompress (plainHost [] none .atWrite)
        { positionalTarget := text "a.lac" ++ lac }
        (World.start (plainHost [] none .atWrite)
          (Function.update w.files (text "a.lac") none)) = .ok (true, w') ∧
      Restored Target.scan suffixedFile w'.files (text "a.lac") [7] := by
  refine ⟨_, _, rfl, rfl, ?_⟩
  exact default_names_restore (plainHost [] none .atWrite) (plainHost [] none .atWrite)
    { positionalTarget := text "a.lac", algorithm := some (text "rle") }
    { positionalTarget := text "a.lac" ++ lac } suffixedFile (text "a.lac") [7]
    ⟨rfl, rfl, rfl, rfl⟩ (by decide) rfl (by decide) (Or.inr rfl) none _ _ rfl rfl

end Lacuna.Results
