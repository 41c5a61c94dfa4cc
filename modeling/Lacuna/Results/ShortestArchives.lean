import Lacuna.Results.SizeLaws
import Lacuna.Results.Inspection

/-!
# The compressors write shortest archives

The formats leave room: a run can be split into many pairs, and a table can list symbols twice,
symbols that do not occur, or frequencies that make for a worse tree. No file that the decompressor
takes uses that room to its advantage (`shortest_archive`). So a package that is unpacked and packed
again does not grow, whoever made it (`repacking_shrinks`).
-/

set_option autoImplicit false

namespace Lacuna.Results

open Model Library

/-! ## Huffman payloads -/

/-- The codewords of the compressor take no more bits than those of any tree of a table that was
accepted for the data. -/
theorem length_payloadBits_le_of_spelledBy (T T' : Target) {payload data : Bytes}
    {entries : List (UInt8 × UInt64)} {more : Bytes} {u : CodeTree UInt8} {rest : List Bool}
    (h : SpelledBy T payload data entries more u rest) (hlen : data.length < 2 ^ 64) :
    (HuffmanCompressor.payloadBits T' data).length ≤ 8 * more.length := by
  obtain ⟨hleaves, hbits⟩ := h.encode_eq
  calc (HuffmanCompressor.payloadBits T' data).length
      ≤ (u.encode data).length :=
        length_payloadBits_le T' data hlen u.code (u.prefixFree_code data hleaves)
    _ ≤ (unpackBits more).length := by
        rw [hbits, List.length_append]
        omega
    _ = 8 * more.length := by
        rw [length_unpackBits]
        omega

/-- A payload behind a table of several entries is no shorter than the compressor's. -/
theorem length_archive_le_of_spelledBy (T T' : Target) {payload data : Bytes}
    {entries : List (UInt8 × UInt64)} {more : Bytes} {u : CodeTree UInt8} {rest : List Bool}
    (h : SpelledBy T payload data entries more u rest) (hlen : data.length < 2 ^ 64) :
    (archive T' 0x02 data).length ≤ 14 + payload.length := by
  have hcard : data.toFinset.card ≤ entries.length := by
    have hsub : data.toFinset ⊆ (entries.map Prod.fst).toFinset := by
      intro b hb
      rw [List.mem_toFinset] at hb ⊢
      exact h.mem_entries b hb
    calc data.toFinset.card ≤ (entries.map Prod.fst).toFinset.card := Finset.card_le_card hsub
      _ ≤ (entries.map Prod.fst).length := List.toFinset_card_le _
      _ = entries.length := List.length_map _
  have hpayload := congrArg List.length h.table.2
  rw [List.length_append, List.length_append, HuffmanCompressor.length_entriesBytes] at hpayload
  have hcount : (HuffmanCompressor.countBytes (UInt16.ofNat entries.length)).length = 2 := rfl
  have hbits := length_payloadBits_le_of_spelledBy T T' h hlen
  rw [length_huffmanArchive_eq T' data hlen, Nat.ceilDiv_eq_add_pred_div]
  omega

/-- **No Huffman payload is shorter than the compressor's**, except that nothing needs no table. -/
theorem length_huffmanArchive_le_of_restores (T T' : Target) (input : IStream)
    (expectedSize : UInt64) (hin : input.good = true) (data : Bytes) (hne : data ≠ [])
    (h : Restores (HuffmanCompressor T) input expectedSize data) :
    (archive T' 0x02 data).length ≤ 14 + input.rest.length := by
  have hlength := length_of_restores T input expectedSize hin data h
  have hlen : data.length < 2 ^ 64 := hlength ▸ expectedSize.toNat_lt
  have hsize : expectedSize ≠ 0 := by
    rintro rfl
    exact hne (List.length_eq_zero_iff.mp hlength)
  rcases huffman_form T input expectedSize hin hsize data h with
    ⟨value, more, htable, rfl⟩ | ⟨entries, more, u, rest, hspelled, -⟩
  · have hpayload := congrArg List.length htable.2
    rw [List.length_append, List.length_append, HuffmanCompressor.length_entriesBytes,
      List.length_singleton] at hpayload
    have hcount : (HuffmanCompressor.countBytes (UInt16.ofNat 1)).length = 2 := rfl
    have hcard : (List.replicate expectedSize.toNat value).toFinset.card ≤ 1 := by
      apply Finset.card_le_one.mpr
      intro a ha b hb
      rw [List.mem_toFinset] at ha hb
      rw [List.eq_of_mem_replicate ha, List.eq_of_mem_replicate hb]
    rw [length_huffmanArchive T' _ hlen, if_neg (by omega)]
    omega
  · exact length_archive_le_of_spelledBy T T' hspelled hlen

/-! ## Run-length payloads -/

/-- No run-length payload is shorter than the compressor's. -/
theorem length_rleArchive_le_of_restores (T : Target) (input : IStream) (expectedSize : UInt64)
    (hin : input.good = true) (data : Bytes)
    (h : Restores RleCompressor input expectedSize data) :
    (archive T 0x01 data).length ≤ 14 + input.rest.length := by
  obtain ⟨runs, hvalid, hrest, rfl⟩ := rle_form input expectedSize hin data h
  have hle := length_cappedRuns_le 255 runs hvalid
  rw [length_rleArchive_eq, hrest, RleCompressor.length_pairBytes]
  omega

/-! ## Archives -/

/-- No archive of the data under this id is shorter than the compressor's, on any target, except
that nothing is restored without a table; and a run of the compressing command without an explicit
algorithm emits the smaller archive of the data, which is no longer than this file. -/
structure NoShorter (file : Bytes) (algorithmId : UInt8) (data : Bytes) : Prop where
  codec : ∀ T : Target, (archive T algorithmId data).length ≤ file.length ∨
    algorithmId = 0x02 ∧ data = []
  emitted : ∀ host opt files, AutoRun host opt files data → ∃ ok w,
    handleCompress host opt (World.start host files) = .ok (ok, w) ∧
      (ok, w) = emitArchive host opt (World.start host files) data
        (smallerSelection host.target data) ∧
      Emits host opt files data (smallerSelection host.target data) ok w ∧
      (smallerSelection host.target data).serializedData.length ≤ file.length

/-- The codec that a file was made with makes no longer one. -/
theorem archive_le_of_archiveOf (host : Host) (file : Bytes) (algorithmId : UInt8) (data : Bytes)
    (h : ArchiveOf host file algorithmId data) (T : Target) :
    (archive T algorithmId data).length ≤ file.length ∨
      algorithmId = 0x02 ∧ data = [] := by
  obtain ⟨header, input, hread, rfl, c, hc, hrestores⟩ := h
  obtain ⟨hvalid, hin, hfile⟩ := readHeader_some (IStream.ofBytes file) header input rfl hread
  have hlen := congrArg List.length hfile
  rw [IStream.rest_ofBytes, List.length_append, length_headerBytes] at hlen
  rcases hvalid.2 with hrle | hhuff
  · left
    rw [hrle, selectCompressor, if_pos rfl, Option.some.injEq] at hc
    subst hc
    rw [hrle, hlen]
    exact length_rleArchive_le_of_restores T input header.originalSize hin data hrestores
  · have hid : ¬ (0x02 : UInt8) = 0x01 := by decide
    rw [hhuff, selectCompressor, if_neg hid, if_pos rfl, Option.some.injEq] at hc
    subst hc
    by_cases hne : data = []
    · exact Or.inr ⟨hhuff, hne⟩
    · left
      rw [hhuff, hlen]
      exact length_huffmanArchive_le_of_restores host.target T input header.originalSize hin data
        hne hrestores

/-- The smaller of the two archives is no longer than any file. -/
theorem smallerSelection_le_of_archiveOf (host : Host) (file : Bytes) (algorithmId : UInt8)
    (data : Bytes) (h : ArchiveOf host file algorithmId data) (T : Target) :
    (smallerSelection T data).serializedData.length ≤ file.length := by
  rw [length_smallerSelection]
  rcases archive_le_of_archiveOf host file algorithmId data h T with hle | ⟨-, rfl⟩
  · obtain ⟨header, input, hread, rfl, -⟩ := h
    obtain ⟨hvalid, -⟩ := readHeader_some (IStream.ofBytes file) header input rfl hread
    rcases hvalid.2 with hrle | hhuff
    · rw [hrle] at hle
      omega
    · rw [hhuff] at hle
      omega
  · -- the run-length archive of nothing is a header alone
    obtain ⟨header, input, hread, -⟩ := h
    obtain ⟨-, -, hfile⟩ := readHeader_some (IStream.ofBytes file) header input rfl hread
    have hlen := congrArg List.length hfile
    rw [IStream.rest_ofBytes, List.length_append, length_headerBytes] at hlen
    have hempty : (archive T 0x01 []).length = 14 := rfl
    omega

/-- **The compressors write shortest archives.** Of whatever file the decompressor takes for an
archive of some data: the compressor of its codec makes none that is longer, and automatic selection
emits none that is longer. -/
theorem shortest_archive (host : Host) (file : Bytes) (algorithmId : UInt8) (data : Bytes)
    (h : ArchiveOf host file algorithmId data) : NoShorter file algorithmId data := by
  constructor
  · exact archive_le_of_archiveOf host file algorithmId data h
  · intro host' opt files hauto
    obtain ⟨ok, w, hrun, hemit, hemits⟩ := emits_of_autoRun host' opt files data hauto
    exact ⟨ok, w, hrun, hemit, hemits,
      smallerSelection_le_of_archiveOf host file algorithmId data h host'.target⟩

/-- A package of three bytes, in two pairs. -/
def splitPackage : Bytes := headerBytes (archiveHeader 0x01 [7, 7, 7]) ++ [2, 7, 1, 7]

/-- Its header. -/
theorem readHeader_splitPackage :
    readHeader (IStream.ofBytes splitPackage) =
      (some (archiveHeader 0x01 [7, 7, 7]),
        behindHeader (archiveHeader 0x01 [7, 7, 7]) [2, 7, 1, 7]) :=
  readHeader_file _ _ (archiveHeader_valid 0x01 [7, 7, 7] (Or.inl rfl))

/-- What it carries. -/
theorem carries_splitPackage (host : Host) :
    Carries host (archiveHeader 0x01 [7, 7, 7])
      (behindHeader (archiveHeader 0x01 [7, 7, 7]) [2, 7, 1, 7]) [7, 7, 7] :=
  ⟨RleCompressor, rfl, fun out hout => RleCompressor.decompress_payload _ out 3 [(2, 7), (1, 7)] rfl
    hout rfl (by simp [RleCompressor.ValidRuns]) rfl⟩

/-- No archive of its data is longer. -/
theorem shortest_archive_split : NoShorter splitPackage 0x01 [7, 7, 7] :=
  shortest_archive (plainHost [] none .atWrite) splitPackage 0x01 [7, 7, 7]
    ⟨_, _, readHeader_splitPackage, rfl, carries_splitPackage _⟩

/-! ## Unpacking and packing again -/

section

variable {Dir : Type}

/-- **A package that is unpacked and packed again does not grow.** A run unpacks the file `q`,
whatever it is, into `d` and succeeds. Then, after any session that does not write to `d`, a run on
any machine that packs `d` without an explicit algorithm into `r` and succeeds leaves a file there
that is no longer than `q` was. The devices of `d` and `r` report at the write. -/
theorem repacking_shrinks {files files₁ files₂ files₃ : FileSystem} {es : List (Event Dir)}
    (e e' : Event Dir) (opt opt' : CliOptions) (d r contents : Bytes) (hunpacks : e.UnpacksTo opt d)
    (hstatus : e.status = 0) (hsource : opt.positionalTarget ≠ dash)
    (hother : opt.positionalTarget ≠ d) (hfile : files opt.positionalTarget = some contents)
    (hreport : e.machine.host.report d = .atWrite) (hstep : e.Step files files₁)
    (hsession : Session files₁ es files₂) (hkept : ∀ c ∈ es, c.destination ≠ some d)
    (hpacks : e'.PacksTo opt' r) (hstatus' : e'.status = 0) (htarget : opt'.positionalTarget = d)
    (halgorithm : opt'.algorithm = none ∨ opt'.algorithm = some (text "auto"))
    (hreport' : e'.machine.host.report r = .atWrite) (hstep' : e'.Step files₂ files₃) :
    ∃ packed, files₃ r = some packed ∧ packed.length ≤ contents.length := by
  obtain ⟨header, input, data, hextracts, hcarries, hgood, rfl⟩ := hunpacks.files hstep hstatus
  have hrestored : files₂ d = some data := by
    rw [hsession.frame Event.changesOnly_step d hkept, Function.update_self,
      e.machine.host.accepted_of_good d data hreport hgood]
  have harchive : ArchiveOf e.machine.host contents header.algorithmId data := by
    obtain ⟨opened, hopen, hread⟩ := hextracts.opened
    obtain rfl := openArchive_file e.machine.host files _ contents opened hsource hfile hopen
    have hstream : payloadStream e.machine.host opt input = input :=
      if_neg fun h => hother (h.2.symm.trans hunpacks.dest)
    exact ⟨header, input, hread, rfl, hstream ▸ hcarries⟩
  obtain ⟨fileData, chosen, hproduces, hgood', rfl⟩ := hpacks.files hstep' hstatus'
  have hread : fileData = data := by
    apply readTarget_file e'.machine.host files₂ d data fileData hunpacks.file hrestored
    rw [← htarget]
    exact hproduces.read
  have hsmaller : usedId e'.machine.host.target opt' data =
      smallerId e'.machine.host.target data := by
    rcases halgorithm with halgo | halgo
    · rw [usedId, halgo]
      rfl
    · rw [usedId, halgo]
      rfl
  have hselected := (selectArchive_usedId _ opt' _ data chosen (hread ▸ hproduces.select)).1
  rw [hsmaller] at hselected
  refine ⟨chosen.serializedData, ?_, ?_⟩
  · rw [Function.update_self, e'.machine.host.accepted_of_good r _ hreport' hgood']
  · rw [hselected]
    exact smallerSelection_le_of_archiveOf e.machine.host contents header.algorithmId data harchive
      e'.machine.host.target

/-- The file system with this package. -/
def splitFiles : FileSystem := Function.update noFiles (text "a") (some splitPackage)

/-- The package is unpacked into the file `b`. -/
def unpackSplit : Event Unit where
  machine := plainMachine (plainHost [] none .atWrite)
  args := [text "d", text "a", text "-o", text "b"]
  status := 0

/-- The options of that run. -/
def unpackSplitOptions : CliOptions :=
  { command := text "d", positionalTarget := text "a", outputPath := some (text "b") }

/-- It leaves the three bytes there. -/
theorem step_unpackSplit :
    ∃ files, unpackSplit.Step splitFiles files ∧ files (text "b") = some [7, 7, 7] := by
  have hopen : openArchive (plainHost [] none .atWrite)
      (World.start (plainHost [] none .atWrite) splitFiles) unpackSplitOptions.positionalTarget =
        some (IStream.ofBytes splitPackage) := rfl
  have hextracts : Extracts (plainHost [] none .atWrite) unpackSplitOptions splitFiles
      (archiveHeader 0x01 [7, 7, 7]) (behindHeader (archiveHeader 0x01 [7, 7, 7]) [2, 7, 1, 7]) :=
    ⟨by decide, ⟨_, hopen, readHeader_splitPackage⟩, Or.inr rfl⟩
  have hgood := (Host.good_write_iff (plainHost [] none .atWrite)
    (decompressDest unpackSplitOptions) [7, 7, 7]).mpr (Or.inl (plainHost_takes [] _ .atWrite _))
  have hrun := handleDecompress_of_carries (plainHost [] none .atWrite) unpackSplitOptions
    splitFiles _ _ hextracts [7, 7, 7] (carries_splitPackage _) hgood
  have hoptions := runOptions_of_decompress unpackSplit.machine unpackSplitOptions
    (World.start (plainHost [] none .atWrite) splitFiles) rfl
  refine ⟨_, ⟨_, main_of_parsed unpackSplit.machine unpackSplit.args _ _ unpackSplitOptions true rfl
    (hoptions.trans hrun), rfl⟩, ?_⟩
  have hfiles := files_keepOutput (plainHost [] none .atWrite) unpackSplitOptions splitFiles
    (((plainHost [] none .atWrite).device (decompressDest unpackSplitOptions)).write [7, 7, 7])
  rw [if_neg (by decide), Host.accepted_of_good _ _ _ rfl hgood] at hfiles
  exact (congrFun hfiles (text "b")).trans (Function.update_self _ _ _)

/-- The file `b` is packed into the file `c`. -/
def packAgain : Event Unit where
  machine := plainMachine (plainHost [] none .atWrite)
  args := [text "c", text "b", text "-o", text "c"]
  status := 0

/-- The options of that run. -/
def packAgainOptions : CliOptions :=
  { command := text "c", positionalTarget := text "b", outputPath := some (text "c") }

/-- It makes a step wherever the file `b` holds the three bytes. -/
theorem step_packAgain (files : FileSystem) (hfile : files (text "b") = some [7, 7, 7]) :
    ∃ files', packAgain.Step files files' := by
  have hread : readTarget (plainHost [] none .atWrite)
      (World.start (plainHost [] none .atWrite) files) packAgainOptions.positionalTarget =
        .ok [7, 7, 7] :=
    (readTarget_eq_ok_iff _ _ _ _ (by decide)).mpr ⟨rfl, hfile⟩
  have hrun := handleCompress_of_autoRun (plainHost [] none .atWrite) packAgainOptions files
    [7, 7, 7] ⟨Or.inl rfl, by decide, hread⟩
  obtain ⟨w, hemit, -⟩ := emitArchive_file (plainHost [] none .atWrite) packAgainOptions files
    [7, 7, 7] (smallerSelection Target.scan [7, 7, 7]) (by decide) rfl
  have hgood := (Host.good_write_iff (plainHost [] none .atWrite) (compressDest packAgainOptions)
    (smallerSelection Target.scan [7, 7, 7]).serializedData).mpr
      (Or.inl (plainHost_takes [] _ .atWrite _))
  rw [hgood] at hemit
  have hoptions : runOptions packAgain.machine packAgainOptions
      (World.start (plainHost [] none .atWrite) files) = .ok (true, w) := by
    rw [runOptions_of_compress packAgain.machine packAgainOptions _ rfl]
    exact hrun.trans (congrArg Except.ok hemit)
  exact ⟨w.files, w, main_of_parsed packAgain.machine packAgain.args _ w packAgainOptions true rfl
    hoptions, rfl⟩

/-- The three bytes are packed again. -/
theorem repacking_shrinks_split :
    ∃ files files' packed, unpackSplit.Step splitFiles files ∧ packAgain.Step files files' ∧
      files' (text "c") = some packed ∧ packed.length ≤ splitPackage.length := by
  obtain ⟨files, hunpack, hfile⟩ := step_unpackSplit
  obtain ⟨files', hpack⟩ := step_packAgain files hfile
  obtain ⟨packed, hpacked⟩ := repacking_shrinks unpackSplit packAgain
    unpackSplitOptions packAgainOptions (text "b") (text "c") splitPackage
    ⟨rfl, rfl, rfl, by decide⟩ rfl (by decide) (by decide) (Function.update_self _ _ _) rfl
    hunpack (.nil _) (by simp) ⟨rfl, rfl, rfl, by decide⟩ rfl rfl (Or.inl rfl) rfl hpack
  exact ⟨files, files', packed, hunpack, hpack, hpacked⟩

end

end Lacuna.Results
