import Mathlib.Algebra.BigOperators.Group.Finset.Basic
import Lacuna.Library.GreedyRuns
import Lacuna.Model.Benchmark
import Lacuna.Results.WriteFailures

/-!
# Automatic selection

How long an archive is can be told from the data: in the run-length codec by the lengths of its
maximal runs (`length_rleArchive`), in the Huffman codec by how often each byte value occurs and
how long its codeword is (`length_huffmanArchive`). The compressing command without an explicit
algorithm takes the smaller of the two, on a tie the run-length archive, and so does the
benchmark, with a rule of its own (`auto_selection`).
-/

set_option autoImplicit false

namespace Lacuna.Results

open Model Library

/-- The name under which the codec with a given id is reported. -/
def algorithmName (algorithmId : UInt8) : Bytes :=
  if algorithmId = 0x01 then text "RLE" else text "Huffman"

/-! ## The lengths of the archives -/

/-- **The length of a run-length archive**: the header, and two bytes for each pair. -/
theorem length_rleArchive (T : Target) (data : Bytes) :
    (archive T 0x01 data).length =
      14 + 2 * ((data.splitBy (· == ·)).map fun run => run.length ⌈/⌉ 255).sum := by
  have hruns := length_cappedRuns 255 (by decide) data
  rw [archive, List.length_append, length_headerBytes, archivePayload, if_pos rfl,
    RleCompressor.payload, RleCompressor.length_pairBytes, hruns]

/-- The symbols of some data are its distinct bytes. -/
theorem length_symbols_eq (data : Bytes) (hlen : data.length < 2 ^ 64) :
    (symbols (HuffmanCompressor.frequenciesOf data)).length = data.toFinset.card := by
  have hset : (symbols (HuffmanCompressor.frequenciesOf data)).toFinset = data.toFinset := by
    ext b
    rw [List.mem_toFinset, List.mem_toFinset]
    exact HuffmanCompressor.mem_symbols_frequenciesOf data hlen b
  rw [← hset, List.toFinset_card_of_nodup (nodup_symbols _)]

/-- The codewords of some data take as many bits as their lengths, by how often they occur. -/
theorem length_payloadBits (T : Target) (data : Bytes) :
    (HuffmanCompressor.payloadBits T data).length =
      data.toFinset.sum fun b => data.count b *
        (codeTable (buildTree T (HuffmanCompressor.frequenciesOf data)) b).length := by
  rw [HuffmanCompressor.payloadBits, List.length_flatMap, Finset.sum_list_map_count]
  rfl

/-- **The length of a Huffman archive**: the header, the unique count, nine bytes for each
distinct byte value, and where there are two or more the packed codewords. -/
theorem length_huffmanArchive (T : Target) (data : Bytes) (hlen : data.length < 2 ^ 64) :
    (archive T 0x02 data).length =
      16 + 9 * data.toFinset.card +
        if 2 ≤ data.toFinset.card then
          (data.toFinset.sum fun b => data.count b *
            (codeTable (buildTree T (HuffmanCompressor.frequenciesOf data)) b).length) ⌈/⌉ 8
        else 0 := by
  have hsymbols := length_symbols_eq data hlen
  have htable : (HuffmanCompressor.tableBytes (HuffmanCompressor.frequenciesOf data)).length =
      2 + 9 * data.toFinset.card := by
    rw [HuffmanCompressor.tableBytes, List.length_append,
      HuffmanCompressor.length_entriesBytes, HuffmanCompressor.length_tableEntries, hsymbols]
    rfl
  have hid : ¬ (0x02 : UInt8) = 0x01 := by decide
  rw [archive, List.length_append, length_headerBytes, archivePayload, if_neg hid,
    HuffmanCompressor.payload, List.length_append, htable, hsymbols]
  by_cases htwo : 2 ≤ data.toFinset.card
  · rw [if_pos htwo, if_neg (by omega), length_packBits, length_payloadBits,
      Nat.ceilDiv_eq_add_pred_div]
    omega
  · rw [if_neg htwo, if_pos (by omega), List.length_nil]
    omega

/-! ## The selection -/

/-- The id of the codec with the smaller archive, on a tie the run-length codec. -/
def smallerId (T : Target) (data : Bytes) : UInt8 :=
  if (archive T 0x02 data).length < (archive T 0x01 data).length then 0x02 else 0x01

/-- What is selected where no algorithm is named. -/
def smallerSelection (T : Target) (data : Bytes) : Selection :=
  { selectedAlgo := smallerId T data
    algoName := algorithmName (smallerId T data)
    serializedData := archive T (smallerId T data) data }

/-- The branch of `handle_compress` for automatic selection takes the smaller archive. -/
theorem selectAutomatically_eq (host : Host) (inputPath data : Bytes) :
    selectAutomatically host inputPath data = .ok (smallerSelection host.target data) := by
  unfold selectAutomatically
  rw [runTrial_archive host.target host.elapsed data 0x01 (Or.inl rfl),
    runTrial_archive host.target host.elapsed data 0x02 (Or.inr rfl)]
  by_cases hsmaller :
      (archive host.target 0x02 data).length < (archive host.target 0x01 data).length
  · simp [smallerSelection, smallerId, hsmaller, algorithmName]
  · simp [smallerSelection, smallerId, hsmaller, algorithmName]

/-- **The benchmark takes the smaller archive too.** -/
theorem benchmarkFile_winner (T : Target) (file : BenchmarkFile) (data : Bytes)
    (h : file.contents = some data) :
    ∃ r, benchmarkFile T file = some r ∧ r.fileName = file.fileName ∧
      r.recommendedAlgo = algorithmName (smallerId T data) := by
  unfold benchmarkFile
  simp only [h, runTrial_archive T _ data 0x01 (Or.inl rfl),
    runTrial_archive T _ data 0x02 (Or.inr rfl)]
  refine ⟨_, rfl, rfl, ?_⟩
  by_cases hsmaller : (archive T 0x02 data).length < (archive T 0x01 data).length
  · simp [smallerId, hsmaller, algorithmName]
  · simp [smallerId, hsmaller, algorithmName]

/-- The sixth byte of an archive is the id of its codec. -/
theorem getElem?_archive_id (T : Target) (algorithmId : UInt8) (data : Bytes) :
    (archive T algorithmId data)[5]? = some algorithmId := rfl

/-- The selected archive carries the id of its codec. -/
theorem getElem?_smallerSelection (T : Target) (data : Bytes) :
    (smallerSelection T data).serializedData[5]? =
      some (smallerSelection T data).selectedAlgo := by
  simp only [smallerSelection]
  exact getElem?_archive_id T (smallerId T data) data

/-- The name that is reported. -/
theorem algoName_smallerSelection (T : Target) (data : Bytes) :
    (smallerSelection T data).algoName = algorithmName (smallerId T data) := by
  simp only [smallerSelection]

/-- The length of the selected archive. -/
theorem length_smallerSelection (T : Target) (data : Bytes) :
    (smallerSelection T data).serializedData.length =
      min (archive T 0x01 data).length (archive T 0x02 data).length := by
  by_cases hsmaller : (archive T 0x02 data).length < (archive T 0x01 data).length
  · simp only [smallerSelection, smallerId, if_pos hsmaller]
    omega
  · simp only [smallerSelection, smallerId, if_neg hsmaller]
    omega

/-- A run of `handle_compress` without an explicit algorithm, on a target that holds `data`. -/
structure AutoRun (host : Host) (opt : CliOptions) (files : FileSystem) (data : Bytes) : Prop where
  algorithm : opt.algorithm = none ∨ opt.algorithm = some (text "auto")
  target_ne : opt.positionalTarget ≠ []
  read : readTarget host (World.start host files) opt.positionalTarget = .ok data

/-- Such a run emits the smaller archive. -/
theorem handleCompress_of_autoRun (host : Host) (opt : CliOptions) (files : FileSystem)
    (data : Bytes) (h : AutoRun host opt files data) :
    handleCompress host opt (World.start host files) =
      .ok (emitArchive host opt (World.start host files) data
        (smallerSelection host.target data)) := by
  apply handleCompress_of_produces
  refine ⟨h.target_ne, h.read, ?_⟩
  unfold selectArchive
  rw [selectAutomatically_eq]
  rcases h.algorithm with halgo | halgo
  · rw [halgo]
  · rw [halgo]
    exact if_pos rfl

/-- **What becomes of the smaller archive.** -/
theorem emits_of_autoRun (host : Host) (opt : CliOptions) (files : FileSystem) (data : Bytes)
    (h : AutoRun host opt files data) : ∃ ok w,
    handleCompress host opt (World.start host files) = .ok (ok, w) ∧
      (ok, w) = emitArchive host opt (World.start host files) data
        (smallerSelection host.target data) ∧
      Emits host opt files data (smallerSelection host.target data) ok w :=
  ⟨_, _, handleCompress_of_autoRun host opt files data h, rfl,
    emits_emitArchive host opt files data (smallerSelection host.target data)⟩

/-- What automatic selection promises for some data: both trials succeed, with archives of these
lengths; there is an archive, as long as the shorter one and the run-length archive on a tie,
that carries its id in its sixth byte; every run without an explicit algorithm brings it to its
destination and reports its name; and the benchmark records that name as the winner. -/
structure SelectsSmaller (host : Host) (data : Bytes) (rle huff : TrialResult)
    (chosen : Selection) : Prop where
  rle_success : rle.success = true
  huff_success : huff.success = true
  rle_length : rle.serializedData.length =
    14 + 2 * ((data.splitBy (· == ·)).map fun run => run.length ⌈/⌉ 255).sum
  huff_length : huff.serializedData.length =
    16 + 9 * data.toFinset.card +
      if 2 ≤ data.toFinset.card then
        (data.toFinset.sum fun b => data.count b *
          (codeTable (buildTree host.target (HuffmanCompressor.frequenciesOf data)) b).length) ⌈/⌉ 8
      else 0
  minimal : chosen.serializedData.length =
    min rle.serializedData.length huff.serializedData.length
  tie : chosen.selectedAlgo = 0x01 ↔ rle.serializedData.length ≤ huff.serializedData.length
  id_byte : chosen.serializedData[5]? = some chosen.selectedAlgo
  name : chosen.algoName = algorithmName chosen.selectedAlgo
  emitted : ∀ opt files, AutoRun host opt files data → ∃ ok w,
    handleCompress host opt (World.start host files) = .ok (ok, w) ∧
      (ok, w) = emitArchive host opt (World.start host files) data chosen ∧
      Emits host opt files data chosen ok w
  winner : ∀ files file, file ∈ files → file.contents = some data →
    ∃ r ∈ benchmarkResults host.target files, benchmarkFile host.target file = some r ∧
      r.fileName = file.fileName ∧ r.recommendedAlgo = chosen.algoName

/-- **Automatic selection is minimal and agrees with the benchmark.** -/
theorem auto_selection (host : Host) (elapsed elapsed' : Float) (data : Bytes)
    (hlen : data.length < 2 ^ 64) :
    ∃ chosen, SelectsSmaller host data (runTrial host.target elapsed data 0x01)
      (runTrial host.target elapsed' data 0x02) chosen := by
  rw [runTrial_archive host.target elapsed data 0x01 (Or.inl rfl),
    runTrial_archive host.target elapsed' data 0x02 (Or.inr rfl)]
  refine ⟨smallerSelection host.target data, ?_⟩
  constructor
  · rfl
  · rfl
  · exact length_rleArchive host.target data
  · exact length_huffmanArchive host.target data hlen
  · exact length_smallerSelection host.target data
  · by_cases hsmaller :
      (archive host.target 0x02 data).length < (archive host.target 0x01 data).length
    · simp only [smallerSelection, smallerId, if_pos hsmaller]
      exact iff_of_false (by decide) (by omega)
    · simp only [smallerSelection, smallerId, if_neg hsmaller]
      exact iff_of_true trivial (by omega)
  · exact getElem?_smallerSelection host.target data
  · rw [algoName_smallerSelection]
    simp only [smallerSelection]
  · intro opt files hrun
    exact emits_of_autoRun host opt files data hrun
  · intro files file hmem hcontents
    obtain ⟨r, hr, hname, hwinner⟩ := benchmarkFile_winner host.target file data hcontents
    rw [algoName_smallerSelection]
    exact ⟨r, List.mem_filterMap.mpr ⟨file, hmem, hr⟩, hr, hname, hwinner⟩

/-- A run of three equal bytes. -/
theorem auto_selection_run :
    ∃ chosen, SelectsSmaller (plainHost [] none .atWrite) [7, 7, 7]
      (runTrial Target.scan 0 [7, 7, 7] 0x01) (runTrial Target.scan 0 [7, 7, 7] 0x02) chosen :=
  auto_selection (plainHost [] none .atWrite) 0 0 [7, 7, 7] (by decide)

end Lacuna.Results
