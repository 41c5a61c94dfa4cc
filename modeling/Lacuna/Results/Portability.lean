import Lacuna.Analysis.Commands
import Lacuna.Analysis.Suggestions
import Lacuna.Model.Main
import Lacuna.Results.CodeLengths
import Lacuna.Results.FillLoop
import Lacuna.Results.Sessions

/-!
# Builds for other targets

Targets differ in how the heap of the standard library breaks ties, and the comparator leaves none
to break; and in the width of `size_t`. That width is met twice, where a decoder fills its output
with the only symbol of a table and where `find_suggestion` starts its search. So two builds are
the same program, as long as both can hold what they read in a string and no package they open names
a size that is too great for one of them (`main_portable`).
-/

set_option autoImplicit false

namespace Lacuna.Results

open Model Library

variable {Dir : Type}

/-! ## The codec -/

/-- Every target builds the same trees. -/
theorem buildTree_portable (T T' : Target) : buildTree T = buildTree T' :=
  funext fun frequencies => buildTree_unique T T' frequencies

/-- `compress` is the same function on every target. -/
theorem compress_portable (T T' : Target) :
    HuffmanCompressor.compress T = HuffmanCompressor.compress T' := by
  funext input out
  unfold HuffmanCompressor.compress
  rw [buildTree_portable T T']

/-- The filling loop is the same for every width in which the rest fits. -/
theorem fillLoop_portable (w w' : ℕ) (value : UInt8) (bufLen fuel remaining : ℕ) (out : OStream)
    (h : remaining < 2 ^ w) (h' : remaining < 2 ^ w') :
    HuffmanCompressor.fillLoop w value bufLen fuel remaining out =
      HuffmanCompressor.fillLoop w' value bufLen fuel remaining out := by
  induction fuel generalizing remaining out with
  | zero => rfl
  | succ fuel ih =>
    unfold HuffmanCompressor.fillLoop
    rw [Nat.mod_eq_of_lt h, Nat.mod_eq_of_lt h']
    simp only [ih (remaining - min remaining bufLen) _ (by omega) (by omega)]

/-- **`decompress` is portable**, for every input, every stream and every size that fits into
`size_t` on both targets. -/
theorem decompress_portable (T T' : Target) (input : IStream) (out : OStream)
    (expectedSize : UInt64) (h : expectedSize.toNat < 2 ^ T.sizeBits)
    (h' : expectedSize.toNat < 2 ^ T'.sizeBits) :
    HuffmanCompressor.decompress T input out expectedSize =
      HuffmanCompressor.decompress T' input out expectedSize := by
  have hfill : ∀ value : UInt8, HuffmanCompressor.fillSingle T.sizeBits value out expectedSize =
      HuffmanCompressor.fillSingle T'.sizeBits value out expectedSize := by
    intro value
    unfold HuffmanCompressor.fillSingle
    rw [Nat.mod_eq_of_lt h, Nat.mod_eq_of_lt h']
    simp only [fillLoop_portable T.sizeBits T'.sizeBits value _ _ _ out h h']
  unfold HuffmanCompressor.decompress
  rw [buildTree_portable T T']
  simp only [hfill]

/-! ## Suggestions -/

/-- **Suggestions are portable**, for words of any length, if the candidates are short: a word
whose distances could be out of range is too far from all of them. -/
theorem findSuggestion_portable (T T' : Target) (input : Bytes) (candidates : List Bytes)
    (hshort : ∀ c ∈ candidates, c.length < 2 ^ 30) :
    findSuggestion T input candidates = findSuggestion T' input candidates := by
  by_cases hinput : input = []
  · rw [hinput]
    rfl
  by_cases hlen : input.length < 2 ^ 31
  · have hfits : ∀ T : Target, ∀ c ∈ candidates, input.length + c.length < 2 ^ T.sizeBits - 1 := by
      intro T c hc
      have hclen := hshort c hc
      rcases T.sizeBits_eq with hbits | hbits <;> rw [hbits] <;> omega
    rw [findSuggestion_eq T input candidates hinput (hfits T),
      findSuggestion_eq T' input candidates hinput (hfits T')]
  · have hfar : ∀ c ∈ candidates, max 2 (input.length / 2) < editDistance input c := by
      intro c hc
      have hclen := hshort c hc
      have hdist := length_le_editDistance_add input c
      omega
    rw [findSuggestion_far T input candidates hinput hfar,
      findSuggestion_far T' input candidates hinput hfar]

/-! ## The commands -/

/-- The same host with the program built for another target. -/
def Host.retarget (host : Host) (T : Target) : Host := { host with target := T }

/-- `std::string::max_size()` on the target: half the range of `size_t`, up to the final null. -/
def maxSize (T : Target) : ℕ := 2 ^ (T.sizeBits - 1) - 2

/-- On the target a string can hold the data, and each archive of them. -/
structure StringFits (T : Target) (data : Bytes) : Prop where
  data_le : data.length ≤ maxSize T
  archive_le : ∀ algorithmId, IsCodec algorithmId →
    (archive T algorithmId data).length ≤ maxSize T

/-- Every package that can be opened names a size that fits into `size_t` on the target. -/
def NamesFit (T : Target) (host : Host) (w : World) : Prop :=
  ∀ path input header rest, openArchive host w path = some input →
    readHeader input = (some header, rest) → header.originalSize.toNat < 2 ^ T.sizeBits

/-- What a run can read is not too much for the target. -/
structure Fits (T : Target) (host : Host) (w : World) : Prop where
  stdin : StringFits T host.stdin
  files : ∀ path contents, w.files path = some contents → StringFits T contents
  names : NamesFit T host w

/-- A few bytes fit on every target. -/
theorem stringFits_of_short (T : Target) (data : Bytes) (h : data.length ≤ 2 ^ 29) :
    StringFits T data := by
  have hmax : 2 ^ 31 - 2 ≤ maxSize T := by
    rcases T.sizeBits_eq with hbits | hbits
    · rw [maxSize, hbits]
    · rw [maxSize, hbits]
      decide
  refine ⟨by omega, ?_⟩
  rintro algorithmId (rfl | rfl)
  · have hruns := length_cappedRuns_le_length 255 (by decide) data
    rw [length_rleArchive, ← length_cappedRuns 255 (by decide) data]
    omega
  · have hhuff := length_huffmanArchive_le T data (by omega)
    have hcard := card_toFinset_le data (by omega)
    omega

/-- A trial only compresses, so it is the same on every target. -/
theorem runTrial_portable (T T' : Target) : runTrial T = runTrial T' := by
  funext elapsed data algoId
  unfold runTrial selectCompressor HuffmanCompressor
  rw [compress_portable T T']
  split_ifs with hrle hhuffman
  · rfl
  · dsimp only
  · rfl

/-- A payload is restored alike on both targets. -/
theorem restorePayload_portable (host : Host) (T : Target) (opt : CliOptions) (w : World)
    (header : Header) (input : IStream) (out : OStream)
    (h : header.originalSize.toNat < 2 ^ host.target.sizeBits)
    (h' : header.originalSize.toNat < 2 ^ T.sizeBits) :
    restorePayload (Host.retarget host T) opt w header input out =
      restorePayload host opt w header input out := by
  have hdecompress := decompress_portable T host.target input out header.originalSize h' h
  unfold restorePayload selectCompressor HuffmanCompressor
  dsimp only [Host.retarget]
  split_ifs <;> simp only [hdecompress] <;> rfl

section

variable (host : Host) (T : Target)

/-- **A compression on another target.** -/
theorem handleCompress_portable (opt : CliOptions) (w : World) :
    handleCompress (Host.retarget host T) opt w = handleCompress host opt w := by
  have hselect : selectArchive (Host.retarget host T) opt = selectArchive host opt := by
    funext inputPath data
    unfold selectArchive selectAutomatically unknownAlgorithm
    dsimp only [Host.retarget]
    simp only [runTrial_portable T host.target,
      findSuggestion_portable T host.target _ knownAlgos (by decide)]
  unfold handleCompress
  rw [hselect]
  rfl

/-- **A decompression on another target.** -/
theorem handleDecompress_portable (opt : CliOptions) (w : World)
    (h : NamesFit host.target host w) (h' : NamesFit T host w) :
    handleDecompress (Host.retarget host T) opt w = handleDecompress host opt w := by
  have hopen : openArchive (Host.retarget host T) w opt.positionalTarget =
      openArchive host w opt.positionalTarget := rfl
  unfold handleDecompress
  dsimp only
  rw [hopen]
  cases hinput : openArchive host w opt.positionalTarget with
  | none => rfl
  | some input =>
    dsimp only
    cases hheader : readHeader input with
    | mk found rest =>
      cases found with
      | none => rfl
      | some header =>
        have hfits := h _ input header rest hinput hheader
        have hfits' := h' _ input header rest hinput hheader
        dsimp only
        simp only [restorePayload_portable host T opt _ header _ _ hfits hfits']
        rfl

end

/-! ## The program -/

/-- The same machine with the program built for another target. -/
def Machine.retarget {Dir : Type} (machine : Machine Dir) (T : Target) : Machine Dir :=
  { machine with host := Host.retarget machine.host T }

variable {Dir : Type}

/-- **Every build is the same program.** On any two targets, with whatever heap and `size_t`, and
on the same machine, arguments and world: the runs return the same status and leave the same world,
or meet the same fault, if both targets can hold standard input, the files and their archives in a
string, and no package that can be opened names a size beyond `size_t`. -/
theorem main_portable (machine : Machine Dir) (T : Target) (args : List Bytes) (w : World)
    (h : Fits machine.host.target machine.host w) (h' : Fits T machine.host w) :
    main (Machine.retarget machine T) args w = main machine args w := by
  have hbenchmark : (Machine.retarget machine T).benchmark = machine.benchmark := by
    funext dirPath jsonOutput quiet w
    unfold Machine.benchmark runBenchmark benchmarkResults benchmarkFile
    dsimp only [Machine.retarget, Host.retarget]
    rw [runTrial_portable T machine.host.target]
    rfl
  have hunknown : unknownCommand (Machine.retarget machine T).host =
      unknownCommand machine.host := by
    funext command
    unfold unknownCommand
    dsimp only [Machine.retarget, Host.retarget]
    rw [findSuggestion_portable T machine.host.target command knownCommands (by decide)]
  have hdispatch : ∀ opt, dispatch (Machine.retarget machine T) opt w = dispatch machine opt w := by
    intro opt
    have hcompress : handleCompress (Machine.retarget machine T).host opt w = _ :=
      handleCompress_portable machine.host T opt w
    have hdecompress : handleDecompress (Machine.retarget machine T).host opt w = _ :=
      handleDecompress_portable machine.host T opt w h.names h'.names
    unfold dispatch
    dsimp only
    rw [hbenchmark, hunknown, hcompress, hdecompress]
    rfl
  unfold main runOptions
  simp only [hdispatch]
  rfl

/-- A package in a pipe, on a target with 32-bit sizes and a heap that is filled from the other
end. -/
theorem main_portable_package :
    main (Machine.retarget
          (plainMachine (plainHost (archive Target.scan 0x02 [7, 8]) none .atWrite))
          { narrowTarget with heap := Target.scan.heap.reversed })
        [text "decompress", text "-"]
        (World.start (plainHost (archive Target.scan 0x02 [7, 8]) none .atWrite) noFiles) =
      main (plainMachine (plainHost (archive Target.scan 0x02 [7, 8]) none .atWrite))
        [text "decompress", text "-"]
        (World.start (plainHost (archive Target.scan 0x02 [7, 8]) none .atWrite) noFiles) := by
  have hfits : ∀ T : Target, Fits T (plainHost (archive Target.scan 0x02 [7, 8]) none .atWrite)
      (World.start (plainHost (archive Target.scan 0x02 [7, 8]) none .atWrite) noFiles) := by
    intro T
    refine ⟨stringFits_of_short T _ (by decide), fun _ _ hfile => (by cases hfile), ?_⟩
    intro path input header rest hinput hheader
    unfold openArchive at hinput
    split_ifs at hinput with hdash
    · cases hinput
      have hread := readHeader_file (archiveHeader 0x02 [7, 8])
        (archivePayload Target.scan 0x02 [7, 8]) ⟨rfl, Or.inr rfl⟩
      have hboth := hheader.symm.trans hread
      cases hboth
      rcases T.sizeBits_eq with hbits | hbits <;> rw [hbits] <;> decide
    · cases hinput
  exact main_portable _ _ _ _ (hfits _) (hfits _)

end Lacuna.Results
