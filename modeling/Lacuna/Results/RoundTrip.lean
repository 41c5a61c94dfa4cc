import Lacuna.Analysis.Archive

/-!
# Round trips

Every byte string comes back from its archive, whichever of the two codecs made it; and the
heap of the standard library has no part in it: any two make the same trees, hence the same
codes and the same archives, and read each other's.
-/

set_option autoImplicit false

namespace Lacuna.Results

open Model Library

/-- **The archive round trip.** `run_trial` succeeds on every byte string a `size_t` can
measure, its output starts with a header of the id and the length, and the decompressor with
that id restores the data from what follows. The two runs may be on different targets. -/
theorem archive_roundTrip (T T' : Target) (elapsed : Float) (data : Bytes) (algorithmId : UInt8)
    (ha : IsCodec algorithmId) (hlen : data.length < 2 ^ T'.sizeBits) :
    (runTrial T elapsed data algorithmId).success = true ∧
    ∃ header input decompressor out,
      readHeader (IStream.ofBytes (runTrial T elapsed data algorithmId).serializedData) =
        (some header, input) ∧
      header.algorithmId = algorithmId ∧ header.originalSize.toNat = data.length ∧
      selectCompressor T' header.algorithmId = some decompressor ∧
      decompressor.decompress input OStream.memory header.originalSize =
        .ok (some header.originalSize, out) ∧
      out.accepted = data := by
  obtain ⟨hsuccess, hdata⟩ := runTrial_eq T elapsed data algorithmId ha
  refine ⟨hsuccess, ?_⟩
  have hread := readHeader_file (archiveHeader algorithmId data)
    (archivePayload T algorithmId data) (archiveHeader_valid algorithmId data ha)
  obtain ⟨c, hc, hrestores⟩ := restores_archivePayload T T' algorithmId ha data hlen
    (behindHeader (archiveHeader algorithmId data) (archivePayload T algorithmId data)) rfl rfl
  have hdec := hrestores OStream.memory rfl
  rw [OStream.write_memory_good, if_pos rfl] at hdec
  rw [hdata, archive]
  exact ⟨_, _, c, OStream.memory.write data, hread, rfl,
    UInt64.toNat_ofNat_of_lt' (T'.lt_two_pow_64 hlen), hc, hdec,
    OStream.write_memory_accepted data⟩

/-- A run of equal bytes through the run-length codec. -/
theorem archive_roundTrip_runs :
    (runTrial Target.scan 0 [7, 7, 7] 0x01).success = true ∧
    ∃ header input decompressor out,
      readHeader (IStream.ofBytes (runTrial Target.scan 0 [7, 7, 7] 0x01).serializedData) =
        (some header, input) ∧
      header.algorithmId = 0x01 ∧ header.originalSize.toNat = [7, 7, 7].length ∧
      selectCompressor Target.scan header.algorithmId = some decompressor ∧
      decompressor.decompress input OStream.memory header.originalSize =
        .ok (some header.originalSize, out) ∧
      out.accepted = [7, 7, 7] :=
  archive_roundTrip Target.scan Target.scan 0 [7, 7, 7] 0x01 (by decide) (by decide)

/-! ## Independence of the heap -/

/-- **The tree does not depend on the heap implementation.** Any two conforming heaps build
the same tree for every table, also where frequencies wrap around, hence the same codes;
`compress` does the same on every input and `decompress` too, for a `size_t` of one width; and
an archive made with one heap is read with the other. -/
theorem heap_independence (T T' : Target) :
    (∀ frequencies, buildTree T frequencies = buildTree T' frequencies ∧
      codeTable (buildTree T frequencies) = codeTable (buildTree T' frequencies)) ∧
    (∀ input out, HuffmanCompressor.compress T input out =
      HuffmanCompressor.compress T' input out) ∧
    (T.sizeBits = T'.sizeBits → ∀ input out expectedSize,
      HuffmanCompressor.decompress T input out expectedSize =
        HuffmanCompressor.decompress T' input out expectedSize) ∧
    (∀ elapsed data, data.length < 2 ^ T'.sizeBits → ∃ header input out,
      readHeader (IStream.ofBytes (runTrial T elapsed data 0x02).serializedData) =
        (some header, input) ∧
      HuffmanCompressor.decompress T' input OStream.memory header.originalSize =
        .ok (some header.originalSize, out) ∧
      out.accepted = data) := by
  have htree : buildTree T = buildTree T' := funext fun freq => buildTree_unique T T' freq
  refine ⟨?_, ?_, ?_, ?_⟩
  · intro frequencies
    rw [htree]
    exact ⟨rfl, rfl⟩
  · intro input out
    simp only [HuffmanCompressor.compress, htree]
  · intro hbits input out expectedSize
    simp only [HuffmanCompressor.decompress, htree, hbits]
  · intro elapsed data hlen
    have ha : IsCodec 0x02 := Or.inr rfl
    have hread := readHeader_file (archiveHeader 0x02 data) (archivePayload T 0x02 data)
      (archiveHeader_valid 0x02 data ha)
    obtain ⟨c, hc, hrestores⟩ := restores_archivePayload T T' 0x02 ha data hlen
      (behindHeader (archiveHeader 0x02 data) (archivePayload T 0x02 data)) rfl rfl
    have hcodec : c = HuffmanCompressor T' := (Option.some.inj hc).symm
    subst hcodec
    have hdec := hrestores OStream.memory rfl
    rw [OStream.write_memory_good, if_pos rfl] at hdec
    rw [(runTrial_eq T elapsed data 0x02 ha).2, archive]
    exact ⟨_, _, OStream.memory.write data, hread, hdec, OStream.write_memory_accepted data⟩

/-- The same target with a heap that is filled from the other end. -/
def scanReversed : Target := { Target.scan with heap := Target.scan.heap.reversed }

/-- Three symbols of equal frequency, where the order of the heap could show. -/
theorem heap_independence_reversed :
    buildTree Target.scan (fun b => if b < 3 then 1 else 0) =
        buildTree scanReversed (fun b => if b < 3 then 1 else 0) ∧
    HuffmanCompressor.decompress Target.scan (IStream.ofBytes [1, 2, 3]) OStream.memory 3 =
      HuffmanCompressor.decompress scanReversed (IStream.ofBytes [1, 2, 3]) OStream.memory 3 ∧
    ∃ header input out,
      readHeader (IStream.ofBytes (runTrial Target.scan 0 [0, 1, 2] 0x02).serializedData) =
        (some header, input) ∧
      HuffmanCompressor.decompress scanReversed input OStream.memory header.originalSize =
        .ok (some header.originalSize, out) ∧
      out.accepted = [0, 1, 2] :=
  ⟨((heap_independence Target.scan scanReversed).1 _).1,
    (heap_independence Target.scan scanReversed).2.2.1 rfl _ _ _,
    (heap_independence Target.scan scanReversed).2.2.2 0 [0, 1, 2] (by decide)⟩

end Lacuna.Results
