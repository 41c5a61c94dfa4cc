import Lacuna.Analysis.Archive

/-!
# The size field

A decompressor is told how many bytes to expect, and the payload of either codec settles which
number that can be: with any other the payload is rejected. In the run-length codec the counts
add up to it, in the Huffman codec the frequencies do, and the empty file has a branch of its
own in both.
-/

set_option autoImplicit false

namespace Lacuna.Results

open Model Library

/-- Decompressing the payload that was compressed from `data` ends, and a value is returned for
the size of `data` and for no other. -/
def Authenticates (c d : Compressor) (data : Bytes) (expectedSize : UInt64) : Prop :=
  ∃ r out,
    d.decompress (IStream.ofBytes (c.compress (IStream.ofBytes data) OStream.memory).2.accepted)
      OStream.memory expectedSize = .ok (r, out) ∧
    (r.isSome = true ↔ expectedSize.toNat = data.length)

/-- An expected size is the length of the data, or a different number of 64 bits. -/
theorem toNat_eq_length_iff (data : Bytes) (expectedSize : UInt64) (hlen : data.length < 2 ^ 64) :
    expectedSize.toNat = data.length ↔ UInt64.ofNat data.length = expectedSize := by
  rw [← UInt64.toNat_inj, UInt64.toNat_ofNat_of_lt' hlen]
  exact eq_comm

/-! ## Run-length payloads -/

/-- **A run-length payload fixes the size**: the counts of a payload that is accepted are those
the encoder wrote. -/
theorem rle_authenticates (data : Bytes) (expectedSize : UInt64) (hlen : data.length < 2 ^ 64) :
    Authenticates RleCompressor RleCompressor data expectedSize := by
  obtain ⟨r, written, heq, -, hsound⟩ := RleCompressor.decompress_sound
    (IStream.ofBytes (RleCompressor.payload data)) OStream.memory expectedSize rfl rfl
  have hpayload : ((RleCompressor.compress (IStream.ofBytes data)
      OStream.memory).2.accepted) = RleCompressor.payload data := by
    rw [RleCompressor.compress_memory, OStream.write_memory_accepted]
  refine ⟨r, OStream.memory.write written, ?_, ?_⟩
  · show RleCompressor.decompress (IStream.ofBytes (RleCompressor.compress (IStream.ofBytes data)
      OStream.memory).2.accepted) OStream.memory expectedSize = _
    rw [hpayload]
    exact heq
  constructor
  · intro hsome
    obtain ⟨v, hv⟩ := Option.isSome_iff_exists.mp hsome
    obtain ⟨-, runs, hvalid, -, htotal, hrest, -⟩ := hsound v hv
    have hruns : cappedRuns 255 data = runs :=
      RleCompressor.runs_eq_of_pairBytes_eq (RleCompressor.validRuns_cappedRuns data) hvalid hrest
    -- the total of these runs is the length of the data, which does not wrap
    have hsum : runsTotal runs = data.length := by rw [← hruns, runsTotal_cappedRuns]
    have hfits : (0 : UInt64).toNat + runsTotal runs ≤ (UInt64.ofNat data.length).toNat := by
      rw [UInt64.toNat_ofNat_of_lt' hlen, hsum]
      simp
    have hexact := (RleCompressor.admitted_of_fits _ 0 runs hvalid hfits).2
    rw [htotal, hsum] at hexact
    simpa using hexact
  · intro hsize
    rw [RleCompressor.decompress_memory data expectedSize hsize, Except.ok.injEq,
      Prod.mk.injEq] at heq
    rw [← heq.1]
    rfl

/-! ## Huffman payloads -/

/-- The payload of the empty file is rejected where anything is expected. -/
theorem huffman_decompress_nil (T T' : Target) (expectedSize : UInt64) (hsize : expectedSize ≠ 0) :
    HuffmanCompressor.decompress T' (IStream.ofBytes (HuffmanCompressor.payload T []))
      OStream.memory expectedSize = .ok (none, OStream.memory) := by
  have hrest : (IStream.ofBytes (HuffmanCompressor.payload T [])).rest =
      HuffmanCompressor.countBytes 0 := HuffmanCompressor.payload_nil T
  have hlen : (HuffmanCompressor.countBytes 0).length = 2 := rfl
  rcases HuffmanCompressor.decompress_cases T' (IStream.ofBytes (HuffmanCompressor.payload T []))
    expectedSize rfl hsize with hdec | ⟨value, ⟨more, hmore⟩, -⟩ |
      ⟨entries, t, more, input', htree, -⟩
  · exact hdec OStream.memory rfl
  · -- a table of one entry is longer
    rw [hrest] at hmore
    rw [hmore] at hlen
    simp [HuffmanCompressor.countBytes] at hlen
  · -- and so is a table of several
    have hsplit := htree.split
    have htwo := htree.two_le
    rw [hrest] at hsplit
    rw [hsplit, List.length_append, List.length_append,
      HuffmanCompressor.length_entriesBytes] at hlen
    simp only [HuffmanCompressor.countBytes, List.length_cons, List.length_nil] at hlen
    omega

/-- A payload of data that are not empty is rejected where nothing is expected. -/
theorem huffman_decompress_zero (T T' : Target) (data : Bytes) (hne : data ≠ [])
    (hlen : data.length < 2 ^ 64) :
    HuffmanCompressor.decompress T' (IStream.ofBytes (HuffmanCompressor.payload T data))
      OStream.memory 0 = .ok (none, OStream.memory) := by
  rw [HuffmanCompressor.decompress_zero T' _ _ rfl rfl, if_neg]
  intro hrest
  have hpos := HuffmanCompressor.length_symbols_pos data hne hlen
  have hlength := congrArg List.length hrest
  rw [IStream.rest_ofBytes, HuffmanCompressor.payload, HuffmanCompressor.tableBytes,
    List.length_append, List.length_append, HuffmanCompressor.length_entriesBytes,
    HuffmanCompressor.length_tableEntries] at hlength
  simp only [HuffmanCompressor.countBytes, List.length_cons, List.length_nil] at hlength
  omega

/-- A payload of data that are not empty is rejected where another positive size is expected:
the frequencies do not add up to it. -/
theorem huffman_decompress_wrongSize (T T' : Target) (data : Bytes) (expectedSize : UInt64)
    (hne : data ≠ []) (hlen : data.length < 2 ^ 64) (hsize : expectedSize ≠ 0)
    (hwrong : UInt64.ofNat data.length ≠ expectedSize) :
    HuffmanCompressor.decompress T' (IStream.ofBytes (HuffmanCompressor.payload T data))
      OStream.memory expectedSize = .ok (none, OStream.memory) := by
  have h := (HuffmanCompressor.decompress_anySize T' data _
    (IStream.ofBytes (HuffmanCompressor.payload T data)) OStream.memory expectedSize rfl rfl hne
    hlen hsize rfl).1
  rw [if_pos hwrong] at h
  exact h

/-- **A Huffman payload fixes the size.** -/
theorem huffman_authenticates (T T' : Target) (data : Bytes) (expectedSize : UInt64)
    (hlen : data.length < 2 ^ T'.sizeBits) :
    Authenticates (HuffmanCompressor T) (HuffmanCompressor T') data expectedSize := by
  have hlen64 := T'.lt_two_pow_64 hlen
  have hpayload : (((HuffmanCompressor T).compress (IStream.ofBytes data)
      OStream.memory).2.accepted) = HuffmanCompressor.payload T data := by
    show (HuffmanCompressor.compress T _ _).2.accepted = _
    rw [HuffmanCompressor.compress_memory, OStream.write_memory_accepted]
  rw [Authenticates, hpayload]
  by_cases hsize : UInt64.ofNat data.length = expectedSize
  · refine ⟨some expectedSize, OStream.memory.write data, ?_, ?_⟩
    · rw [← hsize]
      exact HuffmanCompressor.decompress_memory T T' data hlen64 hlen
    · exact iff_of_true rfl ((toNat_eq_length_iff data expectedSize hlen64).mpr hsize)
  · have hno : ¬ expectedSize.toNat = data.length := fun h =>
      hsize ((toNat_eq_length_iff data expectedSize hlen64).mp h)
    refine ⟨none, OStream.memory, ?_, iff_of_false Bool.false_ne_true hno⟩
    by_cases hne : data = []
    · subst hne
      apply huffman_decompress_nil T T' expectedSize
      exact fun h0 => hsize h0.symm
    · by_cases hzero : expectedSize = 0
      · rw [hzero]
        exact huffman_decompress_zero T T' data hne hlen64
      · exact huffman_decompress_wrongSize T T' data expectedSize hne hlen64 hzero hsize

/-! ## Both codecs -/

/-- **The size field is authenticated by the payload.** For data a `size_t` can measure, the
payload of either codec is accepted with the length of the data as the expected size, and
rejected with every other number of 64 bits. -/
theorem size_authenticated (T T' : Target) (data : Bytes) (expectedSize : UInt64)
    (hlen : data.length < 2 ^ T'.sizeBits) :
    Authenticates RleCompressor RleCompressor data expectedSize ∧
      Authenticates (HuffmanCompressor T) (HuffmanCompressor T') data expectedSize :=
  ⟨rle_authenticates data expectedSize (T'.lt_two_pow_64 hlen),
    huffman_authenticates T T' data expectedSize hlen⟩

/-- Three bytes, of which four are expected. -/
theorem size_authenticated_four :
    Authenticates RleCompressor RleCompressor [7, 7, 9] 4 ∧
      Authenticates (HuffmanCompressor Target.scan) (HuffmanCompressor Target.scan) [7, 7, 9] 4 :=
  size_authenticated Target.scan Target.scan [7, 7, 9] 4 (by decide)

end Lacuna.Results
