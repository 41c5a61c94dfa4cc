import Lacuna.Analysis.Archive

/-!
# Hostile input

What the decoders do with bytes that no compressor wrote. Whatever the input, both end with a
return value, so that no loop goes on for ever and no null pointer is followed; they write no
more than the expected number of bytes; and a value they return is that number, with as many
bytes written.
-/

set_option autoImplicit false

namespace Lacuna.Results

open Model Library

/-- What a decoder may do with an input of which `expectedSize` bytes are expected. -/
def SafeDecoding (out : OStream) (expectedSize : UInt64) (result : Except Fault Decompressed) :
    Prop :=
  ∃ r written, result = .ok (r, { out with accepted := out.accepted ++ written }) ∧
    written.length ≤ expectedSize.toNat ∧
    ∀ v, r = some v → v = expectedSize ∧ written.length = expectedSize.toNat

/-- The run-length decoder is safe on inputs too short to make its guard wrap. -/
theorem safeDecoding_rle (payload : Bytes) (expectedSize : UInt64) (out : OStream)
    (hlen : payload.length < 2 ^ 57) (hout : out.good = true) (hroom : out.room = none) :
    SafeDecoding out expectedSize
      (RleCompressor.decompress (IStream.ofBytes payload) out expectedSize) := by
  obtain ⟨r, written, heq, hle, hsome⟩ := RleCompressor.decompress_bounded
    (IStream.ofBytes payload) out expectedSize rfl hout
    (RleCompressor.noWrap_of_length expectedSize payload hlen)
  rw [OStream.write_unlimited out written hroom hout] at heq
  refine ⟨r, written, heq, hle, ?_⟩
  intro v hv
  obtain ⟨hv, runs, -, htotal, -, hwritten⟩ := hsome v hv
  refine ⟨hv, ?_⟩
  rw [hwritten, length_expandRuns, htotal]

/-- The Huffman decoder is safe on every input, for a 64-bit `size_t`. -/
theorem safeDecoding_huffman (T : Target) (hbits : T.sizeBits = 64) (payload : Bytes)
    (expectedSize : UInt64) (out : OStream) (hout : out.good = true) (hroom : out.room = none) :
    SafeDecoding out expectedSize
      (HuffmanCompressor.decompress T (IStream.ofBytes payload) out expectedSize) := by
  have hnothing : ∀ r : Option UInt64, (∀ v, r = some v → v = expectedSize ∧ expectedSize = 0) →
      SafeDecoding out expectedSize (.ok (r, out)) := by
    intro r hr
    refine ⟨r, [], by simp, by simp, ?_⟩
    intro v hv
    obtain ⟨h1, h2⟩ := hr v hv
    exact ⟨h1, by simp [h2]⟩
  by_cases hzero : expectedSize = 0
  · subst hzero
    rw [HuffmanCompressor.decompress_zero T _ out rfl hout]
    apply hnothing
    intro v hv
    split at hv
    · exact ⟨(Option.some.inj hv).symm, rfl⟩
    · cases hv
  · rcases HuffmanCompressor.decompress_cases T (IStream.ofBytes payload) expectedSize rfl
        hzero with heq | ⟨value, -, heq⟩ | ⟨entries, t, more, input', -, hin', -, heq⟩
    · rw [heq out hout]
      exact hnothing none (by simp)
    · -- a single symbol
      have hfits : expectedSize.toNat < 2 ^ T.sizeBits := by
        rw [hbits]
        exact expectedSize.toNat_lt
      rw [heq out hout, HuffmanCompressor.fillSingle_eq _ value out expectedSize hfits hout,
        OStream.write_unlimited out _ hroom hout]
      refine ⟨_, List.replicate expectedSize.toNat value, rfl, by simp, ?_⟩
      intro v hv
      obtain ⟨-, hsome⟩ := Option.ite_none_right_eq_some.mp hv
      exact ⟨(Option.some.inj hsome).symm, by simp⟩
    · -- a tree
      rw [heq out hout]
      cases hdec : t.decode expectedSize.toNat (unpackBits input'.rest) with
      | none =>
        obtain ⟨written, hrun, hle⟩ := HuffmanCompressor.decodeTree_of_decode_none _ t input' out
          expectedSize hin' hout hdec
        rw [hrun, OStream.write_unlimited out written hroom hout]
        exact ⟨none, written, rfl, hle, by simp⟩
      | some p =>
        obtain ⟨d, rest⟩ := p
        have hlen := t.length_of_decode _ _ d rest hdec
        rw [HuffmanCompressor.decodeTree_of_decode _ t input' out expectedSize hin' hout d rest
          hdec, OStream.write_unlimited out d hroom hout]
        refine ⟨_, d, rfl, le_of_eq hlen, ?_⟩
        intro v hv
        obtain ⟨-, hsome⟩ := Option.ite_none_right_eq_some.mp hv
        exact ⟨(Option.some.inj hsome).symm, hlen⟩

/-- **Hostile-input safety of both decoders.** On every input shorter than `2 ^ 57` bytes and
for every expected size, with a 64-bit `size_t` and an output that takes every byte, both
decoders end without a fault, write at most the expected number of bytes, and return a value
only if it is the expected size and exactly that many bytes were written. -/
theorem decompress_safe (T : Target) (hbits : T.sizeBits = 64) (payload : Bytes)
    (hlen : payload.length < 2 ^ 57) (expectedSize : UInt64) (out : OStream)
    (hout : out.good = true) (hroom : out.room = none) :
    SafeDecoding out expectedSize
        (RleCompressor.decompress (IStream.ofBytes payload) out expectedSize) ∧
      SafeDecoding out expectedSize
        (HuffmanCompressor.decompress T (IStream.ofBytes payload) out expectedSize) :=
  ⟨safeDecoding_rle payload expectedSize out hlen hout hroom,
    safeDecoding_huffman T hbits payload expectedSize out hout hroom⟩

/-- A table with a symbol repeated and another of frequency zero, whose frequencies sum up to
the expected size only because they wrap around. -/
def wrappingTable : Bytes :=
  [3, 0, 65, 255, 255, 255, 255, 255, 255, 255, 255, 65, 4, 0, 0, 0, 0, 0, 0, 0, 66, 0, 0, 0, 0, 0,
    0, 0, 0]

/-- The decoders on such a table. -/
theorem decompress_safe_wrappingTable :
    SafeDecoding OStream.memory 3
        (RleCompressor.decompress (IStream.ofBytes wrappingTable) OStream.memory 3) ∧
      SafeDecoding OStream.memory 3
        (HuffmanCompressor.decompress Target.scan (IStream.ofBytes wrappingTable)
          OStream.memory 3) :=
  decompress_safe Target.scan rfl wrappingTable (by decide) 3 OStream.memory rfl rfl

end Lacuna.Results
