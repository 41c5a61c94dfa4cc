import Lacuna.Analysis.Archive

/-!
# Compressing from the middle of a stream

A compressor is handed a stream that may stand anywhere. The run-length codec reads from there.
The Huffman codec reads the stream twice, and for the second pass it goes back to the beginning
of the contents: what lies before the position is not counted, but where it is made of the
symbols counted it is encoded (`decompress_payloadAt`). So its payload stands for the bytes from
the position to the end only if those come first (`encodes_rest_iff`).
-/

set_option autoImplicit false

namespace Lacuna.Results

open Model Library

/-- If `compress` returns true, decompressing its payload gives back the bytes from the position
of the stream to its end. -/
def EncodesRest (c d : Compressor) (input : IStream) : Prop :=
  ∀ out, c.compress input OStream.memory = (true, out) →
    ∃ v out', d.decompress (IStream.ofBytes out.accepted) OStream.memory
        (UInt64.ofNat input.rest.length) = .ok (some v, out') ∧
      out'.accepted = input.rest

/-! ## The run-length codec -/

/-- **The run-length codec encodes the rest** of any stream. -/
theorem rle_encodesRest (input : IStream) (hend : input.eofbit = true → input.rest = [])
    (hlen : input.rest.length < 2 ^ 64) : EncodesRest RleCompressor RleCompressor input := by
  intro out hcompress
  have hcompress : RleCompressor.compress input OStream.memory = (true, out) := hcompress
  have hfail : input.failbit = false := by
    by_contra hfail
    rw [RleCompressor.compress_failed input _ (by simpa using hfail)] at hcompress
    cases hcompress
  rw [RleCompressor.compress_unread input _ hfail rfl, input.unread_eq_rest hfail hend,
    Prod.mk.injEq] at hcompress
  refine ⟨UInt64.ofNat input.rest.length, OStream.memory.write input.rest, ?_,
    OStream.write_memory_accepted _⟩
  rw [← hcompress.2, OStream.write_memory_accepted]
  exact RleCompressor.decompress_memory input.rest _ (UInt64.toNat_ofNat_of_lt' hlen)

/-! ## The Huffman codec -/

/-- What is encoded of the bytes before the position: those that occur behind it. -/
def encodedBefore (before rest : Bytes) : Bytes := before.filter (· ∈ rest)

/-- The second pass from the beginning of the stream: bytes that were not counted have no code. -/
theorem flatMap_codes_eq (before rest : Bytes) (hlen : rest.length < 2 ^ 64) (t : CodeTree UInt8)
    (hperm : t.leaves.Perm (symbols (HuffmanCompressor.frequenciesOf rest))) :
    (before ++ rest).flatMap
        (codeTable (HuffmanNode.ofTree (HuffmanCompressor.frequenciesOf rest) t)) =
      t.encode (encodedBefore before rest ++ rest) := by
  have hnd : t.leaves.Nodup := hperm.nodup_iff.mpr (nodup_symbols _)
  have hleaves : ∀ b, b ∈ t.leaves ↔ b ∈ rest := by
    intro b
    rw [hperm.mem_iff]
    exact HuffmanCompressor.mem_symbols_frequenciesOf rest hlen b
  have hbefore : before.flatMap
      (codeTable (HuffmanNode.ofTree (HuffmanCompressor.frequenciesOf rest) t)) =
        t.encode (encodedBefore before rest) := by
    rw [codeTable_ofTree _ t hnd]
    induction before with
    | nil => rfl
    | cons b before ih =>
      rw [List.flatMap_cons, ih]
      by_cases hb : b ∈ rest
      · simp [encodedBefore, hb, hleaves]
      · simp [encodedBefore, hb, hleaves]
  have hrest : rest.flatMap
      (codeTable (HuffmanNode.ofTree (HuffmanCompressor.frequenciesOf rest) t)) =
        t.encode rest := by
    apply (flatMap_codeTable _ t hperm rest _).2
    intro b hb
    rw [← mem_symbols, HuffmanCompressor.mem_symbols_frequenciesOf rest hlen]
    exact hb
  rw [List.flatMap_append, hbefore, hrest, CodeTree.encode, CodeTree.encode, CodeTree.encode,
    List.flatMap_append]

/-- What is encoded before the position of the only symbol continues it. -/
theorem take_encodedBefore_of_single (before rest : Bytes) (value : UInt8)
    (h : rest = List.replicate rest.length value) :
    (encodedBefore before rest ++ rest).take rest.length = rest := by
  have hall : ∀ b ∈ encodedBefore before rest ++ rest, b = value := by
    intro b hb
    have hmem : b ∈ rest := by
      rcases List.mem_append.mp hb with hb | hb
      · exact of_decide_eq_true (List.mem_filter.mp hb).2
      · exact hb
    rw [h] at hmem
    exact List.eq_of_mem_replicate hmem
  rw [List.eq_replicate_of_mem hall, List.take_replicate]
  conv_rhs => rw [h]
  congr 1
  rw [List.length_append]
  omega

/-- **What a Huffman payload made at a position stands for**: as many bytes as there are behind
the position, from the beginning of what was encoded. -/
theorem decompress_payloadAt (T T' : Target) (before rest : Bytes)
    (hfits : rest.length < 2 ^ T'.sizeBits) :
    HuffmanCompressor.decompress T'
        (IStream.ofBytes (HuffmanCompressor.payloadAt T before rest)) OStream.memory
        (UInt64.ofNat rest.length) =
      .ok (some (UInt64.ofNat rest.length),
        OStream.memory.write ((encodedBefore before rest ++ rest).take rest.length)) := by
  have hlen := T'.lt_two_pow_64 hfits
  by_cases hone : (symbols (HuffmanCompressor.frequenciesOf rest)).length ≤ 1
  · -- nothing is encoded, and the payload is the one made at the beginning
    have hpayload : HuffmanCompressor.payloadAt T before rest =
        HuffmanCompressor.payload T rest := by
      rw [HuffmanCompressor.payloadAt, HuffmanCompressor.payload, if_pos hone, if_pos hone]
    have htake : (encodedBefore before rest ++ rest).take rest.length = rest := by
      by_cases hne : rest = []
      · subst hne
        rfl
      · have hpos := HuffmanCompressor.length_symbols_pos rest hne hlen
        obtain ⟨value, hvalue⟩ := List.length_eq_one_iff.mp (Nat.le_antisymm hone hpos)
        exact take_encodedBefore_of_single before rest value
          (HuffmanCompressor.replicate_of_symbols_singleton rest hlen value hvalue).symm
    rw [hpayload, htake]
    exact HuffmanCompressor.decompress_memory T T' rest hlen hfits
  · rcases buildTree_spec T' (HuffmanCompressor.frequenciesOf rest) with ⟨hnil, -⟩ | ⟨t, ht, hrun⟩
    · rw [hnil] at hone
      exact absurd (Nat.zero_le 1) hone
    have hperm := leaves_perm_symbols _ t hrun
    have hcodes := flatMap_codes_eq before rest hlen t hperm
    obtain ⟨pad, -, hunpack⟩ := unpackBits_packBits (t.encode (encodedBefore before rest ++ rest))
    have htake : ((encodedBefore before rest ++ rest).take rest.length).length = rest.length := by
      rw [List.length_take, List.length_append]
      omega
    -- the first symbols of what was encoded are leaves, and their codes come first
    have hleaves : ∀ b ∈ (encodedBefore before rest ++ rest).take rest.length, b ∈ t.leaves := by
      intro b hb
      rw [hperm.mem_iff, HuffmanCompressor.mem_symbols_frequenciesOf rest hlen]
      rcases List.mem_append.mp (List.mem_of_mem_take hb) with hb | hb
      · exact of_decide_eq_true (List.mem_filter.mp hb).2
      · exact hb
    have hbits : t.encode ((encodedBefore before rest ++ rest).take rest.length) <+:
        unpackBits (packBits (t.encode (encodedBefore before rest ++ rest))) := by
      rw [hunpack]
      exact ((List.take_prefix rest.length _).flatMap t.code).trans (List.prefix_append _ _)
    have hpayload : HuffmanCompressor.payloadAt T before rest =
        HuffmanCompressor.tableBytes (HuffmanCompressor.frequenciesOf rest) ++
          packBits (t.encode (encodedBefore before rest ++ rest)) := by
      rw [HuffmanCompressor.payloadAt, if_neg hone, buildTree_unique T T', ht, hcodes]
    have hdec := HuffmanCompressor.decompress_text T' rest _ _
      (IStream.ofBytes (HuffmanCompressor.payloadAt T before rest)) OStream.memory rfl rfl hlen
      hpayload hone t ht htake hleaves hbits
    rw [OStream.write_memory_good, if_pos rfl] at hdec
    exact hdec

/-- `compress` into memory, from a stream that has not failed. -/
theorem huffman_compress_memory (T : Target) (input : IStream) (hfail : input.failbit = false)
    (hend : input.eofbit = true → input.rest = []) :
    HuffmanCompressor.compress T input OStream.memory =
      (true, OStream.memory.write (HuffmanCompressor.payloadAt T input.before input.rest)) := by
  rw [HuffmanCompressor.compress_unread T input _ hfail rfl, input.unread_eq_rest hfail hend,
    OStream.write_memory_good]

/-- **When the two passes read the same bytes.** The run-length codec encodes the bytes from the
position of the stream to its end. The Huffman codec does so if and only if these are the first
of what its second pass encodes: the bytes before the position that occur behind it, and then
the bytes behind it. (A stream that has failed before is refused.) -/
theorem encodes_rest_iff (T T' : Target) (input : IStream)
    (hend : input.eofbit = true → input.rest = [])
    (hfits : input.rest.length < 2 ^ T'.sizeBits) :
    EncodesRest RleCompressor RleCompressor input ∧
      (EncodesRest (HuffmanCompressor T) (HuffmanCompressor T') input ↔
        input.failbit = true ∨
          input.rest <+: encodedBefore input.before input.rest ++ input.rest) := by
  have hlen := T'.lt_two_pow_64 hfits
  have hdec := decompress_payloadAt T T' input.before input.rest hfits
  refine ⟨rle_encodesRest input hend hlen, ?_⟩
  cases hfail : input.failbit with
  | true =>
    refine iff_of_true ?_ (Or.inl rfl)
    intro out hout
    have hout : HuffmanCompressor.compress T input OStream.memory = (true, out) := hout
    rw [HuffmanCompressor.compress_failed T input _ hfail] at hout
    cases hout
  | false =>
    have hcompress := huffman_compress_memory T input hfail hend
    rw [List.prefix_iff_eq_take]
    constructor
    · intro hencodes
      right
      obtain ⟨v, out', hrestored, haccepted⟩ := hencodes _ hcompress
      rw [OStream.write_memory_accepted] at hrestored
      have hboth := hdec.symm.trans hrestored
      rw [Except.ok.injEq, Prod.mk.injEq] at hboth
      rw [← hboth.2, OStream.write_memory_accepted] at haccepted
      exact haccepted.symm
    · intro hcondition out hout
      have hpre := hcondition.resolve_left Bool.false_ne_true
      have hout : HuffmanCompressor.compress T input OStream.memory = (true, out) := hout
      rw [hcompress, Prod.mk.injEq] at hout
      refine ⟨UInt64.ofNat input.rest.length, OStream.memory.write input.rest, ?_,
        OStream.write_memory_accepted _⟩
      rw [← hout.2, OStream.write_memory_accepted]
      rw [← hpre] at hdec
      exact hdec

/-- A byte that does not occur behind the position leaves no trace. -/
theorem encodes_rest_iff_other :
    EncodesRest RleCompressor RleCompressor
        { before := [9], rest := [7, 8], eofbit := false, failbit := false } ∧
      (EncodesRest (HuffmanCompressor Target.scan) (HuffmanCompressor Target.scan)
          { before := [9], rest := [7, 8], eofbit := false, failbit := false } ↔
        false = true ∨ [7, 8] <+: encodedBefore [9] [7, 8] ++ [7, 8]) :=
  encodes_rest_iff Target.scan Target.scan
    { before := [9], rest := [7, 8], eofbit := false, failbit := false } (by simp) (by decide)

/-- The stream over `bab` that stands behind the first byte. -/
def behindFirst : IStream :=
  { before := [98], rest := [97, 98], eofbit := false, failbit := false }

set_option maxRecDepth 10000 in
/-- The Huffman payload made there stands for `ba`, and not for `ab`. -/
theorem not_encodes_rest_behindFirst :
    ¬ (EncodesRest RleCompressor RleCompressor behindFirst ∧
      EncodesRest (HuffmanCompressor Target.scan) (HuffmanCompressor Target.scan)
        behindFirst) := by
  have hcompress : HuffmanCompressor.compress Target.scan behindFirst OStream.memory =
      (true, OStream.memory.write
        [2, 0, 97, 1, 0, 0, 0, 0, 0, 0, 0, 98, 1, 0, 0, 0, 0, 0, 0, 0, 160]) := by
    decide +kernel
  have hdecompress : (HuffmanCompressor Target.scan).decompress
      (IStream.ofBytes [2, 0, 97, 1, 0, 0, 0, 0, 0, 0, 0, 98, 1, 0, 0, 0, 0, 0, 0, 0, 160])
      OStream.memory (UInt64.ofNat behindFirst.rest.length) =
        .ok (some 2, OStream.memory.write [98, 97]) := by
    decide +kernel
  rintro ⟨-, h⟩
  obtain ⟨v, out, hdec, hout⟩ := h _ hcompress
  rw [OStream.write_memory_accepted, hdecompress, Except.ok.injEq, Prod.mk.injEq] at hdec
  rw [← hdec.2, OStream.write_memory_accepted] at hout
  exact absurd hout (by decide)

end Lacuna.Results
