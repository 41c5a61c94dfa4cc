import Lacuna.Results.CodeLengths
import Lacuna.Results.TableCorruption

/-!
# The payloads the Huffman decoder takes

What is restored from a payload is a repeated byte, or a text that the bits behind the table
spell (`huffman_form`). So data with two different bytes are at most eight times as long as the
bits they were packed into, while a repeated byte costs 25 bytes however often it is repeated
(`extraction_amplification`). Among the payloads of some data one is canonical, the one the
compressor writes: its entries ascend and count the data, and behind the codewords there are only
zero bits up to the end of a byte (`huffman_canonical_iff`).
-/

set_option autoImplicit false

namespace Lacuna.Results

open Model Library HuffmanCompressor

/-! ## The forms -/

/-- A text behind a table of several entries: its bits begin with the walks that spell `data`, and
`rest` follows them. -/
structure SpelledBy (T : Target) (payload data : Bytes) (entries : List (UInt8 × UInt64))
    (more : Bytes) (t : CodeTree UInt8) (rest : List Bool) : Prop where
  table : TableOf payload entries more
  two_le : 2 ≤ entries.length
  tree_eq : buildTree T (keptFrequencies entries) =
    HuffmanNode.ofTree (keptFrequencies entries) t
  leaves_perm : t.leaves.Perm (symbols (keptFrequencies entries))
  decode : t.decode data.length (unpackBits more) = some (data, rest)

/-- **What a Huffman payload restores**: a repeated byte, or a text behind a table. -/
theorem huffman_form (T : Target) (input : IStream) (expectedSize : UInt64)
    (hin : input.good = true) (hsize : expectedSize ≠ 0) (data : Bytes)
    (h : Restores (HuffmanCompressor T) input expectedSize data) :
    (∃ value more, TableOf input.rest [(value, expectedSize)] more ∧
      data = List.replicate expectedSize.toNat value) ∨
    ∃ entries more t rest, SpelledBy T input.rest data entries more t rest ∧
      data.length = expectedSize.toNat := by
  have hmemory : decompress T input OStream.memory expectedSize =
      .ok (some expectedSize, OStream.memory.write data) := by
    have hrestored := h OStream.memory rfl
    rw [OStream.write_memory_good, if_pos rfl] at hrestored
    exact hrestored
  rcases decompress_cases T input expectedSize hin hsize with
    hdec | ⟨value, ⟨more, hmore⟩, hdec⟩ | ⟨entries, t, more, input', htree, hin', hrest', hdec⟩
  · rw [hdec OStream.memory rfl] at hmemory
    cases hmemory
  · left
    rw [hdec OStream.memory rfl] at hmemory
    obtain ⟨-, hout, -⟩ := fillSingle_transfer _ _ _ _ _ _ hmemory
    have haccepted := congrArg OStream.accepted hout
    rw [OStream.write_memory_accepted, OStream.write_memory_accepted] at haccepted
    refine ⟨value, more, ⟨by simp, ?_⟩, haccepted⟩
    rw [entriesBytes_cons, entriesBytes_nil, List.append_nil]
    exact hmore
  · right
    rw [hdec OStream.memory rfl] at hmemory
    cases hdecode : t.decode expectedSize.toNat (unpackBits input'.rest) with
    | none =>
      obtain ⟨written, hnone, -⟩ := decodeTree_of_decode_none
        (setEntries (fun _ => 0) entries) t input' OStream.memory expectedSize hin' rfl hdecode
      rw [hnone] at hmemory
      cases hmemory
    | some p =>
      obtain ⟨d, rest⟩ := p
      rw [decodeTree_of_decode _ t input' OStream.memory expectedSize hin' rfl d rest hdecode,
        Except.ok.injEq, Prod.mk.injEq] at hmemory
      have haccepted := congrArg OStream.accepted hmemory.2
      rw [OStream.write_memory_accepted, OStream.write_memory_accepted] at haccepted
      subst haccepted
      have hlen := t.length_of_decode _ _ _ _ hdecode
      rw [hrest', ← hlen] at hdecode
      exact ⟨entries, more, t, rest, ⟨⟨htree.le, htree.split⟩, htree.two_le, htree.tree_eq,
        htree.leaves_perm, hdecode⟩, hlen⟩

/-- An expected size of zero restores nothing. -/
theorem huffman_form_zero (T : Target) (input : IStream) (hin : input.good = true) (data : Bytes)
    (h : Restores (HuffmanCompressor T) input 0 data) : data = [] := by
  have hmemory := h OStream.memory rfl
  have hzero := decompress_zero T input OStream.memory hin rfl
  have hboth := hmemory.symm.trans hzero
  rw [Except.ok.injEq, Prod.mk.injEq] at hboth
  have haccepted := congrArg OStream.accepted hboth.2
  rw [OStream.write_memory_accepted] at haccepted
  exact haccepted

/-- As many bytes are restored as are expected. -/
theorem length_of_restores (T : Target) (input : IStream) (expectedSize : UInt64)
    (hin : input.good = true) (data : Bytes)
    (h : Restores (HuffmanCompressor T) input expectedSize data) :
    data.length = expectedSize.toNat := by
  by_cases hsize : expectedSize = 0
  · subst hsize
    rw [huffman_form_zero T input hin data h]
    rfl
  · rcases huffman_form T input expectedSize hin hsize data h with
      ⟨value, more, -, rfl⟩ | ⟨entries, more, t, rest, -, hlen⟩
    · exact List.length_replicate
    · exact hlen

/-- The codes of a tree of a table cover the text, and the bits are those of the text. -/
theorem SpelledBy.encode_eq {T : Target} {payload data : Bytes}
    {entries : List (UInt8 × UInt64)} {more : Bytes} {t : CodeTree UInt8} {rest : List Bool}
    (h : SpelledBy T payload data entries more t rest) :
    (∀ b ∈ data, b ∈ t.leaves) ∧ unpackBits more = t.encode data ++ rest :=
  t.decode_sound (h.leaves_perm.nodup_iff.mpr (nodup_symbols _)) _ _ _ _ h.decode

/-- The bytes of the text have entries in the table. -/
theorem SpelledBy.mem_entries {T : Target} {payload data : Bytes}
    {entries : List (UInt8 × UInt64)} {more : Bytes} {t : CodeTree UInt8} {rest : List Bool}
    (h : SpelledBy T payload data entries more t rest) (b : UInt8) (hb : b ∈ data) :
    b ∈ entries.map Prod.fst := by
  by_contra hno
  have hmem := h.leaves_perm.mem_iff.mp (h.encode_eq.1 b hb)
  rw [mem_symbols, keptFrequencies, setEntries_of_notMem _ entries b hno] at hmem
  exact absurd hmem (UInt64.lt_irrefl 0)

/-! ## How much longer the data can be -/

/-- **A text with two different bytes** is at most eight times as long as what follows the
table. -/
theorem SpelledBy.length_le {T : Target} {payload data : Bytes}
    {entries : List (UInt8 × UInt64)} {more : Bytes} {t : CodeTree UInt8} {rest : List Bool}
    (h : SpelledBy T payload data entries more t rest) (a b : UInt8) (ha : a ∈ data)
    (hb : b ∈ data) (hne : a ≠ b) : data.length + 160 ≤ 8 * payload.length := by
  obtain ⟨hleaves, hbits⟩ := h.encode_eq
  have htwo : 2 ≤ t.leaves.length := by
    by_contra hlt
    obtain ⟨c, hc⟩ := List.length_eq_one_iff.mp
      (show t.leaves.length = 1 by
        have hpos := List.length_pos_of_mem (hleaves a ha)
        omega)
    have hac := hleaves a ha
    have hbc := hleaves b hb
    rw [hc, List.mem_singleton] at hac hbc
    exact hne (hac.trans hbc.symm)
  have hcodes := t.length_le_length_encode data htwo
  have hmore : data.length ≤ more.length * 8 := by
    rw [← length_unpackBits, hbits, List.length_append]
    omega
  have hpayload := congrArg List.length h.table.2
  have hentries := h.two_le
  rw [List.length_append, List.length_append, length_entriesBytes] at hpayload
  have hcount : (countBytes (UInt16.ofNat entries.length)).length = 2 := rfl
  omega

/-- The file is an archive of `data` for the decompressor: it begins with a header, and the
decompressor that the header selects restores `data` from what follows. -/
def ArchiveOf (host : Host) (file : Bytes) (algorithmId : UInt8) (data : Bytes) : Prop :=
  ∃ header input, readHeader (IStream.ofBytes file) = (some header, input) ∧
    header.algorithmId = algorithmId ∧ Carries host header input data

/-- What a run-length payload restores is what its pairs spell. -/
theorem rle_form (input : IStream) (expectedSize : UInt64) (hin : input.good = true)
    (data : Bytes) (h : Restores RleCompressor input expectedSize data) :
    ∃ runs, RleCompressor.ValidRuns runs ∧ input.rest = RleCompressor.pairBytes runs ∧
      data = expandRuns runs := by
  have hmemory := h OStream.memory rfl
  rw [OStream.write_memory_good, if_pos rfl] at hmemory
  obtain ⟨r, written, heq, -, hsome⟩ :=
    RleCompressor.decompress_sound input OStream.memory expectedSize hin rfl
  have hboth := hmemory.symm.trans heq
  rw [Except.ok.injEq, Prod.mk.injEq] at hboth
  obtain ⟨-, runs, hvalid, -, -, hrest, hwritten⟩ := hsome expectedSize hboth.1.symm
  have haccepted := congrArg OStream.accepted hboth.2
  rw [OStream.write_memory_accepted, OStream.write_memory_accepted] at haccepted
  exact ⟨runs, hvalid, hrest, haccepted.trans hwritten⟩

/-- A run-length payload restores at most 255 bytes for each pair. -/
theorem rle_length_le (input : IStream) (expectedSize : UInt64) (hin : input.good = true)
    (data : Bytes) (h : Restores RleCompressor input expectedSize data) :
    2 * data.length ≤ 255 * input.rest.length := by
  obtain ⟨runs, hvalid, hrest, rfl⟩ := rle_form input expectedSize hin data h
  have htotal := runsTotal_le runs 255 fun r hr => (hvalid r hr).2
  rw [hrest, RleCompressor.length_pairBytes, length_expandRuns]
  omega

/-- A Huffman payload restores a repeated byte, or at most eight bytes for each byte behind its
table. -/
theorem huffman_length_le (T : Target) (input : IStream) (expectedSize : UInt64)
    (hin : input.good = true) (data : Bytes)
    (h : Restores (HuffmanCompressor T) input expectedSize data) :
    (∃ b, data = List.replicate data.length b) ∨
      data.length + 160 ≤ 8 * input.rest.length := by
  by_cases hrepeated : ∀ a ∈ data, ∀ b ∈ data, a = b
  · left
    cases data with
    | nil => exact ⟨0, rfl⟩
    | cons b data =>
      exact ⟨b, List.eq_replicate_iff.mpr
        ⟨rfl, fun a ha => hrepeated a ha b List.mem_cons_self⟩⟩
  · right
    push Not at hrepeated
    obtain ⟨a, ha, b, hb, hne⟩ := hrepeated
    have hsize : expectedSize ≠ 0 := by
      rintro rfl
      rw [huffman_form_zero T input hin data h] at ha
      cases ha
    rcases huffman_form T input expectedSize hin hsize data h with
      ⟨value, more, -, rfl⟩ | ⟨entries, more, t, rest, hspelled, -⟩
    · exact absurd ((List.eq_of_mem_replicate ha).trans (List.eq_of_mem_replicate hb).symm) hne
    · exact hspelled.length_le a b ha hb hne

/-- How much longer than an archive its data can be. -/
structure Amplification (host : Host) (file : Bytes) (algorithmId : UInt8) (data : Bytes) :
    Prop where
  rle : algorithmId = 0x01 → 2 * data.length + 255 * 14 ≤ 255 * file.length
  huffman : algorithmId = 0x02 → (∃ b, data = List.replicate data.length b) ∨
    data.length + 8 * 34 ≤ 8 * file.length
  repeated : ∀ b n, 0 < n → n < 2 ^ host.target.sizeBits →
    ∃ small, small.length = 25 ∧ ArchiveOf host small 0x02 (List.replicate n b)

/-- What the compressor writes is an archive of its data. -/
theorem archiveOf_archive (host : Host) (algorithmId : UInt8) (ha : IsCodec algorithmId)
    (data : Bytes) (hlen : data.length < 2 ^ host.target.sizeBits) :
    ArchiveOf host (archive host.target algorithmId data) algorithmId data :=
  ⟨_, _, readHeader_file _ _ (archiveHeader_valid algorithmId data ha), rfl,
    restores_archivePayload host.target host.target algorithmId ha data hlen _ rfl rfl⟩

/-- The archive of a repeated byte has 25 bytes. -/
theorem exists_small_archive (host : Host) (b : UInt8) (n : ℕ) (hpos : 0 < n)
    (hfits : n < 2 ^ host.target.sizeBits) :
    ∃ small, small.length = 25 ∧ ArchiveOf host small 0x02 (List.replicate n b) := by
  have hlen : (List.replicate n b).length < 2 ^ host.target.sizeBits := by
    rw [List.length_replicate]
    exact hfits
  have hcard : (List.replicate n b).toFinset.card = 1 := by
    rw [List.toFinset_replicate_of_ne_zero hpos.ne', Finset.card_singleton]
  refine ⟨archive host.target 0x02 (List.replicate n b), ?_,
    archiveOf_archive host 0x02 (Or.inr rfl) _ hlen⟩
  rw [length_huffmanArchive _ _ (host.target.lt_two_pow_64 hlen), hcard]
  rfl

/-- **How much an archive can amplify.** Data restored by the run-length decoder take at most 255
bytes for each pair; data with two different bytes restored by the Huffman decoder at most eight
for each byte behind the smallest table. A repeated byte has an archive of 25 bytes, however
often it is repeated. -/
theorem extraction_amplification (host : Host) (file : Bytes) (algorithmId : UInt8)
    (data : Bytes) (h : ArchiveOf host file algorithmId data) :
    Amplification host file algorithmId data := by
  obtain ⟨header, input, hread, rfl, c, hc, hrestores⟩ := h
  obtain ⟨-, hin, hfile⟩ := readHeader_some (IStream.ofBytes file) header input rfl hread
  have hlen := congrArg List.length hfile
  rw [IStream.rest_ofBytes, List.length_append, length_headerBytes] at hlen
  constructor
  · intro hrle
    rw [hrle, selectCompressor, if_pos rfl, Option.some.injEq] at hc
    subst hc
    have hle := rle_length_le input header.originalSize hin data hrestores
    omega
  · intro hhuff
    have hid : ¬ (0x02 : UInt8) = 0x01 := by decide
    rw [hhuff, selectCompressor, if_neg hid, if_pos rfl, Option.some.injEq] at hc
    subst hc
    rcases huffman_length_le host.target input header.originalSize hin data hrestores with
      hrepeated | hle
    · exact Or.inl hrepeated
    · right
      omega
  · exact exists_small_archive host

/-- The bounds for the archive of a run. -/
theorem extraction_amplification_run :
    Amplification (plainHost [] none .atWrite) (archive Target.scan 0x01 [7, 7, 7]) 0x01
      [7, 7, 7] := by
  apply extraction_amplification (plainHost [] none .atWrite)
  exact archiveOf_archive (plainHost [] none .atWrite) 0x01 (Or.inl rfl) [7, 7, 7] (by decide)

/-! ## The canonical payload -/

/-- The table lists the bytes of the data in ascending order, each with the number of times it
occurs, and what follows the codewords are zero bits up to the end of a byte. -/
structure CanonicalPayload (T : Target) (payload data : Bytes)
    (entries : List (UInt8 × UInt64)) (more : Bytes) : Prop where
  table : TableOf payload entries more
  ascending : entries.Pairwise fun e next => e.1 < next.1
  counted : ∀ e ∈ entries, 0 < e.2 ∧ e.2.toNat = data.count e.1
  length : more.length = ((payloadBits T data).length + 7) / 8
  zeros : ∀ bit ∈ (unpackBits more).drop (payloadBits T data).length, bit = false

/-- The byte values are listed in ascending order. -/
theorem pairwise_symbols (frequencies : UInt8 → UInt64) :
    (symbols frequencies).Pairwise (· < ·) := by
  apply List.Pairwise.filter
  rw [allBytes, List.pairwise_map]
  refine List.pairwise_lt_range.imp_of_mem ?_
  intro i j hi hj hij
  rw [List.mem_range] at hi hj
  rw [UInt8.lt_iff_toNat_lt, UInt8.toNat_ofNat_of_lt' hi, UInt8.toNat_ofNat_of_lt' hj]
  exact hij

/-- **An ascending table is the one of its frequencies.** -/
theorem tableEntries_keptFrequencies (entries : List (UInt8 × UInt64))
    (hasc : entries.Pairwise fun e next => e.1 < next.1) (hpos : ∀ e ∈ entries, 0 < e.2) :
    tableEntries (keptFrequencies entries) = entries := by
  have hasc' : (entries.map Prod.fst).Pairwise (· < ·) := List.pairwise_map.mpr hasc
  have hnd : (entries.map Prod.fst).Nodup := hasc'.imp UInt8.ne_of_lt
  have hperm : (symbols (keptFrequencies entries)).Perm (entries.map Prod.fst) :=
    perm_symbols_of_nodup entries hnd hpos
  have hsymbols : symbols (keptFrequencies entries) = entries.map Prod.fst := by
    apply hperm.eq_of_pairwise _ (pairwise_symbols _) hasc'
    intro a b _ _ hab hba
    exact absurd hba (UInt8.lt_asymm hab)
  rw [tableEntries, hsymbols, List.map_map]
  conv_rhs => rw [← List.map_id entries]
  apply List.map_congr_left
  intro e he
  exact Prod.ext rfl (setEntries_of_nodup _ entries hnd e he)

/-- Zero bits behind whole codewords are the filling of the last byte. -/
theorem eq_packBits (bits : List Bool) (more : Bytes) (rest : List Bool)
    (hmore : unpackBits more = bits ++ rest) (hlen : more.length = (bits.length + 7) / 8)
    (hzeros : ∀ bit ∈ rest, bit = false) : more = packBits bits := by
  obtain ⟨pad, hpad, hunpack⟩ := unpackBits_packBits bits
  have hrest : rest = List.replicate rest.length false := List.eq_replicate_iff.mpr ⟨rfl, hzeros⟩
  have hlength : rest.length = pad := by
    have hleft := congrArg List.length hmore
    have hright := congrArg List.length hunpack
    rw [length_unpackBits, List.length_append] at hleft
    rw [length_unpackBits, length_packBits, List.length_append, List.length_replicate] at hright
    omega
  rw [hlength] at hrest
  have hsame : unpackBits more = unpackBits (packBits bits) := by rw [hmore, hunpack, hrest]
  have hmine := packBits_unpackBits_append more []
  have hpacked := packBits_unpackBits_append (packBits bits) []
  rw [packBits_nil, List.append_nil, List.append_nil] at hmine hpacked
  rw [← hmine, hsame, hpacked]

/-- The frequencies of a table that counts the data, and lists every byte of them, are theirs. -/
theorem keptFrequencies_eq (data : Bytes) (entries : List (UInt8 × UInt64))
    (hnd : (entries.map Prod.fst).Nodup)
    (hcounted : ∀ e ∈ entries, 0 < e.2 ∧ e.2.toNat = data.count e.1)
    (hlen : data.length < 2 ^ 64) (hcover : ∀ b ∈ data, b ∈ entries.map Prod.fst) :
    keptFrequencies entries = frequenciesOf data := by
  funext b
  have hcount := weightOf_frequenciesOf data hlen b
  rw [weightOf] at hcount
  apply UInt64.toNat_inj.mp
  rw [hcount]
  by_cases hb : b ∈ entries.map Prod.fst
  · obtain ⟨e, he, rfl⟩ := List.mem_map.mp hb
    rw [keptFrequencies, setEntries_of_nodup _ entries hnd e he]
    exact (hcounted e he).2
  · rw [keptFrequencies, setEntries_of_notMem _ entries b hb, UInt64.toNat_zero]
    exact (List.count_eq_zero.mpr fun hmem => hb (hcover b hmem)).symm

/-- Where at most one byte value occurs there are no bits. -/
theorem payloadBits_of_le_one (T : Target) (data : Bytes) (hlen : data.length < 2 ^ 64)
    (hone : (symbols (frequenciesOf data)).length ≤ 1) : payloadBits T data = [] := by
  rcases buildTree_spec T (frequenciesOf data) with ⟨-, hnull⟩ | ⟨t, ht, hrun⟩
  · rw [payloadBits, hnull]
    exact List.flatMap_eq_nil_iff.mpr fun b _ => rfl
  · have hperm := leaves_perm_symbols _ t hrun
    rw [(payloadBits_eq_encode T data hlen t ht hperm).1, CodeTree.encode]
    cases t with
    | leaf b => exact List.flatMap_eq_nil_iff.mpr fun a _ => rfl
    | node left right =>
      have hleft := left.depth_lt_length_leaves
      have hright := right.depth_lt_length_leaves
      have hleaves := hperm.length_eq
      rw [CodeTree.leaves, List.length_append] at hleaves
      omega

/-- The payload is a table and the packed codewords. -/
theorem payload_eq (T : Target) (data : Bytes) (hlen : data.length < 2 ^ 64) :
    payload T data = countBytes (UInt16.ofNat (tableEntries (frequenciesOf data)).length) ++
      (entriesBytes (tableEntries (frequenciesOf data)) ++ packBits (payloadBits T data)) := by
  have hcount : uniqueCount (frequenciesOf data) =
      UInt16.ofNat (tableEntries (frequenciesOf data)).length := by
    rw [length_tableEntries, ← toNat_uniqueCount, UInt16.ofNat_toNat]
  rw [payload, tableBytes, hcount, List.append_assoc]
  by_cases hone : (symbols (frequenciesOf data)).length ≤ 1
  · rw [if_pos hone, payloadBits_of_le_one T data hlen hone, packBits_nil]
  · rw [if_neg hone]

/-- What the compressor writes is canonical. -/
theorem canonicalPayload_payload (T : Target) (data : Bytes) (hlen : data.length < 2 ^ 64) :
    CanonicalPayload T (payload T data) data (tableEntries (frequenciesOf data))
      (packBits (payloadBits T data)) := by
  obtain ⟨pad, hpad, hunpack⟩ := unpackBits_packBits (payloadBits T data)
  refine ⟨⟨?_, payload_eq T data hlen⟩, ?_, ?_, length_packBits _, ?_⟩
  · rw [length_tableEntries]
    exact length_symbols_le _
  · rw [tableEntries, List.pairwise_map]
    exact pairwise_symbols _
  · intro e he
    obtain ⟨b, hb, rfl⟩ := List.mem_map.mp he
    exact ⟨(mem_symbols _ b).mp hb, weightOf_frequenciesOf data hlen b⟩
  · rw [hunpack, List.drop_left]
    exact fun bit hbit => List.eq_of_mem_replicate hbit

/-- A canonical payload is the compressor's if its table covers the data and its bits begin with
the codewords. -/
theorem CanonicalPayload.eq_payload {T : Target} {bytes data : Bytes}
    {entries : List (UInt8 × UInt64)} {more : Bytes}
    (h : CanonicalPayload T bytes data entries more) (hlen : data.length < 2 ^ 64)
    (hcover : ∀ b ∈ data, b ∈ entries.map Prod.fst)
    (hbits : keptFrequencies entries = frequenciesOf data →
      payloadBits T data <+: unpackBits more) : payload T data = bytes := by
  have hnd : (entries.map Prod.fst).Nodup :=
    (List.pairwise_map.mpr h.ascending).imp UInt8.ne_of_lt
  have hkept := keptFrequencies_eq data entries hnd h.counted hlen hcover
  have hentries := tableEntries_keptFrequencies entries h.ascending fun e he =>
    (h.counted e he).1
  obtain ⟨rest, hrest⟩ := hbits hkept
  have hzeros := h.zeros
  rw [← hrest, List.drop_left] at hzeros
  have hpacked := eq_packBits _ more rest hrest.symm h.length hzeros
  rw [payload_eq T data hlen, ← hkept, hentries, ← hpacked, ← h.table.2]

/-- **A canonical payload that restores the data is the compressor's.** -/
theorem payload_of_canonical (T : Target) (input : IStream) (expectedSize : UInt64)
    (hin : input.good = true) (data : Bytes) (hlen : data.length < 2 ^ 64)
    (h : Restores (HuffmanCompressor T) input expectedSize data)
    (entries : List (UInt8 × UInt64)) (more : Bytes)
    (hcanonical : CanonicalPayload T input.rest data entries more) :
    payload T data = input.rest := by
  by_cases hsize : expectedSize = 0
  · -- nothing is restored
    subst hsize
    have hnil := huffman_form_zero T input hin data h
    subst hnil
    exact hcanonical.eq_payload hlen (List.forall_mem_nil _) fun _ => List.nil_prefix
  rcases huffman_form T input expectedSize hin hsize data h with
    ⟨value, more', htable, rfl⟩ | ⟨entries', more', t, rest, hspelled, -⟩
  · obtain ⟨rfl, rfl⟩ := tableOf_unique hcanonical.table htable
    apply hcanonical.eq_payload hlen
    · intro b hb
      rw [List.eq_of_mem_replicate hb]
      exact List.mem_singleton.mpr rfl
    · intro hkept
      have hone :
          (symbols (frequenciesOf (List.replicate expectedSize.toNat value))).length = 1 := by
        rw [← hkept]
        exact length_symbols_of_nodup _ (List.nodup_singleton _) fun e he =>
          (hcanonical.counted e he).1
      rw [payloadBits_of_le_one T _ hlen hone.le]
      exact List.nil_prefix
  · obtain ⟨rfl, rfl⟩ := tableOf_unique hcanonical.table hspelled.table
    apply hcanonical.eq_payload hlen
    · exact hspelled.mem_entries
    · intro hkept
      have htree := hspelled.tree_eq
      have hperm := hspelled.leaves_perm
      rw [hkept] at htree hperm
      rw [(payloadBits_eq_encode T data hlen t htree hperm).1, hspelled.encode_eq.2]
      exact List.prefix_append _ _

/-- **The canonical Huffman payloads.** The compressor makes a payload that was accepted again
from its data if and only if the table lists ascending byte values, each with the number of times
it occurs in the data, and only zero bits, up to the end of a byte, follow the codewords. -/
theorem huffman_canonical_iff (T : Target) (bytes : Bytes) (expectedSize v : UInt64)
    (out : OStream)
    (h : decompress T (IStream.ofBytes bytes) OStream.memory expectedSize = .ok (some v, out)) :
    (compress T (IStream.ofBytes out.accepted) OStream.memory).2.accepted = bytes ↔
      ∃ entries more, CanonicalPayload T bytes out.accepted entries more := by
  obtain ⟨data, hrestores, -, rfl⟩ :=
    huffman_restores_of_value T (IStream.ofBytes bytes) OStream.memory expectedSize rfl rfl v out h
  have hlen : data.length < 2 ^ 64 := by
    rw [length_of_restores T (IStream.ofBytes bytes) expectedSize rfl data hrestores]
    exact expectedSize.toNat_lt
  rw [compress_memory, OStream.write_memory_accepted, OStream.write_memory_accepted]
  constructor
  · intro heq
    exact ⟨_, _, heq ▸ canonicalPayload_payload T data hlen⟩
  · rintro ⟨entries, more, hcanonical⟩
    exact payload_of_canonical T (IStream.ofBytes bytes) expectedSize rfl data hlen hrestores
      entries more hcanonical

/-- One `A` and one `B`, followed by a byte too many. -/
def trailingZero : Bytes := [2, 0, 65, 1, 0, 0, 0, 0, 0, 0, 0, 66, 1, 0, 0, 0, 0, 0, 0, 0, 64, 0]

set_option maxRecDepth 10000 in
/-- This payload is accepted, and it is canonical only if it is made again. -/
theorem huffman_canonical_iff_trailingZero :
    (compress Target.scan (IStream.ofBytes [65, 66]) OStream.memory).2.accepted = trailingZero ↔
      ∃ entries more, CanonicalPayload Target.scan trailingZero [65, 66] entries more :=
  huffman_canonical_iff Target.scan trailingZero 2 2 (OStream.memory.write [65, 66])
    (by decide +kernel)

end Lacuna.Results
