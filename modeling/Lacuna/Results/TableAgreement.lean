import Lacuna.Analysis.HuffmanDecode

/-!
# A payload against its table

The Huffman decoder compares the sum of the frequencies with the size of the header, and that
is all it compares: it returns the text that the bits spell, as long as it has the right number
of bytes. So a payload that contradicts its table is rejected only where it runs out of bits
(`faithful_iff`). Repeated entries are one way to make such a payload: every frequency read
counts for the sum, and the last one is kept.
-/

set_option autoImplicit false

namespace Lacuna.Results

open Model Library HuffmanCompressor

/-- The head of a Huffman payload as the decoder parses it: the unique count, and the table
with the stream behind it. -/
def parseTable (payload : Bytes) : Option (UInt16 × TableState) :=
  match readUniqueCount (IStream.ofBytes payload) with
  | none => none
  | some (count, input) =>
    (readEntries count.toNat
      { frequencies := fun _ => 0, sumFrequencies := 0, input := input }).map (count, ·)

/-- Whenever the decoder returns a value, every byte occurs in the output as often as the table
it parsed says. -/
def Faithful (T : Target) (payload : Bytes) (expectedSize : UInt64) : Prop :=
  ∀ v out, decompress T (IStream.ofBytes payload) OStream.memory expectedSize =
      .ok (some v, out) →
    ∃ count table, parseTable payload = some (count, table) ∧
      ∀ b, out.accepted.count b = (table.frequencies b).toNat

/-- The payload spells a text that its table does not announce: the table has two entries or
more, which sum up to the expected size, and the bits behind it begin with the codewords of a
text of that size over the symbols of the table, in which some symbol occurs another number of
times. -/
def SpellsAnotherText (T : Target) (payload : Bytes) (expectedSize : UInt64) : Prop :=
  ∃ count table, parseTable payload = some (count, table) ∧ 2 ≤ count.toNat ∧
    count.toNat ≤ 256 ∧ table.sumFrequencies = expectedSize ∧
    ∃ d : Bytes, d.length = expectedSize.toNat ∧ (∀ b ∈ d, 0 < table.frequencies b) ∧
      d.flatMap (codeTable (buildTree T table.frequencies)) <+: unpackBits table.input.rest ∧
      ∃ b, d.count b ≠ (table.frequencies b).toNat

/-- Parsing the bytes of a table. -/
theorem parseTable_append (payload : Bytes) (entries : List (UInt8 × UInt64)) (more : Bytes)
    (hle : entries.length ≤ 256)
    (hr : payload = countBytes (UInt16.ofNat entries.length) ++
      (entriesBytes entries ++ more)) :
    ∃ table, parseTable payload = some (UInt16.ofNat entries.length, table) ∧
      table.frequencies = setEntries (fun _ => 0) entries ∧
      table.sumFrequencies = sumEntries 0 entries ∧
      table.input.good = true ∧ table.input.rest = more := by
  have hcount : (UInt16.ofNat entries.length).toNat = entries.length :=
    UInt16.toNat_ofNat_of_lt' (lt_of_le_of_lt hle (by decide))
  have hskip : ((IStream.ofBytes payload).skip 2).rest =
      entriesBytes entries ++ more := by
    rw [IStream.rest_skip, IStream.rest_ofBytes, hr]
    rfl
  have htable := readEntries_append
    { frequencies := fun _ => 0, sumFrequencies := 0, input := (IStream.ofBytes payload).skip 2 }
    entries more rfl hskip
  have hread := readUniqueCount_append (IStream.ofBytes payload) _ _ rfl hr
  have hrest : (((IStream.ofBytes payload).skip 2).skip (9 * entries.length)).rest = more := by
    rw [IStream.rest_skip, hskip, List.drop_left' (length_entriesBytes entries)]
  refine ⟨{ frequencies := setEntries (fun _ => 0) entries
            sumFrequencies := sumEntries 0 entries
            input := ((IStream.ofBytes payload).skip 2).skip (9 * entries.length) },
    ?_, rfl, rfl, rfl, hrest⟩
  simp only [parseTable, hread, hcount, htable, Option.map_some]

/-- What was parsed are the bytes of a table. -/
theorem exists_entries_of_parseTable (payload : Bytes) (count : UInt16) (table : TableState)
    (h : parseTable payload = some (count, table)) :
    ∃ entries more, entries.length = count.toNat ∧
      payload = countBytes count ++
        (entriesBytes entries ++ more) := by
  by_cases hlen : payload.length < 2
  · have hnone := readUniqueCount_short (IStream.ofBytes payload) rfl hlen
    rw [parseTable, hnone] at h
    cases h
  obtain ⟨count', tail, hr⟩ := exists_countBytes payload (by omega)
  have hread := readUniqueCount_append (IStream.ofBytes payload) count' tail rfl
    hr
  rw [parseTable, hread] at h
  obtain ⟨table', htable, heq⟩ := Option.map_eq_some_iff.mp h
  rw [Prod.mk.injEq] at heq
  obtain ⟨rfl, rfl⟩ := heq
  have hskip : ((IStream.ofBytes payload).skip 2).rest = tail := by
    rw [IStream.rest_skip, IStream.rest_ofBytes, hr]
    rfl
  by_cases hshort : tail.length < 9 * count'.toNat
  · rw [readEntries_short _ _ rfl (by rw [hskip]; exact hshort)] at htable
    cases htable
  · obtain ⟨entries, more, hentries, rfl⟩ := exists_entries count'.toNat tail
      (by omega)
    exact ⟨entries, more, hentries, hr⟩

/-- A single-symbol payload is always faithful. -/
theorem faithful_of_single (T : Target) (payload : Bytes) (expectedSize : UInt64) (value : UInt8)
    (hsingle : SingleInput payload expectedSize value)
    (hdec : decompress T (IStream.ofBytes payload) OStream.memory expectedSize =
      runBody (fillSingle T.sizeBits value OStream.memory expectedSize)) :
    Faithful T payload expectedSize := by
  intro v out h
  rw [hdec] at h
  obtain ⟨-, rfl, -⟩ := fillSingle_transfer _ _ _ _ _ _ h
  obtain ⟨more, hmore⟩ := hsingle.split
  obtain ⟨table, hparse, hfreq, -, -, -⟩ := parseTable_append payload [(value, expectedSize)] more
    (by simp) (by simpa using hmore)
  refine ⟨_, table, hparse, ?_⟩
  intro b
  rw [OStream.write_memory_accepted, List.count_replicate, hfreq]
  by_cases hb : b = value
  · subst hb
    simp [setEntries]
  · have hb' : value ≠ b := Ne.symm hb
    simp [setEntries, hb, hb']

/-- **A payload that spells a text is decoded to it**, whatever its table announces. -/
theorem decompress_of_spells (T : Target) (payload : Bytes) (expectedSize : UInt64)
    (hsize : expectedSize ≠ 0) (count : UInt16) (table : TableState)
    (hparse : parseTable payload = some (count, table)) (htwo : 2 ≤ count.toNat)
    (hle : count.toNat ≤ 256) (hsum : table.sumFrequencies = expectedSize) (d : Bytes)
    (hlen : d.length = expectedSize.toNat) (hd : ∀ b ∈ d, 0 < table.frequencies b)
    (hbits : d.flatMap (codeTable (buildTree T table.frequencies)) <+:
      unpackBits table.input.rest) :
    decompress T (IStream.ofBytes payload) OStream.memory expectedSize =
      .ok (some expectedSize, OStream.memory.write d) := by
  obtain ⟨entries, more, hentries, hr⟩ := exists_entries_of_parseTable payload count table hparse
  have hcount : count = UInt16.ofNat entries.length := by
    rw [hentries, UInt16.ofNat_toNat]
  rw [hcount] at hr
  obtain ⟨table', hparse', hfreq, hsum', -, hrest⟩ := parseTable_append payload entries more
    (by omega) hr
  rw [hparse, Option.some.injEq, Prod.mk.injEq] at hparse'
  obtain ⟨-, rfl⟩ := hparse'
  have hdec := decompress_entries T (IStream.ofBytes payload) OStream.memory expectedSize entries
    more rfl rfl hsize (by omega) (by omega) hr
  have hrest' := rest_behindTable (IStream.ofBytes payload) _ entries more hr
  rw [← hsum', hsum, if_neg (not_not.mpr rfl), if_neg (by omega : ¬ entries.length = 1),
    ← hfreq] at hdec
  rcases buildTree_spec T table.frequencies with ⟨hnil, -⟩ | ⟨t, ht, hrun⟩
  · -- there is a symbol, since the text is not empty
    have hpos : 0 < d.length := by
      rw [hlen, ← UInt64.toNat_zero, ← UInt64.lt_iff_toNat_lt]
      exact UInt64.pos_iff_ne_zero.mpr hsize
    obtain ⟨c, hc⟩ := List.exists_mem_of_length_pos hpos
    have hmem := (mem_symbols table.frequencies c).mpr (hd c hc)
    rw [hnil] at hmem
    cases hmem
  · obtain ⟨hleaves, hcodes⟩ := flatMap_codeTable table.frequencies t
      (leaves_perm_symbols _ t hrun) d hd
    rw [ht, HuffmanNode.isNull_ofTree, if_neg Bool.false_ne_true] at hdec
    rw [ht, hcodes, hrest] at hbits
    obtain ⟨rest, hbits⟩ := hbits
    have hdecode := t.decode_encode_append d hleaves rest
    rw [hbits, hlen] at hdecode
    rw [decodeTree_of_decode _ t _ OStream.memory expectedSize rfl rfl d rest
      (by rw [hrest']; exact hdecode), OStream.write_memory_good, if_pos rfl] at hdec
    exact hdec

/-- **A payload whose tree is walked is decoded to a text it spells.** -/
theorem spells_of_decompress (T : Target) (payload : Bytes) (expectedSize : UInt64)
    (entries : List (UInt8 × UInt64)) (t : CodeTree UInt8) (more : Bytes) (input' : IStream)
    (htree : TreeInput T payload expectedSize entries t more) (hin' : input'.good = true)
    (hrest' : input'.rest = more) (v : UInt64) (out : OStream)
    (h : runBody (decodeTree (HuffmanNode.ofTree (setEntries (fun _ => 0) entries) t) input'
      OStream.memory expectedSize) = .ok (some v, out)) :
    ∃ table, parseTable payload = some (UInt16.ofNat entries.length, table) ∧
      table.sumFrequencies = expectedSize ∧ ∃ d : Bytes, out.accepted = d ∧
        d.length = expectedSize.toNat ∧ (∀ b ∈ d, 0 < table.frequencies b) ∧
        d.flatMap (codeTable (buildTree T table.frequencies)) <+:
          unpackBits table.input.rest := by
  obtain ⟨table, hparse, hfreq, hsum, -, hrest⟩ := parseTable_append payload entries more
    htree.le htree.split
  have hnd : t.leaves.Nodup := htree.leaves_perm.nodup_iff.mpr (nodup_symbols _)
  refine ⟨table, hparse, hsum.trans htree.sum_eq, ?_⟩
  cases hdecode : t.decode expectedSize.toNat (unpackBits input'.rest) with
  | none =>
    obtain ⟨written, hnone, -⟩ := decodeTree_of_decode_none (setEntries (fun _ => 0) entries) t
      input' OStream.memory expectedSize hin' rfl hdecode
    rw [hnone] at h
    cases h
  | some p =>
    obtain ⟨d, rest⟩ := p
    rw [decodeTree_of_decode _ t input' OStream.memory expectedSize hin' rfl d rest hdecode,
      Except.ok.injEq, Prod.mk.injEq] at h
    obtain ⟨hleaves, hbits⟩ := t.decode_sound hnd _ _ d rest hdecode
    have hd : ∀ b ∈ d, 0 < table.frequencies b := by
      intro b hb
      rw [hfreq, ← mem_symbols, ← htree.leaves_perm.mem_iff]
      exact hleaves b hb
    refine ⟨d, ?_, t.length_of_decode _ _ d rest hdecode, hd, ?_⟩
    · rw [← h.2, OStream.write_memory_accepted]
    · rw [hrest, ← hrest', hbits, hfreq, htree.tree_eq,
        (flatMap_codeTable _ t htree.leaves_perm d (by rw [← hfreq]; exact hd)).2]
      exact List.prefix_append _ _

/-- **When a payload that contradicts its table is rejected.** The output of the Huffman decoder
agrees with the table it parsed, on every value returned, if and only if the payload does not
spell another text than the table announces. -/
theorem faithful_iff (T : Target) (payload : Bytes) (expectedSize : UInt64)
    (hpos : 0 < expectedSize) :
    Faithful T payload expectedSize ↔ ¬ SpellsAnotherText T payload expectedSize := by
  have hsize : expectedSize ≠ 0 := UInt64.pos_iff_ne_zero.mp hpos
  constructor
  · rintro hfaithful ⟨count, table, hparse, htwo, hle, hsum, d, hlen, hd, hbits, b, hb⟩
    have hdec := decompress_of_spells T payload expectedSize hsize count table hparse htwo hle hsum
      d hlen hd hbits
    obtain ⟨count', table', hparse', hcounts⟩ := hfaithful _ _ hdec
    rw [hparse, Option.some.injEq, Prod.mk.injEq] at hparse'
    obtain ⟨-, rfl⟩ := hparse'
    rw [OStream.write_memory_accepted] at hcounts
    exact hb (hcounts b)
  · intro hannounced
    rcases decompress_cases T (IStream.ofBytes payload) expectedSize rfl hsize with
      hdec | ⟨value, hsingle, hdec⟩ | ⟨entries, t, more, input', htree, hin', hrest', hdec⟩
    · intro v out h
      rw [hdec OStream.memory rfl] at h
      cases h
    · exact faithful_of_single T payload expectedSize value hsingle (hdec OStream.memory rfl)
    · intro v out h
      rw [hdec OStream.memory rfl] at h
      obtain ⟨table, hparse, hsum, d, hout, hlen, hd, hbits⟩ := spells_of_decompress T payload
        expectedSize entries t more input' htree hin' hrest' v out h
      have hcount : (UInt16.ofNat entries.length).toNat = entries.length :=
        UInt16.toNat_ofNat_of_lt' (lt_of_le_of_lt htree.le (by decide))
      refine ⟨_, table, hparse, ?_⟩
      intro b
      rw [hout]
      by_contra hb
      exact hannounced ⟨_, table, hparse, by rw [hcount]; exact htree.two_le,
        by rw [hcount]; exact htree.le, hsum, d, hlen, hd, hbits, b, hb⟩

/-- The smallest table of two symbols, with a payload that spells it. -/
theorem faithful_iff_twoSymbols :
    Faithful Target.scan [2, 0, 65, 1, 0, 0, 0, 0, 0, 0, 0, 66, 1, 0, 0, 0, 0, 0, 0, 0, 64] 2 ↔
      ¬ SpellsAnotherText Target.scan
        [2, 0, 65, 1, 0, 0, 0, 0, 0, 0, 0, 66, 1, 0, 0, 0, 0, 0, 0, 0, 64] 2 :=
  faithful_iff Target.scan _ 2 (by decide)

/-- The same table, announcing one `A` and one `B`, in front of two codewords of `A`. -/
def doubleA : Bytes := [2, 0, 65, 1, 0, 0, 0, 0, 0, 0, 0, 66, 1, 0, 0, 0, 0, 0, 0, 0, 0]

set_option maxRecDepth 10000 in
/-- The decoder accepts it and writes `AA`. -/
theorem not_faithful_doubleA : ¬ Faithful Target.scan doubleA 2 := by
  have hdec : HuffmanCompressor.decompress Target.scan (IStream.ofBytes doubleA) OStream.memory 2 =
      .ok (some 2, OStream.memory.write [65, 65]) := by decide +kernel
  have hparse : (parseTable doubleA).map (fun p => p.2.frequencies 65) = some 1 := by
    decide +kernel
  intro h
  obtain ⟨count, table, htable, hcounts⟩ := h _ _ hdec
  rw [htable, Option.map_some, Option.some.injEq] at hparse
  have h65 := hcounts 65
  rw [OStream.write_memory_accepted, hparse] at h65
  exact absurd h65 (by decide)

end Lacuna.Results
