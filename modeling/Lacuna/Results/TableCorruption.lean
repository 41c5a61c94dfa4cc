import Lacuna.Results.TableAgreement

/-!
# Tables the decoder should not have taken

The Huffman decoder checks the number of entries in a table and the sum of their frequencies,
the latter modulo `2 ^ 64`. It does not look whether a value is repeated, whether a frequency is
zero, or whether the sum has wrapped. So a table with one of these flaws is rejected only where
its sum is wrong or the bits behind it run out (`clean_table_iff`, `exact_table_iff`).
-/

set_option autoImplicit false

namespace Lacuna.Results

open Model Library HuffmanCompressor

/-- The table at the head of a payload, entry by entry, and what follows it. -/
def TableOf (payload : Bytes) (entries : List (UInt8 × UInt64)) (more : Bytes) : Prop :=
  entries.length ≤ 256 ∧
    payload = countBytes (UInt16.ofNat entries.length) ++ (entriesBytes entries ++ more)

/-- The frequencies the decoder keeps: of a repeated value the last one. -/
def keptFrequencies (entries : List (UInt8 × UInt64)) : UInt8 → UInt64 :=
  setEntries (fun _ => 0) entries

/-- The sum of all frequencies read, as a natural number. -/
def exactSum (entries : List (UInt8 × UInt64)) : ℕ :=
  (entries.map fun entry => entry.2.toNat).sum

/-- A table of several entries that add up to the expected size in 64 bits, and behind it bits
that begin with the codewords of a text of that size over its symbols. -/
def SpellsText (T : Target) (expectedSize : UInt64) (entries : List (UInt8 × UInt64))
    (more : Bytes) : Prop :=
  2 ≤ entries.length ∧ sumEntries 0 entries = expectedSize ∧
    ∃ d : Bytes, d.length = expectedSize.toNat ∧ (∀ b ∈ d, 0 < keptFrequencies entries b) ∧
      d.flatMap (codeTable (buildTree T (keptFrequencies entries))) <+: unpackBits more

/-- Whenever a value is returned, the entries name distinct byte values, each with a positive
frequency, and the tree has as many leaves as there are entries. -/
def CleanTable (T : Target) (payload : Bytes) (expectedSize : UInt64) : Prop :=
  ∀ v out, decompress T (IStream.ofBytes payload) OStream.memory expectedSize =
      .ok (some v, out) →
    ∃ entries more, TableOf payload entries more ∧ (entries.map Prod.fst).Nodup ∧
      (∀ entry ∈ entries, 0 < entry.2) ∧
      (buildTree T (keptFrequencies entries)).leafCount = entries.length

/-- Whenever a value is returned, the frequencies of all entries add up to the expected size as
natural numbers; no running sum of the table loop wraps, and no frequency of the tree. -/
def ExactTable (T : Target) (payload : Bytes) (expectedSize : UInt64) : Prop :=
  ∀ v out, decompress T (IStream.ofBytes payload) OStream.memory expectedSize =
      .ok (some v, out) →
    ∃ entries more, TableOf payload entries more ∧ exactSum entries = expectedSize.toNat ∧
      (∀ read, read <+: entries → (sumEntries 0 read).toNat = exactSum read) ∧
      (buildTree T (keptFrequencies entries)).ExactFrequencies

/-! ## What is accepted -/

/-- A payload has one table. -/
theorem tableOf_unique {payload : Bytes} {entries entries' : List (UInt8 × UInt64)}
    {more more' : Bytes} (h : TableOf payload entries more) (h' : TableOf payload entries' more') :
    entries = entries' ∧ more = more' := by
  obtain ⟨hle, hsplit⟩ := h
  obtain ⟨hle', hsplit'⟩ := h'
  rw [hsplit] at hsplit'
  have hcount := congrArg (fun bytes => readUniqueCount (IStream.ofBytes bytes)) hsplit'
  rw [readUniqueCount_append (IStream.ofBytes _) _ _ rfl rfl,
    readUniqueCount_append (IStream.ofBytes _) _ _ rfl rfl, Option.some.injEq,
    Prod.mk.injEq] at hcount
  have hlength := congrArg UInt16.toNat hcount.1
  rw [UInt16.toNat_ofNat_of_lt' (lt_of_le_of_lt hle (by decide)),
    UInt16.toNat_ofNat_of_lt' (lt_of_le_of_lt hle' (by decide))] at hlength
  rw [hlength] at hsplit'
  exact entries_unique entries entries' more more' hlength (List.append_cancel_left hsplit')

/-- A table of several entries with a text behind it is accepted, whatever its entries are. -/
theorem accepted_of_spellsText (T : Target) (payload : Bytes) (expectedSize : UInt64)
    (hsize : expectedSize ≠ 0) (entries : List (UInt8 × UInt64)) (more : Bytes)
    (htable : TableOf payload entries more) (hspells : SpellsText T expectedSize entries more) :
    ∃ out, decompress T (IStream.ofBytes payload) OStream.memory expectedSize =
      .ok (some expectedSize, out) := by
  obtain ⟨hle, hsplit⟩ := htable
  obtain ⟨htwo, hsum, d, hlen, hd, hbits⟩ := hspells
  have hcount : (UInt16.ofNat entries.length).toNat = entries.length :=
    UInt16.toNat_ofNat_of_lt' (lt_of_le_of_lt hle (by decide))
  obtain ⟨table, hparse, hfreq, hsum', -, hrest⟩ := parseTable_append payload entries more hle
    hsplit
  refine ⟨OStream.memory.write d, decompress_of_spells T payload expectedSize hsize _ table hparse
    (by omega) (by omega) (hsum'.trans hsum) d hlen ?_ ?_⟩
  · rw [hfreq]
    exact hd
  · rw [hfreq, hrest]
    exact hbits

/-- An accepted payload is the table of a single symbol, or one of several with a text behind
it. -/
theorem table_of_accepted (T : Target) (payload : Bytes) (expectedSize : UInt64)
    (hsize : expectedSize ≠ 0) (v : UInt64) (out : OStream)
    (h : decompress T (IStream.ofBytes payload) OStream.memory expectedSize =
      .ok (some v, out)) :
    (∃ value more, TableOf payload [(value, expectedSize)] more) ∨
      ∃ entries more, TableOf payload entries more ∧ SpellsText T expectedSize entries more := by
  rcases decompress_cases T (IStream.ofBytes payload) expectedSize rfl hsize with
    hdec | ⟨value, ⟨more, hmore⟩, -⟩ | ⟨entries, t, more, input', htree, hin', hrest', hdec⟩
  · rw [hdec OStream.memory rfl] at h
    cases h
  · left
    refine ⟨value, more, by simp, ?_⟩
    rw [entriesBytes_cons, entriesBytes_nil, List.append_nil]
    exact hmore
  · right
    rw [hdec OStream.memory rfl] at h
    obtain ⟨table, hparse, -, d, -, hlen, hd, hbits⟩ := spells_of_decompress T payload
      expectedSize entries t more input' htree hin' hrest' v out h
    obtain ⟨table', hparse', hfreq, -, -, hrest⟩ := parseTable_append payload entries more
      htree.le htree.split
    rw [hparse, Option.some.injEq, Prod.mk.injEq] at hparse'
    obtain ⟨-, rfl⟩ := hparse'
    rw [hfreq] at hd hbits
    rw [hrest] at hbits
    exact ⟨entries, more, ⟨htree.le, htree.split⟩, htree.two_le, htree.sum_eq, d, hlen, hd, hbits⟩

/-! ## Repeated values and zero frequencies -/

/-- A table of distinct values with positive frequencies has a leaf for each entry. -/
theorem leafCount_of_clean (T : Target) (entries : List (UInt8 × UInt64))
    (hne : entries ≠ []) (hnd : (entries.map Prod.fst).Nodup)
    (hpos : ∀ entry ∈ entries, 0 < entry.2) :
    (buildTree T (keptFrequencies entries)).leafCount = entries.length := by
  have hlen : (symbols (keptFrequencies entries)).length = entries.length :=
    length_symbols_of_nodup entries hnd hpos
  rcases buildTree_spec T (keptFrequencies entries) with ⟨hnil, -⟩ | ⟨t, ht, hrun⟩
  · rw [hnil] at hlen
    exact absurd (List.eq_nil_of_length_eq_zero hlen.symm) hne
  · have hperm := leaves_perm_symbols _ t hrun
    rw [ht, HuffmanNode.leafCount_ofTree, hperm.length_eq, hlen]

/-- **When a corrupted table is rejected.** The entries of every accepted table are distinct and
positive if and only if the payload is not a table of several entries, one of them a repetition
or zero, that sums up to the expected size with a text of that size behind it. -/
theorem clean_table_iff (T : Target) (payload : Bytes) (expectedSize : UInt64)
    (hpos : 0 < expectedSize) :
    CleanTable T payload expectedSize ↔
      ¬ ∃ entries more, TableOf payload entries more ∧ SpellsText T expectedSize entries more ∧
        (¬ (entries.map Prod.fst).Nodup ∨ ∃ entry ∈ entries, entry.2 = 0) := by
  have hsize : expectedSize ≠ 0 := UInt64.pos_iff_ne_zero.mp hpos
  constructor
  · rintro hclean ⟨entries, more, htable, hspells, hflaw⟩
    obtain ⟨out, hdec⟩ := accepted_of_spellsText T payload expectedSize hsize entries more htable
      hspells
    obtain ⟨entries', more', htable', hnd, hpositive, -⟩ := hclean _ _ hdec
    obtain ⟨rfl, -⟩ := tableOf_unique htable htable'
    rcases hflaw with hrepeated | ⟨entry, hentry, hzero⟩
    · exact hrepeated hnd
    · have hentry' := hpositive entry hentry
      rw [hzero] at hentry'
      exact absurd hentry' (UInt64.lt_irrefl 0)
  · intro hno v out hdec
    rcases table_of_accepted T payload expectedSize hsize v out hdec with
      ⟨value, more, htable⟩ | ⟨entries, more, htable, hspells⟩
    · have hnd : ([(value, expectedSize)].map Prod.fst).Nodup := by simp
      have hpositive : ∀ entry ∈ [(value, expectedSize)], 0 < entry.2 := by
        intro entry hentry
        rw [List.mem_singleton.mp hentry]
        exact hpos
      exact ⟨_, more, htable, hnd, hpositive, leafCount_of_clean T _ (by simp) hnd hpositive⟩
    · have hnd : (entries.map Prod.fst).Nodup := by
        by_contra hrepeated
        exact hno ⟨entries, more, htable, hspells, Or.inl hrepeated⟩
      have hpositive : ∀ entry ∈ entries, 0 < entry.2 := by
        intro entry hentry
        rw [UInt64.pos_iff_ne_zero]
        intro hzero
        exact hno ⟨entries, more, htable, hspells, Or.inr ⟨entry, hentry, hzero⟩⟩
      have hne : entries ≠ [] := by
        rintro rfl
        exact absurd hspells.1 (by simp)
      exact ⟨entries, more, htable, hnd, hpositive, leafCount_of_clean T entries hne hnd hpositive⟩

/-- The smallest table of two symbols. -/
theorem clean_table_iff_twoSymbols :
    CleanTable Target.scan
        [2, 0, 65, 1, 0, 0, 0, 0, 0, 0, 0, 66, 1, 0, 0, 0, 0, 0, 0, 0, 64] 2 ↔
      ¬ ∃ entries more,
        TableOf [2, 0, 65, 1, 0, 0, 0, 0, 0, 0, 0, 66, 1, 0, 0, 0, 0, 0, 0, 0, 64] entries more ∧
        SpellsText Target.scan 2 entries more ∧
        (¬ (entries.map Prod.fst).Nodup ∨ ∃ entry ∈ entries, entry.2 = 0) :=
  clean_table_iff Target.scan _ 2 (by decide)

/-- A table of two entries, `A` twice and `B` never, with nothing behind it. -/
def zeroEntry : Bytes := [2, 0, 65, 2, 0, 0, 0, 0, 0, 0, 0, 66, 0, 0, 0, 0, 0, 0, 0, 0]

set_option maxRecDepth 10000 in
/-- The decoder accepts it: its tree is a single leaf, and the walks to it use no bits. -/
theorem not_clean_zeroEntry : ¬ CleanTable Target.scan zeroEntry 2 := by
  have hdec : decompress Target.scan (IStream.ofBytes zeroEntry) OStream.memory 2 =
      .ok (some 2, OStream.memory.write [65, 65]) := by
    decide +kernel
  have htable : TableOf zeroEntry [(65, 2), (66, 0)] [] := by
    refine ⟨by decide, ?_⟩
    decide +kernel
  intro h
  obtain ⟨entries, more, htable', -, hpositive, -⟩ := h _ _ hdec
  obtain ⟨rfl, -⟩ := tableOf_unique htable htable'
  have hzero := hpositive (66, 0) (by simp)
  exact absurd hzero (UInt64.lt_irrefl 0)

/-! ## Sums that wrap -/

/-- The running sum is the exact one modulo `2 ^ 64`. -/
theorem toNat_sumEntries_eq (entries : List (UInt8 × UInt64)) :
    (sumEntries 0 entries).toNat = exactSum entries % 2 ^ 64 := by
  rw [toNat_sumEntries, UInt64.toNat_zero, Nat.zero_add, exactSum]

/-- A part of a table adds up to no more than all of it. -/
theorem exactSum_le_of_prefix {read entries : List (UInt8 × UInt64)} (h : read <+: entries) :
    exactSum read ≤ exactSum entries := by
  obtain ⟨rest, rfl⟩ := h
  rw [exactSum, exactSum, List.map_append, List.sum_append]
  exact Nat.le_add_right _ _

/-- A table whose exact sum is below `2 ^ 64` adds up without wrapping, in the table loop and in
the tree. -/
theorem exact_of_sum_lt (T : Target) (entries : List (UInt8 × UInt64))
    (hsum : exactSum entries < 2 ^ 64) :
    (∀ read, read <+: entries → (sumEntries 0 read).toNat = exactSum read) ∧
      (buildTree T (keptFrequencies entries)).ExactFrequencies := by
  constructor
  · intro read hread
    have hle := exactSum_le_of_prefix hread
    rw [toNat_sumEntries_eq, Nat.mod_eq_of_lt (by omega)]
  · rcases buildTree_spec T (keptFrequencies entries) with ⟨-, hnull⟩ | ⟨t, ht, hrun⟩
    · rw [hnull]
      trivial
    · have hperm := leaves_perm_symbols _ t hrun
      have hkept := sum_setEntries_le (symbols (keptFrequencies entries)) (nodup_symbols _)
        (fun _ => 0) entries
      have hzero : ((symbols (keptFrequencies entries)).map
          fun _ => UInt64.toNat 0).sum = 0 := by simp
      have hweight : t.weight (fun b => (keptFrequencies entries b).toNat) =
          ((symbols (keptFrequencies entries)).map
            fun b => (keptFrequencies entries b).toNat).sum := (hperm.map _).sum_eq
      rw [hzero, Nat.zero_add] at hkept
      rw [ht]
      apply HuffmanNode.exactFrequencies_ofTree
      rw [hweight]
      exact lt_of_le_of_lt hkept hsum

/-- **When the sum check cannot be defeated.** The frequencies of every accepted table add up to
the expected size as natural numbers, and nothing wraps on the way, if and only if the payload is
not a table of several entries whose exact sum is `2 ^ 64` or more, while in 64 bits it is the
expected size, with a text of that size behind it. -/
theorem exact_table_iff (T : Target) (payload : Bytes) (expectedSize : UInt64)
    (hpos : 0 < expectedSize) :
    ExactTable T payload expectedSize ↔
      ¬ ∃ entries more, TableOf payload entries more ∧ SpellsText T expectedSize entries more ∧
        2 ^ 64 ≤ exactSum entries := by
  have hsize : expectedSize ≠ 0 := UInt64.pos_iff_ne_zero.mp hpos
  have hlt := expectedSize.toNat_lt
  constructor
  · rintro hexact ⟨entries, more, htable, hspells, hwraps⟩
    obtain ⟨out, hdec⟩ := accepted_of_spellsText T payload expectedSize hsize entries more htable
      hspells
    obtain ⟨entries', more', htable', hsum, -, -⟩ := hexact _ _ hdec
    obtain ⟨rfl, -⟩ := tableOf_unique htable htable'
    omega
  · intro hno v out hdec
    rcases table_of_accepted T payload expectedSize hsize v out hdec with
      ⟨value, more, htable⟩ | ⟨entries, more, htable, hspells⟩
    · have hsum : exactSum [(value, expectedSize)] = expectedSize.toNat := by simp [exactSum]
      obtain ⟨hloop, htree⟩ := exact_of_sum_lt T [(value, expectedSize)] (by omega)
      exact ⟨_, more, htable, hsum, hloop, htree⟩
    · have hbelow : exactSum entries < 2 ^ 64 := by
        by_contra hwraps
        exact hno ⟨entries, more, htable, hspells, Nat.le_of_not_lt hwraps⟩
      have hsum := toNat_sumEntries_eq entries
      rw [hspells.2.1, Nat.mod_eq_of_lt hbelow] at hsum
      obtain ⟨hloop, htree⟩ := exact_of_sum_lt T entries hbelow
      exact ⟨entries, more, htable, hsum.symm, hloop, htree⟩

/-- The smallest table of two symbols. -/
theorem exact_table_iff_twoSymbols :
    ExactTable Target.scan
        [2, 0, 65, 1, 0, 0, 0, 0, 0, 0, 0, 66, 1, 0, 0, 0, 0, 0, 0, 0, 64] 2 ↔
      ¬ ∃ entries more,
        TableOf [2, 0, 65, 1, 0, 0, 0, 0, 0, 0, 0, 66, 1, 0, 0, 0, 0, 0, 0, 0, 64] entries more ∧
        SpellsText Target.scan 2 entries more ∧ 2 ^ 64 ≤ exactSum entries :=
  exact_table_iff Target.scan _ 2 (by decide)

/-- A table that announces `2 ^ 64 - 1` times `A` and two times `B`, in front of one codeword. -/
def wrappedSum : Bytes :=
  [2, 0, 65, 255, 255, 255, 255, 255, 255, 255, 255, 66, 2, 0, 0, 0, 0, 0, 0, 0, 0]

set_option maxRecDepth 10000 in
/-- The sum wraps to one, and the decoder accepts one byte. -/
theorem not_exact_wrappedSum : ¬ ExactTable Target.scan wrappedSum 1 := by
  have hdec : decompress Target.scan (IStream.ofBytes wrappedSum) OStream.memory 1 =
      .ok (some 1, OStream.memory.write [66]) := by
    decide +kernel
  have htable : TableOf wrappedSum [(65, 0xFFFFFFFFFFFFFFFF), (66, 2)] [0] := by
    refine ⟨by decide, ?_⟩
    decide +kernel
  intro h
  obtain ⟨entries, more, htable', hsum, -, -⟩ := h _ _ hdec
  obtain ⟨rfl, -⟩ := tableOf_unique htable htable'
  exact absurd hsum (by decide)

end Lacuna.Results
