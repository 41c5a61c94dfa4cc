import Lacuna.Analysis.HuffmanCodec

/-!
# The Huffman decoder on whole inputs

`decompress_entries` says what the decoder does once the table is complete, and
`decompress_cases` lists all it can do with any input. From the first come the results on
archives: a payload decodes to its data, whatever follows it (`decompress_payload_append`),
and a payload cut short is rejected (`decompress_cut`).
-/

set_option autoImplicit false

namespace Lacuna.Model.HuffmanCompressor

open Library

/-! ## The single symbol -/

/-- The single-symbol path takes the least symbol of the table. -/
theorem singleChar_eq (frequencies : UInt8 → UInt64) :
    singleChar frequencies = (symbols frequencies).headD 0 := by
  rw [singleChar, symbols, allBytes, List.headD_eq_head?_getD, List.head?_filter, List.find?_map]
  simp only [Function.comp_def]
  cases (List.range 256).find? fun i => decide (0 < frequencies (UInt8.ofNat i)) <;> rfl

/-- A table with one positive entry has that symbol. -/
theorem symbols_single (value : UInt8) (freq : UInt64) (h : 0 < freq) :
    symbols (setEntries (fun _ => 0) [(value, freq)]) = [value] := by
  apply List.perm_singleton.mp
  rw [List.perm_ext_iff_of_nodup (nodup_symbols _) (List.nodup_singleton value)]
  intro b
  rw [mem_symbols, List.mem_singleton]
  by_cases hb : b = value
  · subst hb
    simp [setEntries, h]
  · simp [setEntries, hb]

/-! ## Behind a complete table -/

/-- The stream behind a table of `n` entries. -/
def behindTable (input : IStream) (n : ℕ) : IStream := (input.skip 2).skip (9 * n)

/-- Behind a table the stream is as good as before. -/
@[simp] theorem good_behindTable (input : IStream) (n : ℕ) :
    (behindTable input n).good = input.good := rfl

/-- Behind the bytes of a table comes the rest. -/
theorem rest_behindTable (input : IStream) (count : UInt16) (entries : List (UInt8 × UInt64))
    (more : Bytes) (hr : input.rest = countBytes count ++ (entriesBytes entries ++ more)) :
    (behindTable input entries.length).rest = more := by
  have hskip : (input.skip 2).rest = entriesBytes entries ++ more := by
    rw [IStream.rest_skip, hr]
    rfl
  rw [behindTable, IStream.rest_skip, hskip, List.drop_left' (length_entriesBytes entries)]

/-- **What `decompress` does behind a complete table.** -/
theorem decompress_entries (T : Target) (input : IStream) (out : OStream)
    (expectedSize : UInt64) (entries : List (UInt8 × UInt64)) (more : Bytes)
    (hin : input.good = true) (hout : out.good = true) (hsize : expectedSize ≠ 0)
    (hpos : 1 ≤ entries.length) (hle : entries.length ≤ 256)
    (hr : input.rest = countBytes (UInt16.ofNat entries.length) ++ (entriesBytes entries ++ more)) :
    decompress T input out expectedSize =
      if sumEntries 0 entries ≠ expectedSize then .ok (none, out)
      else if entries.length = 1 then
        runBody (fillSingle T.sizeBits (singleChar (setEntries (fun _ => 0) entries)) out
          expectedSize)
      else if (buildTree T (setEntries (fun _ => 0) entries)).isNull then .ok (none, out)
      else runBody (decodeTree (buildTree T (setEntries (fun _ => 0) entries))
        (behindTable input entries.length) out expectedSize) := by
  have hcount : (UInt16.ofNat entries.length).toNat = entries.length :=
    UInt16.toNat_ofNat_of_lt' (lt_of_le_of_lt hle (by decide))
  have hzero : UInt16.ofNat entries.length ≠ 0 := by
    intro h0
    rw [h0] at hcount
    simp only [UInt16.toNat_zero] at hcount
    omega
  have hbig : ¬ 256 < UInt16.ofNat entries.length := by
    rw [UInt16.lt_iff_toNat_lt, hcount]
    simpa using hle
  have hone : UInt16.ofNat entries.length = 1 ↔ entries.length = 1 := by
    rw [← UInt16.toNat_inj, hcount]
    rfl
  have hskip : (input.skip 2).rest = entriesBytes entries ++ more := by
    rw [IStream.rest_skip, hr]
    rfl
  have htable := readEntries_append
    { frequencies := fun _ => 0, sumFrequencies := 0, input := input.skip 2 } entries more
    (by simpa using hin) hskip
  unfold decompress
  rw [IStream.failbit_of_good input hin, hout]
  simp only [Bool.not_true, Bool.or_self, Bool.false_eq_true, if_false, hsize,
    readUniqueCount_append input _ _ hin hr, hzero, hbig, decide_false, hcount, htable, hone]
  rfl

/-- An input whose table is not complete is rejected. -/
theorem decompress_short (T : Target) (input : IStream) (out : OStream)
    (expectedSize : UInt64) (count : UInt16) (tail : Bytes) (hin : input.good = true)
    (hout : out.good = true) (hsize : expectedSize ≠ 0)
    (hr : input.rest = countBytes count ++ tail) (htail : tail.length < 9 * count.toNat) :
    decompress T input out expectedSize = .ok (none, out) := by
  have hskip : (input.skip 2).rest = tail := by
    rw [IStream.rest_skip, hr]
    rfl
  have htable := readEntries_short count.toNat
    { frequencies := fun _ => 0, sumFrequencies := 0, input := input.skip 2 }
    (by simpa using hin) (by rw [hskip]; exact htail)
  unfold decompress
  rw [IStream.failbit_of_good input hin, hout]
  simp only [Bool.not_true, Bool.or_self, Bool.false_eq_true, if_false, hsize,
    readUniqueCount_append input _ _ hin hr, htable, ite_self]

/-- An input without a complete unique count is rejected. -/
theorem decompress_no_count (T : Target) (input : IStream) (out : OStream)
    (expectedSize : UInt64) (hin : input.good = true) (hout : out.good = true)
    (hlen : input.rest.length < 2) : decompress T input out expectedSize = .ok (none, out) := by
  unfold decompress
  rw [IStream.failbit_of_good input hin, hout]
  simp only [Bool.not_true, Bool.or_self, Bool.false_eq_true,
    readUniqueCount_short input hin hlen, ite_self]

/-- The file of length zero: only the count zero and nothing behind it is accepted. -/
theorem decompress_zero (T : Target) (input : IStream) (out : OStream)
    (hin : input.good = true) (hout : out.good = true) :
    decompress T input out 0 =
      .ok (if input.rest = countBytes 0 then some 0 else none, out) := by
  by_cases hlen : input.rest.length < 2
  · rw [decompress_no_count T input out 0 hin hout hlen, if_neg]
    intro hr
    rw [hr] at hlen
    simp [countBytes] at hlen
  · obtain ⟨low, high, more, hr⟩ : ∃ low high more, input.rest = low :: high :: more := by
      cases hr : input.rest with
      | nil => simp [hr] at hlen
      | cons low tail =>
        cases tail with
        | nil => simp [hr] at hlen
        | cons high more => exact ⟨low, high, more, rfl⟩
    have hpeek := IStream.peek_eq_head? (input.skip 2) (by simpa using hin)
    rw [IStream.rest_skip, hr, List.drop_succ_cons, List.drop_succ_cons, List.drop_zero] at hpeek
    unfold decompress
    rw [IStream.failbit_of_good input hin, hout]
    simp only [Bool.not_true, Bool.or_self, Bool.false_eq_true, if_false, if_true,
      readUniqueCount_cons input low high more hin hr, hpeek, hr]
    have hbytes := countBytes_or low high
    cases more with
    | cons c more => simp [countBytes]
    | nil =>
      by_cases hzero : low.toUInt16 ||| (high.toUInt16 <<< 8) = 0
      · rw [hzero] at hbytes
        simp [hzero, hbytes]
      · have hne : [low, high] ≠ countBytes 0 := by
          intro heq
          apply hzero
          rw [countBytes, List.cons.injEq, List.cons.injEq] at heq
          rw [heq.1, heq.2.1]
          rfl
        simp [hzero, hne]

/-! ## All the decoder can do -/

/-- The input is the table of a single symbol, whose frequency is the expected size. -/
structure SingleInput (data : Bytes) (expectedSize : UInt64) (value : UInt8) : Prop where
  split : ∃ more, data = countBytes 1 ++ (entryBytes (value, expectedSize) ++ more)

/-- The input is a table of several entries that sum up to the expected size, followed by
`more`; `t` is the tree of its frequencies. -/
structure TreeInput (T : Target) (data : Bytes) (expectedSize : UInt64)
    (entries : List (UInt8 × UInt64)) (t : CodeTree UInt8) (more : Bytes) : Prop where
  two_le : 2 ≤ entries.length
  le : entries.length ≤ 256
  split : data = countBytes (UInt16.ofNat entries.length) ++ (entriesBytes entries ++ more)
  sum_eq : sumEntries 0 entries = expectedSize
  tree_eq : buildTree T (setEntries (fun _ => 0) entries) =
    HuffmanNode.ofTree (setEntries (fun _ => 0) entries) t
  leaves_perm : t.leaves.Perm (symbols (setEntries (fun _ => 0) entries))

/-- **All the decoder can do** with an input of which a positive size is expected: reject it
untouched, repeat a single byte, or walk a tree. Which of them depends on the input alone. -/
theorem decompress_cases (T : Target) (input : IStream) (expectedSize : UInt64)
    (hin : input.good = true) (hsize : expectedSize ≠ 0) :
    (∀ out : OStream, out.good = true →
      decompress T input out expectedSize = .ok (none, out)) ∨
    (∃ value, SingleInput input.rest expectedSize value ∧
      ∀ out : OStream, out.good = true → decompress T input out expectedSize =
        runBody (fillSingle T.sizeBits value out expectedSize)) ∨
    (∃ entries t more input', TreeInput T input.rest expectedSize entries t more ∧
      input'.good = true ∧ input'.rest = more ∧
      ∀ out : OStream, out.good = true → decompress T input out expectedSize =
        runBody (decodeTree (HuffmanNode.ofTree (setEntries (fun _ => 0) entries) t) input' out
          expectedSize)) := by
  by_cases hlen : input.rest.length < 2
  · exact Or.inl fun out hout => decompress_no_count T input out expectedSize hin hout hlen
  obtain ⟨count, tail, hr⟩ := exists_countBytes input.rest (by omega)
  by_cases hbounds : count = 0 ∨ 256 < count
  · left
    intro out hout
    unfold decompress
    rw [IStream.failbit_of_good input hin, hout]
    simp only [Bool.not_true, Bool.or_self, Bool.false_eq_true, if_false, hsize,
      readUniqueCount_append input count tail hin hr, Bool.or_eq_true, decide_eq_true_eq,
      hbounds, if_true]
  by_cases htail : tail.length < 9 * count.toNat
  · exact Or.inl fun out hout =>
      decompress_short T input out expectedSize count tail hin hout hsize hr htail
  obtain ⟨entries, more, hentries, rfl⟩ := exists_entries count.toNat tail (by omega)
  rw [not_or] at hbounds
  have hpos : 1 ≤ entries.length := by
    rw [hentries, Nat.one_le_iff_ne_zero]
    intro h0
    exact hbounds.1 (UInt16.toNat_inj.mp h0)
  have hle : entries.length ≤ 256 := by
    have hbig := hbounds.2
    rw [UInt16.lt_iff_toNat_lt, Nat.not_lt] at hbig
    rw [hentries]
    exact hbig
  have hcount : count = UInt16.ofNat entries.length := by
    rw [hentries, UInt16.ofNat_toNat]
  rw [hcount] at hr
  have heq := fun (out : OStream) (hout : out.good = true) =>
    decompress_entries T input out expectedSize entries more hin hout hsize hpos hle hr
  by_cases hsum : sumEntries 0 entries ≠ expectedSize
  · left
    intro out hout
    rw [heq out hout, if_pos hsum]
  rw [not_not] at hsum
  by_cases hone : entries.length = 1
  · obtain ⟨⟨value, freq⟩, rfl⟩ := List.length_eq_one_iff.mp hone
    have hfreq : freq = expectedSize := by
      rw [← hsum, sumEntries, List.foldl_cons, List.foldl_nil, UInt64.zero_add]
    subst hfreq
    have hfreq0 : 0 < freq := UInt64.pos_iff_ne_zero.mpr hsize
    refine Or.inr (Or.inl ⟨value, ⟨more, ?_⟩, ?_⟩)
    · rw [hr]
      simp [entriesBytes]
    · intro out hout
      rw [heq out hout, if_neg (not_not.mpr hsum), if_pos hone, singleChar_eq,
        symbols_single value freq hfreq0, List.headD_cons]
  · rcases buildTree_spec T (setEntries (fun _ => 0) entries) with ⟨-, hnull⟩ | ⟨t, ht, hrun⟩
    · left
      intro out hout
      rw [heq out hout, if_neg (not_not.mpr hsum), if_neg hone, hnull, HuffmanNode.isNull,
        if_pos rfl]
    · refine Or.inr (Or.inr ⟨entries, t, more, behindTable input entries.length,
        ⟨by omega, hle, hr, hsum, ht, leaves_perm_symbols _ t hrun⟩, hin,
        rest_behindTable input _ entries more hr, ?_⟩)
      intro out hout
      rw [heq out hout, if_neg (not_not.mpr hsum), if_neg hone, ht, HuffmanNode.isNull_ofTree,
        if_neg Bool.false_ne_true]

/-- With the table of a single symbol the decoder repeats it. -/
theorem decompress_single (T : Target) (input : IStream) (out : OStream) (expectedSize : UInt64)
    (value : UInt8) (hin : input.good = true) (hout : out.good = true) (hsize : expectedSize ≠ 0)
    (h : SingleInput input.rest expectedSize value) :
    decompress T input out expectedSize =
      runBody (fillSingle T.sizeBits value out expectedSize) := by
  obtain ⟨more, hr⟩ := h.split
  have hsum : sumEntries 0 [(value, expectedSize)] = expectedSize := by
    rw [sumEntries, List.foldl_cons, List.foldl_nil, UInt64.zero_add]
  have heq := decompress_entries T input out expectedSize [(value, expectedSize)] more hin hout
    hsize (by simp) (by simp) (by rw [hr]; simp [entriesBytes])
  have hone : [(value, expectedSize)].length = 1 := rfl
  rw [heq, if_neg (not_not.mpr hsum), if_pos hone, singleChar_eq,
    symbols_single value expectedSize (UInt64.pos_iff_ne_zero.mpr hsize), List.headD_cons]

/-- With the table of a tree it walks the tree. -/
theorem decompress_tree (T : Target) (input : IStream) (out : OStream) (expectedSize : UInt64)
    (entries : List (UInt8 × UInt64)) (t : CodeTree UInt8) (more : Bytes)
    (hin : input.good = true) (hout : out.good = true) (hsize : expectedSize ≠ 0)
    (h : TreeInput T input.rest expectedSize entries t more) :
    decompress T input out expectedSize =
        runBody (decodeTree (HuffmanNode.ofTree (setEntries (fun _ => 0) entries) t)
          (behindTable input entries.length) out expectedSize) ∧
      (behindTable input entries.length).rest = more := by
  have htwo := h.two_le
  have heq := decompress_entries T input out expectedSize entries more hin hout hsize (by omega)
    h.le h.split
  refine ⟨?_, rest_behindTable input _ entries more h.split⟩
  rw [heq, if_neg (not_not.mpr h.sum_eq), if_neg (by omega), h.tree_eq,
    HuffmanNode.isNull_ofTree, if_neg Bool.false_ne_true]

/-! ## Archives -/

/-- The codewords of the data under a tree of its own table. -/
theorem payloadBits_eq_encode (T : Target) (data : Bytes) (hlen : data.length < 2 ^ 64)
    (t : CodeTree UInt8)
    (ht : buildTree T (frequenciesOf data) = HuffmanNode.ofTree (frequenciesOf data) t)
    (hperm : t.leaves.Perm (symbols (frequenciesOf data))) :
    payloadBits T data = t.encode data ∧ ∀ b ∈ data, b ∈ t.leaves := by
  have hdata : ∀ b ∈ data, 0 < frequenciesOf data b := by
    intro b hb
    rw [← mem_symbols, mem_symbols_frequenciesOf data hlen]
    exact hb
  obtain ⟨hleaves, hcodes⟩ := flatMap_codeTable (frequenciesOf data) t hperm data hdata
  rw [payloadBits, ht]
  exact ⟨hcodes, hleaves⟩

/-- Data that are not empty have a symbol. -/
theorem length_symbols_pos (data : Bytes) (hne : data ≠ []) (hlen : data.length < 2 ^ 64) :
    1 ≤ (symbols (frequenciesOf data)).length := by
  obtain ⟨b, rest, rfl⟩ := List.exists_cons_of_ne_nil hne
  apply List.length_pos_of_mem (a := b)
  rw [mem_symbols_frequenciesOf _ hlen]
  exact List.mem_cons_self

/-- Data that are not empty have a tree, and their codewords are its codes, whatever heap made
either. -/
theorem exists_tree_of_data (T T' : Target) (data : Bytes) (hne : data ≠ [])
    (hlen : data.length < 2 ^ 64) :
    ∃ t : CodeTree UInt8,
      buildTree T' (frequenciesOf data) = HuffmanNode.ofTree (frequenciesOf data) t ∧
        payloadBits T data = t.encode data ∧ ∀ b ∈ data, b ∈ t.leaves := by
  rcases buildTree_spec T' (frequenciesOf data) with ⟨hnil, -⟩ | ⟨t, ht, hrun⟩
  · have hpos := length_symbols_pos data hne hlen
    rw [hnil] at hpos
    exact absurd hpos (by simp)
  · have htT : buildTree T (frequenciesOf data) = HuffmanNode.ofTree (frequenciesOf data) t := by
      rw [buildTree_unique T T', ht]
    exact ⟨t, ht, payloadBits_eq_encode T data hlen t htT (leaves_perm_symbols _ t hrun)⟩

/-- What `decompress` does behind the table of some data, for any size that is expected: a size
that is not that of the data is rejected. -/
theorem decompress_anySize (T : Target) (data rest : Bytes) (input : IStream) (out : OStream)
    (expectedSize : UInt64) (hin : input.good = true) (hout : out.good = true) (hne : data ≠ [])
    (hlen : data.length < 2 ^ 64) (hsize : expectedSize ≠ 0)
    (hr : input.rest = tableBytes (frequenciesOf data) ++ rest) :
    decompress T input out expectedSize =
        (if UInt64.ofNat data.length ≠ expectedSize then .ok (none, out)
        else if (symbols (frequenciesOf data)).length = 1 then
          runBody (fillSingle T.sizeBits ((symbols (frequenciesOf data)).headD 0) out
            expectedSize)
        else
          runBody (decodeTree (buildTree T (frequenciesOf data))
            (behindTable input (symbols (frequenciesOf data)).length) out expectedSize)) ∧
      (behindTable input (symbols (frequenciesOf data)).length).rest = rest := by
  have hcount : uniqueCount (frequenciesOf data) =
      UInt16.ofNat (tableEntries (frequenciesOf data)).length := by
    rw [length_tableEntries, ← toNat_uniqueCount, UInt16.ofNat_toNat]
  have hpos := length_symbols_pos data hne hlen
  rw [tableBytes, hcount, List.append_assoc] at hr
  have heq := decompress_entries T input out expectedSize
    (tableEntries (frequenciesOf data)) rest hin hout hsize
    (by rw [length_tableEntries]; exact hpos)
    (by rw [length_tableEntries]; exact length_symbols_le _) hr
  have hrest := rest_behindTable input _ _ _ hr
  have hsum : sumEntries 0 (tableEntries (frequenciesOf data)) = UInt64.ofNat data.length := by
    have h := sumEntries_tableEntries [data] (by simpa using hlen)
    simpa [frequenciesOf] using h
  obtain ⟨t, ht, -, -⟩ := exists_tree_of_data T T data hne hlen
  rw [length_tableEntries] at hrest
  rw [hsum, setEntries_tableEntries, length_tableEntries, singleChar_eq, ht,
    HuffmanNode.isNull_ofTree, if_neg Bool.false_ne_true, ← ht] at heq
  exact ⟨heq, hrest⟩

/-- **What `decompress` does behind the table of some data**: it repeats the only symbol, or
walks the tree. -/
theorem decompress_table (T : Target) (data rest : Bytes) (input : IStream) (out : OStream)
    (hin : input.good = true) (hout : out.good = true) (hne : data ≠ [])
    (hlen : data.length < 2 ^ 64)
    (hr : input.rest = tableBytes (frequenciesOf data) ++ rest) :
    decompress T input out (UInt64.ofNat data.length) =
        (if (symbols (frequenciesOf data)).length = 1 then
          runBody (fillSingle T.sizeBits ((symbols (frequenciesOf data)).headD 0) out
            (UInt64.ofNat data.length))
        else
          runBody (decodeTree (buildTree T (frequenciesOf data))
            (behindTable input (symbols (frequenciesOf data)).length) out
            (UInt64.ofNat data.length))) ∧
      (behindTable input (symbols (frequenciesOf data)).length).rest = rest := by
  have hsize : (UInt64.ofNat data.length).toNat = data.length := UInt64.toNat_ofNat_of_lt' hlen
  have hsize0 : UInt64.ofNat data.length ≠ 0 := by
    intro h0
    rw [h0] at hsize
    exact hne (List.eq_nil_of_length_eq_zero hsize.symm)
  have h := decompress_anySize T data rest input out _ hin hout hne hlen hsize0 hr
  rw [if_neg (not_not.mpr rfl)] at h
  exact h

/-- **Behind the table of some data any text of their symbols can stand**: if the bits begin with
its codes, and it is as long as the data, it is what is restored. -/
theorem decompress_text (T : Target) (data d rest : Bytes) (input : IStream) (out : OStream)
    (hin : input.good = true) (hout : out.good = true) (hlen : data.length < 2 ^ 64)
    (hr : input.rest = tableBytes (frequenciesOf data) ++ rest)
    (hmany : ¬ (symbols (frequenciesOf data)).length ≤ 1) (t : CodeTree UInt8)
    (ht : buildTree T (frequenciesOf data) = HuffmanNode.ofTree (frequenciesOf data) t)
    (hd : d.length = data.length) (hleaves : ∀ b ∈ d, b ∈ t.leaves)
    (hbits : t.encode d <+: unpackBits rest) :
    decompress T input out (UInt64.ofNat data.length) =
      .ok (if (out.write d).good = true then some (UInt64.ofNat data.length) else none,
        out.write d) := by
  have hsize : (UInt64.ofNat data.length).toNat = data.length := UInt64.toNat_ofNat_of_lt' hlen
  have hne : data ≠ [] := by
    rintro rfl
    exact hmany (by decide)
  obtain ⟨heq, hrest⟩ := decompress_table T data rest input out hin hout hne hlen hr
  obtain ⟨more, hmore⟩ := hbits
  have hdecode := t.decode_encode_append d hleaves more
  rw [heq, if_neg (by omega), ht]
  apply decodeTree_of_decode _ t _ out _ (by simpa using hin) hout d more
  rw [hrest, ← hmore, hsize, ← hd]
  exact hdecode

/-- Data with a single symbol repeat it. -/
theorem replicate_of_symbols_singleton (data : Bytes) (hlen : data.length < 2 ^ 64)
    (value : UInt8) (hvalue : symbols (frequenciesOf data) = [value]) :
    List.replicate data.length value = data := by
  symm
  rw [List.eq_replicate_iff]
  refine ⟨rfl, ?_⟩
  intro b hb
  rw [← mem_symbols_frequenciesOf data hlen, hvalue] at hb
  exact List.mem_singleton.mp hb

/-- **A payload decodes to its data**, whatever follows it, for another heap and on any
device; the size has to fit in `size_t`. -/
theorem decompress_payload_append (T T' : Target) (data more : Bytes) (input : IStream)
    (out : OStream) (hin : input.good = true) (hout : out.good = true) (hne : data ≠ [])
    (hlen : data.length < 2 ^ 64) (hfits : data.length < 2 ^ T'.sizeBits)
    (hr : input.rest = payload T data ++ more) :
    decompress T' input out (UInt64.ofNat data.length) =
      .ok (if (out.write data).good = true then some (UInt64.ofNat data.length) else none,
        out.write data) := by
  have hsize : (UInt64.ofNat data.length).toNat = data.length := UInt64.toNat_ofNat_of_lt' hlen
  rw [payload, List.append_assoc] at hr
  by_cases hone : (symbols (frequenciesOf data)).length = 1
  · obtain ⟨value, hvalue⟩ := List.length_eq_one_iff.mp hone
    rw [(decompress_table T' data _ input out hin hout hne hlen hr).1, if_pos hone, hvalue,
      List.headD_cons, fillSingle_eq _ _ _ _ (by rw [hsize]; exact hfits) hout, hsize,
      replicate_of_symbols_singleton data hlen value hvalue]
  · have hpos := length_symbols_pos data hne hlen
    have hmany : ¬ (symbols (frequenciesOf data)).length ≤ 1 := by omega
    obtain ⟨t, ht, hbits, hleaves⟩ := exists_tree_of_data T T' data hne hlen
    obtain ⟨pad, -, hunpack⟩ := unpackBits_packBits (payloadBits T data)
    apply decompress_text T' data data _ input out hin hout hlen hr hmany t ht rfl hleaves
    rw [if_neg hmany, unpackBits_append, hunpack, hbits, List.append_assoc]
    exact List.prefix_append _ _

/-- The payload of the empty byte string is the count zero. -/
theorem payload_nil (T : Target) : payload T [] = countBytes 0 := by
  have hsymbols : symbols (frequenciesOf []) = [] := by
    rw [List.eq_nil_iff_forall_not_mem]
    intro b hb
    rw [mem_symbols_frequenciesOf [] (by simp)] at hb
    cases hb
  have hcount : uniqueCount (frequenciesOf []) = 0 := by
    apply UInt16.toNat_inj.mp
    rw [toNat_uniqueCount, hsymbols]
    rfl
  rw [payload, tableBytes, hcount, tableEntries, hsymbols]
  simp

/-- The payload of some data restores them in memory. -/
theorem decompress_memory (T T' : Target) (data : Bytes) (hlen : data.length < 2 ^ 64)
    (hfits : data.length < 2 ^ T'.sizeBits) :
    decompress T' (IStream.ofBytes (payload T data)) OStream.memory
      (UInt64.ofNat data.length) =
        .ok (some (UInt64.ofNat data.length), OStream.memory.write data) := by
  by_cases hne : data = []
  · subst hne
    have h := decompress_zero T' (IStream.ofBytes (payload T [])) OStream.memory rfl rfl
    rw [IStream.rest_ofBytes, if_pos (payload_nil T)] at h
    exact h
  · have h := decompress_payload_append T T' data [] (IStream.ofBytes (payload T data))
      OStream.memory rfl rfl hne hlen hfits (by simp)
    rw [OStream.write_memory_good, if_pos rfl] at h
    exact h

/-- A part of `first ++ rest` that is at least as long as `first` begins with it. -/
theorem exists_append_of_length_le {first rest part missing : Bytes}
    (h : first ++ rest = part ++ missing) (hle : first.length ≤ part.length) :
    ∃ tail, part = first ++ tail ∧ rest = tail ++ missing := by
  have hpre : first <+: part :=
    List.prefix_of_prefix_length_le ⟨rest, h⟩ (List.prefix_append part missing) hle
  obtain ⟨tail, rfl⟩ := hpre
  rw [List.append_assoc] at h
  exact ⟨tail, rfl, List.append_cancel_left h⟩

/-- A part of packed bits that misses a byte misses a bit that was not filling. -/
theorem exists_missing_bits (bits : List Bool) (part missing : Bytes)
    (h : packBits bits = part ++ missing) (hne : missing ≠ []) :
    ∃ lost, bits = unpackBits part ++ lost ∧ lost ≠ [] := by
  obtain ⟨pad, hpad, hunpack⟩ := unpackBits_packBits bits
  have hpos := List.length_pos_iff.mpr hne
  have hlen := congrArg List.length hunpack
  rw [h, unpackBits_append] at hunpack
  rw [h, length_unpackBits, List.length_append, List.length_append, List.length_replicate] at hlen
  have hshort : (unpackBits part).length < bits.length := by
    rw [length_unpackBits]
    omega
  have hpre : unpackBits part <+: bits :=
    List.prefix_of_prefix_length_le ⟨_, hunpack⟩ (List.prefix_append bits _) hshort.le
  obtain ⟨lost, rfl⟩ := hpre
  refine ⟨lost, rfl, ?_⟩
  rintro rfl
  simp at hshort

/-- **A payload cut short is rejected.** -/
theorem decompress_cut (T T' : Target) (data part missing : Bytes) (input : IStream)
    (out : OStream) (hin : input.good = true) (hout : out.good = true)
    (hlen : data.length < 2 ^ 64) (hcut : payload T data = part ++ missing)
    (hmissing : missing ≠ []) (hr : input.rest = part) :
    ∃ out', decompress T' input out (UInt64.ofNat data.length) = .ok (none, out') := by
  have hsize : (UInt64.ofNat data.length).toNat = data.length := UInt64.toNat_ofNat_of_lt' hlen
  by_cases hnil : data = []
  · subst hnil
    rw [payload_nil] at hcut
    refine ⟨out, ?_⟩
    have hne : input.rest ≠ countBytes 0 := by
      rw [hr, hcut]
      intro heq
      exact hmissing (by simpa using heq)
    have hzero := decompress_zero T' input out hin hout
    rw [if_neg hne] at hzero
    exact hzero
  have hsize0 : UInt64.ofNat data.length ≠ 0 := by
    intro h0
    rw [h0] at hsize
    exact hnil (List.eq_nil_of_length_eq_zero hsize.symm)
  by_cases hpart : part.length < 2
  · exact ⟨out, decompress_no_count T' input out _ hin hout (by rw [hr]; exact hpart)⟩
  have hcount := toNat_uniqueCount (frequenciesOf data)
  -- the cut lies behind the count
  rw [payload, tableBytes, List.append_assoc] at hcut
  obtain ⟨tail, rfl, htail⟩ := exists_append_of_length_le hcut (by simp [countBytes]; omega)
  by_cases hshort : tail.length < 9 * (symbols (frequenciesOf data)).length
  · exact ⟨out, decompress_short T' input out _ _ tail hin hout hsize0 hr
      (by rw [hcount]; exact hshort)⟩
  -- the cut lies behind the table
  obtain ⟨packed, rfl, hpacked⟩ := exists_append_of_length_le htail
    (by rw [length_entriesBytes, length_tableEntries]; omega)
  have hmany : ¬ (symbols (frequenciesOf data)).length ≤ 1 := by
    intro hone
    rw [if_pos hone] at hpacked
    exact hmissing (List.append_eq_nil_iff.mp hpacked.symm).2
  rw [if_neg hmany] at hpacked
  rw [← List.append_assoc, ← tableBytes] at hr
  obtain ⟨heq, hrest⟩ := decompress_table T' data packed input out hin hout hnil hlen hr
  rw [if_neg (by omega : ¬ _ = 1)] at heq
  obtain ⟨t, ht, hbits, hleaves⟩ := exists_tree_of_data T T' data hnil hlen
  obtain ⟨lost, hlost, hne⟩ := exists_missing_bits _ _ _ hpacked hmissing
  rw [hbits] at hlost
  have hdecode := t.decode_prefix_eq_none data hleaves _ _ hlost hne
  rw [ht] at heq
  obtain ⟨written, hrunBody, -⟩ := decodeTree_of_decode_none (frequenciesOf data) t
    (behindTable input (symbols (frequenciesOf data)).length) out (UInt64.ofNat data.length)
    (by simpa using hin) hout (by rw [hrest, hsize]; exact hdecode)
  exact ⟨out.write written, heq.trans hrunBody⟩

end Lacuna.Model.HuffmanCompressor
