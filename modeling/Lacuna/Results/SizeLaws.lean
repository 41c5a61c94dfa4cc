import Lacuna.Results.PayloadForms

/-!
# What the size of an archive depends on

Both codecs are optimal in their own way, so their sizes obey laws that no look at the loops would
show. A file from which bytes were left out has no larger archive (`archive_sublist`). It does not
matter which byte values stand for what, nor in which direction a file is read, although the ties of
the comparator fall otherwise (`archive_sizeInvariant`). And two parts of a file take no more than
the whole but for what is written twice (`archive_cut`).
-/

set_option autoImplicit false

namespace Lacuna.Results

open Model Library

/-! ## The bits of the codewords -/

/-- The codewords of the compressor are prefix-free on the data. -/
theorem prefixFree_codeTable (T : Target) (data : Bytes) (hlen : data.length < 2 ^ 64) :
    PrefixFree (codeTable (buildTree T (HuffmanCompressor.frequenciesOf data))) data := by
  intro a ha b hb hpre
  have hmem : ∀ x ∈ data, x ∈ symbols (HuffmanCompressor.frequenciesOf data) := fun x hx =>
    (HuffmanCompressor.mem_symbols_frequenciesOf data hlen x).mpr hx
  rcases buildTree_spec T (HuffmanCompressor.frequenciesOf data) with ⟨hnil, -⟩ | ⟨t, ht, hrun⟩
  · have hnone := hmem a ha
    rw [hnil] at hnone
    cases hnone
  · have hperm := leaves_perm_symbols _ t hrun
    have hleaves : ∀ x ∈ data, x ∈ t.leaves := fun x hx => hperm.mem_iff.mpr (hmem x hx)
    rw [ht, codeTable_ofTree _ t (hperm.nodup_iff.mpr (nodup_symbols _))] at hpre
    simp only [hleaves a ha, hleaves b hb, if_true] at hpre
    exact t.code_prefix_free a b (hleaves a ha) (hleaves b hb) hpre

/-- **No prefix-free code spends less on the data** than the codewords of the compressor. -/
theorem length_payloadBits_le (T : Target) (data : Bytes) (hlen : data.length < 2 ^ 64)
    (c : UInt8 → List Bool) (hc : PrefixFree c data) :
    (HuffmanCompressor.payloadBits T data).length ≤ (data.flatMap c).length := by
  by_cases hone : (symbols (HuffmanCompressor.frequenciesOf data)).length ≤ 1
  · rw [payloadBits_of_le_one T data hlen hone]
    exact Nat.zero_le _
  · have htotal := totalFrequency_frequenciesOf data hlen
    have hcount : weightOf (HuffmanCompressor.frequenciesOf data) = fun b => data.count b :=
      funext (weightOf_frequenciesOf data hlen)
    rcases buildTree_spec T (HuffmanCompressor.frequenciesOf data) with
      ⟨hnil, -⟩ | ⟨t, ht, hrun⟩
    · rw [hnil] at hone
      exact absurd (Nat.zero_le 1) hone
    · have hgreedy := mergeRun_heavier _ (htotal.trans_lt hlen) t hrun
      have hperm := leaves_perm_symbols _ t hrun
      rw [length_payloadBits, length_payloadBits_eq_pathCost T data hlen t ht hperm, hcount]
      rw [hcount] at hgreedy
      exact pathCost_le_length_flatMap data _ (nodup_symbols _) (by omega)
        (HuffmanCompressor.mem_symbols_frequenciesOf data hlen) hgreedy c hc

/-- The length of a Huffman archive, by its codewords. -/
theorem length_huffmanArchive_eq (T : Target) (data : Bytes) (hlen : data.length < 2 ^ 64) :
    (archive T 0x02 data).length =
      16 + 9 * data.toFinset.card + (HuffmanCompressor.payloadBits T data).length ⌈/⌉ 8 := by
  rw [length_huffmanArchive T data hlen]
  split
  · rw [length_payloadBits]
  · rename_i htwo
    rw [payloadBits_of_le_one T data hlen (by rw [length_symbols_eq data hlen]; omega)]
    rfl

/-- The length of a run-length archive, by its runs. -/
theorem length_rleArchive_eq (T : Target) (data : Bytes) :
    (archive T 0x01 data).length = 14 + 2 * (cappedRuns 255 data).length := by
  rw [archive, List.length_append, length_headerBytes, archivePayload, if_pos rfl,
    RleCompressor.payload, RleCompressor.length_pairBytes]

/-! ## Leaving out bytes -/

/-- **Fewer bytes take no more bits**, in whatever order they are. -/
theorem length_payloadBits_le_of_subperm (T T' : Target) {data more : Bytes}
    (h : data.Subperm more) (hlen : more.length < 2 ^ 64) :
    (HuffmanCompressor.payloadBits T data).length ≤
      (HuffmanCompressor.payloadBits T' more).length := by
  have hfree : PrefixFree (codeTable (buildTree T' (HuffmanCompressor.frequenciesOf more))) data :=
    fun a ha b hb => prefixFree_codeTable T' more hlen a (h.subset ha) b (h.subset hb)
  have hle := length_payloadBits_le T data (h.length_le.trans_lt hlen) _ hfree
  obtain ⟨kept, hperm, hsub⟩ := h
  calc (HuffmanCompressor.payloadBits T data).length
      ≤ (data.flatMap _).length := hle
    _ = (kept.flatMap _).length := (hperm.flatMap_right _).length_eq.symm
    _ ≤ (more.flatMap _).length := (hsub.flatMap _).length_le

/-- Fewer bytes make no longer Huffman archive. -/
theorem length_huffmanArchive_le_of_subperm (T T' : Target) {data more : Bytes}
    (h : data.Subperm more) (hlen : more.length < 2 ^ 64) :
    (archive T 0x02 data).length ≤ (archive T' 0x02 more).length := by
  have hbits := length_payloadBits_le_of_subperm T T' h hlen
  have hcard : data.toFinset.card ≤ more.toFinset.card := by
    apply Finset.card_le_card
    intro b hb
    rw [List.mem_toFinset] at hb ⊢
    exact h.subset hb
  rw [length_huffmanArchive_eq T data (h.length_le.trans_lt hlen),
    length_huffmanArchive_eq T' more hlen, Nat.ceilDiv_eq_add_pred_div,
    Nat.ceilDiv_eq_add_pred_div]
  omega

/-- No archive of the one is longer than that of the other, whatever they are made by and on. -/
structure NoLarger (data more : Bytes) : Prop where
  codec : ∀ (T T' : Target) (algorithmId : UInt8), IsCodec algorithmId →
    (archive T algorithmId data).length ≤ (archive T' algorithmId more).length
  automatic : ∀ T T' : Target, (smallerSelection T data).serializedData.length ≤
    (smallerSelection T' more).serializedData.length

/-- What holds of both codecs holds of the selection. -/
theorem NoLarger.of_codec {data more : Bytes}
    (h : ∀ (T T' : Target) (algorithmId : UInt8), IsCodec algorithmId →
      (archive T algorithmId data).length ≤ (archive T' algorithmId more).length) :
    NoLarger data more := by
  refine ⟨h, fun T T' => ?_⟩
  rw [length_smallerSelection, length_smallerSelection]
  exact min_le_min (h T T' 0x01 (Or.inl rfl)) (h T T' 0x02 (Or.inr rfl))

/-- **Leaving out bytes makes no archive longer**: of both codecs, and of the one that is selected
automatically. -/
theorem archive_sublist {data more : Bytes} (h : data.Sublist more) (hlen : more.length < 2 ^ 64) :
    NoLarger data more := by
  apply NoLarger.of_codec
  rintro T T' algorithmId (rfl | rfl)
  · have hruns := length_cappedRuns_le_of_sublist 255 (by decide) h
    rw [length_rleArchive_eq, length_rleArchive_eq]
    omega
  · exact length_huffmanArchive_le_of_subperm T T' h.subperm hlen

/-- Three letters of a word. -/
theorem archive_sublist_banana : NoLarger (text "bnn") (text "banana") :=
  archive_sublist (by decide) (by decide)

/-! ## Renaming, reversing and permuting -/

/-- Another name for each byte value takes no more bits. -/
theorem length_payloadBits_map_le (T T' : Target) (σ : Equiv.Perm UInt8) (data : Bytes)
    (hlen : data.length < 2 ^ 64) :
    (HuffmanCompressor.payloadBits T (data.map σ)).length ≤
      (HuffmanCompressor.payloadBits T' data).length := by
  have hfree : PrefixFree
      (codeTable (buildTree T' (HuffmanCompressor.frequenciesOf data)) ∘ σ.symm)
      (data.map σ) := by
    intro a ha b hb hpre
    obtain ⟨x, hx, rfl⟩ := List.mem_map.mp ha
    obtain ⟨y, hy, rfl⟩ := List.mem_map.mp hb
    rw [Function.comp_apply, Function.comp_apply, σ.symm_apply_apply, σ.symm_apply_apply] at hpre
    rw [prefixFree_codeTable T' data hlen x hx y hy hpre]
  have hle := length_payloadBits_le T (data.map σ) (by rwa [List.length_map]) _ hfree
  rw [List.flatMap_map] at hle
  simp only [Function.comp_apply, σ.symm_apply_apply] at hle
  exact hle

/-- Another name for each byte value makes no archive longer. -/
theorem noLarger_map (σ : Equiv.Perm UInt8) (data : Bytes) (hlen : data.length < 2 ^ 64) :
    NoLarger (data.map σ) data := by
  apply NoLarger.of_codec
  rintro T T' algorithmId (rfl | rfl)
  · have hruns := length_cappedRuns_map_le 255 (by decide) σ data
    rw [length_rleArchive_eq, length_rleArchive_eq]
    omega
  · have hbits := length_payloadBits_map_le T T' σ data hlen
    have hset : (data.map σ).toFinset = data.toFinset.image σ := by
      ext b
      simp
    have hcard : (data.map σ).toFinset.card = data.toFinset.card := by
      rw [hset, Finset.card_image_of_injective _ σ.injective]
    rw [length_huffmanArchive_eq T _ (by rwa [List.length_map]),
      length_huffmanArchive_eq T' data hlen, hcard, Nat.ceilDiv_eq_add_pred_div,
      Nat.ceilDiv_eq_add_pred_div]
    omega

/-- The reverse order makes no archive longer. -/
theorem noLarger_reverse (data : Bytes) (hlen : data.length < 2 ^ 64) :
    NoLarger data.reverse data := by
  apply NoLarger.of_codec
  rintro T T' algorithmId (rfl | rfl)
  · rw [length_rleArchive_eq, length_rleArchive_eq, length_cappedRuns_reverse 255 (by decide)]
  · exact length_huffmanArchive_le_of_subperm T T' data.reverse_perm.subperm hlen

/-- The archives are of the same length, and the same codec is selected automatically. -/
structure SameSize (data other : Bytes) : Prop where
  codec : ∀ (T T' : Target) (algorithmId : UInt8), IsCodec algorithmId →
    (archive T algorithmId data).length = (archive T' algorithmId other).length
  selected : ∀ T T' : Target, smallerId T data = smallerId T' other

/-- Files neither of which has the larger archives. -/
theorem NoLarger.antisymm {data other : Bytes} (h : NoLarger data other)
    (h' : NoLarger other data) : SameSize data other := by
  have hcodec : ∀ (T T' : Target) (algorithmId : UInt8), IsCodec algorithmId →
      (archive T algorithmId data).length = (archive T' algorithmId other).length :=
    fun T T' algorithmId ha =>
      le_antisymm (h.codec T T' algorithmId ha) (h'.codec T' T algorithmId ha)
  refine ⟨hcodec, fun T T' => ?_⟩
  rw [smallerId, smallerId, hcodec T T' 0x01 (Or.inl rfl), hcodec T T' 0x02 (Or.inr rfl)]

/-- What does not change the sizes of the archives: names for the byte values, the direction, and in
the Huffman codec any order. -/
structure SizeInvariant (data : Bytes) : Prop where
  renamed : ∀ σ : Equiv.Perm UInt8, SameSize data (data.map σ)
  reversed : SameSize data data.reverse
  permuted : ∀ (other : Bytes), data.Perm other → ∀ T T' : Target,
    (archive T 0x02 data).length = (archive T' 0x02 other).length

/-- **The sizes do not depend on names or directions.** -/
theorem archive_sizeInvariant (data : Bytes) (hlen : data.length < 2 ^ 64) :
    SizeInvariant data := by
  constructor
  · intro σ
    have hback := noLarger_map σ.symm (data.map σ) (by rwa [List.length_map])
    rw [List.map_map, Equiv.symm_comp_self, List.map_id] at hback
    exact hback.antisymm (noLarger_map σ data hlen)
  · have hback := noLarger_reverse data.reverse (by rwa [List.length_reverse])
    rw [List.reverse_reverse] at hback
    exact hback.antisymm (noLarger_reverse data hlen)
  · intro other hperm T T'
    apply le_antisymm
    · exact length_huffmanArchive_le_of_subperm T T' hperm.subperm (hperm.length_eq ▸ hlen)
    · exact length_huffmanArchive_le_of_subperm T' T hperm.symm.subperm hlen

/-- A word under other names, backwards, and in another order. -/
theorem archive_sizeInvariant_banana : SizeInvariant (text "banana") :=
  archive_sizeInvariant (text "banana") (by decide)

/-! ## Cutting -/

/-- What the archives of two parts take beyond that of the whole: a header and one pair in the
run-length codec; a header, a count, an entry for each byte value they share and one byte in the
Huffman codec; and no more where the codec is selected automatically. -/
structure CutCost (data more : Bytes) : Prop where
  rle : ∀ T T' : Target, (archive T 0x01 data).length + (archive T 0x01 more).length ≤
    (archive T' 0x01 (data ++ more)).length + 16
  huffman : ∀ T T' : Target, (archive T 0x02 data).length + (archive T 0x02 more).length ≤
    (archive T' 0x02 (data ++ more)).length + 17 + 9 * (data.toFinset ∩ more.toFinset).card
  automatic : ∀ T T' : Target, (smallerSelection T data).serializedData.length +
      (smallerSelection T more).serializedData.length ≤
    (smallerSelection T' (data ++ more)).serializedData.length + 17 +
      9 * (data.toFinset ∩ more.toFinset).card

/-- **The codewords of two parts take no more bits than those of the whole.** -/
theorem length_payloadBits_add_le (T T' : Target) (data more : Bytes)
    (hlen : (data ++ more).length < 2 ^ 64) :
    (HuffmanCompressor.payloadBits T data).length +
        (HuffmanCompressor.payloadBits T more).length ≤
      (HuffmanCompressor.payloadBits T' (data ++ more)).length := by
  have hfree := prefixFree_codeTable T' (data ++ more) hlen
  rw [List.length_append] at hlen
  have hfront := length_payloadBits_le T data (by omega) _ fun a ha b hb =>
    hfree a (List.mem_append_left more ha) b (List.mem_append_left more hb)
  have hback := length_payloadBits_le T more (by omega) _ fun a ha b hb =>
    hfree a (List.mem_append_right data ha) b (List.mem_append_right data hb)
  show _ ≤ ((data ++ more).flatMap _).length
  rw [List.flatMap_append, List.length_append]
  exact Nat.add_le_add hfront hback

/-- **What cutting a file costs.** -/
theorem archive_cut (data more : Bytes) (hlen : (data ++ more).length < 2 ^ 64) :
    CutCost data more := by
  have hrle : ∀ T T' : Target, (archive T 0x01 data).length + (archive T 0x01 more).length ≤
      (archive T' 0x01 (data ++ more)).length + 16 := by
    intro T T'
    have hruns := length_cappedRuns_add_le 255 (by decide) data more
    rw [length_rleArchive_eq, length_rleArchive_eq, length_rleArchive_eq]
    omega
  have hhuff : ∀ T T' : Target, (archive T 0x02 data).length + (archive T 0x02 more).length ≤
      (archive T' 0x02 (data ++ more)).length + 17 +
        9 * (data.toFinset ∩ more.toFinset).card := by
    intro T T'
    have hbits := length_payloadBits_add_le T T' data more hlen
    have hcard := Finset.card_union_add_card_inter data.toFinset more.toFinset
    rw [← List.toFinset_append] at hcard
    have hlen' := hlen
    rw [List.length_append] at hlen'
    rw [length_huffmanArchive_eq T data (by omega), length_huffmanArchive_eq T more (by omega),
      length_huffmanArchive_eq T' (data ++ more) hlen, Nat.ceilDiv_eq_add_pred_div,
      Nat.ceilDiv_eq_add_pred_div, Nat.ceilDiv_eq_add_pred_div]
    omega
  refine ⟨hrle, hhuff, fun T T' => ?_⟩
  have hone := hrle T T'
  have htwo := hhuff T T'
  rw [length_smallerSelection, length_smallerSelection, length_smallerSelection]
  omega

/-- A word in two parts. -/
theorem archive_cut_banana : CutCost (text "ban") (text "ana") :=
  archive_cut (text "ban") (text "ana") (by decide)

end Lacuna.Results
