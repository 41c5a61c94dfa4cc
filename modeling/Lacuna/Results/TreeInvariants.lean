import Lacuna.Analysis.HuffmanCodec

/-!
# The Huffman tree and its code table

What the construction keeps over all its rounds, for every table: the heap stays a forest of
full trees with disjoint leaves that cover the symbols, so the tree at the end is full, each
symbol labels one leaf, and every inner frequency is the wrapping sum over its leaves
(`buildTree_invariant`).

For any full tree with different leaves, whatever its frequencies, the codes `generate_codes`
fills in and the walks of the decoder are inverse (`codeTable_walks_inverse`).
-/

set_option autoImplicit false

namespace Lacuna.Results

open Model Library HuffmanCompressor

/-! ## The tree of a table -/

/-- What holds of the tree `build_tree` makes of a table with a positive entry. -/
structure BuildInvariant (frequencies : UInt8 → UInt64) (root : HuffmanNode) : Prop where
  /-- Every node has two children or none. -/
  full : root.Full
  /-- A byte with a positive frequency labels exactly one leaf, any other byte none. -/
  labels : ∀ b, root.leafValues.count b = if 0 < frequencies b then 1 else 0
  /-- The leaf of a byte carries its frequency. -/
  entries : ∀ e ∈ root.leafEntries, e.2 = frequencies e.1
  /-- Every inner frequency is the sum over its leaves, modulo `2 ^ 64`. -/
  sums : root.SumsLeaves
  /-- No walk is longer than the symbols less one. -/
  depth : root.depth ≤ (symbols frequencies).length - 1

/-- The tree of a run of merges from the leaves keeps the invariant. -/
theorem buildInvariant_of_mergeRun (frequencies : UInt8 → UInt64) (t : CodeTree UInt8)
    (h : MergeRun (treeComparator frequencies) CodeTree.node (leafForest frequencies) {t}) :
    BuildInvariant frequencies (HuffmanNode.ofTree frequencies t) where
  full := HuffmanNode.full_ofTree frequencies t
  labels := by
    intro b
    have hperm := leaves_perm_symbols frequencies t h
    rw [(HuffmanNode.full_ofTree frequencies t).leafValues_eq, HuffmanNode.shape_ofTree,
      hperm.count_eq, (nodup_symbols frequencies).count]
    simp only [mem_symbols]
  entries := by
    intro e he
    rw [HuffmanNode.leafEntries_ofTree] at he
    obtain ⟨b, -, rfl⟩ := List.mem_map.mp he
    rfl
  sums := HuffmanNode.sumsLeaves_ofTree frequencies t
  depth := by
    have hlen := (leaves_perm_symbols frequencies t h).length_eq
    have hdepth := t.depth_lt_length_leaves
    rw [HuffmanNode.depth_ofTree]
    omega

/-- **The invariant of `build_tree`.** For every table it returns the null pointer exactly when
no entry is positive; otherwise the tree is full, the bytes with a positive frequency label one
leaf each and no other byte labels any, every inner frequency is the sum over its leaves modulo
`2 ^ 64`, and the tree is less deep than there are such bytes. -/
theorem buildTree_invariant (T : Target) (frequencies : UInt8 → UInt64) :
    (buildTree T frequencies = .null ↔ (symbols frequencies).length = 0) ∧
      ((symbols frequencies).length ≠ 0 →
        BuildInvariant frequencies (buildTree T frequencies)) := by
  rcases buildTree_spec T frequencies with ⟨hnil, hnull⟩ | ⟨t, ht, hrun⟩
  · rw [hnil, hnull]
    exact ⟨by simp, fun h => absurd rfl h⟩
  · have hinv := buildInvariant_of_mergeRun frequencies t hrun
    have hlen := (leaves_perm_symbols frequencies t hrun).length_eq
    have hpos := t.depth_lt_length_leaves
    rw [ht]
    constructor
    · constructor
      · intro hnull
        have hsome := hinv.full.isNull
        rw [hnull] at hsome
        cases hsome
      · intro hzero
        omega
    · intro _
      exact hinv

/-- A table whose sum wraps around: the root of its two leaves carries 4. -/
def wrappedPair (b : UInt8) : UInt64 :=
  if b = 97 then 18446744073709551615 else if b = 98 then 5 else 0

/-- The invariant for this table. -/
theorem buildTree_invariant_wrappedPair :
    BuildInvariant wrappedPair (buildTree Target.scan wrappedPair) := by
  apply (buildTree_invariant Target.scan wrappedPair).2
  decide +kernel

/-! ## Codes and walks -/

/-- **The code table and the walks are inverse.** For every full tree with two or more leaves of
different byte values, no code is empty, none is a prefix of another, and Kraft's sum over them
is one. The walks over the codes of any text, whatever bits follow them, end at the bytes of the
text, and exactly the bits that follow are left. -/
theorem codeTable_walks_inverse (root : HuffmanNode) (hfull : root.Full)
    (htwo : 2 ≤ root.leafValues.length) (hnd : root.leafValues.Nodup) :
    (∀ b ∈ root.leafValues, codeTable root b ≠ []) ∧
    (∀ a ∈ root.leafValues, ∀ b ∈ root.leafValues,
      codeTable root a <+: codeTable root b → a = b) ∧
    (root.leafValues.map fun b => (1 / 2 : ℚ) ^ (codeTable root b).length).sum = 1 ∧
    ∀ (bs : Bytes) (r : List Bool) (reader : BitReader), (∀ b ∈ bs, b ∈ root.leafValues) →
      reader.input.good = true → reader.bits = bs.flatMap (codeTable root) ++ r →
      ∃ reader', walks root bs.length reader = .ok (bs, reader') ∧ reader'.bits = r := by
  rw [hfull.leafValues_eq] at *
  have htable : ∀ b ∈ root.shape.leaves, codeTable root b = root.shape.code b := by
    intro b hb
    rw [hfull.codeTable_eq hnd]
    exact if_pos hb
  refine ⟨?_, ?_, ?_, ?_⟩
  · intro b hb
    rw [htable b hb]
    exact root.shape.code_ne_nil b htwo
  · intro a ha b hb hprefix
    rw [htable a ha, htable b hb] at hprefix
    exact root.shape.code_prefix_free a b ha hb hprefix
  · have hcodes : (root.shape.leaves.map fun b => (1 / 2 : ℚ) ^ (codeTable root b).length) =
        root.shape.leaves.map fun b => (1 / 2 : ℚ) ^ (root.shape.code b).length := by
      apply List.map_congr_left
      intro b hb
      rw [htable b hb]
    rw [hcodes]
    exact root.shape.sum_half_pow_code hnd
  · intro bs r reader hbs hg hbits
    have hencode : bs.flatMap (codeTable root) = root.shape.encode bs := by
      rw [CodeTree.encode, List.flatMap_def, List.flatMap_def]
      congr 1
      apply List.map_congr_left
      intro b hb
      exact htable b (hbs b hb)
    have hdecode := root.shape.decode_encode_append bs hbs r
    rw [← hencode, ← hbits] at hdecode
    obtain ⟨reader', hwalks, hrest, -⟩ := walks_of_decode hfull bs.length reader hg bs r hdecode
    exact ⟨reader', hwalks, hrest⟩

/-- A tree of three leaves that no table of frequencies makes. -/
def lopsided : HuffmanNode :=
  .node 7 0 (.leaf 97 9) (.node 0 1 (.leaf 98 0) (.leaf 99 9))

/-- A walk over two of its codes and three more bits. -/
theorem codeTable_walks_inverse_lopsided :
    ∃ reader reader' : BitReader, walks lopsided 2 reader = .ok ([99, 97], reader') ∧
      reader.bits = [true, true, false, true, false, true] ∧
      reader'.bits = [true, false, true] := by
  have hfull : lopsided.Full :=
    .node _ _ _ _ (.leaf 97 9) (.node _ _ _ _ (.leaf 98 0) (.leaf 99 9))
  obtain ⟨reader, hg, hbits⟩ := BitReader.exists_of_bits [true, true, false, true, false, true]
  have hbytes : ∀ b ∈ [99, 97], b ∈ lopsided.shape.leaves := by
    rw [List.forall_mem_cons, List.forall_mem_singleton]
    exact ⟨by decide, by decide⟩
  obtain ⟨reader', hwalks, hrest⟩ :=
    (codeTable_walks_inverse lopsided hfull (by decide) (by decide)).2.2.2 [99, 97]
      [true, false, true] reader hbytes hg hbits
  exact ⟨reader, reader', hwalks, hbits, hrest⟩

end Lacuna.Results
