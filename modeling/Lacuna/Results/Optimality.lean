import Lacuna.Library.OptimalMerge
import Lacuna.Analysis.TreeShape

/-!
# Huffman codes are optimal

The loop compares frequencies that are 64-bit sums. As long as the whole table adds up to less
than `2 ^ 64` these are the true weights, so every pop takes a lightest tree, and the loop is
the greedy merging that `OptimalMerge` proves optimal.
-/

set_option autoImplicit false

namespace Lacuna.Results

open Model Library

/-- The frequencies of a table as natural numbers. -/
def weightOf (frequencies : UInt8 → UInt64) (b : UInt8) : ℕ := (frequencies b).toNat

/-- The sum of all frequencies, not reduced. -/
def totalFrequency (frequencies : UInt8 → UInt64) : ℕ :=
  ((symbols frequencies).map (weightOf frequencies)).sum

/-- The number of bits a code spends on a text with the given frequencies. -/
def totalLength (frequencies : UInt8 → UInt64) (code : UInt8 → List Bool) : ℕ :=
  ((symbols frequencies).map fun b => weightOf frequencies b * (code b).length).sum

/-- A tree of the forest weighs no more than the whole table. -/
theorem weight_le_totalFrequency (frequencies : UInt8 → UInt64)
    (s : Multiset (CodeTree UInt8))
    (hs : forestLeaves s = (symbols frequencies : Multiset UInt8)) (t : CodeTree UInt8)
    (ht : t ∈ s) : t.weight (weightOf frequencies) ≤ totalFrequency frequencies := by
  obtain ⟨r, rfl⟩ := Multiset.exists_cons_of_mem ht
  rw [forestLeaves_cons] at hs
  have hsum := congrArg (fun m : Multiset UInt8 => (m.map (weightOf frequencies)).sum) hs
  simp only [Multiset.map_add, Multiset.sum_add, Multiset.map_coe, Multiset.sum_coe] at hsum
  rw [CodeTree.weight, totalFrequency]
  omega

/-- While nothing wraps around, the comparator prefers the lighter tree. -/
theorem heavier_of_treeComparator (frequencies : UInt8 → UInt64)
    (htotal : totalFrequency frequencies < 2 ^ 64) (s : Multiset (CodeTree UInt8))
    (hs : forestLeaves s = (symbols frequencies : Multiset UInt8)) (t : CodeTree UInt8)
    (ht : t ∈ s) (u : CodeTree UInt8) (hu : u ∈ s)
    (hle : treeComparator frequencies t u = false) :
    heavier (weightOf frequencies) t u = false := by
  have hexact : ∀ v ∈ s, (HuffmanNode.ofTree frequencies v).frequency.toNat =
      v.weight (weightOf frequencies) := by
    intro v hv
    have hv' := weight_le_totalFrequency frequencies s hs v hv
    rw [HuffmanNode.toNat_frequency_ofTree]
    exact Nat.mod_eq_of_lt (lt_of_le_of_lt hv' htotal)
  have hfreq : ¬ (HuffmanNode.ofTree frequencies u).frequency <
      (HuffmanNode.ofTree frequencies t).frequency := by
    intro hlt
    have hne : (HuffmanNode.ofTree frequencies t).frequency ≠
        (HuffmanNode.ofTree frequencies u).frequency := (UInt64.ne_of_lt hlt).symm
    rw [treeComparator, HuffmanNodeComparator, if_pos hne, decide_eq_false_iff_not] at hle
    exact hle hlt
  rw [UInt64.lt_iff_toNat_lt, hexact u hu, hexact t ht] at hfreq
  rw [heavier, decide_eq_false_iff_not]
  exact hfreq

/-- The codes of `build_tree` and `generate_codes` spend the path cost of the tree. -/
theorem totalLength_codeTable (frequencies : UInt8 → UInt64) (t : CodeTree UInt8)
    (hperm : t.leaves.Perm (symbols frequencies)) :
    totalLength frequencies (codeTable (HuffmanNode.ofTree frequencies t)) =
      t.pathCost (weightOf frequencies) := by
  have hnd : t.leaves.Nodup := hperm.nodup_iff.mpr (nodup_symbols frequencies)
  rw [CodeTree.pathCost_eq _ _ hnd, totalLength, codeTable_ofTree frequencies t hnd,
    ← (hperm.map _).sum_eq]
  congr 1
  apply List.map_congr_left
  intro b hb
  simp only [hb, if_true]

/-- **Huffman optimality.** For a table with at least two positive entries and a total below
`2 ^ 64`, no prefix-free code for the same symbols is shorter than the one `build_tree` and
`generate_codes` produce. -/
theorem totalLength_codeTable_le (T : Target) (frequencies : UInt8 → UInt64)
    (htwo : 2 ≤ (symbols frequencies).length)
    (htotal : totalFrequency frequencies < 2 ^ 64) (code : UInt8 → List Bool)
    (hcode : PrefixFree code (symbols frequencies)) :
    totalLength frequencies (codeTable (buildTree T frequencies)) ≤
      totalLength frequencies code := by
  rcases buildTree_spec T frequencies with ⟨hnil, -⟩ | ⟨t, ht, hrun⟩
  · rw [hnil] at htwo
    simp at htwo
  · have hgreedy : MergeRun (heavier (weightOf frequencies)) CodeTree.node
        (leafForest frequencies) {t} := by
      refine hrun.mono
        (P := fun s => forestLeaves s = (symbols frequencies : Multiset UInt8)) ?_ ?_ (by simp)
      · intro s s' hstep hs
        rw [hstep.forestLeaves, hs]
      · exact heavier_of_treeComparator frequencies htotal
    rw [ht, totalLength_codeTable frequencies t (leaves_perm_symbols frequencies t hrun)]
    exact pathCost_le_prefixFree _ _ (nodup_symbols frequencies) htwo hgreedy code hcode

/-- A table of three symbols. -/
def threeSymbols (b : UInt8) : UInt64 :=
  if b = 97 then 3 else if b = 98 then 2 else if b = 99 then 1 else 0

/-- A prefix-free code that favours the rarest of them. -/
def rarestFirst (b : UInt8) : List Bool :=
  if b = 97 then [false, false] else if b = 98 then [false, true] else [true]

/-- The comparison for this table and this code. -/
theorem totalLength_codeTable_le_rarestFirst :
    totalLength threeSymbols (codeTable (buildTree Target.scan threeSymbols)) ≤
      totalLength threeSymbols rarestFirst := by
  have hsymbols : symbols threeSymbols = [97, 98, 99] := by decide +kernel
  refine totalLength_codeTable_le Target.scan threeSymbols ?_ ?_ rarestFirst ?_
  · rw [hsymbols]
    decide
  · rw [totalFrequency, hsymbols]
    decide
  · rw [hsymbols]
    intro a ha b hb
    simp only [List.mem_cons, List.not_mem_nil, or_false] at ha hb
    rcases ha with rfl | rfl | rfl <;> rcases hb with rfl | rfl | rfl <;> decide

end Lacuna.Results
