import Mathlib.Analysis.SpecialFunctions.Log.Base
import Lacuna.Library.OptimalMerge

/-!
# Entropy bounds for greedy merging

For symbols with positive weights the entropy is `∑ w * log₂ (W / w)`, where `W` is the sum of
the weights. By Gibbs' inequality and Kraft's sum no code tree costs less
(`entropy_le_pathCost`). Codeword lengths that round `log₂ (W / w)` up satisfy Kraft's inequality,
so by the exchange argument of `OptimalMerge` greedy merging costs less than one bit a symbol more
(`pathCost_lt_entropy`). The same argument with one length for all symbols bounds the cost by
that of a fixed-length code (`pathCost_le_fixed`).
-/

set_option autoImplicit false

namespace Lacuna.Library

variable {α : Type}

/-! ## Codewords of one length -/

/-- Greedy merging costs no more than codewords of one length, where there are enough of them. -/
theorem pathCost_le_fixed (w : α → ℕ) (l : List α) {t : CodeTree α}
    (h : MergeRun (heavier w) CodeTree.node (l.map CodeTree.leaf : List (CodeTree α)) {t})
    (k : ℕ) (hk : l.length ≤ 2 ^ k) : t.pathCost w ≤ k * (l.map w).sum := by
  have hkraft : Kraft k (l.map fun _ => k : List ℕ) := by
    constructor
    · intro d hd
      obtain ⟨a, -, rfl⟩ := List.mem_map.mp (Multiset.mem_coe.mp hd)
      exact le_rfl
    · simpa using hk
  have hbound := pathCost_le_lengths w l h k (fun _ => k) hkraft
  rw [List.sum_map_mul_right, Nat.mul_comm] at hbound
  exact hbound

/-! ## Entropy -/

/-- The bits it takes to tell a symbol of weight `n` from symbols that weigh `W` together. -/
noncomputable def surprise (W n : ℕ) : ℝ := Real.logb 2 (W / n)

/-- The entropy of weighted symbols, times the sum of the weights. -/
noncomputable def entropy (w : α → ℕ) (l : List α) : ℝ :=
  (l.map fun a => (w a : ℝ) * surprise (l.map w).sum (w a)).sum

/-- The entropy does not depend on the order of the symbols. -/
theorem entropy_perm (w : α → ℕ) {l l' : List α} (h : l.Perm l') :
    entropy w l = entropy w l' := by
  rw [entropy, entropy, (h.map w).sum_eq]
  exact (h.map _).sum_eq

/-- **Gibbs' inequality** for one symbol: the surprise over the length of its codeword is at most
the difference of the two masses. -/
theorem mul_surprise_sub_add_le (w W n : ℕ) (hw : 0 < w) (hW : 0 < W) :
    (w : ℝ) * (surprise W w - n) * Real.log 2 + w ≤ W * (1 / 2 : ℝ) ^ n := by
  have hw' : (0 : ℝ) < w := by exact_mod_cast hw
  have hW' : (0 : ℝ) < W := by exact_mod_cast hW
  have hratio : (0 : ℝ) < W / w * (1 / 2 : ℝ) ^ n := by positivity
  have hlog2 : Real.log 2 ≠ 0 := (Real.log_pos (by norm_num)).ne'
  have hlog : (surprise W w - n) * Real.log 2 =
      Real.log (W / w * (1 / 2 : ℝ) ^ n) := by
    rw [Real.log_mul (by positivity) (by positivity), Real.log_pow, one_div, Real.log_inv,
      sub_mul, surprise, Real.logb, div_mul_cancel₀ _ hlog2]
    ring
  calc (w : ℝ) * (surprise W w - n) * Real.log 2 + w
      = w * Real.log (W / w * (1 / 2 : ℝ) ^ n) + w := by rw [mul_assoc, hlog]
    _ ≤ w * (W / w * (1 / 2 : ℝ) ^ n - 1) + w :=
        add_le_add_left (mul_le_mul_of_nonneg_left (Real.log_le_sub_one_of_pos hratio) hw'.le) _
    _ = W * (1 / 2 : ℝ) ^ n := by field_simp; ring

/-- **Lengths that satisfy Kraft's inequality cost at least the entropy.** -/
theorem entropy_le_lengths (w : α → ℕ) (l : List α) (hpos : ∀ a ∈ l, 0 < w a) (d : α → ℕ)
    (hd : (l.map fun a => (1 / 2 : ℝ) ^ d a).sum ≤ 1) :
    entropy w l ≤ (l.map fun a => (w a : ℝ) * d a).sum := by
  set W := (l.map w).sum with hW
  have hlog2 : (0 : ℝ) < Real.log 2 := Real.log_pos (by norm_num)
  have hcast : (l.map fun a => (w a : ℝ)).sum = W := by
    rw [hW, Nat.cast_list_sum, List.map_map]
    rfl
  set surplus := (l.map fun a => (w a : ℝ) * (surprise W (w a) - d a)).sum with hsurplus
  have hgibbs : surplus * Real.log 2 + W ≤ W * (l.map fun a => (1 / 2 : ℝ) ^ d a).sum := by
    rw [hsurplus, ← hcast, ← List.sum_map_mul_right, ← List.sum_map_add, hcast,
      ← List.sum_map_mul_left]
    apply List.sum_le_sum
    intro a ha
    have hWpos : 0 < W := lt_of_lt_of_le (hpos a ha)
      (List.single_le_sum (by simp) _ (List.mem_map_of_mem ha))
    exact mul_surprise_sub_add_le (w a) W (d a) (hpos a ha) hWpos
  have hsplit : entropy w l = surplus + (l.map fun a => (w a : ℝ) * d a).sum := by
    rw [hsurplus, ← List.sum_map_add, entropy, ← hW]
    congr 1
    apply List.map_congr_left
    intro a _
    ring
  have hkraft : (W : ℝ) * (l.map fun a => (1 / 2 : ℝ) ^ d a).sum ≤ W :=
    mul_le_of_le_one_right (Nat.cast_nonneg W) hd
  have hneg : surplus ≤ 0 := by
    by_contra hlt
    have hmul := mul_pos (not_le.mp hlt) hlog2
    linarith
  linarith

variable [DecidableEq α]

/-- **No code tree costs less than the entropy.** -/
theorem entropy_le_pathCost (w : α → ℕ) (t : CodeTree α) (hnd : t.leaves.Nodup)
    (hpos : ∀ a ∈ t.leaves, 0 < w a) : entropy w t.leaves ≤ (t.pathCost w : ℕ) := by
  have hkraft := congrArg (fun q : ℚ => (q : ℝ)) (t.sum_half_pow_code hnd)
  simp only [Rat.cast_list_sum, List.map_map, Function.comp_def, Rat.cast_pow, Rat.cast_div,
    Rat.cast_one, Rat.cast_ofNat] at hkraft
  have hbound := entropy_le_lengths w t.leaves hpos (fun a => (t.code a).length) hkraft.le
  rw [t.pathCost_eq w hnd, Nat.cast_list_sum, List.map_map]
  simpa only [Function.comp_def, Nat.cast_mul] using hbound

/-- The length that rounds the surprise of a symbol up. -/
noncomputable def shannonLength (w : α → ℕ) (l : List α) (a : α) : ℕ :=
  ⌈surprise (l.map w).sum (w a)⌉₊

omit [DecidableEq α] in
/-- Rounding up does not raise the mass of a symbol over its share. -/
theorem half_pow_shannonLength_le (w : α → ℕ) (l : List α) (a : α) (ha : a ∈ l)
    (hpos : 0 < w a) :
    (1 / 2 : ℝ) ^ shannonLength w l a ≤ w a / (l.map w).sum := by
  have hW : 0 < (l.map w).sum := lt_of_lt_of_le hpos
    (List.single_le_sum (by simp) _ (List.mem_map_of_mem ha))
  have hw' : (0 : ℝ) < w a := by exact_mod_cast hpos
  have hW' : (0 : ℝ) < (l.map w).sum := by exact_mod_cast hW
  have hle : surprise (l.map w).sum (w a) ≤ shannonLength w l a := Nat.le_ceil _
  rw [surprise, Real.logb_le_iff_le_rpow (by norm_num) (by positivity), Real.rpow_natCast] at hle
  rw [one_div, inv_pow, inv_le_comm₀ (by positivity) (by positivity), inv_div]
  exact hle

omit [DecidableEq α] in
/-- The rounded lengths satisfy Kraft's inequality. -/
theorem sum_half_pow_shannonLength (w : α → ℕ) (l : List α) (hpos : ∀ a ∈ l, 0 < w a) :
    (l.map fun a => (1 / 2 : ℝ) ^ shannonLength w l a).sum ≤ 1 := by
  have hshare : (l.map fun a => (1 / 2 : ℝ) ^ shannonLength w l a).sum ≤
      (l.map fun a => (w a : ℝ) * ((l.map w).sum : ℝ)⁻¹).sum := by
    apply List.sum_le_sum
    intro a ha
    rw [← div_eq_mul_inv]
    exact half_pow_shannonLength_le w l a ha (hpos a ha)
  refine hshare.trans ?_
  rw [List.sum_map_mul_right]
  have hcast : (l.map fun a => (w a : ℝ)).sum = ((l.map w).sum : ℕ) := by
    rw [Nat.cast_list_sum, List.map_map]
    rfl
  rw [hcast]
  exact mul_inv_le_one

omit [DecidableEq α] in
/-- **Greedy merging costs less than one bit a symbol over the entropy.** -/
theorem pathCost_lt_entropy (w : α → ℕ) (l : List α) (hne : l ≠ []) (hpos : ∀ a ∈ l, 0 < w a)
    {t : CodeTree α}
    (h : MergeRun (heavier w) CodeTree.node (l.map CodeTree.leaf : List (CodeTree α)) {t}) :
    ((t.pathCost w : ℕ) : ℝ) < entropy w l + ((l.map w).sum : ℕ) := by
  set m := (l.map (shannonLength w l)).sum with hm
  have hbounded : ∀ d ∈ l.map (shannonLength w l), d ≤ m := fun d hd =>
    List.le_sum_of_mem hd
  have hkraft : Kraft m (l.map (shannonLength w l) : List ℕ) := by
    refine ⟨fun d hd => hbounded d (Multiset.mem_coe.mp hd), ?_⟩
    have hscale := cast_sum_two_pow m (l.map (shannonLength w l)) hbounded
    have hmul := mul_le_mul_of_nonneg_left (sum_half_pow_shannonLength w l hpos)
      (by positivity : (0 : ℝ) ≤ 2 ^ m)
    rw [List.map_map, List.map_map] at hscale
    rw [mul_one] at hmul
    have hreal := hscale.trans_le hmul
    rw [Multiset.map_coe, Multiset.sum_coe, List.map_map]
    exact_mod_cast hreal
  have hcost := pathCost_le_lengths w l h m (shannonLength w l) hkraft
  have hround : (l.map fun a => ((w a * shannonLength w l a : ℕ) : ℝ)).sum <
      (l.map fun a => (w a : ℝ) * surprise (l.map w).sum (w a) + w a).sum := by
    apply List.sum_lt_sum_of_ne_nil hne
    intro a ha
    have hw' : (0 : ℝ) < w a := by exact_mod_cast hpos a ha
    have hone : (1 : ℝ) ≤ (l.map w).sum / w a := by
      rw [le_div_iff₀ hw', one_mul]
      exact_mod_cast List.single_le_sum (by simp) _ (List.mem_map_of_mem ha)
    have hceil : (shannonLength w l a : ℝ) < surprise (l.map w).sum (w a) + 1 :=
      Nat.ceil_lt_add_one (Real.logb_nonneg (by norm_num) hone)
    rw [Nat.cast_mul]
    nlinarith
  have hcast : ((t.pathCost w : ℕ) : ℝ) ≤
      (l.map fun a => ((w a * shannonLength w l a : ℕ) : ℝ)).sum := by
    have hcost' : ((t.pathCost w : ℕ) : ℝ) ≤
        ((l.map fun a => w a * shannonLength w l a).sum : ℕ) := by exact_mod_cast hcost
    rw [Nat.cast_list_sum, List.map_map] at hcost'
    exact hcost'
  refine lt_of_le_of_lt hcast (lt_of_lt_of_eq hround ?_)
  rw [List.sum_map_add, entropy, Nat.cast_list_sum, List.map_map]
  rfl

end Lacuna.Library
