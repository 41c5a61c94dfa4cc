import Mathlib.Data.Nat.Fib.Basic
import Lacuna.Library.OptimalMerge

/-!
# Greedy merging keeps walks short

When two trees are merged, every other tree of the forest is at least as heavy as either of them.
So in the trees of a greedy run a node is never lighter than the children of its sibling
(`Graded`), and going up a walk the weights grow at least like the Fibonacci numbers. A codeword
of length `n` for a symbol of weight `f` needs a tree of weight `f * fib (n + 1) + fib n`
(`Graded.le_weight`). And of two symbols the heavier one has the shorter codeword
(`MergeRun.length_code_le`).
-/

set_option autoImplicit false

namespace Lacuna.Library

variable {α : Type}

namespace CodeTree

/-- The children of a node weigh at most `m`. -/
def ChildrenLe (w : α → ℕ) (m : ℕ) : CodeTree α → Prop
  | leaf _ => True
  | node left right => left.weight w ≤ m ∧ right.weight w ≤ m

/-- No node is lighter than the children of its sibling. -/
def Graded (w : α → ℕ) : CodeTree α → Prop
  | leaf _ => True
  | node left right => left.Graded w ∧ right.Graded w ∧
    left.ChildrenLe w (right.weight w) ∧ right.ChildrenLe w (left.weight w)

/-- A greater bound is a bound. -/
theorem ChildrenLe.mono {w : α → ℕ} {m n : ℕ} {t : CodeTree α} (h : t.ChildrenLe w m)
    (hmn : m ≤ n) : t.ChildrenLe w n := by
  cases t with
  | leaf a => trivial
  | node left right => exact ⟨h.1.trans hmn, h.2.trans hmn⟩

/-- A leaf weighs no more than its tree. -/
theorem le_weight_of_mem (w : α → ℕ) (t : CodeTree α) (a : α) (h : a ∈ t.leaves) :
    w a ≤ t.weight w :=
  List.single_le_sum (by simp) _ (List.mem_map_of_mem h)

/-- A tree whose leaves have positive weights has one. -/
theorem weight_pos (w : α → ℕ) (t : CodeTree α) (hpos : ∀ a ∈ t.leaves, 0 < w a) :
    0 < t.weight w := by
  obtain ⟨a, ha⟩ := List.exists_mem_of_ne_nil _ t.leaves_ne_nil
  exact lt_of_lt_of_le (hpos a ha) (t.le_weight_of_mem w a ha)

variable [DecidableEq α]

/-- **How heavy a graded tree is above a symbol.** The second part bounds what a sibling of the
tree weighs, which is not less than the child the symbol lies in. -/
theorem Graded.le_weight_and_sibling (w : α → ℕ) (t : CodeTree α) (ht : t.Graded w)
    (hnd : t.leaves.Nodup) (hpos : ∀ a ∈ t.leaves, 0 < w a) (a : α) (ha : a ∈ t.leaves) :
    w a * Nat.fib ((t.code a).length + 1) + Nat.fib (t.code a).length ≤ t.weight w ∧
      ∀ m, 0 < m → t.ChildrenLe w m →
        w a * Nat.fib ((t.code a).length + 1) + Nat.fib (t.code a).length + m ≥
          w a * Nat.fib ((t.code a).length + 2) + Nat.fib ((t.code a).length + 1) := by
  induction t with
  | leaf b =>
    rw [leaves, List.mem_singleton] at ha
    subst ha
    simp only [code, List.length_nil, weight_leaf, Nat.zero_add, Nat.fib_zero, Nat.fib_one,
      Nat.fib_two, Nat.mul_one, Nat.add_zero, le_refl, true_and]
    intro m hm _
    omega
  | node left right ihl ihr =>
    obtain ⟨hgl, hgr, hcl, hcr⟩ := ht
    have hposl : ∀ b ∈ left.leaves, 0 < w b := fun b hb =>
      hpos b (List.mem_append_left _ hb)
    have hposr : ∀ b ∈ right.leaves, 0 < w b := fun b hb =>
      hpos b (List.mem_append_right _ hb)
    obtain ⟨hndl, hndr, -⟩ := List.nodup_append'.mp hnd
    -- one step up, from the child with the symbol; its sibling is the other child
    have hup : ∀ (n c s : ℕ), w a * Nat.fib (n + 1) + Nat.fib n ≤ c →
        w a * Nat.fib (n + 1) + Nat.fib n + s ≥ w a * Nat.fib (n + 2) + Nat.fib (n + 1) →
        w a * Nat.fib (n + 2) + Nat.fib (n + 1) ≤ c + s ∧
          ∀ m, 0 < m → c ≤ m → w a * Nat.fib (n + 2) + Nat.fib (n + 1) + m ≥
            w a * Nat.fib (n + 3) + Nat.fib (n + 2) := by
      intro n c s hc hs
      refine ⟨by omega, fun m _ hm => ?_⟩
      have h3 : Nat.fib (n + 3) = Nat.fib (n + 1) + Nat.fib (n + 2) := Nat.fib_add_two
      have h2 : Nat.fib (n + 2) = Nat.fib n + Nat.fib (n + 1) := Nat.fib_add_two
      rw [h3, Nat.mul_add]
      omega
    rw [weight_node]
    rcases List.mem_append.mp ha with ha | ha
    · obtain ⟨hweight, hsibling⟩ := ihl hgl hndl hposl ha
      have hstep := hup _ _ _ hweight (hsibling _ (right.weight_pos w hposr) hcl)
      rw [code_of_mem_left left right a ha, List.length_cons]
      exact ⟨hstep.1, fun m hm hchildren => hstep.2 m hm hchildren.1⟩
    · obtain ⟨hweight, hsibling⟩ := ihr hgr hndr hposr ha
      have hstep := hup _ _ _ hweight (hsibling _ (left.weight_pos w hposl) hcr)
      rw [code_of_mem_right left right hnd a ha, List.length_cons, Nat.add_comm (left.weight w)]
      exact ⟨hstep.1, fun m hm hchildren => hstep.2 m hm hchildren.2⟩

/-- **A long codeword needs a heavy tree.** -/
theorem Graded.le_weight (w : α → ℕ) (t : CodeTree α) (ht : t.Graded w) (hnd : t.leaves.Nodup)
    (hpos : ∀ a ∈ t.leaves, 0 < w a) (a : α) (ha : a ∈ t.leaves) :
    w a * Nat.fib ((t.code a).length + 1) + Nat.fib (t.code a).length ≤ t.weight w :=
  (ht.le_weight_and_sibling w t hnd hpos a ha).1

/-- Some codeword is as long as the tree is deep. -/
theorem exists_length_code_eq_depth (t : CodeTree α) (hnd : t.leaves.Nodup) :
    ∃ a ∈ t.leaves, (t.code a).length = t.depth := by
  induction t with
  | leaf a => exact ⟨a, by simp [leaves], rfl⟩
  | node left right ihl ihr =>
    obtain ⟨hndl, hndr, -⟩ := List.nodup_append'.mp hnd
    rcases le_total right.depth left.depth with hle | hle
    · obtain ⟨a, ha, hlen⟩ := ihl hndl
      refine ⟨a, List.mem_append_left _ ha, ?_⟩
      rw [code_of_mem_left left right a ha, List.length_cons, hlen, depth, max_eq_left hle]
    · obtain ⟨a, ha, hlen⟩ := ihr hndr
      refine ⟨a, List.mem_append_right _ ha, ?_⟩
      rw [code_of_mem_right left right hnd a ha, List.length_cons, hlen, depth,
        max_eq_right hle]

end CodeTree

/-! ## The invariant of the runs -/

/-- The trees of a forest are graded, and so is any merger of two of them. -/
structure GradedForest (w : α → ℕ) (s : Multiset (CodeTree α)) : Prop where
  graded : ∀ t ∈ s, t.Graded w
  children : ∀ t ∈ s, ∀ u ∈ s, t.ChildrenLe w (u.weight w)

/-- Leaves alone are graded. -/
theorem gradedForest_of_leaves (w : α → ℕ) (s : Multiset (CodeTree α))
    (h : ∀ t ∈ s, ∃ a, t = CodeTree.leaf a) : GradedForest w s := by
  constructor
  · intro t ht
    obtain ⟨a, rfl⟩ := h t ht
    trivial
  · intro t ht u _
    obtain ⟨a, rfl⟩ := h t ht
    trivial

/-- **Greedy merging keeps a forest graded.** -/
theorem MergeStep.gradedForest {w : α → ℕ} {s s' : Multiset (CodeTree α)}
    (h : MergeStep (heavier w) CodeTree.node s s') (hs : GradedForest w s) :
    GradedForest w s' := by
  cases h with
  | step a b r ha hb =>
    have hmema : a ∈ a ::ₘ b ::ₘ r := Multiset.mem_cons_self a _
    have hmemb : b ∈ a ::ₘ b ::ₘ r := Multiset.mem_cons_of_mem (Multiset.mem_cons_self b r)
    have hmemr : ∀ t ∈ r, t ∈ a ::ₘ b ::ₘ r := fun t ht =>
      Multiset.mem_cons_of_mem (Multiset.mem_cons_of_mem ht)
    constructor
    · intro t ht
      rcases Multiset.mem_cons.mp ht with rfl | ht
      · exact ⟨hs.graded a hmema, hs.graded b hmemb, hs.children a hmema b hmemb,
          hs.children b hmemb a hmema⟩
      · exact hs.graded t (hmemr t ht)
    · intro t ht u hu
      rcases Multiset.mem_cons.mp ht with rfl | ht
      · rcases Multiset.mem_cons.mp hu with rfl | hu
        · rw [CodeTree.weight_node]
          exact ⟨Nat.le_add_right _ _, Nat.le_add_left _ _⟩
        · -- the others are not lighter than the two that were taken
          have hau := ha u (Multiset.mem_cons_of_mem hu)
          have hbu := hb u hu
          rw [heavier, decide_eq_false_iff_not, Nat.not_lt] at hau hbu
          exact ⟨hau, hbu⟩
      · rcases Multiset.mem_cons.mp hu with rfl | hu
        · rw [CodeTree.weight_node]
          exact (hs.children t (hmemr t ht) a hmema).mono (Nat.le_add_right _ _)
        · exact hs.children t (hmemr t ht) u (hmemr u hu)

/-- The tree at the end of a greedy run from leaves is graded. -/
theorem MergeRun.graded {w : α → ℕ} {s : Multiset (CodeTree α)} {t : CodeTree α}
    (h : MergeRun (heavier w) CodeTree.node s {t}) (hs : ∀ u ∈ s, ∃ a, u = CodeTree.leaf a) :
    t.Graded w :=
  (h.invariant (P := GradedForest w) (fun _ _ hstep => hstep.gradedForest)
    (gradedForest_of_leaves w s hs)).graded t (Multiset.mem_singleton_self t)

/-! ## Heavy symbols -/

/-- **A heavier symbol has no longer codeword** in the tree of a greedy run: exchanged, the two
codewords would cost less. -/
theorem MergeRun.length_code_le [DecidableEq α] {w : α → ℕ} {l : List α} (hnd : l.Nodup)
    {t : CodeTree α}
    (h : MergeRun (heavier w) CodeTree.node (l.map CodeTree.leaf : List (CodeTree α)) {t})
    (hperm : t.leaves.Perm l) (a b : α) (ha : a ∈ l) (hb : b ∈ l) (hab : w b < w a) :
    (t.code a).length ≤ (t.code b).length := by
  have hne : b ≠ a := by
    rintro rfl
    exact absurd hab (lt_irrefl _)
  have hndt : t.leaves.Nodup := hperm.nodup_iff.mpr hnd
  obtain ⟨r, hr⟩ : ∃ r, l.Perm (a :: b :: r) :=
    ⟨(l.erase a).erase b, (List.perm_cons_erase ha).trans
      ((List.perm_cons_erase ((List.mem_erase_of_ne hne).mpr hb)).cons a)⟩
  have hndr := hr.nodup_iff.mp hnd
  have hrest : ∀ c ∈ r, Equiv.swap a b c = c := by
    intro c hc
    rw [List.nodup_cons, List.nodup_cons] at hndr
    apply Equiv.swap_apply_of_ne_of_ne
    · rintro rfl
      exact hndr.1 (List.mem_cons_of_mem b hc)
    · rintro rfl
      exact hndr.2.1 hc
  -- the exchanged lengths satisfy Kraft's inequality as well
  have hprefix : PrefixFree t.code l := fun c hc d hd =>
    t.code_prefix_free c d (hperm.mem_iff.mpr hc) (hperm.mem_iff.mpr hd)
  have htwo : 2 ≤ l.length := by
    rw [hr.length_eq, List.length_cons, List.length_cons]
    omega
  have hkraft := hprefix.kraft hnd htwo _ fun c hc =>
    List.le_sum_of_mem (List.mem_map.mpr ⟨c, hc, rfl⟩)
  have hsame : (l.map fun c => (t.code (Equiv.swap a b c)).length).Perm
      (l.map fun c => (t.code c).length) := by
    refine (hr.map _).trans (List.Perm.trans ?_ (hr.map _).symm)
    have htail : r.map (fun c => (t.code (Equiv.swap a b c)).length) =
        r.map fun c => (t.code c).length :=
      List.map_congr_left fun c hc => by rw [hrest c hc]
    rw [List.map_cons, List.map_cons, List.map_cons, List.map_cons, Equiv.swap_apply_left,
      Equiv.swap_apply_right, htail]
    exact List.Perm.swap _ _ _
  rw [← Multiset.coe_eq_coe.mpr hsame] at hkraft
  have hcost := pathCost_le_lengths w l h _ (fun c => (t.code (Equiv.swap a b c)).length) hkraft
  rw [t.pathCost_eq w hndt, (hperm.map _).sum_eq, (hr.map _).sum_eq, (hr.map _).sum_eq] at hcost
  have htail : r.map (fun c => w c * (t.code (Equiv.swap a b c)).length) =
      r.map fun c => w c * (t.code c).length :=
    List.map_congr_left fun c hc => by rw [hrest c hc]
  simp only [List.map_cons, List.sum_cons, Equiv.swap_apply_left, Equiv.swap_apply_right,
    htail] at hcost
  by_contra hlt
  rw [not_le] at hlt
  nlinarith

end Lacuna.Library
