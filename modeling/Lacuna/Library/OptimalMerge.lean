import Mathlib.InformationTheory.Coding.KraftMcMillan
import Lacuna.Library.CodeTree

/-!
# Greedy merging is optimal

A forest of code trees is merged by taking two trees of least weight at every step. The tree a
run ends with has the least path cost there is: whatever depths are given to the trees of the
forest, if the depths satisfy Kraft's inequality then the weighted depths come to no less
(`pathCost_le_depthCost`). The argument follows the run. A depth assignment is changed so that
the two lightest trees lie side by side at the greatest depth (`exists_deepest_pair`,
`exists_exchange`), and then they are merged. Prefix-free codes satisfy Kraft's inequality, so
no prefix-free code is shorter than the codewords of the tree (`pathCost_le_prefixFree`), and none
spends less on a text (`pathCost_le_length_flatMap`).
-/

set_option autoImplicit false

namespace Lacuna.Library

variable {α : Type}

/-! ## Depths and Kraft's inequality -/

/-- Kraft's inequality for depths up to `m`, multiplied by `2 ^ m`. -/
structure Kraft (m : ℕ) (D : Multiset ℕ) : Prop where
  bounded : ∀ d ∈ D, d ≤ m
  sum_le : (D.map fun d => 2 ^ (m - d)).sum ≤ 2 ^ m

/-- A sum of powers with positive exponents is even. -/
theorem sum_two_pow_eq_two_mul (m : ℕ) (D : Multiset ℕ) (h : ∀ d ∈ D, d ≤ m) :
    (D.map fun d => 2 ^ (m + 1 - d)).sum = 2 * (D.map fun d => 2 ^ (m - d)).sum := by
  rw [← Multiset.sum_map_mul_left]
  congr 1
  apply Multiset.map_congr rfl
  intro d hd
  have hd' := h d hd
  rw [Nat.succ_sub hd', pow_succ, Nat.mul_comm]

/-- If nothing is at the greatest depth, the bound can be lowered. -/
theorem Kraft.lower {m : ℕ} {D : Multiset ℕ} (h : Kraft (m + 1) D) (hlt : ∀ d ∈ D, d ≤ m) :
    Kraft m D := by
  refine ⟨hlt, ?_⟩
  have hsum := h.sum_le
  rw [sum_two_pow_eq_two_mul m D hlt, pow_succ] at hsum
  omega

/-- What is alone at the greatest depth can be raised by one: the powers of the others are
even, so Kraft's sum has room for another one. -/
theorem Kraft.raise {m : ℕ} {D : Multiset ℕ} (h : Kraft (m + 1) ((m + 1) ::ₘ D))
    (hlt : ∀ d ∈ D, d ≤ m) : Kraft m (m ::ₘ D) := by
  constructor
  · intro d hd
    rcases Multiset.mem_cons.mp hd with rfl | hd
    · exact le_rfl
    · exact hlt d hd
  · have hsum := h.sum_le
    rw [Multiset.map_cons, Multiset.sum_cons, sum_two_pow_eq_two_mul m D hlt, pow_succ] at hsum
    rw [Multiset.map_cons, Multiset.sum_cons]
    simp only [Nat.sub_self, pow_zero] at hsum ⊢
    omega

/-- Two at the greatest depth give way to one a level higher: Kraft's sum stays. -/
theorem Kraft.merge {k : ℕ} {D : Multiset ℕ} (h : Kraft k (k ::ₘ k ::ₘ D)) :
    1 ≤ k ∧ Kraft k ((k - 1) ::ₘ D) := by
  have hsum := h.sum_le
  simp only [Multiset.map_cons, Multiset.sum_cons, Nat.sub_self, pow_zero] at hsum
  have hk : 1 ≤ k := by
    by_contra hk
    have hk0 : k = 0 := by omega
    subst hk0
    rw [pow_zero] at hsum
    omega
  refine ⟨hk, ?_, ?_⟩
  · intro d hd
    rcases Multiset.mem_cons.mp hd with rfl | hd
    · exact Nat.sub_le k 1
    · exact h.bounded d (Multiset.mem_cons_of_mem (Multiset.mem_cons_of_mem hd))
  · have hone : k - (k - 1) = 1 := by omega
    simp only [Multiset.map_cons, Multiset.sum_cons, hone, pow_one]
    omega

/-! ## Depth assignments -/

/-- The path cost of trees placed at given depths. -/
def depthCost (w : α → ℕ) (L : Multiset (CodeTree α × ℕ)) : ℕ :=
  (L.map fun p => p.1.pathCost w + p.1.weight w * p.2).sum

@[simp] theorem depthCost_cons (w : α → ℕ) (p : CodeTree α × ℕ)
    (L : Multiset (CodeTree α × ℕ)) :
    depthCost w (p ::ₘ L) = p.1.pathCost w + p.1.weight w * p.2 + depthCost w L := by
  simp [depthCost]

/-- A tree at a given depth, taken out of the assignment. -/
theorem exists_cons_of_mem_snd {L : Multiset (CodeTree α × ℕ)} {d : ℕ}
    (h : d ∈ L.map Prod.snd) : ∃ t R, L = (t, d) ::ₘ R := by
  obtain ⟨⟨t, d'⟩, hp, rfl⟩ := Multiset.mem_map.mp h
  obtain ⟨R, hR⟩ := Multiset.exists_cons_of_mem hp
  exact ⟨t, R, hR⟩

/-- **There are two deepest trees**, in some assignment that costs no more. -/
theorem exists_deepest_pair (w : α → ℕ) (m : ℕ) (L : Multiset (CodeTree α × ℕ))
    (hcard : 2 ≤ L.card) (hkraft : Kraft m (L.map Prod.snd)) :
    ∃ (k : ℕ) (t u : CodeTree α) (R : Multiset (CodeTree α × ℕ)),
      Kraft k (k ::ₘ k ::ₘ R.map Prod.snd) ∧ t ::ₘ u ::ₘ R.map Prod.fst = L.map Prod.fst ∧
      depthCost w ((t, k) ::ₘ (u, k) ::ₘ R) ≤ depthCost w L := by
  induction m generalizing L with
  | zero =>
    -- every depth is zero
    have hzero : ∀ p ∈ L, p.2 = 0 := fun p hp =>
      Nat.le_zero.mp (hkraft.bounded p.2 (Multiset.mem_map_of_mem Prod.snd hp))
    obtain ⟨p, hp⟩ := Multiset.card_pos_iff_exists_mem.mp (by omega : 0 < L.card)
    obtain ⟨L', rfl⟩ := Multiset.exists_cons_of_mem hp
    rw [Multiset.card_cons] at hcard
    obtain ⟨q, hq⟩ := Multiset.card_pos_iff_exists_mem.mp (by omega : 0 < L'.card)
    obtain ⟨R, rfl⟩ := Multiset.exists_cons_of_mem hq
    have hp0 := hzero p hp
    have hq0 := hzero q (Multiset.mem_cons_of_mem hq)
    simp only [Multiset.map_cons, hp0, hq0] at hkraft
    refine ⟨0, p.1, q.1, R, hkraft, by simp, ?_⟩
    simp only [depthCost_cons, hp0, hq0, le_refl]
  | succ m ih =>
    have hle : ∀ d ∈ L.map Prod.snd, d ≠ m + 1 → d ≤ m := by
      intro d hd hne
      have hd' := hkraft.bounded d hd
      omega
    by_cases hone : m + 1 ∈ L.map Prod.snd
    · obtain ⟨t, L', rfl⟩ := exists_cons_of_mem_snd hone
      rw [Multiset.map_cons] at hkraft hle
      by_cases htwo : m + 1 ∈ L'.map Prod.snd
      · obtain ⟨u, R, rfl⟩ := exists_cons_of_mem_snd htwo
        rw [Multiset.map_cons] at hkraft
        exact ⟨m + 1, t, u, R, hkraft, by simp, le_rfl⟩
      · -- one tree alone is deepest: raise it
        have hlt : ∀ d ∈ L'.map Prod.snd, d ≤ m := by
          intro d hd
          exact hle d (Multiset.mem_cons_of_mem hd) fun heq => htwo (heq ▸ hd)
        have hraised : Kraft m (((t, m) ::ₘ L').map Prod.snd) := by
          rw [Multiset.map_cons]
          exact hkraft.raise hlt
        obtain ⟨k, a, b, R, hk, hfst, hcost⟩ :=
          ih ((t, m) ::ₘ L') (by simpa using hcard) hraised
        refine ⟨k, a, b, R, hk, by rw [hfst]; simp, le_trans hcost ?_⟩
        have hmul : t.weight w * m ≤ t.weight w * (m + 1) :=
          Nat.mul_le_mul_left _ (Nat.le_succ m)
        rw [depthCost_cons, depthCost_cons]
        dsimp only
        omega
    · have hlt : ∀ d ∈ L.map Prod.snd, d ≤ m := fun d hd =>
        hle d hd fun heq => hone (heq ▸ hd)
      exact ih L hcard (hkraft.lower hlt)

/-- **The exchange.** A tree no heavier takes the place of a tree at the greatest depth; the
depths stay and the cost does not grow. -/
theorem exists_exchange (w : α → ℕ) (k : ℕ) (t x : CodeTree α)
    (L : Multiset (CodeTree α × ℕ)) (s : Multiset (CodeTree α))
    (hle : ∀ d ∈ L.map Prod.snd, d ≤ k) (hfst : t ::ₘ L.map Prod.fst = x ::ₘ s)
    (hx : x.weight w ≤ t.weight w) :
    ∃ L' : Multiset (CodeTree α × ℕ), L'.map Prod.fst = s ∧ L'.map Prod.snd = L.map Prod.snd ∧
      depthCost w ((x, k) ::ₘ L') ≤ depthCost w ((t, k) ::ₘ L) := by
  classical
  by_cases heq : t = x
  · subst heq
    rw [Multiset.cons_inj_right] at hfst
    exact ⟨L, hfst, rfl, le_rfl⟩
  · have hmem : x ∈ L.map Prod.fst := by
      have hx' : x ∈ t ::ₘ L.map Prod.fst := by rw [hfst]; exact Multiset.mem_cons_self x s
      exact (Multiset.mem_cons.mp hx').resolve_left (Ne.symm heq)
    obtain ⟨⟨y, d⟩, hp, rfl⟩ := Multiset.mem_map.mp hmem
    obtain ⟨L₀, rfl⟩ := Multiset.exists_cons_of_mem hp
    rw [Multiset.map_cons, Multiset.cons_swap, Multiset.cons_inj_right] at hfst
    refine ⟨(t, d) ::ₘ L₀, by rw [Multiset.map_cons]; exact hfst, by simp, ?_⟩
    have hd : d ≤ k := hle d (Multiset.mem_map_of_mem Prod.snd hp)
    obtain ⟨δ, hδ⟩ := Nat.exists_eq_add_of_le hx
    obtain ⟨ε, hε⟩ := Nat.exists_eq_add_of_le hd
    simp only [depthCost_cons, hδ, hε]
    -- the difference of the two costs is `δ * ε`
    have hdiff : (y.weight w + δ) * (d + ε) + y.weight w * d =
        y.weight w * (d + ε) + (y.weight w + δ) * d + δ * ε := by ring
    omega

/-! ## Greedy merging is optimal -/

/-- The comparator of the greedy choice: the lighter tree is better. -/
def heavier (w : α → ℕ) (t u : CodeTree α) : Bool := decide (u.weight w < t.weight w)

/-- **One greedy merge keeps every bound from below.** Depths of the trees before the merge
give depths of the trees after it that cost no more. -/
theorem MergeStep.depthCost (w : α → ℕ) {s s' : Multiset (CodeTree α)}
    (h : MergeStep (heavier w) CodeTree.node s s') (m : ℕ) (L : Multiset (CodeTree α × ℕ))
    (hfst : L.map Prod.fst = s) (hkraft : Kraft m (L.map Prod.snd)) :
    ∃ (k : ℕ) (L' : Multiset (CodeTree α × ℕ)), L'.map Prod.fst = s' ∧
      Kraft k (L'.map Prod.snd) ∧ Library.depthCost w L' ≤ Library.depthCost w L := by
  cases h with
  | step a b r ha hb =>
    have hlea : ∀ x ∈ a ::ₘ b ::ₘ r, a.weight w ≤ x.weight w := by
      intro x hx
      rcases Multiset.mem_cons.mp hx with rfl | hx
      · exact le_rfl
      · simpa [heavier] using ha x hx
    have hleb : ∀ x ∈ b ::ₘ r, b.weight w ≤ x.weight w := by
      intro x hx
      rcases Multiset.mem_cons.mp hx with rfl | hx
      · exact le_rfl
      · simpa [heavier] using hb x hx
    have hcard : 2 ≤ L.card := by
      rw [← Multiset.card_map Prod.fst L, hfst]
      simp
    obtain ⟨k, t, u, R, hk, hpair, hcost⟩ := exists_deepest_pair w m L hcard hkraft
    rw [hfst] at hpair
    -- the lightest tree goes to the first deepest place
    obtain ⟨L₁, hfst₁, hsnd₁, hcost₁⟩ := exists_exchange w k t a ((u, k) ::ₘ R) (b ::ₘ r)
      (by
        intro d hd
        rw [Multiset.map_cons] at hd
        exact hk.bounded d (Multiset.mem_cons_of_mem hd))
      (by rw [Multiset.map_cons]; exact hpair)
      (hlea t (by rw [← hpair]; exact Multiset.mem_cons_self t _))
    rw [Multiset.map_cons] at hsnd₁
    have hkL₁ : k ∈ L₁.map Prod.snd := by rw [hsnd₁]; exact Multiset.mem_cons_self k _
    obtain ⟨v, R₁, rfl⟩ := exists_cons_of_mem_snd hkL₁
    rw [Multiset.map_cons, Multiset.cons_inj_right] at hsnd₁
    rw [Multiset.map_cons] at hfst₁
    -- and the next one to the second
    obtain ⟨L₂, hfst₂, hsnd₂, hcost₂⟩ := exists_exchange w k v b R₁ r
      (by
        intro d hd
        rw [hsnd₁] at hd
        exact hk.bounded d (Multiset.mem_cons_of_mem (Multiset.mem_cons_of_mem hd)))
      hfst₁
      (hleb v (by rw [← hfst₁]; exact Multiset.mem_cons_self v _))
    obtain ⟨hpos, hmerged⟩ := hk.merge
    refine ⟨k, (CodeTree.node a b, k - 1) ::ₘ L₂, by rw [Multiset.map_cons, hfst₂], ?_, ?_⟩
    · rw [Multiset.map_cons, hsnd₂, hsnd₁]
      exact hmerged
    · obtain ⟨j, rfl⟩ := Nat.exists_eq_add_of_le hpos
      simp only [depthCost_cons, CodeTree.pathCost, CodeTree.weight_node,
        Nat.add_sub_cancel_left] at hcost hcost₁ hcost₂ ⊢
      have hexp : (a.weight w + b.weight w) * j + (a.weight w + b.weight w) =
          a.weight w * (1 + j) + b.weight w * (1 + j) := by ring
      omega

/-- **Greedy merging is optimal among all depth assignments.** -/
theorem pathCost_le_depthCost (w : α → ℕ) {s : Multiset (CodeTree α)} {t : CodeTree α}
    (h : MergeRun (heavier w) CodeTree.node s {t}) (m : ℕ) (L : Multiset (CodeTree α × ℕ))
    (hfst : L.map Prod.fst = s) (hkraft : Kraft m (L.map Prod.snd)) :
    t.pathCost w ≤ depthCost w L := by
  induction h using Relation.ReflTransGen.head_induction_on generalizing m L with
  | refl =>
    obtain ⟨p, rfl, hp⟩ := Multiset.map_eq_singleton.mp hfst
    subst hp
    simp [depthCost]
  | head hfirst hrest ih =>
    obtain ⟨k, L', hfst', hkraft', hcost⟩ := hfirst.depthCost w m L hfst hkraft
    exact le_trans (ih k L' hfst' hkraft') hcost

/-! ## Prefix-free codes -/

/-- No codeword of a symbol of `l` is a prefix of that of another. -/
def PrefixFree (c : α → List Bool) (l : List α) : Prop :=
  ∀ a ∈ l, ∀ b ∈ l, c a <+: c b → a = b

/-- With two symbols or more, the codewords of a prefix-free code are not empty. -/
theorem PrefixFree.ne_nil {c : α → List Bool} {l : List α} (h : PrefixFree c l)
    (hnd : l.Nodup) (hlen : 2 ≤ l.length) : ∀ a ∈ l, c a ≠ [] := by
  intro a ha hnil
  have hall : ∀ b ∈ l, b = a := by
    intro b hb
    exact (h a ha b hb (by rw [hnil]; exact List.nil_prefix)).symm
  have hsub : l ⊆ [a] := by
    intro b hb
    rw [List.mem_singleton]
    exact hall b hb
  have hle := hnd.length_le_of_subset hsub
  rw [List.length_singleton] at hle
  omega

/-- **Prefix-free codes are uniquely decodable.** -/
theorem PrefixFree.uniquelyDecodable {c : α → List Bool} {l : List α} (h : PrefixFree c l)
    (hne : ∀ a ∈ l, c a ≠ []) :
    InformationTheory.UniquelyDecodable {word | word ∈ l.map c} := by
  intro L₁ L₂ h₁ h₂ hflat
  induction L₁ generalizing L₂ with
  | nil =>
    cases L₂ with
    | nil => rfl
    | cons word L₂ =>
      obtain ⟨a, ha, rfl⟩ := List.mem_map.mp (h₂ word List.mem_cons_self)
      simp [hne a ha] at hflat
  | cons word L₁ ih =>
    obtain ⟨a, ha, rfl⟩ := List.mem_map.mp (h₁ word List.mem_cons_self)
    cases L₂ with
    | nil => simp [hne a ha] at hflat
    | cons word' L₂ =>
      obtain ⟨b, hb, rfl⟩ := List.mem_map.mp (h₂ word' List.mem_cons_self)
      rw [List.flatten_cons, List.flatten_cons] at hflat
      have hcomparable : c a <+: c b ∨ c b <+: c a := by
        have hleft : c a <+: c a ++ L₁.flatten := List.prefix_append _ _
        have hright : c b <+: c a ++ L₁.flatten := by
          rw [hflat]
          exact List.prefix_append _ _
        exact List.prefix_or_prefix_of_prefix hleft hright
      have hab : a = b := by
        rcases hcomparable with hpre | hpre
        · exact h a ha b hb hpre
        · exact (h b hb a ha hpre).symm
      subst hab
      have htail := ih L₂ (fun word hword => h₁ word (List.mem_cons_of_mem _ hword))
        (fun word hword => h₂ word (List.mem_cons_of_mem _ hword))
        (List.append_cancel_left hflat)
      rw [htail]

/-- The integer form of Kraft's sum is `2 ^ m` times the real one. -/
theorem cast_sum_two_pow (m : ℕ) (D : List ℕ) (h : ∀ d ∈ D, d ≤ m) :
    (((D.map fun d => 2 ^ (m - d)).sum : ℕ) : ℝ) =
      2 ^ m * (D.map fun d => (1 / 2 : ℝ) ^ d).sum := by
  induction D with
  | nil => simp
  | cons d D ih =>
    have hpow : (2 : ℝ) ^ m * (1 / 2) ^ d = 2 ^ (m - d) := by
      rw [pow_sub₀ _ (by norm_num) (h d List.mem_cons_self), one_div, inv_pow]
    rw [List.map_cons, List.sum_cons, Nat.cast_add,
      ih fun d' hd' => h d' (List.mem_cons_of_mem d hd'), List.map_cons, List.sum_cons,
      mul_add, hpow]
    norm_num

/-- The codeword lengths of a prefix-free code satisfy Kraft's inequality. -/
theorem PrefixFree.kraft {c : α → List Bool} {l : List α} (h : PrefixFree c l)
    (hnd : l.Nodup) (hlen : 2 ≤ l.length) (m : ℕ) (hm : ∀ a ∈ l, (c a).length ≤ m) :
    Kraft m (l.map fun a => (c a).length : List ℕ) := by
  classical
  have hne := h.ne_nil hnd hlen
  have hndc : (l.map c).Nodup := by
    apply hnd.map_on
    intro a ha b hb hab
    exact h a ha b hb (by rw [hab])
  have hdec : InformationTheory.UniquelyDecodable ((l.map c).toFinset : Set (List Bool)) := by
    have hset : ((l.map c).toFinset : Set (List Bool)) = {word | word ∈ l.map c} := by
      ext word
      simp
    rw [hset]
    exact h.uniquelyDecodable hne
  have hreal := InformationTheory.kraft_mcmillan_inequality hdec
  rw [List.sum_toFinset _ hndc, List.map_map] at hreal
  constructor
  · intro d hd
    obtain ⟨a, ha, rfl⟩ := List.mem_map.mp (Multiset.mem_coe.mp hd)
    exact hm a ha
  · have hone : ((l.map fun a => (c a).length).map fun d => (1 / 2 : ℝ) ^ d).sum ≤ 1 := by
      simpa [Function.comp_def] using hreal
    have hscale := cast_sum_two_pow m (l.map fun a => (c a).length) (by simpa using hm)
    have hmul := mul_le_mul_of_nonneg_left hone (by positivity : (0 : ℝ) ≤ 2 ^ m)
    rw [← hscale, mul_one] at hmul
    exact_mod_cast hmul

/-- **Greedy merging costs no more than any lengths that satisfy Kraft's inequality.** -/
theorem pathCost_le_lengths (w : α → ℕ) (l : List α) {t : CodeTree α}
    (h : MergeRun (heavier w) CodeTree.node (l.map CodeTree.leaf : List (CodeTree α)) {t})
    (m : ℕ) (d : α → ℕ) (hd : Kraft m (l.map d : List ℕ)) :
    t.pathCost w ≤ (l.map fun a => w a * d a).sum := by
  have hbound := pathCost_le_depthCost w h m
    (l.map fun a => (CodeTree.leaf a, d a) : List (CodeTree α × ℕ))
    (by simp [Function.comp_def]) (by simpa [Function.comp_def] using hd)
  simpa [depthCost, Function.comp_def, CodeTree.pathCost] using hbound

/-- **Greedy merging is optimal among prefix-free codes.** -/
theorem pathCost_le_prefixFree (w : α → ℕ) (l : List α) (hnd : l.Nodup) (hlen : 2 ≤ l.length)
    {t : CodeTree α}
    (h : MergeRun (heavier w) CodeTree.node (l.map CodeTree.leaf : List (CodeTree α)) {t})
    (c : α → List Bool) (hc : PrefixFree c l) :
    t.pathCost w ≤ (l.map fun a => w a * (c a).length).sum :=
  pathCost_le_lengths w l h _ (fun a => (c a).length) (hc.kraft hnd hlen _ fun a ha =>
    List.le_sum_of_mem (List.mem_map.mpr ⟨a, ha, rfl⟩))

/-- The codewords of a tree are prefix-free on what its leaves cover. -/
theorem CodeTree.prefixFree_code [DecidableEq α] (t : CodeTree α) (d : List α)
    (hd : ∀ a ∈ d, a ∈ t.leaves) : PrefixFree t.code d :=
  fun a ha b hb hpre => t.code_prefix_free a b (hd a ha) (hd b hb) hpre

/-- **No prefix-free code spends less on a text** than the tree that greedy merging makes of its
counts. -/
theorem pathCost_le_length_flatMap [DecidableEq α] (d : List α) (l : List α) (hnd : l.Nodup)
    (hlen : 2 ≤ l.length) (hl : ∀ a, a ∈ l ↔ a ∈ d) {t : CodeTree α}
    (h : MergeRun (heavier fun a => d.count a) CodeTree.node
      (l.map CodeTree.leaf : List (CodeTree α)) {t})
    (c : α → List Bool) (hc : PrefixFree c d) :
    t.pathCost (fun a => d.count a) ≤ (d.flatMap c).length := by
  have hfree : PrefixFree c l := fun a ha b hb hpre =>
    hc a ((hl a).mp ha) b ((hl b).mp hb) hpre
  have hset : l.toFinset = d.toFinset := by
    ext a
    rw [List.mem_toFinset, List.mem_toFinset, hl a]
  calc t.pathCost (fun a => d.count a)
      ≤ (l.map fun a => d.count a * (c a).length).sum :=
        pathCost_le_prefixFree _ l hnd hlen h c hfree
    _ = d.toFinset.sum fun a => d.count a * (c a).length := by
        rw [← hset, List.sum_toFinset _ hnd]
    _ = (d.flatMap c).length := by
        rw [List.length_flatMap, Finset.sum_list_map_count]
        rfl

end Lacuna.Library
