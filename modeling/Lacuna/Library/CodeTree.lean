import Mathlib.Data.List.Nodup
import Mathlib.Data.Multiset.Bind
import Mathlib.Algebra.BigOperators.Group.List.Basic
import Mathlib.Algebra.BigOperators.Ring.List
import Mathlib.Algebra.Field.Rat
import Mathlib.Algebra.Order.Group.Nat
import Mathlib.Tactic.Ring
import Lacuna.Library.GreedyMerge

/-!
# Binary code trees

A code tree is a full binary tree with symbols at its leaves. The codeword of a symbol is
the path to its leaf, `false` for left; decoding walks from the root to a leaf and starts
again. When the leaves are pairwise different, encoding and decoding are inverse: a
sequence of codewords decodes to its symbols and leaves what follows them
(`decode_encode_append`), and whatever decodes was a sequence of codewords
(`decode_sound`). No codeword is a prefix of another, and Kraft's sum over them is one
(`sum_half_pow_code`). For symbols with weights, `pathCost` is the total length of the weighted
codewords, computed from the inner nodes.

A forest is a multiset of code trees. Merging keeps its leaves (`MergeStep.forestLeaves`), so
trees with different leaves stay apart (`disjoint_leaves_of_ne`).
-/

set_option autoImplicit false

namespace Lacuna.Library

/-- A full binary tree with a symbol at every leaf. -/
inductive CodeTree (α : Type) where
  | leaf (a : α)
  | node (left right : CodeTree α)
deriving Repr

namespace CodeTree

variable {α : Type}

/-- The symbols at the leaves, from left to right. -/
def leaves : CodeTree α → List α
  | leaf a => [a]
  | node left right => left.leaves ++ right.leaves

/-- A walk from the root to a leaf: the symbol there and the bits not used. -/
def decodeOne : CodeTree α → List Bool → Option (α × List Bool)
  | leaf a, bits => some (a, bits)
  | node _ _, [] => none
  | node left _, false :: bits => left.decodeOne bits
  | node _ right, true :: bits => right.decodeOne bits

/-- As many walks as symbols are wanted. -/
def decode (t : CodeTree α) : ℕ → List Bool → Option (List α × List Bool)
  | 0, bits => some ([], bits)
  | n + 1, bits =>
    match t.decodeOne bits with
    | none => none
    | some (a, rest) => (t.decode n rest).map fun r => (a :: r.1, r.2)

/-- The symbols decoded before the bits run out, and no more than are wanted. -/
def decodeSome (t : CodeTree α) : ℕ → List Bool → List α
  | 0, _ => []
  | n + 1, bits =>
    match t.decodeOne bits with
    | none => []
    | some (a, rest) => a :: t.decodeSome n rest

/-- The number of steps on a longest walk. -/
def depth : CodeTree α → ℕ
  | leaf _ => 0
  | node left right => max left.depth right.depth + 1

/-- **A tree is less deep than it has leaves.** -/
theorem depth_lt_length_leaves (t : CodeTree α) : t.depth < t.leaves.length := by
  induction t with
  | leaf a => simp [depth, leaves]
  | node left right ihl ihr =>
    rw [depth, leaves, List.length_append]
    omega

/-- There is a leaf. -/
theorem leaves_ne_nil (t : CodeTree α) : t.leaves ≠ [] := by
  induction t with
  | leaf a => simp [leaves]
  | node left right ihl ihr => simp [leaves, ihl]

/-- A walk that ends uses the same bits whatever follows. -/
theorem decodeOne_append (t : CodeTree α) (bits more : List Bool) (a : α) (rest : List Bool)
    (h : t.decodeOne bits = some (a, rest)) :
    t.decodeOne (bits ++ more) = some (a, rest ++ more) := by
  induction t generalizing bits with
  | leaf b =>
    simp only [decodeOne, Option.some.injEq, Prod.mk.injEq] at h
    obtain ⟨rfl, rfl⟩ := h
    rfl
  | node left right ihl ihr =>
    cases bits with
    | nil => cases h
    | cons bit bits =>
      cases bit with
      | false => exact ihl bits h
      | true => exact ihr bits h

/-- No walk is wanted. -/
theorem decode_zero_eq_some (t : CodeTree α) (bits : List Bool) (d : List α)
    (rest : List Bool) : t.decode 0 bits = some (d, rest) ↔ [] = d ∧ bits = rest := by
  rw [decode, Option.some.injEq, Prod.mk.injEq]

/-- One walk, and the others behind it. -/
theorem decode_succ_eq_some (t : CodeTree α) (n : ℕ) (bits : List Bool) (d : List α)
    (rest : List Bool) :
    t.decode (n + 1) bits = some (d, rest) ↔
      ∃ a behind d', t.decodeOne bits = some (a, behind) ∧
        t.decode n behind = some (d', rest) ∧ a :: d' = d := by
  rw [decode]
  cases hone : t.decodeOne bits with
  | none => simp
  | some r =>
    obtain ⟨a, behind⟩ := r
    simp only [Option.map_eq_some_iff, Prod.mk.injEq, Option.some.injEq]
    constructor
    · rintro ⟨⟨d', rest'⟩, hrest, hd, rfl⟩
      exact ⟨a, behind, d', ⟨rfl, rfl⟩, hrest, hd⟩
    · rintro ⟨_, _, d', ⟨rfl, rfl⟩, hrest, hd⟩
      exact ⟨(d', rest), hrest, hd, rfl⟩

/-- Decoding that ends uses the same bits whatever follows. -/
theorem decode_append (t : CodeTree α) (n : ℕ) (bits more : List Bool) (d : List α)
    (rest : List Bool) (h : t.decode n bits = some (d, rest)) :
    t.decode n (bits ++ more) = some (d, rest ++ more) := by
  induction n generalizing bits d with
  | zero =>
    obtain ⟨rfl, rfl⟩ := (t.decode_zero_eq_some bits d rest).mp h
    rfl
  | succ n ih =>
    obtain ⟨a, behind, d', hone, hrest, rfl⟩ := (t.decode_succ_eq_some n bits d rest).mp h
    exact (t.decode_succ_eq_some n _ _ _).mpr
      ⟨a, behind ++ more, d', t.decodeOne_append bits more a behind hone, ih behind d' hrest, rfl⟩

/-- Decoding yields as many symbols as wanted. -/
theorem length_of_decode (t : CodeTree α) (n : ℕ) (bits : List Bool) (d : List α)
    (rest : List Bool) (h : t.decode n bits = some (d, rest)) : d.length = n := by
  induction n generalizing bits d with
  | zero =>
    obtain ⟨rfl, -⟩ := (t.decode_zero_eq_some bits d rest).mp h
    rfl
  | succ n ih =>
    obtain ⟨a, behind, d', -, hrest, rfl⟩ := (t.decode_succ_eq_some n bits d rest).mp h
    rw [List.length_cons, ih behind d' hrest]

/-- Decoding that ends has decoded all there is to decode. -/
theorem decodeSome_of_decode (t : CodeTree α) (n : ℕ) (bits : List Bool) (d : List α)
    (rest : List Bool) (h : t.decode n bits = some (d, rest)) : t.decodeSome n bits = d := by
  induction n generalizing bits d with
  | zero =>
    obtain ⟨rfl, -⟩ := (t.decode_zero_eq_some bits d rest).mp h
    rfl
  | succ n ih =>
    obtain ⟨a, behind, d', hone, hrest, rfl⟩ := (t.decode_succ_eq_some n bits d rest).mp h
    simp only [decodeSome, hone, ih behind d' hrest]

/-- No more symbols are decoded than are wanted. -/
theorem length_decodeSome_le (t : CodeTree α) (n : ℕ) (bits : List Bool) :
    (t.decodeSome n bits).length ≤ n := by
  induction n generalizing bits with
  | zero => exact Nat.le_refl 0
  | succ n ih =>
    cases hone : t.decodeOne bits with
    | none => simp [decodeSome, hone]
    | some r =>
      have hrest := ih r.2
      simp only [decodeSome, hone, List.length_cons]
      omega

/-- **More bits take nothing back**: what was decoded before them is still decoded first. -/
theorem decodeSome_prefix (t : CodeTree α) (n : ℕ) (bits more : List Bool) :
    t.decodeSome n bits <+: t.decodeSome n (bits ++ more) := by
  induction n generalizing bits with
  | zero => exact List.prefix_rfl
  | succ n ih =>
    cases hone : t.decodeOne bits with
    | none =>
      simp only [decodeSome, hone]
      exact List.nil_prefix
    | some r =>
      simp only [decodeSome, hone, t.decodeOne_append bits more r.1 r.2 hone]
      exact List.cons_prefix_cons.mpr ⟨rfl, ih r.2⟩

variable [DecidableEq α]

/-- The codeword of a symbol. -/
def code : CodeTree α → α → List Bool
  | leaf _, _ => []
  | node left right, a => if a ∈ left.leaves then false :: left.code a else true :: right.code a

/-- The codewords of a sequence of symbols, one after the other. -/
def encode (t : CodeTree α) (d : List α) : List Bool := d.flatMap t.code

@[simp] theorem encode_nil (t : CodeTree α) : t.encode [] = [] := rfl

@[simp] theorem encode_cons (t : CodeTree α) (a : α) (d : List α) :
    t.encode (a :: d) = t.code a ++ t.encode d := rfl

/-! ## Encoding and decoding are inverse -/

/-- The walk along a codeword ends at its symbol. -/
theorem decodeOne_code_append (t : CodeTree α) (a : α) (h : a ∈ t.leaves) (rest : List Bool) :
    t.decodeOne (t.code a ++ rest) = some (a, rest) := by
  induction t with
  | leaf b =>
    rw [leaves, List.mem_singleton] at h
    subst h
    rfl
  | node left right ihl ihr =>
    by_cases hl : a ∈ left.leaves
    · simpa [code, hl, decodeOne] using ihl hl
    · have hr : a ∈ right.leaves := by
        rw [leaves, List.mem_append] at h
        exact h.resolve_left hl
      simpa [code, hl, decodeOne] using ihr hr

/-- A walk that ends was along a codeword. -/
theorem decodeOne_sound (t : CodeTree α) (hnd : t.leaves.Nodup) (bits : List Bool) (a : α)
    (rest : List Bool) (h : t.decodeOne bits = some (a, rest)) :
    a ∈ t.leaves ∧ bits = t.code a ++ rest := by
  induction t generalizing bits with
  | leaf b =>
    simp only [decodeOne, Option.some.injEq, Prod.mk.injEq] at h
    obtain ⟨rfl, rfl⟩ := h
    exact ⟨List.mem_singleton.mpr rfl, rfl⟩
  | node left right ihl ihr =>
    obtain ⟨hndl, hndr, hdisj⟩ := List.nodup_append'.mp hnd
    cases bits with
    | nil => cases h
    | cons bit bits =>
      cases bit with
      | false =>
        obtain ⟨hmem, hbits⟩ := ihl hndl bits h
        refine ⟨List.mem_append_left _ hmem, ?_⟩
        simp [code, hmem, hbits]
      | true =>
        obtain ⟨hmem, hbits⟩ := ihr hndr bits h
        have hl : a ∉ left.leaves := fun hl => hdisj hl hmem
        refine ⟨List.mem_append_right _ hmem, ?_⟩
        simp [code, hl, hbits]

/-- **A sequence of codewords decodes to its symbols** and leaves what follows. -/
theorem decode_encode_append (t : CodeTree α) (d : List α) (hd : ∀ a ∈ d, a ∈ t.leaves)
    (rest : List Bool) : t.decode d.length (t.encode d ++ rest) = some (d, rest) := by
  induction d with
  | nil => rfl
  | cons a d ih =>
    have ha := hd a List.mem_cons_self
    rw [List.length_cons, decode, encode_cons, List.append_assoc,
      t.decodeOne_code_append a ha]
    simp only [ih fun b hb => hd b (List.mem_cons_of_mem a hb), Option.map_some]

/-- **Whatever decodes was a sequence of codewords.** -/
theorem decode_sound (t : CodeTree α) (hnd : t.leaves.Nodup) (n : ℕ) (bits : List Bool)
    (d : List α) (rest : List Bool) (h : t.decode n bits = some (d, rest)) :
    (∀ a ∈ d, a ∈ t.leaves) ∧ bits = t.encode d ++ rest := by
  induction n generalizing bits d with
  | zero =>
    obtain ⟨rfl, rfl⟩ := (t.decode_zero_eq_some bits d rest).mp h
    exact ⟨List.forall_mem_nil _, rfl⟩
  | succ n ih =>
    obtain ⟨a, behind, d', hone, hrest, rfl⟩ := (t.decode_succ_eq_some n bits d rest).mp h
    obtain ⟨ha, hbits⟩ := t.decodeOne_sound hnd bits a behind hone
    obtain ⟨hmem, hbehind⟩ := ih behind d' hrest
    refine ⟨List.forall_mem_cons.mpr ⟨ha, hmem⟩, ?_⟩
    rw [hbits, hbehind, encode_cons, List.append_assoc]

/-- **No codeword is a prefix of another.** -/
theorem code_prefix_free (t : CodeTree α) (a b : α) (ha : a ∈ t.leaves) (hb : b ∈ t.leaves)
    (h : t.code a <+: t.code b) : a = b := by
  obtain ⟨more, hmore⟩ := h
  have h1 := t.decodeOne_code_append a ha more
  have h2 := t.decodeOne_code_append b hb []
  rw [List.append_nil, ← hmore, h1, Option.some.injEq, Prod.mk.injEq] at h2
  exact h2.1

/-- With two leaves or more, no codeword is empty. -/
theorem code_ne_nil (t : CodeTree α) (a : α) (h : 2 ≤ t.leaves.length) : t.code a ≠ [] := by
  cases t with
  | leaf b => simp [leaves] at h
  | node left right =>
    unfold code
    split <;> simp

/-- With two leaves or more, a sequence of symbols takes at least one bit for each. -/
theorem length_le_length_encode (t : CodeTree α) (d : List α) (h : 2 ≤ t.leaves.length) :
    d.length ≤ (t.encode d).length := by
  induction d with
  | nil => simp
  | cons a d ih =>
    have hcode := List.length_pos_iff.mpr (t.code_ne_nil a h)
    rw [encode_cons, List.length_append, List.length_cons]
    omega

/-- The codeword of a symbol on the left. -/
theorem code_of_mem_left (left right : CodeTree α) (a : α) (h : a ∈ left.leaves) :
    (node left right).code a = false :: left.code a := by
  rw [code, if_pos h]

/-- The codeword of a symbol on the right. -/
theorem code_of_mem_right (left right : CodeTree α) (hnd : (node left right).leaves.Nodup) (a : α)
    (h : a ∈ right.leaves) : (node left right).code a = true :: right.code a := by
  have hleft : a ∉ left.leaves := fun hl => (List.nodup_append'.mp hnd).2.2 hl h
  rw [code, if_neg hleft]

/-- **Kraft's sum over the codewords is one.** -/
theorem sum_half_pow_code (t : CodeTree α) (hnd : t.leaves.Nodup) :
    (t.leaves.map fun a => (1 / 2 : ℚ) ^ (t.code a).length).sum = 1 := by
  induction t with
  | leaf a => simp [leaves, code]
  | node left right ihl ihr =>
    obtain ⟨hndl, hndr, -⟩ := List.nodup_append'.mp hnd
    have hleft : (left.leaves.map fun a => (1 / 2 : ℚ) ^ ((node left right).code a).length) =
        left.leaves.map fun a => 1 / 2 * (1 / 2 : ℚ) ^ (left.code a).length := by
      apply List.map_congr_left
      intro a ha
      rw [code_of_mem_left left right a ha, List.length_cons, pow_succ']
    have hright : (right.leaves.map fun a => (1 / 2 : ℚ) ^ ((node left right).code a).length) =
        right.leaves.map fun a => 1 / 2 * (1 / 2 : ℚ) ^ (right.code a).length := by
      apply List.map_congr_left
      intro a ha
      rw [code_of_mem_right left right hnd a ha, List.length_cons, pow_succ']
    rw [leaves, List.map_append, List.sum_append, hleft, hright, List.sum_map_mul_left,
      List.sum_map_mul_left, ihl hndl, ihr hndr]
    norm_num

/-- A cut in a sequence of codewords loses symbols: no proper prefix decodes to as many. -/
theorem decode_prefix_eq_none (t : CodeTree α) (d : List α) (hd : ∀ a ∈ d, a ∈ t.leaves)
    (part missing : List Bool) (hcut : t.encode d = part ++ missing) (hne : missing ≠ []) :
    t.decode d.length part = none := by
  cases hdec : t.decode d.length part with
  | none => rfl
  | some r =>
    have hall := t.decode_append _ part missing r.1 r.2 hdec
    have hfull := t.decode_encode_append d hd []
    rw [List.append_nil, hcut, hall, Option.some.injEq, Prod.mk.injEq] at hfull
    simp [hne] at hfull

/-! ## Weights -/

/-- The weight of a tree: the sum of the weights of its leaves. -/
def weight (w : α → ℕ) (t : CodeTree α) : ℕ := (t.leaves.map w).sum

/-- The weighted path length, collected at the inner nodes. -/
def pathCost (w : α → ℕ) : CodeTree α → ℕ
  | leaf _ => 0
  | node left right => left.pathCost w + right.pathCost w + (left.weight w + right.weight w)

omit [DecidableEq α] in
@[simp] theorem weight_leaf (w : α → ℕ) (a : α) : (leaf a).weight w = w a := by
  simp [weight, leaves]

omit [DecidableEq α] in
@[simp] theorem weight_node (w : α → ℕ) (left right : CodeTree α) :
    (node left right).weight w = left.weight w + right.weight w := by
  simp [weight, leaves]

/-- **The path cost is the total length of the weighted codewords.** -/
theorem pathCost_eq (w : α → ℕ) (t : CodeTree α) (hnd : t.leaves.Nodup) :
    t.pathCost w = (t.leaves.map fun a => w a * (t.code a).length).sum := by
  induction t with
  | leaf a => simp [pathCost, leaves, code]
  | node left right ihl ihr =>
    obtain ⟨hndl, hndr, -⟩ := List.nodup_append'.mp hnd
    have hleft : (left.leaves.map fun a => w a * ((node left right).code a).length) =
        left.leaves.map fun a => w a * (left.code a).length + w a := by
      apply List.map_congr_left
      intro a ha
      rw [code_of_mem_left left right a ha, List.length_cons]
      ring
    have hright : (right.leaves.map fun a => w a * ((node left right).code a).length) =
        right.leaves.map fun a => w a * (right.code a).length + w a := by
      apply List.map_congr_left
      intro a ha
      rw [code_of_mem_right left right hnd a ha, List.length_cons]
      ring
    rw [pathCost, ihl hndl, ihr hndr, leaves, List.map_append, List.sum_append, hleft, hright,
      List.sum_map_add, List.sum_map_add, weight, weight]
    ring

end CodeTree

/-! ## Forests -/

variable {α : Type}

/-- The leaves of all trees of a forest. -/
def forestLeaves (s : Multiset (CodeTree α)) : Multiset α := s.bind fun t => (t.leaves : Multiset α)

@[simp] theorem forestLeaves_cons (t : CodeTree α) (s : Multiset (CodeTree α)) :
    forestLeaves (t ::ₘ s) = (t.leaves : Multiset α) + forestLeaves s := by
  simp [forestLeaves]

@[simp] theorem forestLeaves_singleton (t : CodeTree α) :
    forestLeaves {t} = (t.leaves : Multiset α) := by
  simp [forestLeaves]

/-- A forest of single leaves. -/
@[simp] theorem forestLeaves_map_leaf (l : List α) :
    forestLeaves ((l.map CodeTree.leaf : List (CodeTree α)) : Multiset (CodeTree α)) =
      (l : Multiset α) := by
  induction l with
  | nil => rfl
  | cons a l ih =>
    rw [List.map_cons, ← Multiset.cons_coe, forestLeaves_cons, ih]
    rfl

/-- **Merging keeps the leaves.** -/
theorem MergeStep.forestLeaves {worse : CodeTree α → CodeTree α → Bool}
    {s t : Multiset (CodeTree α)} (h : MergeStep worse CodeTree.node s t) :
    forestLeaves t = forestLeaves s := by
  cases h with
  | step a b r ha hb =>
    simp only [forestLeaves_cons, CodeTree.leaves, ← Multiset.coe_add, add_assoc]

/-- A run of merges keeps the leaves. -/
theorem MergeRun.forestLeaves {worse : CodeTree α → CodeTree α → Bool}
    {s t : Multiset (CodeTree α)} (h : MergeRun worse CodeTree.node s t) :
    forestLeaves t = forestLeaves s := by
  refine h.invariant (P := fun u => Library.forestLeaves u = Library.forestLeaves s) ?_ rfl
  intro u u' hstep hu
  rw [hstep.forestLeaves, hu]

/-- Two different trees of a forest without repeated leaves share none. -/
theorem disjoint_leaves_of_ne {s : Multiset (CodeTree α)} (hnd : (forestLeaves s).Nodup)
    {a b : CodeTree α} (ha : a ∈ s) (hb : b ∈ s) (hne : a ≠ b) :
    ∀ v ∈ a.leaves, v ∉ b.leaves := by
  obtain ⟨r, rfl⟩ := Multiset.exists_cons_of_mem ha
  have hbr : b ∈ r := (Multiset.mem_cons.mp hb).resolve_left (Ne.symm hne)
  obtain ⟨r', rfl⟩ := Multiset.exists_cons_of_mem hbr
  rw [forestLeaves_cons, forestLeaves_cons, Multiset.nodup_add] at hnd
  intro v hva hvb
  have hdisj := Multiset.disjoint_left.mp hnd.2.2 (Multiset.mem_coe.mpr hva)
  exact hdisj (Multiset.mem_add.mpr (Or.inl (Multiset.mem_coe.mpr hvb)))

end Lacuna.Library
