import Mathlib.Data.List.Dedup
import Lacuna.Library.CodeTree
import Lacuna.Model.HuffmanTree

/-!
# The shape of the Huffman tree

Every node the heap ever holds stands for a code tree (`HuffmanNode.ofTree`): no child is
null on one side only, inner frequencies are the sums of their children's, and the leaves
carry the table's frequencies. On code trees the construction loop is a run of greedy merges
(`mergeLoop_spec`), which keeps the leaves; so the trees in the heap never share a byte value,
their least values differ, and the comparator leaves no choice (`buildTree_unique`).

The codes the recursion collects are the paths of the code tree, for every tree without half a
pair of children (`HuffmanNode.Full.codeTable_eq`).
-/

set_option autoImplicit false

namespace Lacuna.Model

open Library

/-! ## The byte values of a table -/

/-- The byte values in increasing order: `static_cast<uint8_t>(i)` for `i` below 256. -/
def allBytes : List UInt8 := (List.range 256).map UInt8.ofNat

/-- The byte values with a positive frequency. -/
def symbols (frequencies : UInt8 → UInt64) : List UInt8 :=
  allBytes.filter fun b => decide (0 < frequencies b)

/-- Every byte value is listed. -/
theorem mem_allBytes (b : UInt8) : b ∈ allBytes :=
  List.mem_map.mpr ⟨b.toNat, List.mem_range.mpr b.toNat_lt, UInt8.ofNat_toNat⟩

/-- No byte value is listed twice. -/
theorem nodup_allBytes : allBytes.Nodup := by
  apply List.Nodup.map_on _ List.nodup_range
  intro i hi j hj hij
  rw [List.mem_range] at hi hj
  have h := congrArg UInt8.toNat hij
  rwa [UInt8.toNat_ofNat_of_lt' hi, UInt8.toNat_ofNat_of_lt' hj] at h

@[simp] theorem mem_symbols (frequencies : UInt8 → UInt64) (b : UInt8) :
    b ∈ symbols frequencies ↔ 0 < frequencies b := by
  simp [symbols, mem_allBytes]

theorem nodup_symbols (frequencies : UInt8 → UInt64) : (symbols frequencies).Nodup :=
  nodup_allBytes.filter _

theorem length_symbols_le (frequencies : UInt8 → UInt64) : (symbols frequencies).length ≤ 256 :=
  le_trans (List.length_filter_le _ _) (by simp [allBytes])

/-- A loop over all byte values that acts on the positive ones goes through the symbols. -/
theorem foldl_range_symbols {σ : Type} (frequencies : UInt8 → UInt64) (f : σ → UInt8 → σ)
    (s : σ) :
    (List.range 256).foldl
        (fun s i => if 0 < frequencies (UInt8.ofNat i) then f s (UInt8.ofNat i) else s) s =
      (symbols frequencies).foldl f s := by
  rw [symbols, allBytes, List.foldl_filter, List.foldl_map]
  simp only [decide_eq_true_eq]

/-- The leaves pushed first are those of the symbols. -/
theorem leafNodes_eq (frequencies : UInt8 → UInt64) :
    leafNodes frequencies =
      (symbols frequencies).map fun b => HuffmanNode.leaf b (frequencies b) := by
  rw [leafNodes, symbols, allBytes, List.filter_map, List.map_map, ← List.filterMap_eq_map,
    List.filterMap_filter]
  simp [Function.comp_def]

/-! ## Nodes as code trees -/

namespace HuffmanNode

/-- Every node has two children or none. -/
inductive Full : HuffmanNode → Prop
  | leaf (value : UInt8) (frequency : UInt64) : Full (.node value frequency .null .null)
  | node (value : UInt8) (frequency : UInt64) (left right : HuffmanNode) :
    Full left → Full right → Full (.node value frequency left right)

/-- The code tree of a full node. What the inner nodes hold is left out, and the null case is
arbitrary. -/
def shape : HuffmanNode → CodeTree UInt8
  | .null => .leaf 0
  | .node value _ left right =>
    if left.isNull && right.isNull then .leaf value else .node left.shape right.shape

/-- A full node is not the null pointer. -/
theorem Full.isNull {n : HuffmanNode} (h : n.Full) : n.isNull = false := by
  cases h <;> rfl

/-- A full node with two children is an inner one. -/
theorem Full.shape_node {left : HuffmanNode} (hleft : left.Full) (right : HuffmanNode)
    (value : UInt8) (frequency : UInt64) :
    (HuffmanNode.node value frequency left right).shape = .node left.shape right.shape := by
  rw [shape, hleft.isNull]
  rfl

/-- The values and frequencies of the leaves, from left to right. -/
def leafEntries : HuffmanNode → List (UInt8 × UInt64)
  | .null => []
  | .node value frequency left right =>
    if left.isNull && right.isNull then [(value, frequency)]
    else left.leafEntries ++ right.leafEntries

/-- The values that label the leaves. -/
def leafValues (n : HuffmanNode) : List UInt8 := n.leafEntries.map Prod.fst

/-- The leaves of a full node are those of its code tree. -/
theorem Full.leafValues_eq {n : HuffmanNode} (h : n.Full) : n.leafValues = n.shape.leaves := by
  induction h with
  | leaf value frequency => rfl
  | node value frequency left right hleft _ ihl ihr =>
    rw [hleft.shape_node, CodeTree.leaves, ← ihl, ← ihr, leafValues, leafEntries, hleft.isNull]
    exact List.map_append

/-- The number of steps from the node to its deepest leaf. -/
def depth : HuffmanNode → ℕ
  | .null => 0
  | .node _ _ left right =>
    if left.isNull && right.isNull then 0 else max left.depth right.depth + 1

/-- Every frequency of an inner node is the sum of those of its leaves, modulo `2 ^ 64`. -/
def SumsLeaves : HuffmanNode → Prop
  | .null => True
  | .node value frequency left right =>
    (left.isNull && right.isNull) = false →
      frequency.toNat =
          ((node value frequency left right).leafEntries.map fun e => e.2.toNat).sum % 2 ^ 64 ∧
        SumsLeaves left ∧ SumsLeaves right

/-- The node `build_tree` makes of two others. -/
def merge (left right : HuffmanNode) : HuffmanNode :=
  parent left right (left.frequency + right.frequency)

/-- The node that stands for a code tree under a frequency table. -/
def ofTree (frequencies : UInt8 → UInt64) : CodeTree UInt8 → HuffmanNode
  | .leaf b => leaf b (frequencies b)
  | .node left right => merge (ofTree frequencies left) (ofTree frequencies right)

variable (frequencies : UInt8 → UInt64)

/-- A code tree is never the null pointer. -/
@[simp] theorem isNull_ofTree (t : CodeTree UInt8) : (ofTree frequencies t).isNull = false := by
  cases t <;> rfl

/-- The node of a code tree is full. -/
theorem full_ofTree (t : CodeTree UInt8) : (ofTree frequencies t).Full := by
  induction t with
  | leaf b => exact .leaf b (frequencies b)
  | node left right ihl ihr => exact .node _ _ _ _ ihl ihr

/-- A code tree is the one of its node. -/
@[simp] theorem shape_ofTree (t : CodeTree UInt8) : (ofTree frequencies t).shape = t := by
  induction t with
  | leaf b => rfl
  | node left right ihl ihr =>
    have hnode := (full_ofTree frequencies left).shape_node (ofTree frequencies right) 0
      ((ofTree frequencies left).frequency + (ofTree frequencies right).frequency)
    rw [ihl, ihr] at hnode
    exact hnode

/-- The leaves of a code tree carry the frequencies of the table. -/
theorem leafEntries_ofTree (t : CodeTree UInt8) :
    (ofTree frequencies t).leafEntries = t.leaves.map fun b => (b, frequencies b) := by
  induction t with
  | leaf b => rfl
  | node left right ihl ihr =>
    have hentries : (ofTree frequencies (.node left right)).leafEntries =
        (ofTree frequencies left).leafEntries ++ (ofTree frequencies right).leafEntries := by
      simp [ofTree, merge, parent, leafEntries]
    rw [hentries, ihl, ihr, CodeTree.leaves, List.map_append]

/-- A code tree is as deep as its node. -/
theorem depth_ofTree (t : CodeTree UInt8) : (ofTree frequencies t).depth = t.depth := by
  induction t with
  | leaf b => rfl
  | node left right ihl ihr =>
    have hdepth : (ofTree frequencies (.node left right)).depth =
        max (ofTree frequencies left).depth (ofTree frequencies right).depth + 1 := by
      simp [ofTree, merge, parent, depth]
    rw [hdepth, ihl, ihr, CodeTree.depth]

/-- `get_min_value` finds a least leaf. -/
theorem getMinValue_ofTree (t : CodeTree UInt8) :
    (ofTree frequencies t).getMinValue ∈ t.leaves ∧
      ∀ b ∈ t.leaves, (ofTree frequencies t).getMinValue ≤ b := by
  induction t with
  | leaf b => simp [ofTree, leaf, getMinValue, isNull, CodeTree.leaves]
  | node left right ihl ihr =>
    have hmin : (ofTree frequencies (.node left right)).getMinValue =
        min (ofTree frequencies left).getMinValue (ofTree frequencies right).getMinValue := by
      simp [ofTree, merge, parent, getMinValue]
    rw [hmin, CodeTree.leaves]
    constructor
    · rcases Std.min_eq_or (a := (ofTree frequencies left).getMinValue)
        (b := (ofTree frequencies right).getMinValue) with h | h
      · rw [h]
        exact List.mem_append_left _ ihl.1
      · rw [h]
        exact List.mem_append_right _ ihr.1
    · intro b hb
      rcases List.mem_append.mp hb with hb | hb
      · exact UInt8.le_trans Std.min_le_left (ihl.2 b hb)
      · exact UInt8.le_trans Std.min_le_right (ihr.2 b hb)

/-- The frequency of a node is the sum over its leaves, modulo `2 ^ 64`. -/
theorem toNat_frequency_ofTree (t : CodeTree UInt8) :
    (ofTree frequencies t).frequency.toNat =
      t.weight (fun b => (frequencies b).toNat) % 2 ^ 64 := by
  induction t with
  | leaf b =>
    have hlt := (frequencies b).toNat_lt
    rw [CodeTree.weight_leaf, Nat.mod_eq_of_lt hlt]
    rfl
  | node left right ihl ihr =>
    have hsum : (ofTree frequencies (.node left right)).frequency =
        (ofTree frequencies left).frequency + (ofTree frequencies right).frequency := rfl
    rw [hsum, UInt64.toNat_add, ihl, ihr, CodeTree.weight_node, ← Nat.add_mod]

/-- **Every inner frequency of a code tree sums up its leaves.** -/
theorem sumsLeaves_ofTree (t : CodeTree UInt8) : (ofTree frequencies t).SumsLeaves := by
  induction t with
  | leaf b => exact fun hleaf => absurd hleaf (by decide)
  | node left right ihl ihr =>
    intro _
    refine ⟨?_, ihl, ihr⟩
    have hsum := toNat_frequency_ofTree frequencies (.node left right)
    have hentries := leafEntries_ofTree frequencies (.node left right)
    have hweight : ((ofTree frequencies (.node left right)).leafEntries.map
        fun e => e.2.toNat).sum =
          (CodeTree.node left right).weight fun b => (frequencies b).toNat := by
      rw [hentries, List.map_map]
      rfl
    rw [← hweight] at hsum
    exact hsum

/-- The number of leaves below a node. -/
def leafCount : HuffmanNode → ℕ
  | .null => 0
  | .node _ _ left right =>
    if left.isNull && right.isNull then 1 else leafCount left + leafCount right

/-- The node of a code tree has its leaves. -/
theorem leafCount_ofTree (t : CodeTree UInt8) :
    (ofTree frequencies t).leafCount = t.leaves.length := by
  induction t with
  | leaf b => rfl
  | node left right ihl ihr =>
    have hcount : (ofTree frequencies (.node left right)).leafCount =
        (ofTree frequencies left).leafCount + (ofTree frequencies right).leafCount := by
      simp [ofTree, merge, parent, leafCount]
    rw [hcount, ihl, ihr, CodeTree.leaves, List.length_append]

/-- No frequency of an inner node wraps: each is the sum of its children's. -/
def ExactFrequencies : HuffmanNode → Prop
  | .null => True
  | .node _ frequency left right =>
    (left.isNull && right.isNull) = false →
      frequency.toNat = left.frequency.toNat + right.frequency.toNat ∧
        ExactFrequencies left ∧ ExactFrequencies right

/-- Where the leaves add up below `2 ^ 64`, no sum of two nodes wraps. -/
theorem exactFrequencies_ofTree (t : CodeTree UInt8)
    (h : t.weight (fun b => (frequencies b).toNat) < 2 ^ 64) :
    (ofTree frequencies t).ExactFrequencies := by
  induction t with
  | leaf b => exact fun hleaf => absurd hleaf (by decide)
  | node left right ihl ihr =>
    have hsum := toNat_frequency_ofTree frequencies (.node left right)
    have hleft := toNat_frequency_ofTree frequencies left
    have hright := toNat_frequency_ofTree frequencies right
    rw [Nat.mod_eq_of_lt h, CodeTree.weight_node] at hsum
    rw [CodeTree.weight_node] at h
    rw [Nat.mod_eq_of_lt (by omega)] at hleft hright
    intro _
    refine ⟨?_, ihl (by omega), ihr (by omega)⟩
    rw [hleft, hright]
    exact hsum

end HuffmanNode

/-- The comparator on code trees. -/
def treeComparator (frequencies : UInt8 → UInt64) (t u : CodeTree UInt8) : Bool :=
  HuffmanNodeComparator (HuffmanNode.ofTree frequencies t) (HuffmanNode.ofTree frequencies u)

/-- **The comparator separates trees without a common leaf**, even where their frequencies
have wrapped around and agree. -/
theorem treeComparator_separates (frequencies : UInt8 → UInt64) (t u : CodeTree UInt8)
    (hdisj : ∀ b ∈ t.leaves, b ∉ u.leaves) :
    treeComparator frequencies t u = true ∨ treeComparator frequencies u t = true := by
  have hne : (HuffmanNode.ofTree frequencies t).getMinValue ≠
      (HuffmanNode.ofTree frequencies u).getMinValue := by
    intro heq
    have hmem := (HuffmanNode.getMinValue_ofTree frequencies u).1
    rw [← heq] at hmem
    exact hdisj _ (HuffmanNode.getMinValue_ofTree frequencies t).1 hmem
  unfold treeComparator HuffmanNodeComparator
  generalize (HuffmanNode.ofTree frequencies t).frequency = ft at *
  generalize (HuffmanNode.ofTree frequencies u).frequency = fu at *
  by_cases hfreq : ft = fu
  · subst hfreq
    simp only [ne_eq, not_true_eq_false, if_false, decide_eq_true_eq]
    exact (UInt8.lt_or_lt_of_ne hne).symm
  · have hfreq' : fu ≠ ft := Ne.symm hfreq
    simp only [ne_eq, hfreq, hfreq', not_false_eq_true, if_true, decide_eq_true_eq]
    exact (UInt64.lt_or_lt_of_ne hfreq).symm

/-- The invariant of the heap: no leaf occurs twice. It keeps the trees separated. -/
theorem separated_of_nodup (frequencies : UInt8 → UInt64) (s : Multiset (CodeTree UInt8))
    (hnd : (forestLeaves s).Nodup) : Separated (treeComparator frequencies) s :=
  fun t ht u hu hne =>
    treeComparator_separates frequencies t u (disjoint_leaves_of_ne hnd ht hu hne)

/-- A merge keeps the invariant. -/
theorem nodup_of_mergeStep (frequencies : UInt8 → UInt64) (s s' : Multiset (CodeTree UInt8))
    (h : MergeStep (treeComparator frequencies) CodeTree.node s s')
    (hnd : (forestLeaves s).Nodup) : (forestLeaves s').Nodup := by
  rw [h.forestLeaves]
  exact hnd

/-! ## The construction loop -/

/-- A heap with more than one node pops twice. -/
theorem exists_pops (Q : PriorityQueue HuffmanNode HuffmanNodeComparator) (heap : Q.Heap)
    (h : ¬ Q.size heap ≤ 1) :
    ∃ left heap₁ right heap₂, Q.pop heap = some (left, heap₁) ∧
      Q.pop heap₁ = some (right, heap₂) ∧ Q.size heap = (Q.contents heap₂).card + 2 := by
  rw [Q.size_eq] at h ⊢
  obtain ⟨left, heap₁, hleft⟩ := Q.exists_pop heap (by
    intro h0
    rw [h0, Multiset.card_zero] at h
    omega)
  have hcontents := Q.pop_contents _ _ _ hleft
  rw [hcontents, Multiset.card_cons] at h
  obtain ⟨right, heap₂, hright⟩ := Q.exists_pop heap₁ (by
    intro h0
    rw [h0, Multiset.card_zero] at h
    omega)
  refine ⟨left, heap₁, right, heap₂, hleft, hright, ?_⟩
  rw [hcontents, Q.pop_contents _ _ _ hright, Multiset.card_cons, Multiset.card_cons]

/-- **The loop is a run of greedy merges**, and with a round for every node it runs until at
most one node is left. -/
theorem mergeLoop_spec (Q : PriorityQueue HuffmanNode HuffmanNodeComparator) (fuel : ℕ)
    (heap : Q.Heap) (hfuel : Q.size heap ≤ fuel) :
    MergeRun HuffmanNodeComparator HuffmanNode.merge (Q.contents heap)
      (Q.contents (mergeLoop Q fuel heap)) ∧
    (Q.contents (mergeLoop Q fuel heap)).card ≤ 1 := by
  induction fuel generalizing heap with
  | zero =>
    refine ⟨Relation.ReflTransGen.refl, ?_⟩
    rw [mergeLoop, ← Q.size_eq]
    omega
  | succ fuel ih =>
    unfold mergeLoop
    by_cases hsize : Q.size heap ≤ 1
    · rw [if_pos hsize, ← Q.size_eq]
      exact ⟨Relation.ReflTransGen.refl, hsize⟩
    · obtain ⟨left, heap₁, right, heap₂, hleft, hright, hcard⟩ := exists_pops Q heap hsize
      have hstep : MergeStep HuffmanNodeComparator HuffmanNode.merge (Q.contents heap)
          (Q.contents (Q.push heap₂ (HuffmanNode.merge left right))) :=
        mergeStep_of_pops Q heap heap₁ heap₂ left right hleft hright
      have hpush : Q.size (Q.push heap₂ (HuffmanNode.merge left right)) ≤ fuel := by
        rw [Q.size_eq, Q.contents_push, Multiset.card_cons]
        omega
      obtain ⟨hrun, hone⟩ := ih _ hpush
      simp only [hsize, if_false, hleft, hright]
      exact ⟨Relation.ReflTransGen.head hstep hrun, hone⟩

/-- The forest the construction starts from: a leaf for every symbol. -/
def leafForest (frequencies : UInt8 → UInt64) : Multiset (CodeTree UInt8) :=
  ((symbols frequencies).map CodeTree.leaf : List (CodeTree UInt8))

@[simp] theorem forestLeaves_leafForest (frequencies : UInt8 → UInt64) :
    forestLeaves (leafForest frequencies) = (symbols frequencies : Multiset UInt8) :=
  forestLeaves_map_leaf _

/-- The nodes pushed before `make_heap` stand for the leaf forest. -/
theorem contents_make_leafNodes (T : Target) (frequencies : UInt8 → UInt64) :
    T.heap.contents (T.heap.make (leafNodes frequencies)) =
      (leafForest frequencies).map (HuffmanNode.ofTree frequencies) := by
  rw [T.heap.contents_make, leafNodes_eq, leafForest, Multiset.map_coe, List.map_map]
  rfl

/-- **What `build_tree` returns**: the null pointer for a table without positive entries, and
else the tree of a run of greedy merges that starts from the leaves. -/
theorem buildTree_spec (T : Target) (frequencies : UInt8 → UInt64) :
    (symbols frequencies = [] ∧ buildTree T frequencies = .null) ∨
    ∃ t : CodeTree UInt8, buildTree T frequencies = HuffmanNode.ofTree frequencies t ∧
      MergeRun (treeComparator frequencies) CodeTree.node (leafForest frequencies) {t} := by
  set start := T.heap.make (leafNodes frequencies) with hstart
  obtain ⟨hrun, hone⟩ := mergeLoop_spec T.heap (T.heap.size start) start le_rfl
  rw [hstart, contents_make_leafNodes T frequencies, ← hstart] at hrun
  obtain ⟨s, hlifted, hs⟩ := MergeRun.lift (HuffmanNode.ofTree frequencies) CodeTree.node
    (fun _ _ => rfl) _ _ hrun
  rw [← hs, Multiset.card_map] at hone
  rcases Nat.le_one_iff_eq_zero_or_eq_one.mp hone with hzero | hone
  · rw [Multiset.card_eq_zero] at hzero
    subst hzero
    have hleaves := hlifted.forestLeaves
    rw [forestLeaves_leafForest] at hleaves
    have hpop := T.heap.pop_of_contents_eq_zero _ hs.symm
    have hbuild : buildTree T frequencies = .null := by
      simp only [buildTree, ← hstart, hpop]
    exact Or.inl ⟨(Multiset.coe_eq_zero _).mp hleaves.symm, hbuild⟩
  · obtain ⟨t, rfl⟩ := Multiset.card_eq_one.mp hone
    rw [Multiset.map_singleton] at hs
    obtain ⟨front, heap', hpop⟩ := T.heap.exists_pop
      (mergeLoop T.heap (T.heap.size start) start) (by rw [← hs]; simp)
    have hfront := T.heap.pop_contents _ _ _ hpop
    rw [← hs] at hfront
    have hmem : front ∈ ({HuffmanNode.ofTree frequencies t} : Multiset HuffmanNode) := by
      rw [hfront]
      exact Multiset.mem_cons_self front _
    have hbuild : buildTree T frequencies = front := by
      simp only [buildTree, ← hstart, hpop]
    exact Or.inr ⟨t, hbuild.trans (Multiset.mem_singleton.mp hmem), hlifted⟩

/-- The tree of a run from the leaves has the symbols as its leaves. -/
theorem leaves_perm_symbols (frequencies : UInt8 → UInt64) (t : CodeTree UInt8)
    (h : MergeRun (treeComparator frequencies) CodeTree.node (leafForest frequencies) {t}) :
    t.leaves.Perm (symbols frequencies) := by
  have hleaves := h.forestLeaves
  rw [forestLeaves_singleton, forestLeaves_leafForest] at hleaves
  exact Multiset.coe_eq_coe.mp hleaves

/-- **The tree does not depend on the heap.** -/
theorem buildTree_unique (T T' : Target) (frequencies : UInt8 → UInt64) :
    buildTree T frequencies = buildTree T' frequencies := by
  rcases buildTree_spec T frequencies with ⟨hnil, h⟩ | ⟨t, h, hrun⟩
  · rcases buildTree_spec T' frequencies with ⟨-, h'⟩ | ⟨t', -, hrun'⟩
    · rw [h, h']
    · have hperm := leaves_perm_symbols frequencies t' hrun'
      rw [hnil] at hperm
      exact absurd hperm.eq_nil t'.leaves_ne_nil
  · rcases buildTree_spec T' frequencies with ⟨hnil, -⟩ | ⟨t', h', hrun'⟩
    · have hperm := leaves_perm_symbols frequencies t hrun
      rw [hnil] at hperm
      exact absurd hperm.eq_nil t.leaves_ne_nil
    · have heq := mergeRun_unique (P := fun s => (forestLeaves s).Nodup)
        (nodup_of_mergeStep frequencies) (separated_of_nodup frequencies)
        (by simpa using nodup_symbols frequencies) hrun hrun' (by simp) (by simp)
      rw [h, h', Multiset.singleton_inj.mp heq]

/-! ## The codes -/

/-- The codes the recursion sets, below a node reached by `s.currentCode`: what it pushes on the
current code it takes off again. -/
theorem HuffmanNode.Full.generateCodes_eq {n : HuffmanNode} (h : n.Full)
    (hnd : n.shape.leaves.Nodup) (s : CodeState) :
    generateCodes n s =
      { currentCode := s.currentCode
        codes := fun b =>
          if b ∈ n.shape.leaves then s.currentCode ++ n.shape.code b else s.codes b } := by
  induction h generalizing s with
  | leaf v frequency =>
    have hcodes : Function.update s.codes v s.currentCode = fun b =>
        if b ∈ (CodeTree.leaf v).leaves then s.currentCode ++ (CodeTree.leaf v).code b
        else s.codes b := by
      funext b
      by_cases hb : b = v <;> simp [hb, CodeTree.leaves, CodeTree.code]
    have hshape : (HuffmanNode.node v frequency .null .null).shape = .leaf v := rfl
    simp only [generateCodes, HuffmanNode.isNull, Bool.and_self, if_true, hshape, hcodes]
  | node value frequency left right hleft hright ihl ihr =>
    rw [hleft.shape_node] at hnd ⊢
    obtain ⟨hndl, hndr, hdisj⟩ := List.nodup_append'.mp hnd
    have hunfold : generateCodes (HuffmanNode.node value frequency left right) s =
        (generateCodes right
          ((generateCodes left (s.pushBack false)).popBack.pushBack true)).popBack := by
      simp [generateCodes, hleft.isNull, hright.isNull]
    rw [hunfold, ihl hndl, ihr hndr]
    simp only [CodeState.pushBack, CodeState.popBack, List.dropLast_concat, CodeState.mk.injEq,
      true_and]
    funext b
    by_cases hl : b ∈ left.shape.leaves
    · have hr : b ∉ right.shape.leaves := fun hr => hdisj hl hr
      simp [hl, hr, CodeTree.leaves, CodeTree.code]
    · by_cases hr : b ∈ right.shape.leaves <;> simp [hl, hr, CodeTree.leaves, CodeTree.code]

/-- **The code table of a full tree** holds the codewords of its leaves, and no others. -/
theorem HuffmanNode.Full.codeTable_eq {n : HuffmanNode} (h : n.Full)
    (hnd : n.shape.leaves.Nodup) :
    codeTable n = fun b => if b ∈ n.shape.leaves then n.shape.code b else [] := by
  rw [codeTable, h.generateCodes_eq hnd]
  simp

/-- The code table of the node of a code tree. -/
theorem codeTable_ofTree (frequencies : UInt8 → UInt64) (t : CodeTree UInt8)
    (hnd : t.leaves.Nodup) :
    codeTable (HuffmanNode.ofTree frequencies t) =
      fun b => if b ∈ t.leaves then t.code b else [] := by
  have hshape := HuffmanNode.shape_ofTree frequencies t
  have htable := (HuffmanNode.full_ofTree frequencies t).codeTable_eq (hshape.symm ▸ hnd)
  rw [hshape] at htable
  exact htable

/-- The codes of a text over the symbols are its codewords under the tree. -/
theorem flatMap_codeTable (frequencies : UInt8 → UInt64) (t : CodeTree UInt8)
    (hperm : t.leaves.Perm (symbols frequencies)) (d : Bytes)
    (hd : ∀ b ∈ d, 0 < frequencies b) :
    (∀ b ∈ d, b ∈ t.leaves) ∧
      d.flatMap (codeTable (HuffmanNode.ofTree frequencies t)) = t.encode d := by
  have hleaves : ∀ b ∈ d, b ∈ t.leaves := by
    intro b hb
    rw [hperm.mem_iff, mem_symbols]
    exact hd b hb
  have hnd : t.leaves.Nodup := hperm.nodup_iff.mpr (nodup_symbols _)
  refine ⟨hleaves, ?_⟩
  rw [codeTable_ofTree frequencies t hnd, CodeTree.encode, List.flatMap_def, List.flatMap_def]
  congr 1
  apply List.map_congr_left
  intro b hb
  rw [if_pos (hleaves b hb)]

/-! ## A target to compute with -/

/-- The comparator is irreflexive. -/
theorem comparator_irrefl (a : HuffmanNode) : HuffmanNodeComparator a a = false := by
  simp [HuffmanNodeComparator, UInt8.lt_irrefl]

/-- The comparator is asymmetric. -/
theorem comparator_asymm (a b : HuffmanNode) (h : HuffmanNodeComparator a b = true) :
    HuffmanNodeComparator b a = false := by
  unfold HuffmanNodeComparator at *
  grind

/-- Being no worse is transitive. -/
theorem comparator_trans (a b c : HuffmanNode) (hab : HuffmanNodeComparator a b = false)
    (hbc : HuffmanNodeComparator b c = false) : HuffmanNodeComparator a c = false := by
  unfold HuffmanNodeComparator at *
  grind

/-- A 64-bit target whose heap is a list searched from the left. -/
def Target.scan : Target where
  heap := PriorityQueue.scan HuffmanNodeComparator comparator_irrefl comparator_asymm
    comparator_trans
  sizeBits := 64
  sizeBits_eq := Or.inr rfl

end Lacuna.Model
