import Mathlib.Logic.Function.Basic
import Lacuna.Library.PriorityQueue
import Lacuna.Model.Compressor

/-!
# The Huffman tree: nodes, comparator, construction and codes

The tree half of `core/huffman.cpp` and `core/huffman.hpp`. A `HuffmanNode` here is what a
`std::unique_ptr<HuffmanNode>` holds, so the null pointer is one of its values and a child
can be null; that no null child is ever followed is proved, not built in.

The three heap algorithms of the standard library are taken as a priority queue for
`HuffmanNodeComparator` with nothing known about its layout. Together with the width of
`size_t` it makes up the `Target` the sources are compiled for.
-/

set_option autoImplicit false

namespace Lacuna.Model

/-- `std::unique_ptr<HuffmanNode>`: the null pointer, or a node with its two children. -/
inductive HuffmanNode where
  | null
  | node (value : UInt8) (frequency : UInt64) (left right : HuffmanNode)
deriving DecidableEq, Repr

namespace HuffmanNode

/-- `!ptr`. -/
def isNull : HuffmanNode → Bool
  | .null => true
  | .node _ _ _ _ => false

/-- `HuffmanNode(val, freq)`. -/
def leaf (val : UInt8) (freq : UInt64) : HuffmanNode := .node val freq .null .null

/-- `HuffmanNode(freq, l, r)` with the frequency `build_tree` gives it: a sum modulo
`2 ^ 64`. The value keeps its default. -/
def parent (left right : HuffmanNode) (frequency : UInt64) : HuffmanNode :=
  .node 0 frequency left right

/-- The member `frequency`. The heap holds no null pointer, whose case is arbitrary. -/
def frequency : HuffmanNode → UInt64
  | .null => 0
  | .node _ freq _ _ => freq

/-- `get_min_value(node)`. The source follows both children of a node that is not a leaf;
the null case is arbitrary, since every node in the heap is full (`buildTree_spec`). -/
def getMinValue : HuffmanNode → UInt8
  | .null => 255
  | .node value _ left right =>
    if left.isNull && right.isNull then value
    else min (getMinValue left) (getMinValue right)

end HuffmanNode

/-- `HuffmanNodeComparator`: `a` comes out of the heap after `b`. -/
def HuffmanNodeComparator (a b : HuffmanNode) : Bool :=
  if a.frequency ≠ b.frequency then decide (a.frequency > b.frequency)
  else decide (a.getMinValue > b.getMinValue)

/-- What the sources leave to the platform: the heap algorithms of the standard library,
and the width of `size_t` in bits. -/
structure Target : Type 1 where
  heap : Library.PriorityQueue HuffmanNode HuffmanNodeComparator
  sizeBits : ℕ
  sizeBits_eq : sizeBits = 32 ∨ sizeBits = 64

/-! ## `build_tree` -/

/-- The leaves pushed before `make_heap`, in the order of their values. -/
def leafNodes (frequencies : UInt8 → UInt64) : List HuffmanNode :=
  (List.range 256).filterMap fun i =>
    if 0 < frequencies (UInt8.ofNat i) then
      some (HuffmanNode.leaf (UInt8.ofNat i) (frequencies (UInt8.ofNat i)))
    else none

/-- `while (heap.size() > 1)`: two pops and a push. A round leaves one node less, so as many
rounds as there are nodes are never used up (`mergeLoop_spec`). -/
def mergeLoop (Q : Library.PriorityQueue HuffmanNode HuffmanNodeComparator) :
    ℕ → Q.Heap → Q.Heap
  | 0, heap => heap
  | fuel + 1, heap =>
    if Q.size heap ≤ 1 then heap
    else
      match Q.pop heap with
      | none => heap
      | some (left, heap) =>
        match Q.pop heap with
        | none => heap
        | some (right, heap) =>
          let parentFreq := left.frequency + right.frequency
          mergeLoop Q fuel (Q.push heap (HuffmanNode.parent left right parentFreq))

/-- `build_tree(frequencies)`. -/
def buildTree (T : Target) (frequencies : UInt8 → UInt64) : HuffmanNode :=
  let heap := T.heap.make (leafNodes frequencies)
  match T.heap.pop (mergeLoop T.heap (T.heap.size heap) heap) with
  | none => .null
  | some (front, _) => front

/-! ## `generate_codes` -/

/-- The two vectors `generate_codes` changes: the path to the current node, used as a
stack, and the code of every byte value. -/
structure CodeState where
  currentCode : List Bool
  codes : UInt8 → List Bool

namespace CodeState

/-- `current_code.push_back(bit)`. -/
def pushBack (s : CodeState) (bit : Bool) : CodeState :=
  { s with currentCode := s.currentCode ++ [bit] }

/-- `current_code.pop_back()`. -/
def popBack (s : CodeState) : CodeState := { s with currentCode := s.currentCode.dropLast }

end CodeState

/-- `generate_codes(node, current_code, codes)`. Neither recursive call is made on a null
child, so the null case is never reached. -/
def generateCodes : HuffmanNode → CodeState → CodeState
  | .null, s => s
  | .node value _ left right, s =>
    if left.isNull && right.isNull then
      { s with codes := Function.update s.codes value s.currentCode }
    else
      let s := if left.isNull then s else (generateCodes left (s.pushBack false)).popBack
      if right.isNull then s else (generateCodes right (s.pushBack true)).popBack

/-- The code table of a tree: `codes(256)` and `current_code` start empty. -/
def codeTable (root : HuffmanNode) : UInt8 → List Bool :=
  (generateCodes root { currentCode := [], codes := fun _ => [] }).codes

end Lacuna.Model
