import Mathlib.Data.Multiset.AddSub

/-!
# Priority queues with an unknown layout

A priority queue is known by its contents, a multiset, and by what `pop` promises: the
element it returns is one to which the comparator prefers no other. Nothing is said about
the layout, nor about which of several equally good elements is returned. `worse a b` is
the comparator of the C++ heap algorithms: it holds when `b` comes out before `a`.

`scan` is an implementation to compute with, and `reversed` makes another out of any.
-/

set_option autoImplicit false

namespace Lacuna.Library

/-- The queue operations over `α` and what they promise for the comparator `worse`. -/
structure PriorityQueue (α : Type) (worse : α → α → Bool) : Type 1 where
  Heap : Type
  make : List α → Heap
  push : Heap → α → Heap
  pop : Heap → Option (α × Heap)
  size : Heap → ℕ
  contents : Heap → Multiset α
  contents_make : ∀ l : List α, contents (make l) = l
  contents_push : ∀ (h : Heap) (a : α), contents (push h a) = a ::ₘ contents h
  size_eq : ∀ h : Heap, size h = (contents h).card
  pop_none : ∀ h : Heap, pop h = none → contents h = 0
  pop_contents : ∀ (h : Heap) (a : α) (h' : Heap),
    pop h = some (a, h') → contents h = a ::ₘ contents h'
  pop_best : ∀ (h : Heap) (a : α) (h' : Heap),
    pop h = some (a, h') → ∀ b ∈ contents h, worse a b = false

namespace PriorityQueue

variable {α : Type} {worse : α → α → Bool}

/-- A queue that is not empty pops. -/
theorem exists_pop (Q : PriorityQueue α worse) (h : Q.Heap) (hne : Q.contents h ≠ 0) :
    ∃ a h', Q.pop h = some (a, h') := by
  cases hp : Q.pop h with
  | none => exact absurd (Q.pop_none h hp) hne
  | some r => exact ⟨r.1, r.2, rfl⟩

/-- An empty queue does not pop. -/
theorem pop_of_contents_eq_zero (Q : PriorityQueue α worse) (h : Q.Heap)
    (h0 : Q.contents h = 0) : Q.pop h = none := by
  cases hp : Q.pop h with
  | none => rfl
  | some r =>
    have hc := Q.pop_contents h r.1 r.2 hp
    rw [h0] at hc
    exact absurd hc.symm (Multiset.cons_ne_zero)

/-! ## An implementation by linear search -/

/-- The best of a nonempty list and the others: a left-to-right scan that keeps the best
element seen. -/
def extractBest (worse : α → α → Bool) : α → List α → α × List α
  | a, [] => (a, [])
  | a, b :: l =>
    if worse a b then ((extractBest worse b l).1, a :: (extractBest worse b l).2)
    else ((extractBest worse a l).1, b :: (extractBest worse a l).2)

/-- The scan only reorders. -/
theorem extractBest_perm (a : α) (l : List α) :
    ((extractBest worse a l).1 :: (extractBest worse a l).2).Perm (a :: l) := by
  induction l generalizing a with
  | nil => exact List.Perm.refl _
  | cons b l ih =>
    unfold extractBest
    split
    · have h := (ih b).cons a
      exact (List.Perm.swap _ _ _).trans h
    · have h := (ih a).cons b
      exact (List.Perm.swap _ _ _).trans (h.trans (List.Perm.swap _ _ _))

/-- The scan ends with an element to which no other is preferred, for a comparator that is
a strict weak order. -/
theorem extractBest_best (hirrefl : ∀ a, worse a a = false)
    (hasymm : ∀ a b, worse a b = true → worse b a = false)
    (htrans : ∀ a b c, worse a b = false → worse b c = false → worse a c = false)
    (a : α) (l : List α) :
    ∀ b ∈ a :: l, worse (extractBest worse a l).1 b = false := by
  induction l generalizing a with
  | nil =>
    intro b hb
    rw [List.mem_singleton] at hb
    rw [hb]
    exact hirrefl a
  | cons c l ih =>
    intro b hb
    unfold extractBest
    cases hac : worse a c with
    | true =>
      have hc := ih c
      simp only [if_true]
      rcases List.mem_cons.mp hb with rfl | hb
      · exact htrans _ c _ (hc c (List.mem_cons_self)) (hasymm b c hac)
      · exact hc b hb
    | false =>
      have ha := ih a
      simp only [Bool.false_eq_true, if_false]
      rcases List.mem_cons.mp hb with rfl | hb
      · exact ha b (List.mem_cons_self)
      · rcases List.mem_cons.mp hb with rfl | hb
        · exact htrans _ a _ (ha a (List.mem_cons_self)) hac
        · exact ha b (List.mem_cons_of_mem a hb)

/-- The queue whose heap is a plain list searched from the left. -/
def scan (worse : α → α → Bool) (hirrefl : ∀ a, worse a a = false)
    (hasymm : ∀ a b, worse a b = true → worse b a = false)
    (htrans : ∀ a b c, worse a b = false → worse b c = false → worse a c = false) :
    PriorityQueue α worse where
  Heap := List α
  make l := l
  push l a := a :: l
  pop
    | [] => none
    | a :: l => some (extractBest worse a l)
  size := List.length
  contents l := l
  contents_make _ := rfl
  contents_push _ _ := rfl
  size_eq _ := rfl
  pop_none l h := by
    cases l with
    | nil => rfl
    | cons a l => cases h
  pop_contents l a l' h := by
    cases l with
    | nil => cases h
    | cons b l =>
      have hp := @extractBest_perm α worse b l
      rw [Option.some.inj h] at hp
      exact Multiset.coe_eq_coe.mpr hp.symm
  pop_best l a l' h := by
    cases l with
    | nil => cases h
    | cons b l =>
      have hbest := extractBest_best hirrefl hasymm htrans b l
      rw [Option.some.inj h] at hbest
      exact hbest

/-- Filled in the reverse order, a queue is another queue with the same promises. -/
def reversed (Q : PriorityQueue α worse) : PriorityQueue α worse where
  Heap := Q.Heap
  make l := Q.make l.reverse
  push := Q.push
  pop := Q.pop
  size := Q.size
  contents := Q.contents
  contents_make l := (Q.contents_make l.reverse).trans (Multiset.coe_reverse l)
  contents_push := Q.contents_push
  size_eq := Q.size_eq
  pop_none := Q.pop_none
  pop_contents := Q.pop_contents
  pop_best := Q.pop_best

end PriorityQueue

end Lacuna.Library
