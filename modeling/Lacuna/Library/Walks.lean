import Mathlib.Data.Fintype.EquivFin
import Mathlib.Logic.Relation
import Mathlib.Order.WellFounded

/-!
# Walks in labelled graphs

A graph is a relation `step u a v`: from `u` the label `a` leads to `v`. A walk is the list of
the labels it follows. A search that follows every step comes to an end exactly at the vertices
that are accessible, and in a finite graph these are the ones from which no cycle can be reached
(`acc_iff_acyclic`). Where every vertex is reached in one way only, there is none
(`acyclic_of_unique`).
-/

set_option autoImplicit false

namespace Lacuna.Library

variable {V L : Type} {step : V → L → V → Prop}

/-- A walk from one vertex to another, given by its labels. -/
inductive Walk (step : V → L → V → Prop) : V → List L → V → Prop
  | nil (v : V) : Walk step v [] v
  | cons (u v w : V) (a : L) (as : List L) : step u a v → Walk step v as w →
    Walk step u (a :: as) w

/-- Walks can be joined. -/
theorem Walk.append {u v w : V} {as bs : List L} (h : Walk step u as v) (h' : Walk step v bs w) :
    Walk step u (as ++ bs) w := by
  induction h with
  | nil v => exact h'
  | cons u v _ a as hstep _ ih => exact .cons u v _ a _ hstep (ih h')

/-- Some walk leads there. -/
def Reaches (step : V → L → V → Prop) (u v : V) : Prop := ∃ as, Walk step u as v

/-- A vertex one step behind another, whatever the label. -/
def Behind (step : V → L → V → Prop) (v u : V) : Prop := ∃ a, step u a v

/-- No cycle can be reached. -/
def Acyclic (step : V → L → V → Prop) (u : V) : Prop :=
  ∀ v, Reaches step u v → ∀ as, Walk step v as v → as = []

/-- A vertex is reached from itself. -/
theorem Reaches.refl (u : V) : Reaches step u u := ⟨[], .nil u⟩

/-- One more step. -/
theorem Reaches.tail {u v w : V} {a : L} (h : Reaches step u v) (hstep : step v a w) :
    Reaches step u w := by
  obtain ⟨as, hwalk⟩ := h
  exact ⟨as ++ [a], hwalk.append (.cons v w w a [] hstep (.nil w))⟩

/-- A chain of steps is a walk that is not empty. -/
theorem exists_walk_of_transGen {u v : V} (h : Relation.TransGen (Behind step) v u) :
    ∃ as, as ≠ [] ∧ Walk step u as v := by
  induction h with
  | single h =>
    obtain ⟨a, hstep⟩ := h
    exact ⟨[a], by simp, .cons _ _ _ a [] hstep (.nil _)⟩
  | tail _ h ih =>
    obtain ⟨as, -, hwalk⟩ := ih
    obtain ⟨a, hstep⟩ := h
    exact ⟨a :: as, by simp, .cons _ _ _ a as hstep hwalk⟩

/-- A walk that is not empty is a chain of steps. -/
theorem Walk.transGen {u v : V} {as : List L} (h : Walk step u as v) (hne : as ≠ []) :
    Relation.TransGen (Behind step) v u := by
  induction h with
  | nil v => exact absurd rfl hne
  | cons u v w a as hstep hwalk ih =>
    by_cases has : as = []
    · subst has
      cases hwalk
      exact .single ⟨a, hstep⟩
    · exact .tail (ih has) ⟨a, hstep⟩

/-- What is reached from an accessible vertex is accessible. -/
theorem Reaches.acc {u v : V} (h : Reaches step u v) (hacc : Acc (Behind step) u) :
    Acc (Behind step) v := by
  obtain ⟨as, hwalk⟩ := h
  induction hwalk with
  | nil v => exact hacc
  | cons u v w a as hstep _ ih => exact ih (hacc.inv ⟨a, hstep⟩)

/-- No walk leads from an accessible vertex back to it. -/
theorem not_transGen_of_acc {v : V} (hacc : Acc (Behind step) v) :
    ¬ Relation.TransGen (Behind step) v v := by
  have htrans := hacc.transGen
  clear hacc
  induction htrans with
  | intro v _ ih =>
    intro hcycle
    exact ih v hcycle hcycle

/-- **In a finite graph, a vertex is accessible exactly if no cycle can be reached.** -/
theorem acc_iff_acyclic [Finite V] (u : V) : Acc (Behind step) u ↔ Acyclic step u := by
  constructor
  · intro hacc v hreach as hcycle
    by_contra hne
    exact not_transGen_of_acc (hreach.acc hacc) (hcycle.transGen hne)
  · intro hacyclic
    -- on the vertices that can be reached, being behind is a well-founded order
    let behind : { v // Reaches step u v } → { v // Reaches step u v } → Prop :=
      fun v w => Relation.TransGen (Behind step) v.1 w.1
    have htrans : IsTrans _ behind := ⟨fun _ _ _ h h' => h.trans h'⟩
    have hirrefl : Std.Irrefl behind := by
      refine ⟨fun v hcycle => ?_⟩
      obtain ⟨as, hne, hwalk⟩ := exists_walk_of_transGen hcycle
      exact hne (hacyclic v.1 v.2 as hwalk)
    have hwf : WellFounded behind := Finite.wellFounded_of_trans_of_irrefl behind
    have hall : ∀ v : { v // Reaches step u v }, Acc (Behind step) v.1 := by
      intro v
      induction v using hwf.induction with
      | _ v ih =>
        refine Acc.intro _ fun w hbehind => ?_
        obtain ⟨a, hstep⟩ := hbehind
        exact ih ⟨w, v.2.tail hstep⟩ (.single ⟨a, hstep⟩)
    exact hall ⟨u, .refl u⟩

/-- Where every vertex is reached in one way only, no cycle can be reached. -/
theorem acyclic_of_unique {u : V}
    (h : ∀ v as bs, Walk step u as v → Walk step u bs v → as = bs) : Acyclic step u := by
  intro v hreach as hcycle
  obtain ⟨bs, hwalk⟩ := hreach
  have heq := h v bs (bs ++ as) hwalk (hwalk.append hcycle)
  exact List.append_right_eq_self.mp heq.symm

end Lacuna.Library
