import Mathlib.Data.List.Basic

/-!
# Runs of a labelled transition system

A system moves from state to state by steps that carry a label; a run is given by its labels. A
second system that can follow every step can follow every run (`Run.simulate`).

Where the states are stores, from keys to values, and every step changes at most the key its
label names, a run leaves the other keys alone (`Run.frame`), and what a key holds at the end was
left there by the last step whose label names it (`Run.last_change`).
-/

set_option autoImplicit false

namespace Lacuna.Library

universe u v w

variable {S : Type u} {S' : Type w} {L : Type v}

/-- A run from one state to another, given by its labels. -/
inductive Run (step : S → L → S → Prop) : S → List L → S → Prop
  | nil (s : S) : Run step s [] s
  | cons (s t u : S) (a : L) (as : List L) : step s a t → Run step t as u →
    Run step s (a :: as) u

/-! ## Simulations -/

section

variable {step : S → L → S → Prop} {step' : S' → L → S' → Prop}

/-- **The simulation rule.** If every step from related states can be followed by one with the
same label to related states, so can every run. -/
theorem Run.simulate {R : S → S' → Prop}
    (hstep : ∀ s a t x, R s x → step s a t → ∃ y, step' x a y ∧ R t y) {s t : S} {as : List L}
    (h : Run step s as t) {x : S'} (hx : R s x) : ∃ y, Run step' x as y ∧ R t y := by
  induction h generalizing x with
  | nil s => exact ⟨x, .nil x, hx⟩
  | cons s u t a as hfirst _ ih =>
    obtain ⟨y, hy, huy⟩ := hstep s a u x hx hfirst
    obtain ⟨z, hz, htz⟩ := ih huy
    exact ⟨z, .cons x y z a as hy hz, htz⟩

end

/-! ## Stores -/

section

variable {K V : Type} {step : (K → V) → L → (K → V) → Prop} {dest : L → Option K}

/-- A step changes at most the key that its label names. -/
def ChangesOnly (step : (K → V) → L → (K → V) → Prop) (dest : L → Option K) : Prop :=
  ∀ s a s', step s a s' → ∀ k, dest a ≠ some k → s' k = s k

/-- **The frame rule.** A key that no label names keeps its value. -/
theorem Run.frame (hstep : ChangesOnly step dest) {s s' : K → V} {as : List L}
    (h : Run step s as s') (k : K) (hk : ∀ a ∈ as, dest a ≠ some k) : s' k = s k := by
  induction h with
  | nil s => rfl
  | cons s u s' a as hfirst _ ih =>
    rw [List.forall_mem_cons] at hk
    rw [ih hk.2, hstep s a u hfirst k hk.1]

/-- **The last change of a key.** At the end a key holds what it held at the start, if no label
names it, or what the last step left there whose label does. -/
theorem Run.last_change (hstep : ChangesOnly step dest) {s s' : K → V} {as : List L}
    (h : Run step s as s') (k : K) :
    ((∀ a ∈ as, dest a ≠ some k) ∧ s' k = s k) ∨
    ∃ bs a cs u v, as = bs ++ a :: cs ∧ Run step s bs u ∧ step u a v ∧ Run step v cs s' ∧
      dest a = some k ∧ (∀ c ∈ cs, dest c ≠ some k) ∧ s' k = v k := by
  induction h with
  | nil s => exact Or.inl ⟨by simp, rfl⟩
  | cons s u s' a as hfirst hrest ih =>
    rcases ih with ⟨hnone, hkeep⟩ | ⟨bs, b, cs, x, y, rfl, hbs, hlast, hcs, hdest, hafter, hk⟩
    · by_cases hdest : dest a = some k
      · exact Or.inr ⟨[], a, as, s, u, rfl, .nil s, hfirst, hrest, hdest, hnone, hkeep⟩
      · refine Or.inl ⟨List.forall_mem_cons.mpr ⟨hdest, hnone⟩, ?_⟩
        rw [hkeep, hstep s a u hfirst k hdest]
    · exact Or.inr ⟨a :: bs, b, cs, x, y, rfl, .cons s u x a bs hfirst hbs, hlast, hcs, hdest,
        hafter, hk⟩

end

end Lacuna.Library
