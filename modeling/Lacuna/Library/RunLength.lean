import Mathlib.Algebra.GroupWithZero.Nat
import Mathlib.Data.List.Basic
import Mathlib.Algebra.BigOperators.Group.List.Basic

/-!
# Run-length representations

A sequence of runs, each a length and an element, stands for the list that repeats every
element by its length (`expandRuns`). `cappedRuns cap` is the greedy representation with
no run longer than `cap`: a run is closed when it is full or when another element follows.
It stands for the list it was made from (`expandRuns_cappedRuns`) and all its lengths lie
between `1` and `cap` (`cappedRuns_bounds`).
-/

set_option autoImplicit false

namespace Lacuna.Library

variable {α : Type}

/-- The list a sequence of runs stands for. -/
def expandRuns (runs : List (ℕ × α)) : List α := runs.flatMap fun r => List.replicate r.1 r.2

/-- The number of elements a sequence of runs stands for. -/
def runsTotal (runs : List (ℕ × α)) : ℕ := (runs.map Prod.fst).sum

@[simp] theorem expandRuns_nil : expandRuns ([] : List (ℕ × α)) = [] := rfl

@[simp] theorem expandRuns_cons (r : ℕ × α) (runs : List (ℕ × α)) :
    expandRuns (r :: runs) = List.replicate r.1 r.2 ++ expandRuns runs := by
  simp [expandRuns]

@[simp] theorem expandRuns_append (runs more : List (ℕ × α)) :
    expandRuns (runs ++ more) = expandRuns runs ++ expandRuns more := by
  simp [expandRuns]

@[simp] theorem runsTotal_nil : runsTotal ([] : List (ℕ × α)) = 0 := rfl

@[simp] theorem runsTotal_cons (r : ℕ × α) (runs : List (ℕ × α)) :
    runsTotal (r :: runs) = r.1 + runsTotal runs := by
  simp [runsTotal]

@[simp] theorem runsTotal_append (runs more : List (ℕ × α)) :
    runsTotal (runs ++ more) = runsTotal runs + runsTotal more := by
  simp [runsTotal]

/-- The runs stand for as many elements as their lengths add up to. -/
@[simp] theorem length_expandRuns (runs : List (ℕ × α)) :
    (expandRuns runs).length = runsTotal runs := by
  induction runs with
  | nil => rfl
  | cons r runs ih => simp [ih]

/-- Runs of bounded length stand for a bounded list. -/
theorem runsTotal_le (runs : List (ℕ × α)) (cap : ℕ) (h : ∀ r ∈ runs, r.1 ≤ cap) :
    runsTotal runs ≤ cap * runs.length := by
  induction runs with
  | nil => simp
  | cons r runs ih =>
    have hr := h r List.mem_cons_self
    have htail := ih fun r' hr' => h r' (List.mem_cons_of_mem r hr')
    rw [runsTotal_cons, List.length_cons, Nat.mul_succ]
    omega

/-- Runs that are not empty stand for at least as many elements as there are runs. -/
theorem length_le_runsTotal (runs : List (ℕ × α)) (h : ∀ r ∈ runs, 1 ≤ r.1) :
    runs.length ≤ runsTotal runs := by
  induction runs with
  | nil => simp
  | cons r runs ih =>
    have hr := h r List.mem_cons_self
    have htail := ih fun r' hr' => h r' (List.mem_cons_of_mem r hr')
    rw [runsTotal_cons, List.length_cons]
    omega

/-- Runs that are not empty and no fewer than elements have one element each. -/
theorem fst_eq_one_of_runsTotal (runs : List (ℕ × α)) (hpos : ∀ r ∈ runs, 1 ≤ r.1)
    (h : runsTotal runs = runs.length) : ∀ r ∈ runs, r.1 = 1 := by
  induction runs with
  | nil => simp
  | cons r runs ih =>
    have hr := hpos r List.mem_cons_self
    have htail := fun x hx => hpos x (List.mem_cons_of_mem r hx)
    have hle := length_le_runsTotal runs htail
    rw [runsTotal_cons, List.length_cons] at h
    exact List.forall_mem_cons.mpr ⟨by omega, ih htail (by omega)⟩

/-- Runs of one element each stand for their elements. -/
theorem expandRuns_of_fst_eq_one (runs : List (ℕ × α)) (h : ∀ r ∈ runs, r.1 = 1) :
    expandRuns runs = runs.map Prod.snd := by
  induction runs with
  | nil => rfl
  | cons r runs ih =>
    obtain ⟨hr, htail⟩ := List.forall_mem_cons.mp h
    rw [expandRuns_cons, hr, ih htail]
    rfl

/-- Runs that are not empty and add nothing to a total are none. -/
theorem eq_nil_of_runsTotal_append (runs more : List (ℕ × α))
    (hpos : ∀ r ∈ runs ++ more, 1 ≤ r.1) (h : runsTotal (runs ++ more) = runsTotal runs) :
    more = [] := by
  have hle := length_le_runsTotal more fun r hr => hpos r (List.mem_append_right runs hr)
  rw [runsTotal_append] at h
  exact List.eq_nil_of_length_eq_zero (by omega)

/-! ## The greedy representation -/

variable [DecidableEq α]

/-- The runs of a list that continues an open run of `n` elements `v`. -/
def cappedRunsFrom (cap : ℕ) (v : α) (n : ℕ) : List α → List (ℕ × α)
  | [] => [(n, v)]
  | b :: l =>
    if b = v then
      if n = cap then (n, v) :: cappedRunsFrom cap v 1 l
      else cappedRunsFrom cap v (n + 1) l
    else (n, v) :: cappedRunsFrom cap b 1 l

/-- The greedy runs of a list. -/
def cappedRuns (cap : ℕ) : List α → List (ℕ × α)
  | [] => []
  | b :: l => cappedRunsFrom cap b 1 l

/-- The runs of a list that continues an open run stand for that run and the list. -/
theorem expandRuns_cappedRunsFrom (cap : ℕ) (v : α) (n : ℕ) (l : List α) :
    expandRuns (cappedRunsFrom cap v n l) = List.replicate n v ++ l := by
  induction l generalizing v n with
  | nil => simp [cappedRunsFrom]
  | cons b l ih =>
    by_cases hb : b = v
    · subst hb
      by_cases hn : n = cap
      · simp [cappedRunsFrom, hn, ih]
      · simp [cappedRunsFrom, hn, ih, List.replicate_succ']
    · simp [cappedRunsFrom, hb, ih]

/-- **The greedy runs stand for the list they were made from.** -/
@[simp] theorem expandRuns_cappedRuns (cap : ℕ) (l : List α) :
    expandRuns (cappedRuns cap l) = l := by
  cases l with
  | nil => rfl
  | cons b l => simp [cappedRuns, expandRuns_cappedRunsFrom]

/-- The lengths of the runs after an open run stay within the cap. -/
theorem cappedRunsFrom_bounds (cap : ℕ) (v : α) (n : ℕ) (l : List α) (hn : 1 ≤ n)
    (hcap : n ≤ cap) : ∀ r ∈ cappedRunsFrom cap v n l, 1 ≤ r.1 ∧ r.1 ≤ cap := by
  induction l generalizing v n with
  | nil =>
    intro r hr
    rw [cappedRunsFrom, List.mem_singleton] at hr
    rw [hr]
    exact ⟨hn, hcap⟩
  | cons b l ih =>
    have hone : 1 ≤ cap := Nat.le_trans hn hcap
    unfold cappedRunsFrom
    split
    · split
      · intro r hr
        rcases List.mem_cons.mp hr with rfl | hr
        · exact ⟨hn, hcap⟩
        · exact ih v 1 (Nat.le_refl 1) hone r hr
      · exact ih v (n + 1) (by omega) (by omega)
    · intro r hr
      rcases List.mem_cons.mp hr with rfl | hr
      · exact ⟨hn, hcap⟩
      · exact ih b 1 (Nat.le_refl 1) hone r hr

/-- The lengths of the greedy runs lie between `1` and the cap. -/
theorem cappedRuns_bounds (cap : ℕ) (hcap : 1 ≤ cap) (l : List α) :
    ∀ r ∈ cappedRuns cap l, 1 ≤ r.1 ∧ r.1 ≤ cap := by
  cases l with
  | nil => simp [cappedRuns]
  | cons b l => exact cappedRunsFrom_bounds cap b 1 l (Nat.le_refl 1) hcap

/-- The greedy runs of a list stand for as many elements as it has. -/
theorem runsTotal_cappedRuns (cap : ℕ) (l : List α) :
    runsTotal (cappedRuns cap l) = l.length := by
  rw [← length_expandRuns, expandRuns_cappedRuns]

end Lacuna.Library
