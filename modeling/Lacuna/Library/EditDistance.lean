import Mathlib.Order.Bounds.Basic
import Mathlib.Data.List.Basic

/-!
# Edit distance

A script turns one list into another by inserting, deleting and substituting one element at a
time (`EditScript`). The recursion `editDistance` compares two lists from the front; it is the
length of a shortest script (`isLeast_editDistance`): no edit changes it by more than one
(`editDistance_le_of_edit`), and a script of that length can be read off the recursion
(`editScript_editDistance`).

From the scripts it is clear that the distance is zero exactly on equal lists, symmetric, and
satisfies the triangle inequality, and that both lists may be read backwards.
-/

set_option autoImplicit false

namespace Lacuna.Library

variable {α : Type}

/-! ## Scripts -/

/-- One insertion, deletion or substitution, at any position. -/
inductive Edit : List α → List α → Prop
  | insertion (p q : List α) (a : α) : Edit (p ++ q) (p ++ a :: q)
  | deletion (p q : List α) (a : α) : Edit (p ++ a :: q) (p ++ q)
  | substitution (p q : List α) (a b : α) : Edit (p ++ a :: q) (p ++ b :: q)

/-- A sequence of `n` edits. -/
inductive EditScript : ℕ → List α → List α → Prop
  | done (s : List α) : EditScript 0 s s
  | step (n : ℕ) (s u t : List α) : Edit s u → EditScript n u t → EditScript (n + 1) s t

/-- An edit can be made behind another element. -/
theorem Edit.cons {s t : List α} (h : Edit s t) (c : α) : Edit (c :: s) (c :: t) := by
  cases h with
  | insertion p q a => exact .insertion (c :: p) q a
  | deletion p q a => exact .deletion (c :: p) q a
  | substitution p q a b => exact .substitution (c :: p) q a b

/-- An edit can be undone by an edit. -/
theorem Edit.symm {s t : List α} (h : Edit s t) : Edit t s := by
  cases h with
  | insertion p q a => exact .deletion p q a
  | deletion p q a => exact .insertion p q a
  | substitution p q a b => exact .substitution p q b a

/-- An edit of a list is one of the list read backwards. -/
theorem Edit.reverse {s t : List α} (h : Edit s t) : Edit s.reverse t.reverse := by
  cases h with
  | insertion p q a => simpa using Edit.insertion q.reverse p.reverse a
  | deletion p q a => simpa using Edit.deletion q.reverse p.reverse a
  | substitution p q a b => simpa using Edit.substitution q.reverse p.reverse a b

/-- Scripts can be joined. -/
theorem EditScript.trans {m n : ℕ} {s u t : List α} (h : EditScript m s u)
    (h' : EditScript n u t) : EditScript (m + n) s t := by
  induction h with
  | done s => rwa [Nat.zero_add]
  | step m s v u hedit _ ih =>
    rw [Nat.succ_add]
    exact .step _ _ _ _ hedit (ih h')

/-- One edit is a script. -/
theorem Edit.script {s t : List α} (h : Edit s t) : EditScript 1 s t :=
  .step 0 s t t h (.done t)

/-- A script can be carried out behind another element. -/
theorem EditScript.cons {n : ℕ} {s t : List α} (h : EditScript n s t) (c : α) :
    EditScript n (c :: s) (c :: t) := by
  induction h with
  | done s => exact .done _
  | step n s u t hedit _ ih => exact .step n _ _ _ (hedit.cons c) ih

/-- A script can be undone. -/
theorem EditScript.symm {n : ℕ} {s t : List α} (h : EditScript n s t) : EditScript n t s := by
  induction h with
  | done s => exact .done s
  | step n s u t hedit _ ih => exact ih.trans hedit.symm.script

/-- A script works on the lists read backwards. -/
theorem EditScript.reverse {n : ℕ} {s t : List α} (h : EditScript n s t) :
    EditScript n s.reverse t.reverse := by
  induction h with
  | done s => exact .done _
  | step n s u t hedit _ ih => exact .step n _ _ _ hedit.reverse ih

/-- Only a list itself can be reached without an edit. -/
theorem editScript_zero {s t : List α} : EditScript 0 s t ↔ s = t := by
  constructor
  · intro h
    cases h
    rfl
  · rintro rfl
    exact .done s

/-! ## The recursion -/

variable [DecidableEq α]

/-- The edit distance, by recursion from the front: the first element of the one list is
deleted, that of the other inserted, or the one substituted for the other. -/
def editDistance : List α → List α → ℕ
  | [], t => t.length
  | s, [] => s.length
  | a :: s, b :: t =>
    min (min (editDistance s (b :: t) + 1) (editDistance (a :: s) t + 1))
      (editDistance s t + if a = b then 0 else 1)
termination_by s t => s.length + t.length

@[simp] theorem editDistance_nil_left (t : List α) : editDistance [] t = t.length := by
  rw [editDistance]

@[simp] theorem editDistance_nil_right (s : List α) : editDistance s [] = s.length := by
  cases s with
  | nil => rw [editDistance_nil_left]
  | cons a s => simp [editDistance]

theorem editDistance_cons_cons (a b : α) (s t : List α) :
    editDistance (a :: s) (b :: t) =
      min (min (editDistance s (b :: t) + 1) (editDistance (a :: s) t + 1))
        (editDistance s t + if a = b then 0 else 1) := by
  rw [editDistance]

/-- A deletion at the front costs at most one. -/
theorem editDistance_cons_left_le (a : α) (s t : List α) :
    editDistance (a :: s) t ≤ editDistance s t + 1 := by
  cases t with
  | nil => simp
  | cons b t =>
    rw [editDistance_cons_cons]
    omega

/-- An insertion at the front costs at most one. -/
theorem editDistance_cons_right_le (b : α) (s t : List α) :
    editDistance s (b :: t) ≤ editDistance s t + 1 := by
  cases s with
  | nil => simp
  | cons a s =>
    rw [editDistance_cons_cons]
    omega

/-- A substitution at the front costs at most one. -/
theorem editDistance_cons_cons_le (a b : α) (s t : List α) :
    editDistance (a :: s) (b :: t) ≤ editDistance s t + 1 := by
  rw [editDistance_cons_cons]
  split <;> omega

/-! ## No script is shorter -/

/-- Deleting the first element brings a list no further than one step away. -/
theorem editDistance_le_cons_left (a : α) (s t : List α) :
    editDistance s t ≤ editDistance (a :: s) t + 1 := by
  induction t with
  | nil =>
    rw [editDistance_nil_right, editDistance_nil_right, List.length_cons]
    omega
  | cons b t ih =>
    have hinsert := editDistance_cons_right_le b s t
    rw [editDistance_cons_cons]
    split <;> omega

/-- Substituting the first element brings a list no further than one step away. -/
theorem editDistance_substitute_le (a b : α) (s t : List α) :
    editDistance (a :: s) t ≤ editDistance (b :: s) t + 1 := by
  induction t with
  | nil => simp
  | cons c t ih =>
    have hdelete := editDistance_cons_left_le a s (c :: t)
    have hsubstitute := editDistance_cons_cons_le a c s t
    rw [editDistance_cons_cons b c]
    have hinsert := editDistance_cons_right_le c (a :: s) t
    split <;> omega

/-- Lists that are at most one step apart stay so behind another element. -/
theorem editDistance_cons_congr_le {s s' : List α}
    (h : ∀ t, editDistance s t ≤ editDistance s' t + 1) (c : α) (t : List α) :
    editDistance (c :: s) t ≤ editDistance (c :: s') t + 1 := by
  induction t with
  | nil =>
    have hnil := h []
    simp only [editDistance_nil_right, List.length_cons] at hnil ⊢
    omega
  | cons b t ih =>
    have hdelete := h (b :: t)
    have hsubstitute := h t
    rw [editDistance_cons_cons, editDistance_cons_cons]
    omega

/-- **An edit changes the distance by at most one.** -/
theorem editDistance_le_of_edit {s s' : List α} (h : Edit s s') (t : List α) :
    editDistance s t ≤ editDistance s' t + 1 := by
  have hprefix : ∀ (p q q' t : List α), (∀ t, editDistance q t ≤ editDistance q' t + 1) →
      editDistance (p ++ q) t ≤ editDistance (p ++ q') t + 1 := by
    intro p q q' t hq
    induction p generalizing t with
    | nil => exact hq t
    | cons c p ih => exact editDistance_cons_congr_le ih c t
  cases h with
  | insertion p q a => exact hprefix p _ _ t fun t => editDistance_le_cons_left a q t
  | deletion p q a => exact hprefix p _ _ t fun t => editDistance_cons_left_le a q t
  | substitution p q a b => exact hprefix p _ _ t fun t => editDistance_substitute_le a b q t

/-- A list is at distance zero from itself. -/
@[simp] theorem editDistance_self (s : List α) : editDistance s s = 0 := by
  induction s with
  | nil => simp
  | cons a s ih => simp [editDistance_cons_cons, ih]

/-- **No script is shorter than the distance.** -/
theorem editDistance_le_of_script {n : ℕ} {s t : List α} (h : EditScript n s t) :
    editDistance s t ≤ n := by
  induction h with
  | done s => simp
  | step n s u t hedit _ ih =>
    have hstep := editDistance_le_of_edit hedit t
    omega

/-! ## A script of that length -/

omit [DecidableEq α] in
/-- All elements of a list can be inserted one by one. -/
theorem editScript_insert_all (t : List α) : EditScript t.length [] t := by
  induction t with
  | nil => exact .done []
  | cons b t ih => exact .step _ _ _ _ (.insertion [] [] b) (ih.cons b)

/-- **There is a script as long as the distance.** -/
theorem editScript_editDistance (s t : List α) : EditScript (editDistance s t) s t := by
  induction s generalizing t with
  | nil =>
    rw [editDistance_nil_left]
    exact editScript_insert_all t
  | cons a s ihs =>
    induction t with
    | nil =>
      rw [editDistance_nil_right]
      exact (editScript_insert_all (a :: s)).symm
    | cons b t iht =>
      rw [editDistance_cons_cons]
      rcases Std.min_eq_or
        (a := min (editDistance s (b :: t) + 1) (editDistance (a :: s) t + 1))
        (b := editDistance s t + if a = b then 0 else 1) with hmin | hmin
      · rw [hmin]
        rcases Std.min_eq_or (a := editDistance s (b :: t) + 1)
          (b := editDistance (a :: s) t + 1) with h | h
        · rw [h]
          exact .step _ _ _ _ (.deletion [] s a) (ihs (b :: t))
        · rw [h]
          exact iht.trans (Edit.insertion [] t b).script
      · rw [hmin]
        by_cases hab : a = b
        · rw [if_pos hab, hab]
          exact (ihs t).cons b
        · rw [if_neg hab]
          exact .step _ _ _ _ (.substitution [] s a b) ((ihs t).cons b)

/-- **The edit distance is the length of a shortest script.** -/
theorem isLeast_editDistance (s t : List α) :
    IsLeast {n | EditScript n s t} (editDistance s t) :=
  ⟨editScript_editDistance s t, fun _ h => editDistance_le_of_script h⟩

/-! ## Consequences -/

/-- The distance is zero exactly on equal lists. -/
theorem editDistance_eq_zero (s t : List α) : editDistance s t = 0 ↔ s = t := by
  constructor
  · intro h
    have hscript := editScript_editDistance s t
    rw [h] at hscript
    exact editScript_zero.mp hscript
  · rintro rfl
    exact editDistance_self s

/-- The distance is symmetric. -/
theorem editDistance_comm (s t : List α) : editDistance s t = editDistance t s := by
  apply le_antisymm
  · exact editDistance_le_of_script (editScript_editDistance t s).symm
  · exact editDistance_le_of_script (editScript_editDistance s t).symm

/-- The triangle inequality. -/
theorem editDistance_triangle (s u t : List α) :
    editDistance s t ≤ editDistance s u + editDistance u t :=
  editDistance_le_of_script ((editScript_editDistance s u).trans (editScript_editDistance u t))

/-- Both lists may be read backwards. -/
theorem editDistance_reverse (s t : List α) :
    editDistance s.reverse t.reverse = editDistance s t := by
  apply le_antisymm
  · exact editDistance_le_of_script (editScript_editDistance s t).reverse
  · have h := (editScript_editDistance s.reverse t.reverse).reverse
    rw [List.reverse_reverse, List.reverse_reverse] at h
    exact editDistance_le_of_script h

end Lacuna.Library
