import Mathlib.Data.List.MinMax
import Lacuna.Analysis.EditTable

/-!
# Suggestions

The loop of `find_suggestion` keeps the first candidate of least distance, which is Mathlib's
`List.argmin` (`foldl_nearest`); so what the function returns can be told without its loop
(`findSuggestion_eq`). The smallest value found so far starts at the greatest `size_t`, and no
distance gets there.
-/

set_option autoImplicit false

namespace Lacuna.Model

open Library

/-- **A loop that keeps the first minimum.** -/
theorem foldl_nearest {α : Type} (dist : α → ℕ) (top : ℕ) (start : α) (l : List α)
    (htop : ∀ a ∈ l, dist a < top) :
    l.foldl (fun best a => if dist a < best.1 then (dist a, a) else best) (top, start) =
      match l.argmin dist with
      | none => (top, start)
      | some a => (dist a, a) := by
  induction l using List.reverseRecOn with
  | nil => rfl
  | append_singleton l a ih =>
    rw [List.foldl_append, List.foldl_cons, List.foldl_nil,
      ih fun b hb => htop b (List.mem_append_left [a] hb), List.argmin_concat]
    cases List.argmin dist l with
    | none => simp only [htop a (by simp), if_true]
    | some b =>
      simp only
      by_cases hlt : dist a < dist b
      · simp only [hlt, if_true]
      · simp only [hlt, if_false]

/-- The first minimum is less than everything before it, and not more than what comes after. -/
theorem exists_split_of_argmin {α : Type} [DecidableEq α] (dist : α → ℕ) (l : List α) (m : α)
    (h : l.argmin dist = some m) :
    ∃ before after, l = before ++ m :: after ∧ (∀ a ∈ before, dist m < dist a) ∧
      ∀ a ∈ after, dist m ≤ dist a := by
  obtain ⟨hmem, hleast, hfirst⟩ := List.argmin_eq_some_iff.mp h
  obtain ⟨before, after, rfl, hnot⟩ := List.eq_append_cons_of_mem hmem
  refine ⟨before, after, rfl, ?_, fun a ha => hleast a (by simp [ha])⟩
  intro a ha
  by_contra hle
  -- an element before `m` that is no greater would be found first
  have hindex := hfirst a (by simp [ha]) (Nat.le_of_not_lt hle)
  rw [List.idxOf_append_of_notMem hnot, List.idxOf_append_of_mem ha] at hindex
  have hlt := List.idxOf_lt_length_iff.mpr ha
  omega

/-- The distances are computed without a fault, so the loop is a fold. -/
theorem foldlM_nearest (input : Bytes) (candidates : List Bytes) (start : ℕ × Bytes) :
    candidates.foldlM (fun (best : ℕ × Bytes) candidate => do
        let dist ← levenshteinDistance input candidate
        return if dist < best.1 then (dist, candidate) else best) start =
      (.ok (candidates.foldl (fun best candidate =>
        if editDistance input candidate < best.1 then (editDistance input candidate, candidate)
        else best) start) : Except Fault (ℕ × Bytes)) := by
  induction candidates generalizing start with
  | nil => rfl
  | cons candidate candidates ih =>
    rw [List.foldlM_cons, levenshteinDistance_eq]
    exact ih _

/-- `find_suggestion` on words, as a fold. -/
theorem findSuggestion_of_ne (T : Target) (input : Bytes) (candidates : List Bytes)
    (hinput : input ≠ []) :
    findSuggestion T input candidates =
      .ok (let best := candidates.foldl (fun best candidate =>
          if editDistance input candidate < best.1 then
            (editDistance input candidate, candidate)
          else best) (2 ^ T.sizeBits - 1, [])
        if best.1 ≤ max 2 (input.length / 2) then best.2 else []) := by
  have hloop := foldlM_nearest input candidates (2 ^ T.sizeBits - 1, [])
  unfold findSuggestion
  cases candidates with
  | nil => simp [pure, Except.pure]
  | cons candidate candidates =>
    simp only [List.isEmpty_eq_false_iff.mpr hinput, List.isEmpty_cons, Bool.or_self,
      Bool.false_eq_true, if_false]
    exact congrArg (fun r => r >>= fun best : ℕ × Bytes =>
      (pure (if best.1 ≤ max 2 (input.length / 2) then best.2 else []) : Except Fault Bytes)) hloop

/-- **A suggestion is always found or declined**: no index is out of bounds. -/
theorem exists_findSuggestion (T : Target) (input : Bytes) (candidates : List Bytes) :
    ∃ s, findSuggestion T input candidates = .ok s := by
  by_cases hinput : input = []
  · subst hinput
    exact ⟨[], rfl⟩
  · exact ⟨_, findSuggestion_of_ne T input candidates hinput⟩

/-- The distance is no more than what it takes to delete the one and insert the other. -/
theorem editDistance_le_add (s t : Bytes) : editDistance s t ≤ s.length + t.length := by
  have htriangle := editDistance_triangle s [] t
  rw [editDistance_nil_right, editDistance_nil_left] at htriangle
  exact htriangle

/-- **What `find_suggestion` returns**: the first candidate of least distance, if that is within
the threshold. -/
theorem findSuggestion_eq (T : Target) (input : Bytes) (candidates : List Bytes)
    (hinput : input ≠ [])
    (hfits : ∀ c ∈ candidates, input.length + c.length < 2 ^ T.sizeBits - 1) :
    findSuggestion T input candidates =
      .ok (match candidates.argmin (editDistance input) with
        | none => []
        | some c => if editDistance input c ≤ max 2 (input.length / 2) then c else []) := by
  rw [findSuggestion_of_ne T input candidates hinput,
    foldl_nearest (editDistance input) _ _ _ fun c hc =>
      lt_of_le_of_lt (editDistance_le_add input c) (hfits c hc)]
  cases List.argmin (editDistance input) candidates with
  | none => simp
  | some c => rfl

/-- The distance is no less than what the lengths differ by. -/
theorem length_le_editDistance_add (s t : Bytes) : s.length ≤ editDistance s t + t.length := by
  have htriangle := editDistance_triangle s t []
  rw [editDistance_nil_right, editDistance_nil_right] at htriangle
  exact htriangle

/-- Where every candidate is beyond a bound, the loop has found nothing within it. -/
theorem foldl_nearest_far {α : Type} (dist : α → ℕ) (start : α) (bound : ℕ) (l : List α)
    (hfar : ∀ a ∈ l, bound < dist a) (best : ℕ × α) (hbest : best.1 ≤ bound → best.2 = start) :
    (l.foldl (fun best a => if dist a < best.1 then (dist a, a) else best) best).1 ≤ bound →
      (l.foldl (fun best a => if dist a < best.1 then (dist a, a) else best) best).2 = start := by
  induction l generalizing best with
  | nil => exact hbest
  | cons a l ih =>
    have ha : bound < dist a := hfar a (by simp)
    rw [List.foldl_cons]
    refine ih (fun b hb => hfar b (by simp [hb])) _ ?_
    split
    · exact fun hle => absurd hle (Nat.not_le_of_lt ha)
    · exact hbest

/-- **Nothing is suggested for a word that is far from every candidate.** -/
theorem findSuggestion_far (T : Target) (input : Bytes) (candidates : List Bytes)
    (hinput : input ≠ [])
    (hfar : ∀ c ∈ candidates, max 2 (input.length / 2) < editDistance input c) :
    findSuggestion T input candidates = .ok [] := by
  rw [findSuggestion_of_ne T input candidates hinput]
  refine congrArg Except.ok ?_
  simp only
  split
  · rename_i hle
    exact foldl_nearest_far (editDistance input) [] _ candidates hfar _ (fun _ => rfl) hle
  · rfl

end Lacuna.Model
