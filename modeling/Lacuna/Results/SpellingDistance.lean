import Lacuna.Analysis.Suggestions
import Lacuna.Analysis.TreeShape

/-!
# The distance behind the suggestions

What a misspelt word is compared by: `levenshtein_distance` is the length of a shortest sequence
of single-character edits, so it is a metric on strings (`levenshteinDistance_isLeast`). The
suggestion is the first of the nearest candidates, if it is near enough
(`findSuggestion_nearest`).
-/

set_option autoImplicit false

namespace Lacuna.Results

open Model Library

/-- **`levenshtein_distance` is the edit distance.** For every pair of strings the table loops end
without an index out of bounds, and return the length of a shortest sequence of insertions,
deletions and substitutions that turns the one into the other. So the distance is zero exactly on
equal strings, symmetric, and satisfies the triangle inequality. -/
theorem levenshteinDistance_isLeast (s1 s2 : Bytes) :
    ∃ d, levenshteinDistance s1 s2 = .ok d ∧ IsLeast {n | EditScript n s1 s2} d ∧
      (d = 0 ↔ s1 = s2) ∧ levenshteinDistance s2 s1 = .ok d ∧
      ∀ s3, ∃ e f, levenshteinDistance s2 s3 = .ok e ∧ levenshteinDistance s1 s3 = .ok f ∧
        f ≤ d + e := by
  refine ⟨editDistance s1 s2, levenshteinDistance_eq s1 s2, isLeast_editDistance s1 s2,
    editDistance_eq_zero s1 s2, ?_, ?_⟩
  · rw [levenshteinDistance_eq, editDistance_comm]
  · intro s3
    exact ⟨editDistance s2 s3, editDistance s1 s3, levenshteinDistance_eq s2 s3,
      levenshteinDistance_eq s1 s3, editDistance_triangle s1 s2 s3⟩

/-- A word of the commands and a misspelling. -/
example : levenshteinDistance (text "huffman") (text "hufman") = .ok 1 := by decide +kernel

/-- The greatest distance at which `find_suggestion` still suggests something. -/
def suggestionThreshold (input : Bytes) : ℕ := max 2 (input.length / 2)

/-- What is suggested for a word: a candidate within the threshold, nearer than all before it in
the list and no farther than any; nothing, if and only if no candidate is within the
threshold. -/
structure Suggests (input : Bytes) (candidates : List Bytes) (s : Bytes) : Prop where
  declined : s = [] ↔ ∀ c ∈ candidates, suggestionThreshold input < editDistance input c
  near : s ≠ [] → editDistance input s ≤ suggestionThreshold input
  nearest : s ≠ [] → ∃ before after, candidates = before ++ s :: after ∧
    (∀ c ∈ before, editDistance input s < editDistance input c) ∧
    ∀ c ∈ after, editDistance input s ≤ editDistance input c

/-- **`find_suggestion` suggests the nearest candidate.** For every word and every list of
candidates, none empty and none so long that a distance could reach the greatest `size_t`, the
loop ends without an index out of bounds and with the first candidate of least edit distance, or
with nothing exactly where every candidate is beyond the threshold. -/
theorem findSuggestion_nearest (T : Target) (input : Bytes) (candidates : List Bytes)
    (hinput : input ≠ []) (hne : ∀ c ∈ candidates, c ≠ [])
    (hfits : ∀ c ∈ candidates, input.length + c.length < 2 ^ T.sizeBits - 1) :
    ∃ s, findSuggestion T input candidates = .ok s ∧ Suggests input candidates s := by
  refine ⟨_, findSuggestion_eq T input candidates hinput hfits, ?_⟩
  cases hbest : candidates.argmin (editDistance input) with
  | none =>
    obtain rfl := List.argmin_eq_none.mp hbest
    exact ⟨by simp, fun h => absurd rfl h, fun h => absurd rfl h⟩
  | some c =>
    obtain ⟨before, after, rfl, hbefore, hafter⟩ := exists_split_of_argmin _ _ c hbest
    by_cases hnear : editDistance input c ≤ max 2 (input.length / 2)
    · simp only [hnear, if_true]
      refine ⟨iff_of_false (hne c (by simp)) fun hfar => ?_, fun _ => hnear,
        fun _ => ⟨before, after, rfl, hbefore, hafter⟩⟩
      exact absurd hnear (Nat.not_le_of_lt (hfar c (by simp)))
    · simp only [hnear, if_false]
      refine ⟨iff_of_true rfl fun d hd => ?_, fun h => absurd rfl h, fun h => absurd rfl h⟩
      have hfar : max 2 (input.length / 2) < editDistance input c := Nat.lt_of_not_le hnear
      rcases List.mem_append.mp hd with hd | hd
      · exact hfar.trans (hbefore d hd)
      · rcases List.mem_cons.mp hd with rfl | hd
        · exact hfar
        · exact lt_of_lt_of_le hfar (hafter d hd)

/-- A misspelt command. -/
theorem findSuggestion_nearest_compres :
    ∃ s, findSuggestion Target.scan (text "compres") [text "compress", text "decompress"] = .ok s ∧
      Suggests (text "compres") [text "compress", text "decompress"] s :=
  findSuggestion_nearest Target.scan (text "compres") [text "compress", text "decompress"]
    (by decide) (by decide) (by decide)

end Lacuna.Results
