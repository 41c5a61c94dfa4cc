import Lacuna.Library.EarlyExit
import Lacuna.Library.EditDistance
import Lacuna.Model.Terminal

/-!
# The table of `levenshtein_distance`

Cell `(i, j)` is meant for the distance between the first `i` characters of the one string and
the first `j` of the other (`prefixDistance`). The loops fill the table with these values, row by
row; the invariant names the cells that are done (`Computed`). Every access is checked in the
model, so that the loops end normally means that no index is out of bounds.
-/

set_option autoImplicit false

namespace Lacuna.Model

open Library

/-! ## What the cells are meant for -/

/-- The distance between two prefixes. The loops compare their last characters first. -/
def prefixDistance (s1 s2 : Bytes) (i j : ℕ) : ℕ :=
  editDistance (s1.take i).reverse (s2.take j).reverse

/-- The first column. -/
theorem prefixDistance_zero_right (s1 s2 : Bytes) (i : ℕ) (hi : i ≤ s1.length) :
    prefixDistance s1 s2 i 0 = i := by
  simpa [prefixDistance] using hi

/-- The first row. -/
theorem prefixDistance_zero_left (s1 s2 : Bytes) (j : ℕ) (hj : j ≤ s2.length) :
    prefixDistance s1 s2 0 j = j := by
  simpa [prefixDistance] using hj

/-- **An inner cell follows from the three before it.** -/
theorem prefixDistance_succ (s1 s2 : Bytes) (i j : ℕ) (c1 c2 : UInt8) (h1 : s1[i]? = some c1)
    (h2 : s2[j]? = some c2) :
    prefixDistance s1 s2 (i + 1) (j + 1) =
      min (min (prefixDistance s1 s2 i (j + 1) + 1) (prefixDistance s1 s2 (i + 1) j + 1))
        (prefixDistance s1 s2 i j + if c1 = c2 then 0 else 1) := by
  have hrev : ∀ (s : Bytes) (k : ℕ) (c : UInt8), s[k]? = some c →
      (s.take (k + 1)).reverse = c :: (s.take k).reverse := by
    intro s k c hc
    rw [List.take_add_one, hc, Option.toList_some, List.reverse_append, List.reverse_singleton]
    rfl
  simp only [prefixDistance, hrev s1 i c1 h1, hrev s2 j c2 h2, editDistance_cons_cons]

/-- The last cell is the distance of the strings. -/
theorem prefixDistance_length (s1 s2 : Bytes) :
    prefixDistance s1 s2 s1.length s2.length = editDistance s1 s2 := by
  rw [prefixDistance, List.take_length, List.take_length, editDistance_reverse]

/-! ## Cells -/

namespace DistanceTable

/-- The rows up to `m` and the columns up to `n` hold the values of `f`. -/
def Holds (d : DistanceTable) (m n : ℕ) (f : ℕ → ℕ → ℕ) : Prop :=
  ∀ i ≤ m, ∃ row, d[i]? = some row ∧ ∀ j ≤ n, row[j]? = some (f i j)

/-- Reading a cell. -/
theorem Holds.cell {d : DistanceTable} {m n : ℕ} {f : ℕ → ℕ → ℕ} (h : d.Holds m n f)
    {i j : ℕ} (hi : i ≤ m) (hj : j ≤ n) : d.cell i j = .ok (f i j) := by
  obtain ⟨row, hrow, hcells⟩ := h i hi
  simp only [DistanceTable.cell, element, hrow, bind, Except.bind, hcells j hj]

/-- Writing a cell. -/
theorem Holds.assign {d : DistanceTable} {m n : ℕ} {f : ℕ → ℕ → ℕ} (h : d.Holds m n f)
    {i j : ℕ} (hi : i ≤ m) (hj : j ≤ n) (value : ℕ) :
    ∃ d', d.assign i j value = .ok d' ∧
      d'.Holds m n fun i' j' => if i' = i ∧ j' = j then value else f i' j' := by
  obtain ⟨row, hrow, hcells⟩ := h i hi
  refine ⟨d.set i (row.set j value), ?_, ?_⟩
  · simp only [DistanceTable.assign, element, hrow, bind, Except.bind, hcells j hj]
    rfl
  · intro i' hi'
    obtain ⟨row', hrow', hcells'⟩ := h i' hi'
    by_cases hii : i' = i
    · subst hii
      obtain ⟨hbound, -⟩ := List.getElem?_eq_some_iff.mp hrow
      refine ⟨row.set j value, List.getElem?_set_self hbound, ?_⟩
      intro j' hj'
      by_cases hjj : j' = j
      · subst hjj
        obtain ⟨hbound', -⟩ := List.getElem?_eq_some_iff.mp (hcells j' hj')
        rw [List.getElem?_set_self hbound']
        simp
      · rw [List.getElem?_set_ne (Ne.symm hjj), hcells j' hj']
        simp [hjj]
    · refine ⟨row', ?_, ?_⟩
      · rw [List.getElem?_set_ne (Ne.symm hii), hrow']
      · intro j' hj'
        rw [hcells' j' hj']
        simp [hii]

/-- The cells that are done hold the distances of the prefixes. -/
def Computed (d : DistanceTable) (s1 s2 : Bytes) (isDone : ℕ → ℕ → Prop) : Prop :=
  ∃ f, d.Holds s1.length s2.length f ∧
    ∀ i ≤ s1.length, ∀ j ≤ s2.length, isDone i j → f i j = prefixDistance s1 s2 i j

variable {d : DistanceTable} {s1 s2 : Bytes} {isDone : ℕ → ℕ → Prop}

/-- A cell that is done holds its distance. -/
theorem Computed.cell (h : d.Computed s1 s2 isDone) {i j : ℕ} (hi : i ≤ s1.length)
    (hj : j ≤ s2.length) (hdone : isDone i j) :
    d.cell i j = .ok (prefixDistance s1 s2 i j) := by
  obtain ⟨f, hholds, hcomputed⟩ := h
  rw [hholds.cell hi hj, hcomputed i hi j hj hdone]

/-- Writing the distance of a cell makes it done, and no other cell is lost. -/
theorem Computed.assign (h : d.Computed s1 s2 isDone) {i j : ℕ} (hi : i ≤ s1.length)
    (hj : j ≤ s2.length) (isDone' : ℕ → ℕ → Prop)
    (hdone : ∀ i' j', isDone' i' j' → isDone i' j' ∨ (i' = i ∧ j' = j)) :
    ∃ d', d.assign i j (prefixDistance s1 s2 i j) = .ok d' ∧ d'.Computed s1 s2 isDone' := by
  obtain ⟨f, hholds, hcomputed⟩ := h
  obtain ⟨d', hassign, hholds'⟩ := hholds.assign hi hj (prefixDistance s1 s2 i j)
  refine ⟨d', hassign, _, hholds', ?_⟩
  intro i' hi' j' hj' hdone'
  by_cases hcell : i' = i ∧ j' = j
  · rw [if_pos hcell, hcell.1, hcell.2]
  · rw [if_neg hcell]
    exact hcomputed i' hi' j' hj' ((hdone i' j' hdone').resolve_right hcell)

/-- What is done may be forgotten. -/
theorem Computed.mono (h : d.Computed s1 s2 isDone) (isDone' : ℕ → ℕ → Prop)
    (hdone : ∀ i' j', isDone' i' j' → isDone i' j') : d.Computed s1 s2 isDone' := by
  obtain ⟨f, hholds, hcomputed⟩ := h
  exact ⟨f, hholds, fun i hi j hj h' => hcomputed i hi j hj (hdone i j h')⟩

end DistanceTable

/-! ## The loops -/

/-- The table before the loops: every cell is there. -/
theorem computed_start (s1 s2 : Bytes) :
    DistanceTable.Computed
      (List.replicate (s1.length + 1) (List.replicate (s2.length + 1) 0)) s1 s2
      fun _ _ => False := by
  refine ⟨fun _ _ => 0, ?_, fun _ _ _ _ h => h.elim⟩
  intro i hi
  refine ⟨List.replicate (s2.length + 1) 0, ?_, ?_⟩
  · rw [List.getElem?_replicate, if_pos (by omega)]
  · intro j hj
    rw [List.getElem?_replicate, if_pos (by omega)]

/-- **The body of the inner loop** computes its cell from the cells before it. -/
theorem levenshteinCell_spec (s1 s2 : Bytes) (i j : ℕ) (d : DistanceTable) (hi : 1 ≤ i)
    (hi' : i ≤ s1.length) (hj : 1 ≤ j) (hj' : j ≤ s2.length)
    (h : d.Computed s1 s2 fun a b => a = 0 ∨ b = 0 ∨ a < i ∨ (a = i ∧ b < j)) :
    ∃ d', levenshteinCell s1 s2 i d j = .ok d' ∧
      d'.Computed s1 s2 fun a b => a = 0 ∨ b = 0 ∨ a < i ∨ (a = i ∧ b < j + 1) := by
  obtain ⟨i, rfl⟩ : ∃ k, i = k + 1 := ⟨i - 1, by omega⟩
  obtain ⟨j, rfl⟩ : ∃ k, j = k + 1 := ⟨j - 1, by omega⟩
  have hi1 : i < s1.length := by omega
  have hj2 : j < s2.length := by omega
  have h1 : s1[i]? = some s1[i] := List.getElem?_eq_getElem hi1
  have h2 : s2[j]? = some s2[j] := List.getElem?_eq_getElem hj2
  have hdeletion := h.cell (i := i) (j := j + 1) (by omega) hj' (by omega)
  have hinsertion := h.cell (i := i + 1) (j := j) hi' (by omega) (by omega)
  have hsubstitution := h.cell (i := i) (j := j) (by omega) (by omega) (by omega)
  obtain ⟨d', hassign, hcomputed⟩ := h.assign hi' hj'
    (fun a b => a = 0 ∨ b = 0 ∨ a < i + 1 ∨ (a = i + 1 ∧ b < j + 1 + 1)) (by omega)
  rw [prefixDistance_succ s1 s2 i j _ _ h1 h2] at hassign
  refine ⟨d', ?_, hcomputed⟩
  simp only [levenshteinCell, Nat.add_sub_cancel, element, h1, h2, bind, Except.bind, hdeletion,
    hinsertion, hsubstitution]
  exact hassign

/-- A whole row. -/
theorem levenshteinRow_spec (s1 s2 : Bytes) (i : ℕ) (d : DistanceTable) (hi : 1 ≤ i)
    (hi' : i ≤ s1.length) (h : d.Computed s1 s2 fun a b => a = 0 ∨ b = 0 ∨ a < i) :
    ∃ d', (List.range' 1 s2.length).foldlM (levenshteinCell s1 s2 i) d = .ok d' ∧
      d'.Computed s1 s2 fun a b => a = 0 ∨ b = 0 ∨ a < i + 1 := by
  have hstart : d.Computed s1 s2 fun a b => a = 0 ∨ b = 0 ∨ a < i ∨ (a = i ∧ b < 1) := by
    apply h.mono
    intro a b hdone
    omega
  obtain ⟨d', hloop, hcomputed⟩ := exists_foldlM_range' (levenshteinCell s1 s2 i)
    (fun j d => d.Computed s1 s2 fun a b => a = 0 ∨ b = 0 ∨ a < i ∨ (a = i ∧ b < j)) 1 s2.length d
    hstart fun j d hj hj' hd => levenshteinCell_spec s1 s2 i j d hi hi' hj (by omega) hd
  refine ⟨d', hloop, ?_⟩
  obtain ⟨f, hholds, hdone⟩ := hcomputed
  refine ⟨f, hholds, ?_⟩
  intro a ha b hb hab
  exact hdone a ha b hb (by omega)

/-- **The table loops compute the edit distance**, and every index they use is within bounds. -/
theorem levenshteinDistance_eq (s1 s2 : Bytes) :
    levenshteinDistance s1 s2 = .ok (editDistance s1 s2) := by
  obtain ⟨d₁, hcolumn, hd₁⟩ := exists_foldlM_range'
    (fun (d : DistanceTable) i => d.assign i 0 i)
    (fun i d => d.Computed s1 s2 fun a b => b = 0 ∧ a < i) 0 (s1.length + 1)
    (List.replicate (s1.length + 1) (List.replicate (s2.length + 1) 0))
    ((computed_start s1 s2).mono _ (by omega)) (by
      intro i d _ hi hd
      have hassign := hd.assign (i := i) (j := 0) (by omega) (Nat.zero_le _)
        (fun a b => b = 0 ∧ a < i + 1) (by omega)
      rwa [prefixDistance_zero_right s1 s2 i (by omega)] at hassign)
  obtain ⟨d₂, hrow, hd₂⟩ := exists_foldlM_range'
    (fun (d : DistanceTable) j => d.assign 0 j j)
    (fun j d => d.Computed s1 s2 fun a b => (b = 0 ∧ a < 0 + (s1.length + 1)) ∨ (a = 0 ∧ b < j))
    0 (s2.length + 1) d₁ (hd₁.mono _ (by omega)) (by
      intro j d _ hj hd
      have hassign := hd.assign (i := 0) (j := j) (Nat.zero_le _) (by omega)
        (fun a b => (b = 0 ∧ a < 0 + (s1.length + 1)) ∨ (a = 0 ∧ b < j + 1)) (by omega)
      rwa [prefixDistance_zero_left s1 s2 j (by omega)] at hassign)
  have hedges : d₂.Computed s1 s2 fun a b => a = 0 ∨ b = 0 ∨ a < 1 := by
    obtain ⟨f, hholds, hdone⟩ := hd₂
    refine ⟨f, hholds, ?_⟩
    intro a ha b hb hab
    exact hdone a ha b hb (by omega)
  obtain ⟨d₃, hrows, hd₃⟩ := exists_foldlM_range'
    (fun d i => (List.range' 1 s2.length).foldlM (levenshteinCell s1 s2 i) d)
    (fun i d => d.Computed s1 s2 fun a b => a = 0 ∨ b = 0 ∨ a < i) 1 s1.length d₂ hedges
    fun i d hi hi' hd => levenshteinRow_spec s1 s2 i d hi (by omega) hd
  have hlast := hd₃.cell (i := s1.length) (j := s2.length) le_rfl le_rfl (by omega)
  rw [prefixDistance_length] at hlast
  simp only [levenshteinDistance, List.range_eq_range', hcolumn, hrow, hrows, bind, Except.bind]
  exact hlast

end Lacuna.Model
