import Mathlib.Data.List.Basic

/-!
# Loops that can be left early

A loop whose body may leave the function is a fold in `Except`: `.ok` is the state after
the last round, `.error` the value the loop was left with. `Ends I E` is the pair of
postconditions for the two ways out. `foldlM_ends` is the loop rule: an invariant over the
part of the list already processed, established by one round at a time.

A loop in `Option` is one whose rounds may fail to end; it ends if all of them do.
-/

set_option autoImplicit false

namespace Lacuna.Library

variable {ε σ τ α : Type}

/-- The two postconditions of a computation with an early exit. -/
def Ends (I : σ → Prop) (E : ε → Prop) : Except ε σ → Prop
  | .ok s => I s
  | .error e => E e

/-- The normal way out. -/
@[simp] theorem ends_ok (I : σ → Prop) (E : ε → Prop) (s : σ) : Ends I E (.ok s) ↔ I s :=
  Iff.rfl

/-- The early way out. -/
@[simp] theorem ends_error (I : σ → Prop) (E : ε → Prop) (e : ε) :
    Ends I E (.error e : Except ε σ) ↔ E e := Iff.rfl

/-- Postconditions may be weakened. -/
theorem Ends.mono {I I' : σ → Prop} {E E' : ε → Prop} {x : Except ε σ} (h : Ends I E x)
    (hI : ∀ s, I s → I' s) (hE : ∀ e, E e → E' e) : Ends I' E' x := by
  cases x with
  | ok s => exact hI s h
  | error e => exact hE e h

/-- Sequencing: the second computation runs only where the first ended normally. -/
theorem Ends.bind {I : σ → Prop} {J : τ → Prop} {E : ε → Prop} {x : Except ε σ}
    {f : σ → Except ε τ} (h : Ends I E x) (hf : ∀ s, I s → Ends J E (f s)) :
    Ends J E (x >>= f) := by
  cases x with
  | ok s => exact hf s h
  | error e => exact h

/-- A sequence that ended normally did so in both parts. -/
theorem exists_of_bind_eq_ok {x : Except ε σ} {f : σ → Except ε τ} {b : τ}
    (h : x >>= f = .ok b) : ∃ a, x = .ok a ∧ f a = .ok b := by
  cases x with
  | ok a => exact ⟨a, rfl, h⟩
  | error e => cases h

/-- **The loop rule.** `I seen s` relates the state to the elements processed so far, `E`
holds of an early exit together with the elements processed up to and with the one it
happened at. -/
theorem foldlM_ends (f : σ → α → Except ε σ) (I : List α → σ → Prop)
    (E : List α → ε → Prop) (l : List α) (s : σ) (hinit : I [] s)
    (hstep : ∀ seen a s, seen ++ [a] <+: l → I seen s →
      Ends (I (seen ++ [a])) (E (seen ++ [a])) (f s a)) :
    Ends (I l) (fun e => ∃ seen, seen <+: l ∧ E seen e) (l.foldlM f s) := by
  have hgen : ∀ (todo seen : List α) (s : σ), seen ++ todo = l → I seen s →
      Ends (I l) (fun e => ∃ seen, seen <+: l ∧ E seen e) (todo.foldlM f s) := by
    intro todo
    induction todo with
    | nil =>
      intro seen s hl hs
      rw [List.append_nil] at hl
      exact hl ▸ hs
    | cons a todo ih =>
      intro seen s hl hs
      have hsplit : (seen ++ [a]) ++ todo = l := by simpa using hl
      have hpre : seen ++ [a] <+: l := ⟨todo, hsplit⟩
      rw [List.foldlM_cons]
      have hround := hstep seen a s hpre hs
      cases hf : f s a with
      | ok s' =>
        rw [hf] at hround
        exact ih (seen ++ [a]) s' hsplit hround
      | error e =>
        rw [hf] at hround
        exact ⟨seen ++ [a], hpre, hround⟩
  exact hgen l [] s rfl hinit

/-- Two nested loops over chunks are one loop over the elements. -/
theorem foldlM_flatten (f : σ → α → Except ε σ) (chunks : List (List α)) (s : σ) :
    chunks.foldlM (fun s chunk => chunk.foldlM f s) s = chunks.flatten.foldlM f s := by
  induction chunks generalizing s with
  | nil => rfl
  | cons chunk chunks ih =>
    rw [List.foldlM_cons, List.flatten_cons, List.foldlM_append]
    congr 1
    funext s
    exact ih s

/-- **The rule for counted loops** that are never left early: `I i s` holds of the state before
the round for `i`. -/
theorem exists_foldlM_range' (f : σ → ℕ → Except ε σ) (I : ℕ → σ → Prop) (a n : ℕ) (s : σ)
    (hinit : I a s)
    (hstep : ∀ i s, a ≤ i → i < a + n → I i s → ∃ s', f s i = .ok s' ∧ I (i + 1) s') :
    ∃ s', (List.range' a n).foldlM f s = .ok s' ∧ I (a + n) s' := by
  induction n generalizing a s with
  | zero => exact ⟨s, rfl, hinit⟩
  | succ n ih =>
    obtain ⟨s₁, hfirst, hs₁⟩ := hstep a s (Nat.le_refl a) (by omega) hinit
    have hrest : ∀ i s, a + 1 ≤ i → i < a + 1 + n → I i s →
        ∃ s', f s i = .ok s' ∧ I (i + 1) s' :=
      fun i s hi hi' => hstep i s (by omega) (by omega)
    obtain ⟨s₂, hloop, hs₂⟩ := ih (a + 1) s₁ hs₁ hrest
    refine ⟨s₂, ?_, ?_⟩
    · rw [List.range'_succ, List.foldlM_cons, hfirst]
      exact hloop
    · rwa [Nat.add_right_comm] at hs₂

/-! ## Loops in `Option` -/

/-- A loop that ends comes to an end in every round. -/
theorem exists_of_foldlM_eq_some {f : σ → α → Option σ} {l : List α} {s t : σ}
    (h : l.foldlM f s = some t) (a : α) (ha : a ∈ l) : ∃ u v, f u a = some v := by
  induction l generalizing s with
  | nil => cases ha
  | cons b l ih =>
    rw [List.foldlM_cons] at h
    cases hb : f s b with
    | none => rw [hb] at h; cases h
    | some s' =>
      rw [hb] at h
      rcases List.mem_cons.mp ha with rfl | ha
      · exact ⟨s, s', hb⟩
      · exact ih h ha

/-- A loop whose rounds all end comes to an end. -/
theorem isSome_foldlM {f : σ → α → Option σ} {l : List α}
    (h : ∀ a ∈ l, ∀ s, (f s a).isSome = true) (s : σ) : (l.foldlM f s).isSome = true := by
  induction l generalizing s with
  | nil => rfl
  | cons a l ih =>
    rw [List.forall_mem_cons] at h
    obtain ⟨s', hs'⟩ := Option.isSome_iff_exists.mp (h.1 s)
    rw [List.foldlM_cons, hs']
    exact ih h.2 s'

end Lacuna.Library
