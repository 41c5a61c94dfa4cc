import Lacuna.Library.EarlyExit

/-!
# A run and its shadow

The same loop is run twice, in a world where nothing fails and in one where something can. The
second run is the shadow of the first: it keeps pace with it, or it is left early while the
first goes on. `Shadows R L E` relates the results: `R` the states of two runs side by side,
`L` the state of a run and the exit its shadow was left with, `E` two exits. The shadow is never
the only one to go on. `Shadows.bind` and `foldlM_shadows` are the rules for sequencing and for
loops; what remains to be shown is one step, once with the shadow and once without it.
-/

set_option autoImplicit false

namespace Lacuna.Library

variable {ε ε' σ σ' τ τ' α : Type}

/-- The results of a run and of its shadow. -/
def Shadows (R : σ → σ' → Prop) (L : σ → ε' → Prop) (E : ε → ε' → Prop) :
    Except ε σ → Except ε' σ' → Prop
  | .ok s, .ok s' => R s s'
  | .ok s, .error e' => L s e'
  | .error e, .error e' => E e e'
  | .error _, .ok _ => False

/-- Side by side. -/
@[simp] theorem shadows_ok_ok (R : σ → σ' → Prop) (L : σ → ε' → Prop) (E : ε → ε' → Prop)
    (s : σ) (s' : σ') : Shadows R L E (.ok s) (.ok s') ↔ R s s' := Iff.rfl

/-- The shadow was left early. -/
@[simp] theorem shadows_ok_error (R : σ → σ' → Prop) (L : σ → ε' → Prop) (E : ε → ε' → Prop)
    (s : σ) (e' : ε') : Shadows R L E (.ok s) (.error e') ↔ L s e' := Iff.rfl

/-- Both were left. -/
@[simp] theorem shadows_error_error (R : σ → σ' → Prop) (L : σ → ε' → Prop)
    (E : ε → ε' → Prop) (e : ε) (e' : ε') :
    Shadows R L E (.error e) (.error e') ↔ E e e' := Iff.rfl

/-- Sequencing: a second step follows where both runs go on, and where only the first does. -/
theorem Shadows.bind {R : σ → σ' → Prop} {L : σ → ε' → Prop} {E : ε → ε' → Prop}
    {R' : τ → τ' → Prop} {L' : τ → ε' → Prop} {x : Except ε σ} {x' : Except ε' σ'}
    {f : σ → Except ε τ} {f' : σ' → Except ε' τ'} (h : Shadows R L E x x')
    (hboth : ∀ s s', R s s' → Shadows R' L' E (f s) (f' s'))
    (halone : ∀ s e', L s e' → Ends (fun t => L' t e') (fun e => E e e') (f s)) :
    Shadows R' L' E (x >>= f) (x' >>= f') := by
  cases x with
  | error e =>
    cases x' with
    | error e' => exact h
    | ok s' => exact absurd h not_false
  | ok s =>
    cases x' with
    | ok s' => exact hboth s s' h
    | error e' =>
      have hnext := halone s e' h
      show Shadows R' L' E (f s) (.error e')
      cases hf : f s with
      | ok t =>
        rw [hf] at hnext
        exact hnext
      | error e =>
        rw [hf] at hnext
        exact hnext

/-- A loop whose shadow was left goes on alone. -/
theorem foldlM_alone (f : σ → α → Except ε σ) (L : σ → Prop) (E : ε → Prop) (l : List α) (s : σ)
    (hinit : L s) (hstep : ∀ a s, L s → Ends L E (f s a)) : Ends L E (l.foldlM f s) := by
  refine (foldlM_ends f (fun _ => L) (fun _ => E) l s hinit ?_).mono (fun _ hs => hs) ?_
  · intro _ a s _ hs
    exact hstep a s hs
  · rintro e ⟨_, _, he⟩
    exact he

/-- **The loop rule.** -/
theorem foldlM_shadows (f : σ → α → Except ε σ) (f' : σ' → α → Except ε' σ')
    (R : σ → σ' → Prop) (L : σ → ε' → Prop) (E : ε → ε' → Prop) (l : List α) (s : σ) (s' : σ')
    (hinit : R s s') (hboth : ∀ a s s', R s s' → Shadows R L E (f s a) (f' s' a))
    (halone : ∀ a s e', L s e' → Ends (fun t => L t e') (fun e => E e e') (f s a)) :
    Shadows R L E (l.foldlM f s) (l.foldlM f' s') := by
  induction l generalizing s s' with
  | nil => exact hinit
  | cons a l ih =>
    rw [List.foldlM_cons, List.foldlM_cons]
    apply (hboth a s s' hinit).bind
    · intro t t' ht
      exact ih t t' ht
    · intro t e' ht
      exact foldlM_alone f (fun t => L t e') (fun e => E e e') l t ht
        fun a t ht => halone a t e' ht

end Lacuna.Library
