import Mathlib.Data.Multiset.MapFold
import Mathlib.Logic.Relation
import Lacuna.Library.PriorityQueue

/-!
# Greedy merging of a multiset

A merge step takes a best element and then a best of the others, and puts their merger back.
It is the abstract content of a loop that pops twice and pushes once, whatever queue serves
it (`mergeStep_of_pops`). Two facts carry the uses. Where the comparator separates the
elements present, a step leaves no choice, so all runs to the end agree (`mergeRun_unique`).
And steps over images lift to the things they are images of (`MergeStep.lift`), so that a
run can be read in the terms that suit an argument.
-/

set_option autoImplicit false

namespace Lacuna.Library

variable {α β : Type}

/-- One merge: `a` is best of all, `b` is best of the others. -/
inductive MergeStep (worse : α → α → Bool) (merge : α → α → α) : Multiset α → Multiset α → Prop
  | step (a b : α) (s : Multiset α) (ha : ∀ x ∈ b ::ₘ s, worse a x = false)
      (hb : ∀ x ∈ s, worse b x = false) :
      MergeStep worse merge (a ::ₘ b ::ₘ s) (merge a b ::ₘ s)

/-- Any number of merges. -/
def MergeRun (worse : α → α → Bool) (merge : α → α → α) : Multiset α → Multiset α → Prop :=
  Relation.ReflTransGen (MergeStep worse merge)

variable {worse : α → α → Bool} {merge : α → α → α}

/-- Two pops and a push of a priority queue are a merge step of its contents. -/
theorem mergeStep_of_pops (Q : PriorityQueue α worse) (h h₁ h₂ : Q.Heap) (a b : α)
    (ha : Q.pop h = some (a, h₁)) (hb : Q.pop h₁ = some (b, h₂)) :
    MergeStep worse merge (Q.contents h) (Q.contents (Q.push h₂ (merge a b))) := by
  have hca := Q.pop_contents h a h₁ ha
  have hcb := Q.pop_contents h₁ b h₂ hb
  have hbesta := Q.pop_best h a h₁ ha
  have hbestb := Q.pop_best h₁ b h₂ hb
  rw [Q.contents_push, hca, hcb]
  apply MergeStep.step
  · intro x hx
    apply hbesta
    rw [hca, hcb]
    exact Multiset.mem_cons_of_mem hx
  · intro x hx
    apply hbestb
    rw [hcb]
    exact Multiset.mem_cons_of_mem hx

/-- A merge leaves one element less, and at least one. -/
theorem MergeStep.card {s t : Multiset α} (h : MergeStep worse merge s t) :
    s.card = t.card + 1 ∧ 1 ≤ t.card := by
  cases h with
  | step a b s ha hb => simp

/-- **The invariant rule for runs.** -/
theorem MergeRun.invariant {P : Multiset α → Prop} {s t : Multiset α}
    (h : MergeRun worse merge s t) (hstep : ∀ s t, MergeStep worse merge s t → P s → P t)
    (hs : P s) : P t := by
  induction h with
  | refl => exact hs
  | tail _ hlast ih => exact hstep _ _ hlast ih

/-- A merge by one comparator is a merge by another that accepts the same choices. -/
theorem MergeStep.mono {worse' : α → α → Bool} {s t : Multiset α}
    (h : MergeStep worse merge s t)
    (hle : ∀ a ∈ s, ∀ b ∈ s, worse a b = false → worse' a b = false) :
    MergeStep worse' merge s t := by
  cases h with
  | step a b r ha hb =>
    have hmemb : b ∈ a ::ₘ b ::ₘ r := Multiset.mem_cons_of_mem (Multiset.mem_cons_self b r)
    apply MergeStep.step
    · intro x hx
      exact hle a (Multiset.mem_cons_self a _) x (Multiset.mem_cons_of_mem hx) (ha x hx)
    · intro x hx
      exact hle b hmemb x (Multiset.mem_cons_of_mem (Multiset.mem_cons_of_mem hx)) (hb x hx)

/-- The same for runs, where the choices need to agree only as long as an invariant holds. -/
theorem MergeRun.mono {worse' : α → α → Bool} {P : Multiset α → Prop}
    (hstep : ∀ s t, MergeStep worse merge s t → P s → P t)
    (hle : ∀ s, P s → ∀ a ∈ s, ∀ b ∈ s, worse a b = false → worse' a b = false)
    {s t : Multiset α} (h : MergeRun worse merge s t) (hs : P s) :
    MergeRun worse' merge s t := by
  induction h with
  | refl => exact Relation.ReflTransGen.refl
  | tail hinit hlast ih =>
    exact Relation.ReflTransGen.tail ih
      (hlast.mono (hle _ (MergeRun.invariant hinit hstep hs)))

/-! ## Runs without a choice -/

/-- The comparator prefers one of any two different elements. -/
def Separated (worse : α → α → Bool) (s : Multiset α) : Prop :=
  ∀ a ∈ s, ∀ b ∈ s, a ≠ b → worse a b = true ∨ worse b a = true

/-- Two best elements of a separated multiset are equal. -/
theorem best_unique {s : Multiset α} (hsep : Separated worse s) {a b : α} (ha : a ∈ s)
    (hb : b ∈ s) (hab : worse a b = false) (hba : worse b a = false) : a = b := by
  by_contra hne
  rcases hsep a ha b hb hne with h | h
  · rw [hab] at h; cases h
  · rw [hba] at h; cases h

/-- **Merging a separated multiset leaves no choice.** -/
theorem mergeStep_unique {s t t' : Multiset α} (hsep : Separated worse s)
    (h : MergeStep worse merge s t) (h' : MergeStep worse merge s t') : t = t' := by
  cases h with
  | step a b r ha hb =>
    generalize hs : a ::ₘ b ::ₘ r = u at h'
    cases h' with
    | step a' b' r' ha' hb' =>
      have hmem : ∀ x, x ∈ a ::ₘ b ::ₘ r ↔ x ∈ a' ::ₘ b' ::ₘ r' := fun x => by rw [hs]
      have haa : a = a' := by
        by_contra hne
        have h1 : a' ∈ b ::ₘ r :=
          (Multiset.mem_cons.mp ((hmem a').mpr (Multiset.mem_cons_self a' _))).resolve_left
            (Ne.symm hne)
        have h2 : a ∈ b' ::ₘ r' :=
          (Multiset.mem_cons.mp ((hmem a).mp (Multiset.mem_cons_self a _))).resolve_left hne
        exact hne (best_unique hsep (Multiset.mem_cons_self a _) (Multiset.mem_cons_of_mem h1)
          (ha a' h1) (ha' a h2))
      subst haa
      rw [Multiset.cons_inj_right] at hs
      have hbb : b = b' := by
        by_contra hne
        have h1 : b' ∈ r := by
          have : b' ∈ b ::ₘ r := by rw [hs]; exact Multiset.mem_cons_self b' _
          exact (Multiset.mem_cons.mp this).resolve_left (Ne.symm hne)
        have h2 : b ∈ r' := by
          have : b ∈ b' ::ₘ r' := by rw [← hs]; exact Multiset.mem_cons_self b _
          exact (Multiset.mem_cons.mp this).resolve_left hne
        exact hne (best_unique hsep
          (Multiset.mem_cons_of_mem (Multiset.mem_cons_self b _))
          (Multiset.mem_cons_of_mem (Multiset.mem_cons_of_mem h1)) (hb b' h1) (hb' b h2))
      subst hbb
      rw [Multiset.cons_inj_right] at hs
      rw [hs]

/-- **All runs to the end agree**, if an invariant of the steps keeps the elements
separated. -/
theorem mergeRun_unique {P : Multiset α → Prop}
    (hstep : ∀ s t, MergeStep worse merge s t → P s → P t)
    (hsep : ∀ s, P s → Separated worse s) {s t t' : Multiset α} (hs : P s)
    (h : MergeRun worse merge s t) (h' : MergeRun worse merge s t') (ht : t.card ≤ 1)
    (ht' : t'.card ≤ 1) : t = t' := by
  have hend : ∀ u v : Multiset α, u.card ≤ 1 → ¬ MergeStep worse merge u v := by
    intro u v hu huv
    have := huv.card
    omega
  induction h using Relation.ReflTransGen.head_induction_on with
  | refl =>
    rcases Relation.ReflTransGen.cases_head h' with rfl | ⟨v, hv, -⟩
    · rfl
    · exact absurd hv (hend _ _ ht)
  | head hfirst hrest ih =>
    rcases Relation.ReflTransGen.cases_head h' with rfl | ⟨v, hv, hv'⟩
    · exact absurd hfirst (hend _ _ ht')
    · have heq := mergeStep_unique (hsep _ hs) hfirst hv
      subst heq
      exact ih (hstep _ _ hfirst hs) hv'

/-! ## Runs over images -/

/-- **A merge of images is the image of a merge**, for a map that respects merging. -/
theorem MergeStep.lift (f : β → α) (mergeβ : β → β → β)
    (hf : ∀ x y, f (mergeβ x y) = merge (f x) (f y)) (s : Multiset β) (t : Multiset α)
    (h : MergeStep worse merge (s.map f) t) :
    ∃ s', MergeStep (fun x y => worse (f x) (f y)) mergeβ s s' ∧ s'.map f = t := by
  classical
  generalize hu : s.map f = u at h
  cases h with
  | step a b r ha hb =>
    obtain ⟨x, hx, rfl, hrest⟩ := Multiset.map_eq_cons f s (b ::ₘ r) a |>.mpr hu
    obtain ⟨y, hy, rfl, hrest'⟩ := Multiset.map_eq_cons f (s.erase x) r b |>.mpr hrest
    have hs : s = x ::ₘ y ::ₘ (s.erase x).erase y := by
      rw [Multiset.cons_erase hy, Multiset.cons_erase hx]
    refine ⟨mergeβ x y ::ₘ (s.erase x).erase y, ?_, by rw [Multiset.map_cons, hf, hrest']⟩
    nth_rewrite 1 [hs]
    apply MergeStep.step
    · intro z hz
      apply ha
      rw [← hrest', ← Multiset.map_cons]
      exact Multiset.mem_map_of_mem f hz
    · intro z hz
      apply hb
      rw [← hrest']
      exact Multiset.mem_map_of_mem f hz

/-- A run over images is the image of a run. -/
theorem MergeRun.lift (f : β → α) (mergeβ : β → β → β)
    (hf : ∀ x y, f (mergeβ x y) = merge (f x) (f y)) (s : Multiset β) (t : Multiset α)
    (h : MergeRun worse merge (s.map f) t) :
    ∃ s', MergeRun (fun x y => worse (f x) (f y)) mergeβ s s' ∧ s'.map f = t := by
  induction h with
  | refl => exact ⟨s, Relation.ReflTransGen.refl, rfl⟩
  | tail _ hlast ih =>
    obtain ⟨s', hrun, rfl⟩ := ih
    obtain ⟨s'', hstep, ht⟩ := MergeStep.lift f mergeβ hf s' _ hlast
    exact ⟨s'', Relation.ReflTransGen.tail hrun hstep, ht⟩

end Lacuna.Library
