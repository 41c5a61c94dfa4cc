import Mathlib.Algebra.Order.Floor.Div
import Mathlib.Data.List.SplitBy
import Mathlib.GroupTheory.GroupAction.Ring
import Lacuna.Library.RunLength

/-!
# The greedy representation is the shortest

Greedy runs over a sequence of runs: a run of the open element is added to the open run as far
as the cap allows (`cappedRunsFrom_replicate`, `cappedRunsFrom_overflow`), a run of another
element closes it (`cappedRunsFrom_other`). From these three steps:

* no sequence of bounded runs for a list is shorter than the greedy one
  (`length_cappedRuns_le`);
* the greedy representations are those in which a run that is followed by the same element is
  full (`cappedRuns_expandRuns_iff`);
* a maximal run of `k` elements takes `k ⌈/⌉ cap` greedy runs (`length_cappedRuns`).

So there are no more greedy runs when elements are left out or renamed
(`length_cappedRuns_le_of_sublist`, `length_cappedRuns_map_le`), and as many in the reverse order.
-/

set_option autoImplicit false

namespace Lacuna.Library

variable {α : Type} [DecidableEq α]

/-! ## One run in front -/

/-- Elements that fit the open run join it. -/
theorem cappedRunsFrom_replicate (cap : ℕ) (v : α) (n k : ℕ) (l : List α) (h : n + k ≤ cap) :
    cappedRunsFrom cap v n (List.replicate k v ++ l) = cappedRunsFrom cap v (n + k) l := by
  induction k generalizing n with
  | zero => simp
  | succ k ih =>
    have hne : n ≠ cap := by omega
    have hnext := ih (n + 1) (by omega)
    rw [List.replicate_succ, List.cons_append, cappedRunsFrom, if_pos rfl, if_neg hne, hnext]
    congr 1
    omega

/-- Elements that do not all fit fill the open run, and the rest of them open the next. -/
theorem cappedRunsFrom_overflow (cap : ℕ) (v : α) (n k : ℕ) (l : List α) (hn : n ≤ cap)
    (hk : k ≤ cap) (h : cap < n + k) :
    cappedRunsFrom cap v n (List.replicate k v ++ l) =
      (cap, v) :: cappedRunsFrom cap v (n + k - cap) l := by
  have hsplit : List.replicate k v =
      List.replicate (cap - n) v ++ v :: List.replicate (n + k - cap - 1) v := by
    rw [← List.replicate_succ, List.replicate_append_replicate]
    congr 1
    omega
  have hfill := cappedRunsFrom_replicate cap v n (cap - n)
    (v :: List.replicate (n + k - cap - 1) v ++ l) (by omega)
  have hopen := cappedRunsFrom_replicate cap v 1 (n + k - cap - 1) l (by omega)
  have hfull : n + (cap - n) = cap := Nat.add_sub_of_le hn
  have hnext : 1 + (n + k - cap - 1) = n + k - cap := by omega
  rw [hsplit, List.append_assoc, hfill, hfull, List.cons_append, cappedRunsFrom, if_pos rfl,
    if_pos rfl, hopen, hnext]

/-- A run in front of a list that is not continued is the first greedy run, or grows. -/
theorem cappedRuns_replicate (cap : ℕ) (v : α) (k : ℕ) (l : List α) (hpos : 1 ≤ k)
    (hk : k ≤ cap) :
    cappedRuns cap (List.replicate k v ++ l) = cappedRunsFrom cap v k l := by
  obtain ⟨j, rfl⟩ : ∃ j, k = j + 1 := ⟨k - 1, by omega⟩
  rw [List.replicate_succ, List.cons_append, cappedRuns,
    cappedRunsFrom_replicate cap v 1 j l (by omega), Nat.add_comm]

/-- A list that does not go on with the open element closes the open run. -/
theorem cappedRunsFrom_close (cap : ℕ) (v : α) (n : ℕ) (l : List α)
    (h : ∀ b ∈ l.head?, b ≠ v) :
    cappedRunsFrom cap v n l = (n, v) :: cappedRuns cap l := by
  cases l with
  | nil => rfl
  | cons b l =>
    have hb : b ≠ v := h b rfl
    rw [cappedRunsFrom, if_neg hb, cappedRuns]

/-- A run of another element closes the open run. -/
theorem cappedRunsFrom_other (cap : ℕ) (v u : α) (n k : ℕ) (l : List α) (hne : u ≠ v)
    (hpos : 1 ≤ k) (hk : k ≤ cap) :
    cappedRunsFrom cap v n (List.replicate k u ++ l) = (n, v) :: cappedRunsFrom cap u k l := by
  rw [← cappedRuns_replicate cap u k l hpos hk]
  apply cappedRunsFrom_close
  intro b hb
  obtain ⟨j, rfl⟩ : ∃ j, k = j + 1 := ⟨k - 1, by omega⟩
  rw [List.replicate_succ, List.cons_append, List.head?_cons, Option.mem_some_iff] at hb
  rw [← hb]
  exact hne

/-- The first greedy run is made of the open element and is at least as long as the open run. -/
theorem exists_cappedRunsFrom (cap : ℕ) (v : α) (n : ℕ) (l : List α) :
    ∃ k more, cappedRunsFrom cap v n l = (k, v) :: more ∧ n ≤ k := by
  induction l generalizing n with
  | nil => exact ⟨n, [], rfl, le_rfl⟩
  | cons b l ih =>
    by_cases hb : b = v
    · by_cases hn : n = cap
      · exact ⟨n, cappedRunsFrom cap v 1 l, by rw [cappedRunsFrom, if_pos hb, if_pos hn], le_rfl⟩
      · obtain ⟨k, more, hk, hle⟩ := ih (n + 1)
        exact ⟨k, more, by rw [cappedRunsFrom, if_pos hb, if_neg hn, hk], by omega⟩
    · exact ⟨n, cappedRunsFrom cap b 1 l, by rw [cappedRunsFrom, if_neg hb], le_rfl⟩

/-! ## No other representation is shorter -/

/-- Behind an open run there are no more greedy runs than there are runs. -/
theorem length_cappedRunsFrom_le (cap : ℕ) (v : α) (n : ℕ) (runs : List (ℕ × α)) (hn : n ≤ cap)
    (hruns : ∀ r ∈ runs, 1 ≤ r.1 ∧ r.1 ≤ cap) :
    (cappedRunsFrom cap v n (expandRuns runs)).length ≤ runs.length + 1 := by
  induction runs generalizing v n with
  | nil => simp [cappedRunsFrom]
  | cons r runs ih =>
    obtain ⟨hpos, hcap⟩ := hruns r List.mem_cons_self
    have htail := fun x hx => hruns x (List.mem_cons_of_mem r hx)
    rw [expandRuns_cons, List.length_cons]
    by_cases hv : r.2 = v
    · rw [hv]
      by_cases hfit : n + r.1 ≤ cap
      · rw [cappedRunsFrom_replicate cap v n r.1 _ hfit]
        have hle := ih v (n + r.1) hfit htail
        omega
      · rw [cappedRunsFrom_overflow cap v n r.1 _ hn hcap (by omega), List.length_cons]
        have hle := ih v (n + r.1 - cap) (by omega) htail
        omega
    · rw [cappedRunsFrom_other cap v r.2 n r.1 _ hv hpos hcap, List.length_cons]
      have hle := ih r.2 r.1 hcap htail
      omega

/-- **The greedy representation is the shortest** among those whose runs are not empty and
stay within the cap. -/
theorem length_cappedRuns_le (cap : ℕ) (runs : List (ℕ × α))
    (hruns : ∀ r ∈ runs, 1 ≤ r.1 ∧ r.1 ≤ cap) :
    (cappedRuns cap (expandRuns runs)).length ≤ runs.length := by
  cases runs with
  | nil => simp [cappedRuns]
  | cons r runs =>
    obtain ⟨hpos, hcap⟩ := hruns r List.mem_cons_self
    rw [expandRuns_cons, cappedRuns_replicate cap r.2 r.1 _ hpos hcap, List.length_cons]
    exact length_cappedRunsFrom_le cap r.2 r.1 runs hcap
      fun x hx => hruns x (List.mem_cons_of_mem r hx)

/-! ## Which representations are greedy -/

/-- A run that is followed by one of the same element is full. -/
def FullBefore (cap : ℕ) (r next : ℕ × α) : Prop := r.2 = next.2 → r.1 = cap

/-- An open run and the runs behind it are greedy if each is full where its element goes on. -/
theorem cappedRunsFrom_expandRuns_iff (cap : ℕ) (v : α) (n : ℕ) (runs : List (ℕ × α))
    (hn : n ≤ cap) (hruns : ∀ r ∈ runs, 1 ≤ r.1 ∧ r.1 ≤ cap) :
    cappedRunsFrom cap v n (expandRuns runs) = (n, v) :: runs ↔
      ((n, v) :: runs).IsChain (FullBefore cap) := by
  induction runs generalizing v n with
  | nil => simp [cappedRunsFrom]
  | cons r runs ih =>
    obtain ⟨k, u⟩ := r
    obtain ⟨hpos, hcap⟩ := hruns (k, u) List.mem_cons_self
    have htail := fun x hx => hruns x (List.mem_cons_of_mem (k, u) hx)
    rw [expandRuns_cons, List.isChain_cons_cons]
    by_cases hv : u = v
    · subst hv
      by_cases hfull : n = cap
      · -- the open run is full: the next one stands for itself
        have hrest : n + k - cap = k := by omega
        rw [cappedRunsFrom_overflow cap u n k _ hn hcap (by simp only at hpos; omega), hrest,
          ← hfull, List.cons_inj_right, hfull, ih u k hcap htail]
        exact (and_iff_right fun _ => rfl).symm
      · -- the open run would have grown
        have hnot : ¬ FullBefore cap (n, u) (k, u) := fun h => hfull (h rfl)
        refine iff_of_false ?_ fun h => hnot h.1
        intro heq
        by_cases hfit : n + k ≤ cap
        · rw [cappedRunsFrom_replicate cap u n k _ hfit] at heq
          obtain ⟨j, more, hj, hle⟩ := exists_cappedRunsFrom cap u (n + k) (expandRuns runs)
          rw [hj, List.cons.injEq, Prod.mk.injEq] at heq
          simp only at hpos
          omega
        · rw [cappedRunsFrom_overflow cap u n k _ hn hcap (by omega), List.cons.injEq,
            Prod.mk.injEq] at heq
          exact hfull heq.1.1.symm
    · -- another element: the open run is closed as it is
      have hfull : FullBefore cap (n, v) (k, u) := fun h => absurd h.symm hv
      rw [cappedRunsFrom_other cap v u n k _ hv hpos hcap, List.cons_inj_right, ih u k hcap htail]
      exact (and_iff_right hfull).symm

/-- **The greedy representations** are those in which every run that is followed by one of the
same element is full. -/
theorem cappedRuns_expandRuns_iff (cap : ℕ) (runs : List (ℕ × α))
    (hruns : ∀ r ∈ runs, 1 ≤ r.1 ∧ r.1 ≤ cap) :
    cappedRuns cap (expandRuns runs) = runs ↔ runs.IsChain (FullBefore cap) := by
  cases runs with
  | nil => simp [cappedRuns]
  | cons r runs =>
    obtain ⟨hpos, hcap⟩ := hruns r List.mem_cons_self
    rw [expandRuns_cons, cappedRuns_replicate cap r.2 r.1 _ hpos hcap]
    exact cappedRunsFrom_expandRuns_iff cap r.2 r.1 runs hcap
      fun x hx => hruns x (List.mem_cons_of_mem r hx)

/-! ## How many greedy runs there are -/

/-- A maximal run behind an open run of the same element. -/
theorem length_cappedRunsFrom_maximal (cap : ℕ) (v : α) (n k : ℕ) (l : List α) (hn : 1 ≤ n)
    (hcap : n ≤ cap) (hl : ∀ b ∈ l.head?, b ≠ v) :
    (cappedRunsFrom cap v n (List.replicate k v ++ l)).length =
      (n + k) ⌈/⌉ cap + (cappedRuns cap l).length := by
  induction k generalizing n with
  | zero =>
    have hone : (n + 0) ⌈/⌉ cap = 1 := by
      rw [Nat.ceilDiv_eq_add_pred_div]
      apply Nat.div_eq_of_lt_le <;> omega
    rw [List.replicate_zero, List.nil_append, cappedRunsFrom_close cap v n l hl,
      List.length_cons, hone, Nat.add_comm]
  | succ k ih =>
    rw [List.replicate_succ, List.cons_append, cappedRunsFrom, if_pos rfl]
    by_cases hfull : n = cap
    · have hdiv : (n + (k + 1)) ⌈/⌉ cap = (1 + k) ⌈/⌉ cap + 1 := by
        rw [Nat.ceilDiv_eq_add_pred_div, Nat.ceilDiv_eq_add_pred_div, hfull,
          ← Nat.add_div_right _ (by omega)]
        congr 1
        omega
      rw [if_pos hfull, List.length_cons, ih 1 le_rfl (by omega), hdiv]
      omega
    · rw [if_neg hfull, ih (n + 1) (by omega) (by omega)]
      congr 2
      omega

/-- A maximal run in front of a list. -/
theorem length_cappedRuns_maximal (cap : ℕ) (hcap : 1 ≤ cap) (v : α) (k : ℕ) (l : List α)
    (hk : 1 ≤ k) (hl : ∀ b ∈ l.head?, b ≠ v) :
    (cappedRuns cap (List.replicate k v ++ l)).length =
      k ⌈/⌉ cap + (cappedRuns cap l).length := by
  obtain ⟨j, rfl⟩ : ∃ j, k = j + 1 := ⟨k - 1, by omega⟩
  rw [List.replicate_succ, List.cons_append, cappedRuns,
    length_cappedRunsFrom_maximal cap v 1 j l le_rfl hcap hl, Nat.add_comm 1 j]

/-- The number of greedy runs over groups of equal elements, each different from the next. -/
theorem length_cappedRuns_flatten (cap : ℕ) (hcap : 1 ≤ cap) (groups : List (List α))
    (hne : [] ∉ groups) (heq : ∀ g ∈ groups, g.IsChain fun a b => (a == b) = true)
    (hnext : groups.IsChain fun g g' =>
      ∃ hg hg', (g.getLast hg == g'.head hg') = false) :
    (cappedRuns cap groups.flatten).length =
      (groups.map fun g => g.length ⌈/⌉ cap).sum := by
  induction groups with
  | nil => rfl
  | cons g groups ih =>
    rw [List.mem_cons, not_or] at hne
    have hg : g ≠ [] := fun h => hne.1 h.symm
    obtain ⟨v, rest, rfl⟩ := List.exists_cons_of_ne_nil hg
    have hsame : v :: rest = List.replicate (rest.length + 1) v := by
      have hchain := heq (v :: rest) List.mem_cons_self
      simp only [beq_iff_eq] at hchain
      rw [List.isChain_cons_eq_iff_eq_replicate] at hchain
      rw [List.replicate_succ, ← hchain]
    have hhead : ∀ b ∈ groups.flatten.head?, b ≠ v := by
      intro b hb
      cases groups with
      | nil => cases hb
      | cons g' groups =>
        obtain ⟨⟨hlast, hg', hdiff⟩, -⟩ := List.isChain_cons_cons.mp hnext
        obtain ⟨u, rest', rfl⟩ := List.exists_cons_of_ne_nil hg'
        simp only [List.flatten_cons, List.cons_append, List.head?_cons, Option.mem_some_iff] at hb
        simp only [hsame, List.getLast_replicate, List.head_cons, beq_eq_false_iff_ne] at hdiff
        rw [← hb]
        exact hdiff.symm
    have htail := ih hne.2 (fun x hx => heq x (List.mem_cons_of_mem _ hx)) hnext.tail
    have hfirst := length_cappedRuns_maximal cap hcap v (rest.length + 1) groups.flatten
      (by omega) hhead
    rw [List.flatten_cons, List.map_cons, List.sum_cons, hsame, hfirst, htail,
      List.length_replicate]

/-- **The number of greedy runs**: each maximal run takes as many as it is times as long as
the cap, rounded up. -/
theorem length_cappedRuns (cap : ℕ) (hcap : 1 ≤ cap) (l : List α) :
    (cappedRuns cap l).length =
      ((l.splitBy (· == ·)).map fun g => g.length ⌈/⌉ cap).sum := by
  have h := length_cappedRuns_flatten cap hcap (l.splitBy (· == ·))
    (List.nil_notMem_splitBy _ l) (fun g hg => List.isChain_of_mem_splitBy hg)
    (List.isChain_getLast_head_splitBy _ l)
  rw [List.flatten_splitBy] at h
  exact h

/-! ## Lists without repetitions -/

/-- Greedy runs are never more than elements. -/
theorem length_cappedRuns_le_length (cap : ℕ) (hcap : 1 ≤ cap) (l : List α) :
    (cappedRuns cap l).length ≤ l.length := by
  have hruns := length_le_runsTotal (cappedRuns cap l) fun r hr =>
    (cappedRuns_bounds cap hcap l r hr).1
  rwa [← length_expandRuns, expandRuns_cappedRuns] at hruns

/-- Runs of one element each, no two neighbours of which are equal, are greedy. -/
theorem cappedRuns_of_isChain_ne (cap : ℕ) (hcap : 1 ≤ cap) (l : List α)
    (h : l.IsChain (· ≠ ·)) : cappedRuns cap l = l.map fun a => (1, a) := by
  have hexpand : expandRuns (l.map fun a => (1, a)) = l := by
    rw [expandRuns, List.flatMap_map]
    simp
  have hchain : (l.map fun a => (1, a)).IsChain (FullBefore cap) := by
    rw [List.isChain_map]
    exact h.imp fun a b hab heq => absurd heq hab
  have hbounds : ∀ r ∈ l.map (fun a => (1, a)), 1 ≤ r.1 ∧ r.1 ≤ cap := by
    intro r hr
    obtain ⟨a, -, rfl⟩ := List.mem_map.mp hr
    exact ⟨le_rfl, hcap⟩
  have hgreedy := (cappedRuns_expandRuns_iff cap (l.map fun a => (1, a)) hbounds).mpr hchain
  rwa [hexpand] at hgreedy

/-- **As many greedy runs as elements** are there exactly where no two neighbours are equal. -/
theorem length_cappedRuns_eq_length_iff (cap : ℕ) (hcap : 2 ≤ cap) (l : List α) :
    (cappedRuns cap l).length = l.length ↔ l.IsChain (· ≠ ·) := by
  constructor
  · intro h
    have hbounds := cappedRuns_bounds cap (by omega) l
    have htotal : runsTotal (cappedRuns cap l) = (cappedRuns cap l).length := by
      rw [h, ← length_expandRuns, expandRuns_cappedRuns]
    have hone := fst_eq_one_of_runsTotal (cappedRuns cap l) (fun r hr => (hbounds r hr).1) htotal
    have hchain := (cappedRuns_expandRuns_iff cap (cappedRuns cap l) hbounds).mp
      (by rw [expandRuns_cappedRuns])
    have hl : l = (cappedRuns cap l).map Prod.snd := by
      conv_lhs => rw [← expandRuns_cappedRuns cap l]
      exact expandRuns_of_fst_eq_one _ hone
    rw [hl, List.isChain_map]
    refine hchain.imp_of_mem_imp ?_
    intro r next hr _ hfull heq
    have hcapr := hfull heq
    rw [hone r hr] at hcapr
    omega
  · intro h
    rw [cappedRuns_of_isChain_ne cap (by omega) l h, List.length_map]

/-! ## Concatenation -/

omit [DecidableEq α] in
/-- **The runs of a concatenation can be cut in two**, at the price of one run more. -/
theorem exists_runs_of_append (cap : ℕ) (runs : List (ℕ × α))
    (hruns : ∀ r ∈ runs, 1 ≤ r.1 ∧ r.1 ≤ cap) (l l' : List α) (h : expandRuns runs = l ++ l') :
    ∃ front back : List (ℕ × α), expandRuns front = l ∧ expandRuns back = l' ∧
      (∀ r ∈ front, 1 ≤ r.1 ∧ r.1 ≤ cap) ∧ (∀ r ∈ back, 1 ≤ r.1 ∧ r.1 ≤ cap) ∧
      front.length + back.length ≤ runs.length + 1 := by
  induction runs generalizing l with
  | nil =>
    obtain ⟨rfl, rfl⟩ := List.append_eq_nil_iff.mp h.symm
    exact ⟨[], [], rfl, rfl, by simp, by simp, by simp⟩
  | cons r runs ih =>
    obtain ⟨k, v⟩ := r
    obtain ⟨hpos, hcap⟩ := hruns (k, v) List.mem_cons_self
    have htail := fun x hx => hruns x (List.mem_cons_of_mem (k, v) hx)
    rw [expandRuns_cons] at h
    rcases List.append_eq_append_iff.mp h with ⟨middle, rfl, hmiddle⟩ | ⟨middle, hfirst, rfl⟩
    · -- the cut lies behind the first run
      obtain ⟨front, back, hfront, hback, hf, hb, hlen⟩ := ih htail middle hmiddle
      refine ⟨(k, v) :: front, back, ?_, hback, List.forall_mem_cons.mpr ⟨⟨hpos, hcap⟩, hf⟩, hb, ?_⟩
      · rw [expandRuns_cons, hfront]
      · rw [List.length_cons, List.length_cons]
        omega
    · -- the cut lies in the first run: either side may be empty
      obtain ⟨hlen, hl, hm⟩ := List.append_eq_replicate_iff.mp hfirst.symm
      simp only at hlen hl hm hpos hcap
      have hsingle : ∀ n, n ≤ k → ∀ more : List (ℕ × α),
          (∀ r ∈ more, 1 ≤ r.1 ∧ r.1 ≤ cap) → ∃ part : List (ℕ × α),
            expandRuns part = List.replicate n v ++ expandRuns more ∧
              (∀ r ∈ part, 1 ≤ r.1 ∧ r.1 ≤ cap) ∧ part.length ≤ more.length + 1 := by
        intro n hn more hmore
        rcases Nat.eq_zero_or_pos n with rfl | hnpos
        · exact ⟨more, rfl, hmore, Nat.le_succ _⟩
        · exact ⟨(n, v) :: more, by rw [expandRuns_cons],
            List.forall_mem_cons.mpr ⟨⟨hnpos, hn.trans hcap⟩, hmore⟩, le_rfl⟩
      obtain ⟨front, hfront, hf, hflen⟩ := hsingle l.length (by omega) [] (by simp)
      obtain ⟨back, hback, hb, hblen⟩ := hsingle middle.length (by omega) runs htail
      refine ⟨front, back, ?_, ?_, hf, hb, ?_⟩
      · rw [hfront, ← hl, expandRuns_nil, List.append_nil]
      · rw [hback, ← hm]
      · rw [List.length_nil] at hflen
        rw [List.length_cons]
        omega

/-- The runs of a concatenation are no more than those of its parts. -/
theorem length_cappedRuns_append_le (cap : ℕ) (hcap : 1 ≤ cap) (l l' : List α) :
    (cappedRuns cap (l ++ l')).length ≤ (cappedRuns cap l).length + (cappedRuns cap l').length := by
  have hbounds : ∀ r ∈ cappedRuns cap l ++ cappedRuns cap l', 1 ≤ r.1 ∧ r.1 ≤ cap := by
    intro r hr
    rcases List.mem_append.mp hr with hr | hr
    · exact cappedRuns_bounds cap hcap l r hr
    · exact cappedRuns_bounds cap hcap l' r hr
  have hle := length_cappedRuns_le cap _ hbounds
  rwa [expandRuns_append, expandRuns_cappedRuns, expandRuns_cappedRuns,
    List.length_append] at hle

/-- **Cutting a list costs at most one run.** -/
theorem length_cappedRuns_add_le (cap : ℕ) (hcap : 1 ≤ cap) (l l' : List α) :
    (cappedRuns cap l).length + (cappedRuns cap l').length ≤
      (cappedRuns cap (l ++ l')).length + 1 := by
  obtain ⟨front, back, hfront, hback, hf, hb, hlen⟩ := exists_runs_of_append cap
    (cappedRuns cap (l ++ l')) (cappedRuns_bounds cap hcap _) l l' (expandRuns_cappedRuns cap _)
  have hleft := length_cappedRuns_le cap front hf
  have hright := length_cappedRuns_le cap back hb
  rw [hfront] at hleft
  rw [hback] at hright
  omega

/-- **The greedy runs of a concatenation are those of its parts** exactly where the last run of the
first is full, or the second begins with another element. -/
theorem cappedRuns_append_iff (cap : ℕ) (hcap : 1 ≤ cap) (l l' : List α) :
    cappedRuns cap (l ++ l') = cappedRuns cap l ++ cappedRuns cap l' ↔
      ∀ r ∈ (cappedRuns cap l).getLast?, ∀ next ∈ (cappedRuns cap l').head?,
        FullBefore cap r next := by
  have hchain : ∀ m : List α, (cappedRuns cap m).IsChain (FullBefore cap) := fun m =>
    (cappedRuns_expandRuns_iff cap _ (cappedRuns_bounds cap hcap m)).mp
      (by rw [expandRuns_cappedRuns])
  have hbounds : ∀ r ∈ cappedRuns cap l ++ cappedRuns cap l', 1 ≤ r.1 ∧ r.1 ≤ cap := by
    intro r hr
    rcases List.mem_append.mp hr with hr | hr
    · exact cappedRuns_bounds cap hcap l r hr
    · exact cappedRuns_bounds cap hcap l' r hr
  have hgreedy := cappedRuns_expandRuns_iff cap _ hbounds
  rw [expandRuns_append, expandRuns_cappedRuns, expandRuns_cappedRuns] at hgreedy
  rw [hgreedy, List.isChain_append]
  exact ⟨fun h => h.2.2, fun h => ⟨hchain l, hchain l', h⟩⟩

/-! ## Leaving out, reversing and renaming -/

omit [DecidableEq α] in
/-- **What is left of a list when elements are left out** takes no more runs. -/
theorem exists_runs_of_sublist (cap : ℕ) (runs : List (ℕ × α))
    (hruns : ∀ r ∈ runs, 1 ≤ r.1 ∧ r.1 ≤ cap) (l : List α) (h : l.Sublist (expandRuns runs)) :
    ∃ part : List (ℕ × α), expandRuns part = l ∧ (∀ r ∈ part, 1 ≤ r.1 ∧ r.1 ≤ cap) ∧
      part.length ≤ runs.length := by
  induction runs generalizing l with
  | nil => exact ⟨[], (List.sublist_nil.mp h).symm, by simp, le_rfl⟩
  | cons r runs ih =>
    rw [expandRuns_cons, List.sublist_append_iff] at h
    obtain ⟨first, behind, rfl, hfirst, hbehind⟩ := h
    obtain ⟨n, hn, rfl⟩ := List.sublist_replicate_iff.mp hfirst
    obtain ⟨-, hcap⟩ := hruns r List.mem_cons_self
    obtain ⟨part, rfl, hpart, hlen⟩ :=
      ih (fun x hx => hruns x (List.mem_cons_of_mem r hx)) behind hbehind
    rcases Nat.eq_zero_or_pos n with rfl | hpos
    · exact ⟨part, rfl, hpart, hlen.trans (Nat.le_succ _)⟩
    · exact ⟨(n, r.2) :: part, by rw [expandRuns_cons],
        List.forall_mem_cons.mpr ⟨⟨hpos, hn.trans hcap⟩, hpart⟩, Nat.succ_le_succ hlen⟩

/-- **Leaving out elements** makes no more greedy runs. -/
theorem length_cappedRuns_le_of_sublist (cap : ℕ) (hcap : 1 ≤ cap) {l l' : List α}
    (h : l.Sublist l') : (cappedRuns cap l).length ≤ (cappedRuns cap l').length := by
  obtain ⟨part, rfl, hpart, hlen⟩ := exists_runs_of_sublist cap (cappedRuns cap l')
    (cappedRuns_bounds cap hcap l') l (by rwa [expandRuns_cappedRuns])
  exact (length_cappedRuns_le cap part hpart).trans hlen

omit [DecidableEq α] in
/-- Runs in the reverse order stand for the list in the reverse order. -/
theorem expandRuns_reverse (runs : List (ℕ × α)) :
    expandRuns runs.reverse = (expandRuns runs).reverse := by
  induction runs with
  | nil => rfl
  | cons r runs ih =>
    rw [List.reverse_cons, expandRuns_append, ih, expandRuns_cons, expandRuns_nil,
      List.append_nil, expandRuns_cons, List.reverse_append, List.reverse_replicate]

/-- **Reversing a list** makes as many greedy runs. -/
theorem length_cappedRuns_reverse (cap : ℕ) (hcap : 1 ≤ cap) (l : List α) :
    (cappedRuns cap l.reverse).length = (cappedRuns cap l).length := by
  have hle : ∀ m : List α, (cappedRuns cap m.reverse).length ≤ (cappedRuns cap m).length := by
    intro m
    have hgreedy := length_cappedRuns_le cap (cappedRuns cap m).reverse fun r hr =>
      cappedRuns_bounds cap hcap m r (List.mem_reverse.mp hr)
    rwa [expandRuns_reverse, expandRuns_cappedRuns, List.length_reverse] at hgreedy
  apply le_antisymm (hle l)
  have hback := hle l.reverse
  rwa [List.reverse_reverse] at hback

omit [DecidableEq α] in
/-- Runs of other elements stand for the list of the other elements. -/
theorem expandRuns_map {β : Type} (f : α → β) (runs : List (ℕ × α)) :
    expandRuns (runs.map fun r => (r.1, f r.2)) = (expandRuns runs).map f := by
  induction runs with
  | nil => rfl
  | cons r runs ih =>
    rw [List.map_cons, expandRuns_cons, ih, expandRuns_cons, List.map_append, List.map_replicate]

/-- **Renaming elements**, also several to one, makes no more greedy runs. -/
theorem length_cappedRuns_map_le {β : Type} [DecidableEq β] (cap : ℕ) (hcap : 1 ≤ cap)
    (f : α → β) (l : List α) : (cappedRuns cap (l.map f)).length ≤ (cappedRuns cap l).length := by
  have hgreedy := length_cappedRuns_le cap ((cappedRuns cap l).map fun r => (r.1, f r.2)) (by
    intro r hr
    obtain ⟨x, hx, rfl⟩ := List.mem_map.mp hr
    exact cappedRuns_bounds cap hcap l x hx)
  rwa [expandRuns_map, expandRuns_cappedRuns, List.length_map] at hgreedy

end Lacuna.Library
