import Mathlib.Data.Nat.Digits.Defs
import Mathlib.Tactic.Ring

/-!
# Numbers taken apart and put together by shifts

A number is written in digits of `w` bits, least significant first, by shifting it right,
and read back by shifting each digit into place and joining it with a bitwise or. Both are
`Nat.ofDigits (2 ^ w)` in disguise: shifting right lists the digits (`ofDigits_shiftDigits`)
and the or is a sum, since the digits do not overlap (`orDigits_eq`).
-/

set_option autoImplicit false

namespace Lacuna.Library

/-- The `k` lowest digits of `w` bits of a number, by shifting right. -/
def shiftDigits (w k x : ℕ) : List ℕ := (List.range k).map fun i => (x >>> (i * w)) % 2 ^ w

/-- Joining digits of `w` bits from position `i` on with a bitwise or. -/
def orDigits (w : ℕ) : ℕ → List ℕ → ℕ → ℕ
  | _, [], acc => acc
  | i, d :: ds, acc => orDigits w (i + 1) ds (acc ||| (d <<< (i * w)))

/-- There are `k` digits. -/
@[simp] theorem length_shiftDigits (w k x : ℕ) : (shiftDigits w k x).length = k := by
  simp [shiftDigits]

/-- The digits of a number are its lowest digit and the digits of the rest. -/
theorem shiftDigits_succ (w k x : ℕ) :
    shiftDigits w (k + 1) x = x % 2 ^ w :: shiftDigits w k (x >>> w) := by
  unfold shiftDigits
  rw [List.range_succ_eq_map, List.map_cons, List.map_map]
  congr 1
  · simp
  · apply List.map_congr_left
    intro i _
    simp only [Function.comp_apply]
    rw [← Nat.shiftRight_add, Nat.succ_mul, Nat.add_comm]

/-- **The digits shifted out are the digits of the number.** -/
theorem ofDigits_shiftDigits (w k x : ℕ) :
    Nat.ofDigits (2 ^ w) (shiftDigits w k x) = x % 2 ^ (w * k) := by
  induction k generalizing x with
  | zero => simp [shiftDigits, Nat.mod_one]
  | succ k ih =>
    rw [shiftDigits_succ, Nat.ofDigits_cons, ih, Nat.mul_succ, Nat.add_comm (w * k) w, Nat.pow_add,
      Nat.mod_mul, Nat.shiftRight_eq_div_pow]

/-- An or with a digit shifted beyond all bits present is a sum. -/
theorem or_shiftLeft_eq_add (a d k : ℕ) (ha : a < 2 ^ k) : a ||| (d <<< k) = a + d * 2 ^ k := by
  rw [Nat.or_comm, ← Nat.shiftLeft_add_eq_or_of_lt ha, Nat.shiftLeft_eq, Nat.add_comm]

/-- **Digits joined by a bitwise or add up**, when the bits present lie below them. -/
theorem orDigits_eq (w i : ℕ) (ds : List ℕ) (acc : ℕ) (hacc : acc < 2 ^ (i * w))
    (hds : ∀ d ∈ ds, d < 2 ^ w) :
    orDigits w i ds acc = acc + 2 ^ (i * w) * Nat.ofDigits (2 ^ w) ds := by
  induction ds generalizing i acc with
  | nil => simp [orDigits]
  | cons d ds ih =>
    have hd := hds d List.mem_cons_self
    have hnext : acc + d * 2 ^ (i * w) < 2 ^ ((i + 1) * w) := by
      rw [Nat.succ_mul, Nat.pow_add]
      calc acc + d * 2 ^ (i * w) < 2 ^ (i * w) + d * 2 ^ (i * w) :=
            Nat.add_lt_add_right hacc _
        _ = (d + 1) * 2 ^ (i * w) := by ring
        _ ≤ 2 ^ w * 2 ^ (i * w) := Nat.mul_le_mul_right _ hd
        _ = 2 ^ (i * w) * 2 ^ w := Nat.mul_comm _ _
    rw [orDigits, or_shiftLeft_eq_add acc d (i * w) hacc,
      ih (i + 1) _ hnext fun x hx => hds x (List.mem_cons_of_mem d hx), Nat.ofDigits_cons,
      Nat.succ_mul, Nat.pow_add]
    ring

/-- Joining all digits from position zero. -/
theorem orDigits_zero (w : ℕ) (ds : List ℕ) (hds : ∀ d ∈ ds, d < 2 ^ w) :
    orDigits w 0 ds 0 = Nat.ofDigits (2 ^ w) ds := by
  rw [orDigits_eq w 0 ds 0 (by simp) hds]
  simp

end Lacuna.Library
