import Mathlib.Data.List.Induction
import Mathlib.Data.Nat.Bitwise
import Mathlib.Tactic.Ring

/-!
# Packing bits into words

Bits are packed into words of `w` bits, most significant bit first, and the last word is
filled up with zero bits. `packFrom` carries the bits of a word not yet full, as a bit
writer does; `unpackWords` is its inverse up to the filling, which is shorter than a word
(`unpackWords_packFrom`).
-/

set_option autoImplicit false

namespace Lacuna.Library

/-! ## One word -/

/-- The number with the given binary digits, most significant first. -/
def natOfBits (bits : List Bool) : ℕ := bits.foldl (fun n bit => 2 * n + bit.toNat) 0

/-- The `w` low binary digits of a number, most significant first. -/
def natBits : ℕ → ℕ → List Bool
  | 0, _ => []
  | w + 1, n => n.testBit w :: natBits w n

@[simp] theorem natOfBits_nil : natOfBits [] = 0 := rfl

@[simp] theorem natBits_zero (n : ℕ) : natBits 0 n = [] := rfl

@[simp] theorem length_natBits (w n : ℕ) : (natBits w n).length = w := by
  induction w with
  | zero => rfl
  | succ w ih => rw [natBits, List.length_cons, ih]

/-- One digit more at the end. -/
theorem natOfBits_snoc (bits : List Bool) (bit : Bool) :
    natOfBits (bits ++ [bit]) = 2 * natOfBits bits + bit.toNat := by
  simp [natOfBits]

/-- Digits in front of others. -/
theorem natOfBits_append (bits more : List Bool) :
    natOfBits (bits ++ more) = 2 ^ more.length * natOfBits bits + natOfBits more := by
  induction more using List.reverseRecOn with
  | nil => simp
  | append_singleton more bit ih =>
    rw [← List.append_assoc, natOfBits_snoc, ih, natOfBits_snoc, List.length_append,
      List.length_singleton]
    ring

/-- Zero digits at the end. -/
theorem natOfBits_append_zeros (bits : List Bool) (k : ℕ) :
    natOfBits (bits ++ List.replicate k false) = 2 ^ k * natOfBits bits := by
  induction k with
  | zero => simp
  | succ k ih =>
    rw [List.replicate_succ', ← List.append_assoc, natOfBits_snoc, ih, Bool.toNat_false]
    ring

/-- `n` digits stand for a number below `2 ^ n`. -/
theorem natOfBits_lt (bits : List Bool) : natOfBits bits < 2 ^ bits.length := by
  induction bits using List.reverseRecOn with
  | nil => simp
  | append_singleton bits bit ih =>
    have hbit := bit.toNat_le
    rw [natOfBits_snoc, List.length_append, List.length_singleton, pow_succ]
    omega

/-- Digits above the low ones do not matter. -/
theorem natBits_two_pow_mul_add (w a b : ℕ) (hb : b < 2 ^ w) (k : ℕ) (hk : k ≤ w) :
    natBits k (2 ^ w * a + b) = natBits k b := by
  induction k with
  | zero => rfl
  | succ k ih =>
    have hkw : k < w := by omega
    rw [natBits, natBits, Nat.testBit_two_pow_mul_add a hb, if_pos hkw, ih (by omega)]

/-- **The digits of the number with given digits.** -/
theorem natBits_natOfBits (bits : List Bool) : natBits bits.length (natOfBits bits) = bits := by
  induction bits with
  | nil => rfl
  | cons bit bits ih =>
    have hlt := natOfBits_lt bits
    have hcons : natOfBits (bit :: bits) = 2 ^ bits.length * bit.toNat + natOfBits bits := by
      have h := natOfBits_append [bit] bits
      simpa [natOfBits] using h
    rw [List.length_cons, natBits, hcons, Nat.testBit_two_pow_mul_add _ hlt,
      natBits_two_pow_mul_add _ _ _ hlt _ le_rfl, ih, if_neg (lt_irrefl _), Nat.sub_self]
    cases bit <;> rfl

/-- **The number of given digits**, for a number that fits. -/
theorem natOfBits_natBits (w n : ℕ) (h : n < 2 ^ w) : natOfBits (natBits w n) = n := by
  induction w generalizing n with
  | zero =>
    rw [pow_zero] at h
    rw [natBits_zero, natOfBits_nil]
    omega
  | succ w ih =>
    have hlow : n % 2 ^ w < 2 ^ w := Nat.mod_lt _ (Nat.two_pow_pos w)
    have hsplit : n = 2 ^ w * (n / 2 ^ w) + n % 2 ^ w := (Nat.div_add_mod n (2 ^ w)).symm
    have hhigh : n / 2 ^ w < 2 := by
      rw [Nat.div_lt_iff_lt_mul (Nat.two_pow_pos w), ← pow_succ']
      exact h
    have hbits : natBits w n = natBits w (n % 2 ^ w) := by
      conv_lhs => rw [hsplit]
      exact natBits_two_pow_mul_add w _ _ hlow w le_rfl
    have hbit : natOfBits [n.testBit w] = n / 2 ^ w := by
      simp only [natOfBits, List.foldl_cons, List.foldl_nil, Nat.mul_zero, Nat.zero_add]
      rw [Nat.toNat_testBit, Nat.mod_eq_of_lt hhigh]
    have hcons := natOfBits_append [n.testBit w] (natBits w n)
    rw [List.singleton_append, length_natBits, hbits, ih _ hlow] at hcons
    rw [natBits, hbits, hcons, hbit]
    exact Nat.div_add_mod n (2 ^ w)

/-! ## A sequence of words -/

/-- The words of a bit sequence, behind the bits `pending` of a word not yet full. -/
def packFrom (w : ℕ) (pending : List Bool) : List Bool → List ℕ
  | [] =>
    if pending = [] then []
    else [natOfBits (pending ++ List.replicate (w - pending.length) false)]
  | bit :: bits =>
    if pending.length + 1 = w then natOfBits (pending ++ [bit]) :: packFrom w [] bits
    else packFrom w (pending ++ [bit]) bits

/-- The bits of a sequence of words. -/
def unpackWords (w : ℕ) (words : List ℕ) : List Bool := words.flatMap (natBits w)

@[simp] theorem unpackWords_nil (w : ℕ) : unpackWords w [] = [] := rfl

@[simp] theorem unpackWords_cons (w n : ℕ) (words : List ℕ) :
    unpackWords w (n :: words) = natBits w n ++ unpackWords w words := rfl

@[simp] theorem unpackWords_append (w : ℕ) (words more : List ℕ) :
    unpackWords w (words ++ more) = unpackWords w words ++ unpackWords w more := by
  simp [unpackWords]

@[simp] theorem length_unpackWords (w : ℕ) (words : List ℕ) :
    (unpackWords w words).length = words.length * w := by
  induction words with
  | nil => simp
  | cons n words ih =>
    rw [unpackWords_cons, List.length_append, length_natBits, ih, List.length_cons]
    ring

/-- Every word fits in its bits. -/
theorem packFrom_lt (w : ℕ) (pending bits : List Bool) (hp : pending.length < w) :
    ∀ n ∈ packFrom w pending bits, n < 2 ^ w := by
  induction bits generalizing pending with
  | nil =>
    intro n hn
    unfold packFrom at hn
    split at hn
    · cases hn
    · rw [List.mem_singleton] at hn
      have hlt := natOfBits_lt (pending ++ List.replicate (w - pending.length) false)
      rw [List.length_append, List.length_replicate, Nat.add_sub_of_le hp.le] at hlt
      rw [hn]
      exact hlt
  | cons bit bits ih =>
    intro n hn
    unfold packFrom at hn
    split at hn
    · next hfull =>
      rcases List.mem_cons.mp hn with rfl | hn
      · have hlt := natOfBits_lt (pending ++ [bit])
        rw [List.length_append, List.length_singleton, hfull] at hlt
        exact hlt
      · exact ih [] (by simp; omega) n hn
    · next hopen =>
      exact ih (pending ++ [bit])
        (by rw [List.length_append, List.length_singleton]; omega) n hn

/-- Bits that fill the word begun make it the first word. -/
theorem packFrom_full (w : ℕ) (pending bits more : List Bool) (hp : pending.length < w)
    (hfull : pending.length + bits.length = w) :
    packFrom w pending (bits ++ more) =
      natOfBits (pending ++ bits) :: packFrom w [] more := by
  induction bits generalizing pending with
  | nil => simp at hfull; omega
  | cons bit bits ih =>
    rw [List.length_cons] at hfull
    rw [List.cons_append, packFrom]
    cases bits with
    | nil =>
      rw [List.length_nil] at hfull
      rw [if_pos hfull, List.nil_append]
    | cons bit' bits =>
      rw [List.length_cons] at hfull
      rw [if_neg (by omega), ih (pending ++ [bit])
        (by rw [List.length_append, List.length_singleton]; omega)
        (by rw [List.length_append, List.length_singleton, List.length_cons]; omega),
        List.append_assoc, List.singleton_append]

/-- Bits that do not fill a word are filled up with zeros, if there are any. -/
theorem packFrom_short (w : ℕ) (pending bits : List Bool)
    (h : pending.length + bits.length < w) :
    packFrom w pending bits =
      packFrom w (pending ++ bits) [] := by
  induction bits generalizing pending with
  | nil => rw [List.append_nil]
  | cons bit bits ih =>
    rw [List.length_cons] at h
    have hopen : ¬ pending.length + 1 = w := by omega
    conv_lhs => rw [packFrom, if_neg hopen]
    rw [ih (pending ++ [bit]) (by rw [List.length_append, List.length_singleton]; omega),
      List.append_assoc, List.singleton_append]

/-- **Packing undoes unpacking** at the start of a bit sequence. -/
theorem packFrom_unpackWords_append (w : ℕ) (hw : 0 < w) (words : List ℕ) (bits : List Bool)
    (h : ∀ n ∈ words, n < 2 ^ w) :
    packFrom w [] (unpackWords w words ++ bits) = words ++ packFrom w [] bits := by
  induction words with
  | nil => simp
  | cons n words ih =>
    rw [unpackWords_cons, List.append_assoc,
      packFrom_full w [] (natBits w n) _ (by simpa using hw) (by simp), List.nil_append,
      natOfBits_natBits w n (h n List.mem_cons_self),
      ih fun m hm => h m (List.mem_cons_of_mem n hm), List.cons_append]

/-- **Unpacking undoes packing**, up to fewer than `w` zero bits at the end. -/
theorem unpackWords_packFrom (w : ℕ) (pending bits : List Bool) (hp : pending.length < w) :
    ∃ pad < w, unpackWords w (packFrom w pending bits) =
      pending ++ bits ++ List.replicate pad false := by
  induction bits generalizing pending with
  | nil =>
    unfold packFrom
    split
    · next hnil => exact ⟨0, by omega, by simp [hnil]⟩
    · next hne =>
      have hpos := List.length_pos_iff.mpr hne
      refine ⟨w - pending.length, by omega, ?_⟩
      have hword := natBits_natOfBits (pending ++ List.replicate (w - pending.length) false)
      rw [List.length_append, List.length_replicate, Nat.add_sub_of_le hp.le] at hword
      simp [hword]
  | cons bit bits ih =>
    unfold packFrom
    split
    · next hfull =>
      obtain ⟨pad, hpad, heq⟩ := ih [] (by simp; omega)
      have hword := natBits_natOfBits (pending ++ [bit])
      rw [List.length_append, List.length_singleton, hfull] at hword
      exact ⟨pad, hpad, by simp [hword, heq]⟩
    · next hopen =>
      obtain ⟨pad, hpad, heq⟩ := ih (pending ++ [bit])
        (by rw [List.length_append, List.length_singleton]; omega)
      exact ⟨pad, hpad, by simp [heq]⟩

end Lacuna.Library
