import Mathlib.Logic.Relation
import Lacuna.Analysis.HuffmanDecode

/-!
# The fill loop and the width of `size_t`

The single-symbol path counts `remaining` in 64 bits but casts it to `size_t` before it takes
the minimum with the buffer. Where `size_t` has 32 bits and the size does not fit, the low bits
run out first: `remaining` stays at a multiple of `2 ^ 32`, every round writes nothing, and the
loop never ends (`not_fillsExactly`). With a size that fits, every round makes progress.

A round is a relation on `remaining` and the stream, so that the states the loop reaches do not
depend on how many rounds it is given.
-/

set_option autoImplicit false

namespace Lacuna.Results

open Model HuffmanCompressor

/-- The length of `out_buf`. -/
def fillBuffer (w : ℕ) (expectedSize : UInt64) : ℕ := min (expectedSize.toNat % 2 ^ w) bufferSize

/-- One round of the fill loop that does not leave the function. -/
inductive FillRound (w : ℕ) (value : UInt8) (bufLen : ℕ) : ℕ × OStream → ℕ × OStream → Prop
  | round (remaining : ℕ) (out : OStream) :
    remaining ≠ 0 →
    (out.write (List.replicate (min (remaining % 2 ^ w) bufLen) value)).good = true →
    FillRound w value bufLen (remaining, out)
      (remaining - min (remaining % 2 ^ w) bufLen,
        out.write (List.replicate (min (remaining % 2 ^ w) bufLen) value))

/-- The states the fill loop comes through, in memory. -/
def FillReaches (T : Target) (value : UInt8) (n : UInt64) (s : ℕ × OStream) : Prop :=
  Relation.ReflTransGen (FillRound T.sizeBits value (fillBuffer T.sizeBits n))
    (n.toNat, OStream.memory) s

/-- What is asked of the single-symbol path for a size: the loop ends, every round it comes to
decreases `remaining`, and a payload with this one entry decodes to that many bytes. -/
structure FillsExactly (T : Target) (value : UInt8) (n : UInt64) : Prop where
  ends : ∃ fuel out, fillLoop T.sizeBits value (fillBuffer T.sizeBits n) fuel n.toNat
    OStream.memory = .ok out
  decreases : ∀ s s', FillReaches T value n s →
    FillRound T.sizeBits value (fillBuffer T.sizeBits n) s s' → s'.1 < s.1
  writes : ∀ payload, SingleInput payload n value → ∃ out,
    decompress T (IStream.ofBytes payload) OStream.memory n = .ok (some n, out) ∧
      out.accepted = List.replicate n.toNat value

/-- A loop that ends is a run of rounds down to zero. -/
theorem rounds_of_fillLoop (w : ℕ) (value : UInt8) (bufLen fuel remaining : ℕ)
    (out out' : OStream) (h : fillLoop w value bufLen fuel remaining out = .ok out') :
    Relation.ReflTransGen (FillRound w value bufLen) (remaining, out) (0, out') := by
  induction fuel generalizing remaining out with
  | zero =>
    rw [fillLoop] at h
    split at h
    · next hzero =>
      rw [hzero, Except.ok.inj h]
    · cases h
  | succ fuel ih =>
    rw [fillLoop] at h
    split at h
    · next hzero =>
      rw [hzero, Except.ok.inj h]
    · next hzero =>
      simp only at h
      split at h
      · cases h
      · next hgood =>
        rw [Bool.not_eq_true', Bool.not_eq_false] at hgood
        exact Relation.ReflTransGen.head (.round remaining out hzero hgood) (ih _ _ h)

/-- A round never increases `remaining`. -/
theorem FillRound.le {w : ℕ} {value : UInt8} {bufLen : ℕ} {s s' : ℕ × OStream}
    (h : FillRound w value bufLen s s') : s'.1 ≤ s.1 := by
  cases h with
  | round remaining out hpos hgood => exact Nat.sub_le _ _

/-- **A round takes the low bits only**: what lies above them is never used up. -/
theorem FillRound.two_pow_le {w : ℕ} {value : UInt8} {bufLen : ℕ} {s s' : ℕ × OStream}
    (h : FillRound w value bufLen s s') (hs : 2 ^ w ≤ s.1) : 2 ^ w ≤ s'.1 := by
  cases h with
  | round remaining out hpos hgood =>
    have hlow : min (remaining % 2 ^ w) bufLen ≤ remaining % 2 ^ w := min_le_left _ _
    have hquot : 1 ≤ remaining / 2 ^ w := (Nat.one_le_div_iff (Nat.two_pow_pos w)).mpr hs
    have hmul : 2 ^ w * 1 ≤ 2 ^ w * (remaining / 2 ^ w) := Nat.mul_le_mul_left _ hquot
    have hdiv := Nat.mod_add_div remaining (2 ^ w)
    show 2 ^ w ≤ remaining - min (remaining % 2 ^ w) bufLen
    omega

/-- A round makes progress as long as `remaining` fits and the buffer is not empty. -/
theorem FillRound.lt {w : ℕ} {value : UInt8} {bufLen : ℕ} {s s' : ℕ × OStream}
    (h : FillRound w value bufLen s s') (hs : s.1 < 2 ^ w) (hbuf : 0 < bufLen) : s'.1 < s.1 := by
  cases h with
  | round remaining out hpos hgood =>
    have hmod : remaining % 2 ^ w = remaining := Nat.mod_eq_of_lt hs
    show remaining - min (remaining % 2 ^ w) bufLen < remaining
    rw [hmod]
    omega

/-- No state of a loop exceeds the size it started with. -/
theorem FillReaches.le {T : Target} {value : UInt8} {n : UInt64} {s : ℕ × OStream}
    (h : FillReaches T value n s) : s.1 ≤ n.toNat := by
  induction h with
  | refl => exact le_rfl
  | tail _ hround ih => exact hround.le.trans ih

/-- Every state of a loop whose size does not fit lies above the low bits. -/
theorem FillReaches.two_pow_le {T : Target} {value : UInt8} {n : UInt64} {s : ℕ × OStream}
    (h : FillReaches T value n s) (hn : 2 ^ T.sizeBits ≤ n.toNat) : 2 ^ T.sizeBits ≤ s.1 := by
  induction h with
  | refl => exact hn
  | tail _ hround ih => exact hround.two_pow_le ih

/-- A payload with one entry takes the single-symbol path. -/
theorem decompress_single (T : Target) (payload : Bytes) (out : OStream) (value : UInt8)
    (n : UInt64) (hn : 0 < n) (hout : out.good = true) (h : SingleInput payload n value) :
    decompress T (IStream.ofBytes payload) out n =
      runBody (fillSingle T.sizeBits value out n) := by
  obtain ⟨more, hmore⟩ := h.split
  have hne : n ≠ 0 := (UInt64.ne_of_lt hn).symm
  have hdec := decompress_entries T (IStream.ofBytes payload) out n [(value, n)] more rfl hout
    hne le_rfl (by simp) (by simpa using hmore)
  have hsum : sumEntries 0 [(value, n)] = n := UInt64.zero_add n
  rw [hdec, hsum, singleChar_eq, symbols_single value n hn]
  simp

/-- **A size that fits is filled exactly.** -/
theorem fillsExactly_of_lt (T : Target) (value : UInt8) (n : UInt64) (hn : 0 < n)
    (hfits : n.toNat < 2 ^ T.sizeBits) : FillsExactly T value n where
  ends := by
    have hpos : 0 < n.toNat := UInt64.lt_iff_toNat_lt.mp hn
    have hbuf : n.toNat = 0 ∨ 1 ≤ fillBuffer T.sizeBits n := by
      rw [fillBuffer, Nat.mod_eq_of_lt hfits, bufferSize]
      omega
    refine ⟨n.toNat, OStream.memory.write (List.replicate n.toNat value), ?_⟩
    rw [fillLoop_eq T.sizeBits value _ _ _ OStream.memory hfits hbuf le_rfl rfl,
      OStream.write_memory_good]
    rfl
  decreases := by
    intro s s' hreach hround
    have hpos : 0 < n.toNat := UInt64.lt_iff_toNat_lt.mp hn
    apply hround.lt (lt_of_le_of_lt hreach.le hfits)
    rw [fillBuffer, Nat.mod_eq_of_lt hfits, bufferSize]
    omega
  writes := by
    intro payload hsingle
    refine ⟨OStream.memory.write (List.replicate n.toNat value), ?_,
      OStream.write_memory_accepted _⟩
    rw [decompress_single T payload OStream.memory value n hn rfl hsingle,
      fillSingle_eq T.sizeBits value OStream.memory n hfits rfl, OStream.write_memory_good]
    rfl

/-- **A size that does not fit is never filled**: no number of rounds brings the loop to an
end. -/
theorem not_fillsExactly (T : Target) (value : UInt8) (n : UInt64)
    (hwide : 2 ^ T.sizeBits ≤ n.toNat) : ¬ FillsExactly T value n := by
  intro h
  obtain ⟨fuel, out, hloop⟩ := h.ends
  have hreach : FillReaches T value n (0, out) := rounds_of_fillLoop _ _ _ _ _ _ _ hloop
  have hle := hreach.two_pow_le hwide
  have hpos := Nat.two_pow_pos T.sizeBits
  exact absurd hle (Nat.not_le.mpr hpos)

/-- **The fill loop is right exactly for the sizes that fit in `size_t`.** For every width and
every positive size, the loop ends, decreases `remaining` in every round it comes to and writes
exactly that many bytes, if and only if the size is below `2 ^ sizeBits`. -/
theorem fillsExactly_iff (T : Target) (value : UInt8) (n : UInt64) (hn : 0 < n) :
    FillsExactly T value n ↔ n.toNat < 2 ^ T.sizeBits := by
  constructor
  · intro h
    by_contra hwide
    exact not_fillsExactly T value n (Nat.not_lt.mp hwide) h
  · exact fillsExactly_of_lt T value n hn

/-- A 32-bit target. -/
def narrowTarget : Target := { Target.scan with sizeBits := 32, sizeBits_eq := Or.inl rfl }

/-- The largest size that fits in 32 bits. -/
theorem fillsExactly_iff_narrowTarget :
    FillsExactly narrowTarget 97 4294967295 ↔ (4294967295 : UInt64).toNat < 2 ^ 32 :=
  fillsExactly_iff narrowTarget 97 4294967295 (by decide)

/-- The next size is not filled, and already its first round writes nothing. -/
theorem not_fillsExactly_narrowTarget :
    ¬ FillsExactly narrowTarget 97 4294967296 ∧
      FillRound 32 97 (fillBuffer 32 4294967296) (4294967296, OStream.memory)
        (4294967296, OStream.memory) :=
  ⟨not_fillsExactly narrowTarget 97 4294967296 (by decide),
    .round 4294967296 OStream.memory (by decide) rfl⟩

end Lacuna.Results
