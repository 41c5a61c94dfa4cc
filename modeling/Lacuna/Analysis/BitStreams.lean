import Lacuna.Library.BitPacking
import Lacuna.Analysis.StreamLaws
import Lacuna.Model.Huffman

/-!
# What the bit writer and the bit reader do

A `BitWriter` stands for a bit sequence: the bytes it has put are its first bits, the rest
waits in the current byte (`BitWriter.Holds`). Flushed, it has put the packed sequence. A
`BitReader` stands for the bits still to come (`BitReader.bits`), and `read_bit` takes the
first of them.
-/

set_option autoImplicit false

namespace Lacuna.Model

open Library

/-! ## Bits and bytes -/

/-- The bytes that hold a bit sequence, filled up with zero bits. -/
def packBits (bits : List Bool) : Bytes := (packFrom 8 [] bits).map UInt8.ofNat

/-- The bits of a byte string, the most significant bit of each byte first. -/
def unpackBits (data : Bytes) : List Bool := unpackWords 8 (data.map UInt8.toNat)

@[simp] theorem packBits_nil : packBits [] = [] := rfl

@[simp] theorem unpackBits_nil : unpackBits [] = [] := rfl

theorem unpackBits_cons (b : UInt8) (data : Bytes) :
    unpackBits (b :: data) = natBits 8 b.toNat ++ unpackBits data := rfl

@[simp] theorem unpackBits_append (data more : Bytes) :
    unpackBits (data ++ more) = unpackBits data ++ unpackBits more := by
  simp [unpackBits]

@[simp] theorem length_unpackBits (data : Bytes) :
    (unpackBits data).length = data.length * 8 := by
  simp [unpackBits]

/-- Words that fit in a byte survive the cast. -/
theorem map_toNat_map_ofNat (words : List ℕ) (h : ∀ n ∈ words, n < 2 ^ 8) :
    (words.map UInt8.ofNat).map UInt8.toNat = words := by
  conv_rhs => rw [← List.map_id words]
  rw [List.map_map]
  apply List.map_congr_left
  intro n hn
  exact UInt8.toNat_ofNat_of_lt' (h n hn)

/-- **Unpacking undoes packing**, up to fewer than eight zero bits. -/
theorem unpackBits_packBits (bits : List Bool) :
    ∃ pad < 8, unpackBits (packBits bits) = bits ++ List.replicate pad false := by
  obtain ⟨pad, hpad, heq⟩ := unpackWords_packFrom 8 [] bits (by decide)
  refine ⟨pad, hpad, ?_⟩
  rw [unpackBits, packBits, map_toNat_map_ofNat _ (packFrom_lt 8 [] bits (by decide)), heq,
    List.nil_append]

/-- Packing takes a byte for every eight bits that are begun. -/
theorem length_packBits (bits : List Bool) : (packBits bits).length = (bits.length + 7) / 8 := by
  obtain ⟨pad, hpad, hunpack⟩ := unpackBits_packBits bits
  have hlen := congrArg List.length hunpack
  rw [length_unpackBits, List.length_append, List.length_replicate] at hlen
  omega

/-- Whole bytes at the start of a bit sequence are packed into themselves. -/
theorem packBits_unpackBits_append (data : Bytes) (bits : List Bool) :
    packBits (unpackBits data ++ bits) = data ++ packBits bits := by
  have hwords : ∀ n ∈ data.map UInt8.toNat, n < 2 ^ 8 := by
    intro n hn
    obtain ⟨b, -, rfl⟩ := List.mem_map.mp hn
    exact b.toNat_lt
  rw [packBits, unpackBits, packFrom_unpackWords_append 8 (by decide) _ _ hwords,
    List.map_append, List.map_map, ← packBits]
  congr 1
  conv_rhs => rw [← List.map_id data]
  apply List.map_congr_left
  intro b _
  exact UInt8.ofNat_toNat

/-! ## The bit writer -/

namespace BitWriter

/-- The writer stands for `bits` written since the stream was `out₀`: whole bytes of them are
put, fewer than eight wait. -/
def Holds (out₀ : OStream) (bits : List Bool) (w : BitWriter) : Prop :=
  ∃ (full : Bytes) (pending : List Bool), bits = unpackBits full ++ pending ∧
    w.out = out₀.write full ∧ w.bitCount = pending.length ∧ pending.length < 8 ∧
    w.currentByte.toNat = natOfBits pending

/-- The writer before the first bit. -/
theorem holds_start (out : OStream) : Holds out [] (start out) :=
  ⟨[], [], rfl, rfl, rfl, by decide, rfl⟩

/-- `(current_byte << 1) | bit` is one digit more. -/
theorem shiftLeft_or_bit (n : ℕ) (bit : Bool) : (n <<< 1) ||| bit.toNat = 2 * n + bit.toNat := by
  have hbit : bit.toNat < 2 ^ 1 := by cases bit <;> decide
  rw [← Nat.shiftLeft_add_eq_or_of_lt hbit, Nat.shiftLeft_eq, Nat.mul_comm, pow_one]

/-- One bit: the writer stands for it too, and the result is the state of the stream. -/
theorem Holds.writeBit {out₀ : OStream} {bits : List Bool} {w : BitWriter}
    (h : Holds out₀ bits w) (bit : Bool) :
    ∃ w', w.writeBit bit = (w'.out.good, w') ∧ Holds out₀ (bits ++ [bit]) w' := by
  obtain ⟨full, pending, rfl, hout, hcount, hlt, hbyte⟩ := h
  have hsnoc : (w.currentByte.toNat <<< 1) ||| bit.toNat = natOfBits (pending ++ [bit]) := by
    rw [hbyte, shiftLeft_or_bit, natOfBits_snoc]
  have hlen : (pending ++ [bit]).length = pending.length + 1 := by simp
  have hfits : natOfBits (pending ++ [bit]) < 2 ^ 8 := by
    have hpow : natOfBits (pending ++ [bit]) < 2 ^ (pending.length + 1) := by
      rw [← hlen]
      exact natOfBits_lt _
    exact lt_of_lt_of_le hpow (Nat.pow_le_pow_right (by decide) hlt)
  unfold BitWriter.writeBit
  simp only [hsnoc, hcount]
  by_cases hfull : pending.length + 1 = 8
  · -- the byte is full: it goes to the stream
    rw [if_pos hfull]
    let byte := UInt8.ofNat (natOfBits (pending ++ [bit]))
    refine ⟨{ out := w.out.put byte, currentByte := 0, bitCount := 0 }, rfl, full ++ [byte], [],
      ?_, ?_, rfl, by decide, rfl⟩
    · have hword := natBits_natOfBits (pending ++ [bit])
      rw [hlen, hfull] at hword
      rw [unpackBits_append, unpackBits_cons, UInt8.toNat_ofNat_of_lt' hfits, hword]
      simp
    · rw [hout, OStream.write_append]
      rfl
  · rw [if_neg hfull]
    let byte := UInt8.ofNat (natOfBits (pending ++ [bit]))
    refine ⟨{ out := w.out, currentByte := byte, bitCount := pending.length + 1 }, rfl, full,
      pending ++ [bit], by simp, hout, hlen.symm, by omega, ?_⟩
    exact UInt8.toNat_ofNat_of_lt' hfits

/-- Calls that ended with this result have written the bits, or the stream failed at the last of
those that were written. -/
def Wrote (out₀ : OStream) (before bits : List Bool) (result : Bool × BitWriter) : Prop :=
  (∃ w, result = (true, w) ∧ Holds out₀ (before ++ bits) w) ∨
    ∃ w seen, result = (false, w) ∧ seen <+: bits ∧ Holds out₀ (before ++ seen) w ∧
      w.out.good = false

/-- Writing nothing. -/
theorem Holds.wrote_nil {out₀ : OStream} {before : List Bool} {w : BitWriter}
    (h : Holds out₀ before w) : Wrote out₀ before [] (true, w) := by
  refine Or.inl ⟨w, rfl, ?_⟩
  rw [List.append_nil]
  exact h

/-- One bit, with the result of the call. -/
theorem Holds.wrote_bit {out₀ : OStream} {before : List Bool} {w : BitWriter}
    (h : Holds out₀ before w) (bit : Bool) : Wrote out₀ before [bit] (w.writeBit bit) := by
  obtain ⟨w', hbit, hw'⟩ := h.writeBit bit
  rw [hbit]
  cases hgood : w'.out.good with
  | true => exact Or.inl ⟨w', rfl, hw'⟩
  | false => exact Or.inr ⟨w', [bit], rfl, List.prefix_rfl, hw', hgood⟩

/-- The next calls, unless those before have failed. -/
def andThen (result : Bool × BitWriter) (next : BitWriter → Bool × BitWriter) :
    Bool × BitWriter :=
  match result with
  | (false, w) => (false, w)
  | (true, w) => next w

/-- **Calls that end at the first that fails** write their bits one behind the other. -/
theorem Wrote.andThen {out₀ : OStream} {before bits more : List Bool}
    {result : Bool × BitWriter} {next : BitWriter → Bool × BitWriter}
    (h : Wrote out₀ before bits result)
    (hnext : ∀ w, Holds out₀ (before ++ bits) w → Wrote out₀ (before ++ bits) more (next w)) :
    Wrote out₀ before (bits ++ more) (andThen result next) := by
  rcases h with ⟨w, rfl, hw⟩ | ⟨w, seen, rfl, hseen, hw, hbad⟩
  · rcases hnext w hw with ⟨w', hrest, hw'⟩ | ⟨w', seen, hrest, hseen, hw', hbad⟩
    · rw [List.append_assoc] at hw'
      exact Or.inl ⟨w', hrest, hw'⟩
    · rw [List.append_assoc] at hw'
      exact Or.inr ⟨w', bits ++ seen, hrest, (List.prefix_append_right_inj bits).mpr hseen, hw',
        hbad⟩
  · exact Or.inr ⟨w, seen, rfl, hseen.trans (List.prefix_append bits more), hw, hbad⟩

/-- A code word: it is written whole, or the stream failed on the way. -/
theorem Holds.writeCode {out₀ : OStream} {before : List Bool} {w : BitWriter}
    (h : Holds out₀ before w) (code : List Bool) :
    Wrote out₀ before code (w.writeCode code) := by
  induction code generalizing before w with
  | nil => exact h.wrote_nil
  | cons bit code ih =>
    rw [BitWriter.writeCode, ← List.singleton_append]
    exact (h.wrote_bit bit).andThen fun w' hw' => ih hw'

/-- A failed stream is the one the whole sequence would have left, whatever follows. -/
theorem Holds.out_of_failed {out₀ : OStream} {bits : List Bool} {w : BitWriter}
    (h : Holds out₀ bits w) (hbad : w.out.good = false) (more : List Bool) :
    w.out = out₀.write (packBits (bits ++ more)) := by
  obtain ⟨full, pending, rfl, hout, -, -, -⟩ := h
  rw [hout] at hbad
  rw [List.append_assoc, packBits_unpackBits_append, OStream.write_append,
    OStream.write_of_not_good _ _ hbad, hout]

/-- **Flushing** leaves the packed sequence on the stream, and the result is its state. -/
theorem Holds.flush {out₀ : OStream} {bits : List Bool} {w : BitWriter}
    (h : Holds out₀ bits w) :
    w.flush.1 = (out₀.write (packBits bits)).good ∧
      w.flush.2.out = out₀.write (packBits bits) := by
  obtain ⟨full, pending, rfl, hout, hcount, hlt, hbyte⟩ := h
  unfold BitWriter.flush
  rw [packBits_unpackBits_append, OStream.write_append, ← hout]
  by_cases hnil : pending = []
  · subst hnil
    simp [hcount]
  · have hpos := List.length_pos_iff.mpr hnil
    have hword : w.currentByte.toNat <<< (8 - w.bitCount) =
        natOfBits (pending ++ List.replicate (8 - pending.length) false) := by
      rw [hbyte, hcount, natOfBits_append_zeros, Nat.shiftLeft_eq, Nat.mul_comm]
    have hpack : packBits pending = [UInt8.ofNat (w.currentByte.toNat <<< (8 - w.bitCount))] := by
      rw [packBits, packFrom_short 8 [] pending (by simpa using hlt), List.nil_append, packFrom,
        if_neg hnil, hword]
      rfl
    rw [if_pos (by omega), hpack]
    exact ⟨rfl, rfl⟩

end BitWriter

/-! ## The bit reader -/

namespace BitReader

/-- The bits still to come. -/
def bits (r : BitReader) : List Bool :=
  natBits r.bitCount r.currentByte.toNat ++ unpackBits r.input.rest

/-- The reader before the first bit. -/
@[simp] theorem bits_start (input : IStream) : (start input).bits = unpackBits input.rest := rfl

/-- Every bit sequence is what some reader has still to come: the first bits that do not fill a
byte are in the current one. -/
theorem exists_of_bits (l : List Bool) : ∃ r : BitReader, r.input.good = true ∧ r.bits = l := by
  have hlen : (l.drop (l.length % 8)).length % 8 = 0 := by
    rw [List.length_drop]
    omega
  have hshort : (l.take (l.length % 8)).length < 8 := by
    rw [List.length_take]
    omega
  have hbyte : natOfBits (l.take (l.length % 8)) < 2 ^ 8 :=
    lt_of_lt_of_le (natOfBits_lt _) (Nat.pow_le_pow_right (by decide) hshort.le)
  obtain ⟨pad, hpad, hunpack⟩ := unpackBits_packBits (l.drop (l.length % 8))
  have hzero : pad = 0 := by
    have hcount := congrArg List.length hunpack
    rw [length_unpackBits, List.length_append, List.length_replicate] at hcount
    omega
  refine ⟨{ input := IStream.ofBytes (packBits (l.drop (l.length % 8)))
            currentByte := UInt8.ofNat (natOfBits (l.take (l.length % 8)))
            bitCount := (l.take (l.length % 8)).length }, rfl, ?_⟩
  have hrest : (IStream.ofBytes (packBits (l.drop (l.length % 8)))).rest =
      packBits (l.drop (l.length % 8)) := rfl
  rw [bits, UInt8.toNat_ofNat_of_lt' hbyte, natBits_natOfBits, hrest, hunpack, hzero,
    List.replicate_zero, List.append_nil, List.take_append_drop]

/-- The shift and the mask of `read_bit` select a bit of the byte. -/
theorem shiftRight_and_one (n k : ℕ) : (n >>> k) &&& 1 = (n.testBit k).toNat := by
  rw [Nat.toNat_testBit, Nat.shiftRight_eq_div_pow, Nat.and_one_is_mod]

/-- A byte not used up: its next bit is the first of those to come. -/
theorem nextBit_eq (r : BitReader) (k : ℕ) (hk : r.bitCount = k + 1) :
    ∃ bit r', r.nextBit = (bit.toNat, r') ∧ r.bits = bit :: r'.bits ∧ r'.input = r.input := by
  refine ⟨r.currentByte.toNat.testBit k, { r with bitCount := k }, ?_, ?_, rfl⟩
  · rw [nextBit, hk, Nat.add_sub_cancel, shiftRight_and_one]
  · rw [bits, hk]
    rfl

/-- At the end of the bits, `read_bit` returns nothing. -/
theorem readBit_nil (r : BitReader) (hg : r.input.good = true) (h : r.bits = []) :
    r.readBit.1 = none := by
  have hlen := congrArg List.length h
  rw [bits, List.length_append, length_natBits, length_unpackBits, List.length_nil] at hlen
  have hcount : r.bitCount = 0 := by omega
  have hrest : r.input.rest = [] := List.eq_nil_of_length_eq_zero (by omega)
  have hget := IStream.get_nil r.input hg hrest
  unfold readBit
  rw [if_pos hcount]
  split
  · rfl
  · next c input heq =>
    rw [heq] at hget
    cases hget

/-- **`read_bit` takes the first bit to come.** -/
theorem readBit_cons (r : BitReader) (hg : r.input.good = true) (bit : Bool)
    (rest : List Bool) (h : r.bits = bit :: rest) :
    ∃ r', r.readBit = (some bit.toNat, r') ∧ r'.bits = rest ∧ r'.input.good = true := by
  by_cases hcount : r.bitCount = 0
  · cases hrest : r.input.rest with
    | nil =>
      rw [bits, hcount, hrest] at h
      cases h
    | cons c more =>
      have hget := IStream.get_cons r.input c more hg hrest
      let loaded : BitReader :=
        { input := { r.input with before := r.input.before ++ [c], rest := more }
          currentByte := c
          bitCount := 8 }
      obtain ⟨bit', r', hnext, hbits, hinput⟩ := nextBit_eq loaded 7 rfl
      have hsame : r.bits = loaded.bits := by
        rw [bits, hcount, hrest]
        rfl
      rw [hsame, hbits, List.cons.injEq] at h
      obtain ⟨rfl, rfl⟩ := h
      refine ⟨r', ?_, rfl, by rw [hinput]; exact hg⟩
      rw [readBit, if_pos hcount, hget]
      simp only
      rw [hnext]
  · obtain ⟨k, hk⟩ : ∃ k, r.bitCount = k + 1 := ⟨r.bitCount - 1, by omega⟩
    obtain ⟨bit', r', hnext, hbits, hinput⟩ := nextBit_eq r k hk
    rw [hbits, List.cons.injEq] at h
    obtain ⟨rfl, rfl⟩ := h
    refine ⟨r', ?_, rfl, by rw [hinput]; exact hg⟩
    rw [readBit, if_neg hcount, hnext]

end BitReader

end Lacuna.Model
