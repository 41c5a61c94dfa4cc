import Lacuna.Analysis.BitStreams

/-!
# Calls of the bit writer and the bit reader

A list of bits can be written in many ways: bit by bit, in codes, or both (`BitWrite`). However
it is split, the writer stands for the same bits (`Holds.writeAll`), and a reader returns the
bits it has still to come and then nothing (`readBits_eq`).

The shifts are followed too: each function is written down once more with the amounts it shifts
by, as signed integers. They are those of a byte in every state that any calls lead to, on any
stream (`shifts_call`, `shifts_readBit`).
-/

set_option autoImplicit false

namespace Lacuna.Model

open Library

/-! ## Streams -/

namespace IStream

/-- A stream that can deliver nothing is never read from again. -/
theorem get_of_unread_nil (s : IStream) (h : s.unread = []) :
    s.get.1 = none ∧ s.get.2.unread = [] := by
  cases hgood : s.good with
  | true =>
    rw [s.unread_of_good hgood] at h
    have hget : s.get = (none, { s with eofbit := true, failbit := true }) := by
      simp only [get, hgood, if_true, h]
    rw [hget]
    exact ⟨rfl, rfl⟩
  | false =>
    have hget : s.get = (none, { s with failbit := true }) := by
      simp only [get, hgood, Bool.false_eq_true, if_false]
    rw [hget]
    exact ⟨rfl, unread_of_not_good _ (by simp [good])⟩

end IStream

namespace OStream

/-- A good stream on a device with room for `n` bytes more. -/
def Takes (s : OStream) (n : ℕ) : Prop := s.good = true ∧ ∀ room, s.room = some room → n ≤ room

/-- What there is room for is accepted whole. -/
theorem Takes.write {s : OStream} {data : Bytes} (h : s.Takes data.length) :
    (s.write data).good = true ∧ (s.write data).accepted = s.accepted ++ data := by
  obtain ⟨hgood, hroom⟩ := h
  cases hdevice : s.room with
  | none =>
    rw [write_unlimited s data hdevice hgood]
    exact ⟨hgood, rfl⟩
  | some room =>
    rw [write_fits s data room hdevice hgood (hroom room hdevice)]
    exact ⟨hgood, rfl⟩

end OStream

/-! ## Writing -/

/-- A call that writes bits. -/
inductive BitWrite where
  | bit (bit : Bool)
  | code (code : List Bool)

/-- The bits it writes. -/
def BitWrite.bits : BitWrite → List Bool
  | .bit b => [b]
  | .code bs => bs

namespace BitWriter

/-- `write_bit` or `write_code`. -/
def write (w : BitWriter) : BitWrite → Bool × BitWriter
  | .bit bit => w.writeBit bit
  | .code code => w.writeCode code

/-- One call after the other, up to the first that returns `false`. -/
def writeAll : BitWriter → List BitWrite → Bool × BitWriter
  | w, [] => (true, w)
  | w, call :: calls =>
    match w.write call with
    | (false, w) => (false, w)
    | (true, w) => w.writeAll calls

/-- One call writes its bits. -/
theorem Holds.write {out₀ : OStream} {before : List Bool} {w : BitWriter}
    (h : Holds out₀ before w) (call : BitWrite) : Wrote out₀ before call.bits (w.write call) := by
  cases call with
  | bit bit => exact h.wrote_bit bit
  | code code => exact h.writeCode code

/-- **However bits are split into calls**, the calls write them one behind the other. -/
theorem Holds.writeAll {out₀ : OStream} {before : List Bool} {w : BitWriter}
    (h : Holds out₀ before w) (calls : List BitWrite) :
    Wrote out₀ before (calls.flatMap BitWrite.bits) (w.writeAll calls) := by
  induction calls generalizing before w with
  | nil => exact h.wrote_nil
  | cons call calls ih =>
    rw [BitWriter.writeAll, List.flatMap_cons]
    exact (h.write call).andThen fun w' hw' => ih hw'

/-- **A flushed writer has put the packed bits**, if all calls succeeded. -/
theorem flush_writeAll (out : OStream) (calls : List BitWrite)
    (h : ((start out).writeAll calls).1 = true) :
    ((start out).writeAll calls).2.flush.2.out =
        out.write (packBits (calls.flatMap BitWrite.bits)) ∧
      ((start out).writeAll calls).2.flush.1 =
        (out.write (packBits (calls.flatMap BitWrite.bits))).good := by
  rcases (holds_start out).writeAll calls with ⟨w, heq, hw⟩ | ⟨w, seen, heq, -, -, -⟩
  · rw [heq]
    exact hw.flush.symm
  · rw [heq] at h
    cases h

/-- On a stream that takes the packed bits all calls succeed. -/
theorem writeAll_of_takes (out : OStream) (calls : List BitWrite)
    (h : out.Takes (packBits (calls.flatMap BitWrite.bits)).length) :
    ((start out).writeAll calls).1 = true := by
  rcases (holds_start out).writeAll calls with ⟨w, heq, hw⟩ | ⟨w, seen, heq, hseen, hw, hbad⟩
  · rw [heq]
  · -- a stream that failed on the way would have failed at the end
    obtain ⟨more, hmore⟩ := hseen
    have hout := hw.out_of_failed hbad more
    rw [List.nil_append, hmore] at hout
    rw [hout, h.write.1] at hbad
    cases hbad

end BitWriter

/-! ## Reading -/

namespace BitReader

/-- The results of `n` calls of `read_bit`, and the reader behind them. -/
def readBits : ℕ → BitReader → List (Option ℕ) × BitReader
  | 0, r => ([], r)
  | n + 1, r => (r.readBit.1 :: (readBits n r.readBit.2).1, (readBits n r.readBit.2).2)

/-- Nothing is left, neither in the byte nor in the stream. -/
def Drained (r : BitReader) : Prop := r.bitCount = 0 ∧ r.input.unread = []

/-- A reader that is drained stays so. -/
theorem Drained.readBit {r : BitReader} (h : r.Drained) :
    r.readBit.1 = none ∧ r.readBit.2.Drained := by
  obtain ⟨hcount, hunread⟩ := h
  obtain ⟨hnone, hstays⟩ := r.input.get_of_unread_nil hunread
  unfold BitReader.readBit
  rw [if_pos hcount]
  split
  · next input hget =>
    rw [hget] at hstays
    exact ⟨rfl, hcount, hstays⟩
  · next c input hget =>
    rw [hget] at hnone
    cases hnone

/-- **From then on every call returns nothing.** -/
theorem Drained.readBits {r : BitReader} (h : r.Drained) (n : ℕ) :
    (readBits n r).1 = List.replicate n none := by
  induction n generalizing r with
  | zero => rfl
  | succ n ih =>
    rw [BitReader.readBits, h.readBit.1, ih h.readBit.2, List.replicate_succ]

/-- A good reader without bits to come is drained. -/
theorem drained_of_bits_nil (r : BitReader) (hgood : r.input.good = true) (h : r.bits = []) :
    r.Drained := by
  have hlen := congrArg List.length h
  rw [bits, List.length_append, length_natBits, length_unpackBits, List.length_nil] at hlen
  have hcount : r.bitCount = 0 := by omega
  have hrest : r.input.rest = [] := List.eq_nil_of_length_eq_zero (by omega)
  refine ⟨hcount, ?_⟩
  rw [IStream.unread_of_good _ hgood, hrest]

/-- **Repeated calls return the bits still to come, and then nothing.** -/
theorem readBits_eq (r : BitReader) (hgood : r.input.good = true) (n : ℕ) :
    (readBits n r).1 =
      (r.bits.map (fun bit => some (Bool.toNat bit)) ++ List.replicate n none).take n := by
  induction n generalizing r with
  | zero => rfl
  | succ n ih =>
    cases hbits : r.bits with
    | nil =>
      rw [(r.drained_of_bits_nil hgood hbits).readBits, List.map_nil, List.nil_append,
        List.take_replicate, min_self]
    | cons bit rest =>
      obtain ⟨r', hread, hrest, hgood'⟩ := r.readBit_cons hgood bit rest hbits
      have hmore : (r'.bits.map (fun bit => some (Bool.toNat bit)) ++
            List.replicate (n + 1) none).take n =
          (r'.bits.map (fun bit => some (Bool.toNat bit)) ++ List.replicate n none).take n := by
        rw [List.replicate_succ', ← List.append_assoc]
        apply List.take_append_of_le_length
        rw [List.length_append, List.length_replicate]
        omega
      rw [BitReader.readBits, hread, ih r' hgood', List.map_cons, List.cons_append,
        List.take_succ_cons, ← hrest, hmore]

end BitReader

/-! ## Shifts -/

/-- Amounts by which a byte can be shifted and keep one of its bits. -/
def AreByteShifts (amounts : List ℤ) : Prop := ∀ amount ∈ amounts, 0 ≤ amount ∧ amount ≤ 7

namespace BitWriter

/-- `write_bit(bit)`, with the amounts it shifts by. -/
def writeBitShifts (w : BitWriter) (bit : Bool) : List ℤ × Bool × BitWriter :=
  let amount : ℤ := 1
  let currentByte := UInt8.ofNat ((w.currentByte.toNat <<< amount.toNat) ||| bit.toNat)
  let bitCount := w.bitCount + 1
  if bitCount = 8 then
    let out := w.out.put currentByte
    ([amount], out.good, { out := out, currentByte := 0, bitCount := 0 })
  else ([amount], w.out.good, { w with currentByte := currentByte, bitCount := bitCount })

/-- `write_code(code)`, with the amounts it shifts by. -/
def writeCodeShifts : BitWriter → List Bool → List ℤ × Bool × BitWriter
  | w, [] => ([], true, w)
  | w, bit :: code =>
    match w.writeBitShifts bit with
    | (amounts, false, w) => (amounts, false, w)
    | (amounts, true, w) =>
      (amounts ++ (w.writeCodeShifts code).1, (w.writeCodeShifts code).2)

/-- `flush()`, with the amounts it shifts by. -/
def flushShifts (w : BitWriter) : List ℤ × Bool × BitWriter :=
  if 0 < w.bitCount then
    let amount : ℤ := 8 - w.bitCount
    let currentByte := UInt8.ofNat (w.currentByte.toNat <<< amount.toNat)
    let out := w.out.put currentByte
    ([amount], out.good, { out := out, currentByte := 0, bitCount := 0 })
  else ([], w.out.good, w)

end BitWriter

/-- A call of the bit writer. -/
inductive WriterCall where
  | write (call : BitWrite)
  | flush

namespace BitWriter

/-- The call. -/
def call (w : BitWriter) : WriterCall → Bool × BitWriter
  | .write c => w.write c
  | .flush => w.flush

/-- The call, with the amounts it shifts by. -/
def callShifts (w : BitWriter) : WriterCall → List ℤ × Bool × BitWriter
  | .write (.bit bit) => w.writeBitShifts bit
  | .write (.code code) => w.writeCodeShifts code
  | .flush => w.flushShifts

/-- The writer on a stream after some calls, whatever they returned. -/
def afterCalls (out : OStream) (calls : List WriterCall) : BitWriter :=
  calls.foldl (fun w c => (w.call c).2) (start out)

/-- Writing a bit never leaves a full byte. -/
theorem bitCount_writeBit (w : BitWriter) (bit : Bool) (h : w.bitCount < 8) :
    (w.writeBit bit).2.bitCount < 8 := by
  unfold writeBit
  simp only
  split
  · exact Nat.zero_lt_succ 7
  · next hopen =>
    show w.bitCount + 1 < 8
    omega

/-- Writing a code never leaves a full byte. -/
theorem bitCount_writeCode (w : BitWriter) (code : List Bool) (h : w.bitCount < 8) :
    (w.writeCode code).2.bitCount < 8 := by
  induction code generalizing w with
  | nil => exact h
  | cons bit code ih =>
    have hbit := w.bitCount_writeBit bit h
    unfold writeCode
    split
    · next w' heq =>
      rw [heq] at hbit
      exact hbit
    · next w' heq =>
      rw [heq] at hbit
      exact ih w' hbit

/-- Flushing leaves no bits. -/
theorem bitCount_flush (w : BitWriter) : w.flush.2.bitCount = 0 := by
  unfold flush
  split
  · rfl
  · next hnone => exact Nat.eq_zero_of_not_pos hnone

/-- No call leaves a full byte. -/
theorem bitCount_call (w : BitWriter) (c : WriterCall) (h : w.bitCount < 8) :
    (w.call c).2.bitCount < 8 := by
  cases c with
  | write c =>
    cases c with
    | bit bit => exact w.bitCount_writeBit bit h
    | code code => exact w.bitCount_writeCode code h
  | flush =>
    have hzero := w.bitCount_flush
    show w.flush.2.bitCount < 8
    omega

/-- **In every state a writer reaches, fewer than eight bits wait.** -/
theorem bitCount_afterCalls (out : OStream) (calls : List WriterCall) :
    (afterCalls out calls).bitCount < 8 := by
  induction calls using List.reverseRecOn with
  | nil => exact Nat.zero_lt_succ 7
  | append_singleton calls c ih =>
    rw [afterCalls, List.foldl_append]
    exact bitCount_call _ c ih

/-- Writing a bit shifts by one. -/
theorem writeBitShifts_eq (w : BitWriter) (bit : Bool) :
    w.writeBitShifts bit = ([1], w.writeBit bit) := by
  unfold writeBitShifts writeBit
  simp only
  split
  · rfl
  · rfl

/-- Writing a code shifts by one, once for each bit. -/
theorem shifts_writeCode (w : BitWriter) (code : List Bool) :
    (w.writeCodeShifts code).2 = w.writeCode code ∧
      AreByteShifts (w.writeCodeShifts code).1 := by
  induction code generalizing w with
  | nil => exact ⟨rfl, List.forall_mem_nil _⟩
  | cons bit code ih =>
    have hone : AreByteShifts [1] := List.forall_mem_singleton.mpr ⟨by decide, by decide⟩
    unfold writeCodeShifts writeCode
    rw [writeBitShifts_eq]
    obtain ⟨ok, w'⟩ := w.writeBit bit
    cases ok with
    | false => exact ⟨rfl, hone⟩
    | true =>
      obtain ⟨hsame, hshifts⟩ := ih w'
      exact ⟨hsame, List.forall_mem_append.mpr ⟨hone, hshifts⟩⟩

/-- Flushing shifts by as many bits as the byte lacks: there is one that waits, and the byte is
not full. -/
theorem shifts_flush (w : BitWriter) (h : w.bitCount < 8) :
    w.flushShifts.2 = w.flush ∧ AreByteShifts w.flushShifts.1 := by
  unfold flushShifts flush
  have hamount : (8 - (w.bitCount : ℤ)).toNat = 8 - w.bitCount := by omega
  simp only [hamount]
  split
  · next hpos =>
    refine ⟨rfl, List.forall_mem_singleton.mpr ?_⟩
    omega
  · exact ⟨rfl, List.forall_mem_nil _⟩

/-- **A call in a state where the byte is not full shifts by amounts in range.** -/
theorem shifts_call (w : BitWriter) (c : WriterCall) (h : w.bitCount < 8) :
    (w.callShifts c).2 = w.call c ∧ AreByteShifts (w.callShifts c).1 := by
  cases c with
  | write c =>
    cases c with
    | bit bit =>
      rw [callShifts, writeBitShifts_eq]
      exact ⟨rfl, List.forall_mem_singleton.mpr ⟨by decide, by decide⟩⟩
    | code code => exact w.shifts_writeCode code
  | flush => exact w.shifts_flush h

end BitWriter

namespace BitReader

/-- The last two lines of `read_bit()`, with the amount they shift by. -/
def nextBitShifts (r : BitReader) : List ℤ × ℕ × BitReader :=
  let amount : ℤ := r.bitCount - 1
  ([amount], (r.currentByte.toNat >>> amount.toNat) &&& 1, { r with bitCount := r.bitCount - 1 })

/-- `read_bit()`, with the amounts it shifts by. -/
def readBitShifts (r : BitReader) : List ℤ × Option ℕ × BitReader :=
  if r.bitCount = 0 then
    match r.input.get with
    | (none, input) => ([], none, { r with input := input })
    | (some c, input) =>
      let (amounts, bit, r) := nextBitShifts { input := input, currentByte := c, bitCount := 8 }
      (amounts, some bit, r)
  else
    let (amounts, bit, r) := nextBitShifts r
    (amounts, some bit, r)

/-- The reader on a stream after some calls. -/
def afterReads (input : IStream) (n : ℕ) : BitReader := (readBits n (start input)).2

/-- Taking a bit of a byte that has some. -/
theorem shifts_nextBit (r : BitReader) (hpos : 0 < r.bitCount) (h : r.bitCount ≤ 8) :
    r.nextBitShifts.2 = r.nextBit ∧ AreByteShifts r.nextBitShifts.1 := by
  have hamount : ((r.bitCount : ℤ) - 1).toNat = r.bitCount - 1 := by omega
  constructor
  · simp only [nextBitShifts, nextBit, hamount]
  · have hrange : (0 : ℤ) ≤ r.bitCount - 1 ∧ (r.bitCount : ℤ) - 1 ≤ 7 := by omega
    exact List.forall_mem_singleton.mpr hrange

/-- **A call in a state where the byte is begun shifts by amounts in range.** -/
theorem shifts_readBit (r : BitReader) (h : r.bitCount < 8) :
    r.readBitShifts.2 = r.readBit ∧ AreByteShifts r.readBitShifts.1 := by
  unfold readBitShifts readBit
  by_cases hcount : r.bitCount = 0
  · rw [if_pos hcount, if_pos hcount]
    cases hget : r.input.get with
    | mk c input =>
      cases c with
      | none => exact ⟨rfl, List.forall_mem_nil _⟩
      | some c =>
        let loaded : BitReader := { input := input, currentByte := c, bitCount := 8 }
        obtain ⟨hsame, hshifts⟩ := loaded.shifts_nextBit (Nat.zero_lt_succ 7) le_rfl
        refine ⟨?_, hshifts⟩
        show (some loaded.nextBitShifts.2.1, loaded.nextBitShifts.2.2) = _
        rw [hsame]
  · rw [if_neg hcount, if_neg hcount]
    obtain ⟨hsame, hshifts⟩ := r.shifts_nextBit (Nat.pos_of_ne_zero hcount) h.le
    refine ⟨?_, hshifts⟩
    show (some r.nextBitShifts.2.1, r.nextBitShifts.2.2) = _
    rw [hsame]

/-- A call leaves a byte of which at least one bit is used. -/
theorem bitCount_readBit (r : BitReader) (h : r.bitCount < 8) : r.readBit.2.bitCount < 8 := by
  unfold readBit
  split
  · split
    · exact h
    · exact Nat.lt_succ_self 7
  · show r.bitCount - 1 < 8
    omega

/-- No number of calls leaves a byte without a used bit. -/
theorem bitCount_readBits (n : ℕ) (r : BitReader) (h : r.bitCount < 8) :
    (readBits n r).2.bitCount < 8 := by
  induction n generalizing r with
  | zero => exact h
  | succ n ih => exact ih r.readBit.2 (r.bitCount_readBit h)

/-- **In every state a reader reaches, fewer than eight bits wait.** -/
theorem bitCount_afterReads (input : IStream) (n : ℕ) : (afterReads input n).bitCount < 8 :=
  bitCount_readBits n (start input) (Nat.zero_lt_succ 7)

end BitReader

end Lacuna.Model
