import Lacuna.Analysis.BitCalls

/-!
# The bit writer and the bit reader

Bits are packed into bytes by the writer and taken out of them by the reader, most significant
bit first in both. The bytes depend on the bits only, not on how they were split into calls, and
the reader gives them back (`bitPacking_roundTrip`).
-/

set_option autoImplicit false

namespace Lacuna.Results

open Model

/-- What is asked of the bytes for a list of bits: there are as many as it takes; a writer that
has written the bits without failing and is then flushed has put these bytes, whatever the
stream and however the bits were split into calls; it does not fail where there is room for
them; and a reader of these bytes returns the bits, then zeros up to the end of the last byte,
then nothing. -/
structure PacksBits (bits : List Bool) (bytes : Bytes) : Prop where
  length : bytes.length = (bits.length + 7) / 8
  written : ∀ (out : OStream) (calls : List BitWrite), calls.flatMap BitWrite.bits = bits →
    ((BitWriter.start out).writeAll calls).1 = true →
      ((BitWriter.start out).writeAll calls).2.flush.2.out = out.write bytes ∧
        ((BitWriter.start out).writeAll calls).2.flush.1 = (out.write bytes).good
  accepted : ∀ (out : OStream) (calls : List BitWrite), calls.flatMap BitWrite.bits = bits →
    out.Takes bytes.length →
      ((BitWriter.start out).writeAll calls).1 = true ∧
        ((BitWriter.start out).writeAll calls).2.flush.1 = true ∧
          ((BitWriter.start out).writeAll calls).2.flush.2.out.accepted = out.accepted ++ bytes
  read : ∀ (input : IStream) (n : ℕ), input.good = true → input.rest = bytes →
    ((BitReader.start input).readBits n).1 =
      (bits.map (fun bit => some (Bool.toNat bit)) ++
        List.replicate (bytes.length * 8 - bits.length) (some 0) ++ List.replicate n none).take n

/-- The packed bits are what is asked for. -/
theorem packsBits_packBits (bits : List Bool) : PacksBits bits (packBits bits) where
  length := length_packBits bits
  written := by
    rintro out calls rfl hall
    exact BitWriter.flush_writeAll out calls hall
  accepted := by
    rintro out calls rfl htakes
    have hall := BitWriter.writeAll_of_takes out calls htakes
    obtain ⟨hout, hflush⟩ := BitWriter.flush_writeAll out calls hall
    obtain ⟨hgood, haccepted⟩ := htakes.write
    exact ⟨hall, hflush.trans hgood, by rw [hout, haccepted]⟩
  read := by
    intro input n hgood hrest
    obtain ⟨pad, -, hunpack⟩ := unpackBits_packBits bits
    have hpad : (packBits bits).length * 8 - bits.length = pad := by
      have hlen := congrArg List.length hunpack
      rw [length_unpackBits, List.length_append, List.length_replicate] at hlen
      omega
    rw [BitReader.readBits_eq _ hgood, BitReader.bits_start, hrest, hunpack, List.map_append,
      List.map_replicate, hpad]
    rfl

/-- **Bits that are written and read come back.** For every list of bits there are bytes, one for
every eight bits that are begun, that a writer emits however the bits are split into calls, and
from which a reader returns the bits, zeros up to the end of the last byte, and nothing from
then on. In every state that calls of the writer lead to, on any stream and whatever they
return, and in every state of a reader on any stream, a call shifts by zero to seven. -/
theorem bitPacking_roundTrip :
    (∀ bits : List Bool, ∃ bytes : Bytes, PacksBits bits bytes) ∧
    (∀ (out : OStream) (calls : List WriterCall) (c : WriterCall),
      ((BitWriter.afterCalls out calls).callShifts c).2 =
          (BitWriter.afterCalls out calls).call c ∧
        AreByteShifts ((BitWriter.afterCalls out calls).callShifts c).1) ∧
    ∀ (input : IStream) (n : ℕ),
      (BitReader.afterReads input n).readBitShifts.2 = (BitReader.afterReads input n).readBit ∧
        AreByteShifts (BitReader.afterReads input n).readBitShifts.1 := by
  refine ⟨?_, ?_, ?_⟩
  · intro bits
    exact ⟨packBits bits, packsBits_packBits bits⟩
  · intro out calls c
    exact BitWriter.shifts_call _ c (BitWriter.bitCount_afterCalls out calls)
  · intro input n
    exact BitReader.shifts_readBit _ (BitReader.bitCount_afterReads input n)

/-- Nine bits in three calls take two bytes, and seven zeros follow them. -/
example :
    ((BitWriter.start .memory).writeAll [.code [true, false, true], .bit true,
        .code [false, false, false, false, true]]).2.flush.2.out.accepted = [0xB0, 0x80] ∧
      ((BitReader.start (IStream.ofBytes [0xB0, 0x80])).readBits 17).1 =
        [1, 0, 1, 1, 0, 0, 0, 0, 1].map some ++ List.replicate 7 (some 0) ++ [none] := by
  decide

end Lacuna.Results
