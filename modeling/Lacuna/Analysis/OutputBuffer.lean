import Lacuna.Library.EarlyExit
import Lacuna.Analysis.StreamLaws

/-!
# What the decoders' output buffer does

The buffer hands its bytes on in blocks, but nothing of that can be seen from outside: as
long as no flush fails, the stream and the buffer together hold exactly the bytes pushed
(`Holds`), and when one fails the stream is the one that all bytes pushed so far would have
left (`pushBack_ends`), since a failed stream takes nothing more.
-/

set_option autoImplicit false

namespace Lacuna.Model.OutBuffer

open Lacuna.Library

/-- A flush writes what is pending. -/
theorem flushOutBuf_eq (s : OutBuffer) :
    s.flushOutBuf = ((s.out.write s.buf).good, { out := s.out.write s.buf, buf := [] }) := by
  obtain ⟨out, buf⟩ := s
  cases buf with
  | nil => rfl
  | cons c buf => rfl

/-- Pushing a byte writes what is pending once there are enough. -/
theorem pushBack_eq (s : OutBuffer) (c : UInt8) :
    s.pushBack c =
      if bufferSize ≤ (s.buf ++ [c]).length then
        if (s.out.write (s.buf ++ [c])).good = true then
          .ok { out := s.out.write (s.buf ++ [c]), buf := [] }
        else .error (.ret (none, s.out.write (s.buf ++ [c])))
      else .ok { s with buf := s.buf ++ [c] } := by
  simp only [pushBack, flushOutBuf_eq]
  split
  · cases (s.out.write (s.buf ++ [c])).good <;> rfl
  · rfl

/-- The buffer stands for `data` pushed since the stream was `out₀`: a part of it is
written, the rest is pending, the stream is good and the pending part is short. -/
def Holds (out₀ : OStream) (data : Bytes) (s : OutBuffer) : Prop :=
  ∃ written, s.out = out₀.write written ∧ written ++ s.buf = data ∧ s.out.good = true ∧
    s.buf.length < bufferSize

/-- A function left with `nullopt` when a flush failed: the stream is what all of `data`
leaves behind. -/
def FlushFailed (out₀ : OStream) (data : Bytes) (e : Exit Decompressed) : Prop :=
  e = .ret (none, out₀.write data) ∧ (out₀.write data).good = false

/-- The buffer has room for something. -/
theorem bufferSize_pos : 0 < bufferSize := by
  decide

/-- The empty buffer before the first byte. -/
theorem holds_start (out : OStream) (hg : out.good = true) :
    Holds out [] { out := out, buf := [] } :=
  ⟨[], rfl, rfl, hg, bufferSize_pos⟩

/-- What is pending when the function is left early was never written: the bytes that
reached the stream are a prefix of the bytes pushed. -/
theorem Holds.written {out₀ : OStream} {data : Bytes} {s : OutBuffer} (h : Holds out₀ data s) :
    ∃ written, written <+: data ∧ s.out = out₀.write written := by
  obtain ⟨written, hout, hdata, -, -⟩ := h
  exact ⟨written, ⟨s.buf, hdata⟩, hout⟩

/-- Flushing hands on everything pushed so far. -/
theorem Holds.flushOutBuf_eq {out₀ : OStream} {data : Bytes} {s : OutBuffer}
    (h : Holds out₀ data s) :
    s.flushOutBuf = ((out₀.write data).good, { out := out₀.write data, buf := [] }) := by
  obtain ⟨written, hout, hdata, -, -⟩ := h
  have hall : s.out.write s.buf = out₀.write data := by
    rw [hout, ← OStream.write_append, hdata]
  rw [OutBuffer.flushOutBuf_eq, hall]

/-- Pushing one byte: the buffer stands for one byte more, or a flush failed. -/
theorem Holds.pushBack_ends {out₀ : OStream} {data : Bytes} {s : OutBuffer}
    (h : Holds out₀ data s) (c : UInt8) :
    Ends (Holds out₀ (data ++ [c])) (FlushFailed out₀ (data ++ [c])) (s.pushBack c) := by
  obtain ⟨written, hout, hdata, hgood, hshort⟩ := h
  have hall : s.out.write (s.buf ++ [c]) = out₀.write (data ++ [c]) := by
    rw [hout, ← OStream.write_append, ← List.append_assoc, hdata]
  rw [pushBack_eq, hall]
  by_cases hfull : bufferSize ≤ (s.buf ++ [c]).length
  · rw [if_pos hfull]
    cases hg : (out₀.write (data ++ [c])).good with
    | false => exact ⟨rfl, hg⟩
    | true => exact ⟨data ++ [c], rfl, List.append_nil _, hg, bufferSize_pos⟩
  · rw [if_neg hfull]
    refine ⟨written, hout, ?_, hgood, Nat.lt_of_not_le hfull⟩
    rw [← List.append_assoc, hdata]

/-- **Pushing a list of bytes**: the buffer stands for all of them, or the stream is the
one a prefix of them leaves and that prefix failed it. -/
theorem Holds.pushAll_ends {out₀ : OStream} {data : Bytes} {s : OutBuffer}
    (h : Holds out₀ data s) (more : Bytes) :
    Ends (Holds out₀ (data ++ more))
      (fun e => ∃ pushed, pushed <+: more ∧ FlushFailed out₀ (data ++ pushed) e)
      (more.foldlM pushBack s) := by
  apply foldlM_ends pushBack (fun seen s => Holds out₀ (data ++ seen) s)
    (fun seen e => FlushFailed out₀ (data ++ seen) e)
  · simpa using h
  · intro seen c s _ hs
    simpa using hs.pushBack_ends c

end Lacuna.Model.OutBuffer
