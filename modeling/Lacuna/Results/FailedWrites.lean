import Lacuna.Analysis.Replay

/-!
# No codec hides a failed write

Of the bytes a codec writes many are not checked where they are written. That loses nothing on a
device that reports a refusal at the write: the stream stays failed, and every way to success
leads past a last look at it. So each of the four operations succeeds on a device with room for
`c` bytes if and only if it succeeds in memory and the whole output fits, and in any case the
device has the first bytes of that output, as many as fit (`no_hidden_failure`).
-/

set_option autoImplicit false

namespace Lacuna.Results

open Model

/-- A device that accepts its first `c` bytes and then fails for good. -/
def failingAfter (c : ℕ) : OStream := OStream.fresh (some c) .atWrite

/-- What an operation does on `failingAfter c`, told by what it does where nothing fails: it
succeeds if and only if it would and the output fits, and the bytes accepted are the first of
that output. -/
structure TellsFailure (c : ℕ) (full faulty : Bool × OStream) : Prop where
  success_iff : faulty.1 = true ↔ full.1 = true ∧ full.2.accepted.length ≤ c
  accepted_eq : faulty.2.accepted = full.2.accepted.take (min c full.2.accepted.length)

/-- A failing device after a write. -/
theorem good_write_failingAfter (c : ℕ) (data : Bytes) :
    ((failingAfter c).write data).good = true ↔ data.length ≤ c := by
  rw [failingAfter, OStream.write_fresh_good]
  simp

/-- A failing device keeps what fits. -/
theorem accepted_write_failingAfter (c : ℕ) (data : Bytes) :
    ((failingAfter c).write data).accepted = data.take (min c data.length) := by
  rw [failingAfter, OStream.write_fresh_accepted, List.take_eq_take_min]

/-- An operation that writes some bytes and returns the state of the stream. -/
theorem tellsFailure_write (c : ℕ) (data : Bytes) :
    TellsFailure c ((OStream.memory.write data).good, OStream.memory.write data)
      (((failingAfter c).write data).good, (failingAfter c).write data) := by
  constructor
  · simp only [OStream.write_memory_good, OStream.write_memory_accepted, true_and]
    exact good_write_failingAfter c data
  · simp only [OStream.write_memory_accepted]
    exact accepted_write_failingAfter c data

/-- An operation that fails before it writes anything. -/
theorem tellsFailure_untouched (c : ℕ) :
    TellsFailure c (false, OStream.memory) (false, failingAfter c) := by
  constructor
  · simp
  · exact accepted_write_failingAfter c []

/-- A decoder's result on the device, as it follows from its run in memory. -/
theorem tellsFailure_replay (c : ℕ) (d : Decompressed) :
    TellsFailure c (d.1.isSome, d.2)
      ((replay (failingAfter c) d).1.isSome, (replay (failingAfter c) d).2) := by
  have hgood := good_write_failingAfter c d.2.accepted
  constructor
  · by_cases hfits : d.2.accepted.length ≤ c
    · simp only [replay, hgood.mpr hfits, if_true, hfits, and_true]
    · simp only [replay, if_neg fun h => hfits (hgood.mp h), hfits, and_false, Option.isSome_none,
        Bool.false_eq_true]
  · exact accepted_write_failingAfter c d.2.accepted

/-- `RleCompressor::compress`, on every input stream. -/
theorem rle_compress_tells (input : IStream) (c : ℕ) :
    TellsFailure c (RleCompressor.compress input OStream.memory)
      (RleCompressor.compress input (failingAfter c)) := by
  cases hfail : input.failbit with
  | true =>
    rw [RleCompressor.compress_failed input _ hfail, RleCompressor.compress_failed input _ hfail]
    exact tellsFailure_untouched c
  | false =>
    rw [RleCompressor.compress_unread input _ hfail rfl,
      RleCompressor.compress_unread input _ hfail rfl]
    exact tellsFailure_write c _

/-- `HuffmanCompressor::compress`, on every input stream. -/
theorem huffman_compress_tells (T : Target) (input : IStream) (c : ℕ) :
    TellsFailure c (HuffmanCompressor.compress T input OStream.memory)
      (HuffmanCompressor.compress T input (failingAfter c)) := by
  cases hfail : input.failbit with
  | true =>
    rw [HuffmanCompressor.compress_failed T input _ hfail,
      HuffmanCompressor.compress_failed T input _ hfail]
    exact tellsFailure_untouched c
  | false =>
    rw [HuffmanCompressor.compress_unread T input _ hfail rfl,
      HuffmanCompressor.compress_unread T input _ hfail rfl]
    exact tellsFailure_write c _

/-- **No codec hides a failed write.** For every input and every device that accepts its first
`c` bytes and then fails permanently, each of the four operations succeeds if and only if it
would succeed with an output that never fails and the whole of that output fits; and the bytes
accepted are the first of it, as many as fit. A value that is returned is the same. -/
theorem no_hidden_failure (T : Target) (input : IStream) (expectedSize : UInt64) (c : ℕ) :
    TellsFailure c (RleCompressor.compress input OStream.memory)
        (RleCompressor.compress input (failingAfter c)) ∧
      TellsFailure c (HuffmanCompressor.compress T input OStream.memory)
        (HuffmanCompressor.compress T input (failingAfter c)) ∧
      (∀ d, RleCompressor.decompress input OStream.memory expectedSize = .ok d →
        ∃ d', RleCompressor.decompress input (failingAfter c) expectedSize = .ok d' ∧
          TellsFailure c (d.1.isSome, d.2) (d'.1.isSome, d'.2) ∧
            ∀ v, d'.1 = some v → d.1 = some v) ∧
      (∀ d, HuffmanCompressor.decompress T input OStream.memory expectedSize = .ok d →
        ∃ d', HuffmanCompressor.decompress T input (failingAfter c) expectedSize = .ok d' ∧
          TellsFailure c (d.1.isSome, d.2) (d'.1.isSome, d'.2) ∧
            ∀ v, d'.1 = some v → d.1 = some v) := by
  have hvalue : ∀ (d : Decompressed) v, (replay (failingAfter c) d).1 = some v → d.1 = some v := by
    intro d v hv
    exact (Option.ite_none_right_eq_some.mp hv).2
  refine ⟨rle_compress_tells input c, huffman_compress_tells T input c, ?_, ?_⟩
  · intro d hd
    exact ⟨_, RleCompressor.decompress_replay input expectedSize d hd (failingAfter c) rfl,
      tellsFailure_replay c d, hvalue d⟩
  · intro d hd
    exact ⟨_, HuffmanCompressor.decompress_replay T input expectedSize d hd (failingAfter c) rfl,
      tellsFailure_replay c d, hvalue d⟩

end Lacuna.Results
