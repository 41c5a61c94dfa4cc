import Lacuna.Library.ShadowRun
import Lacuna.Analysis.HuffmanDecode
import Lacuna.Analysis.RleCodec

/-!
# Decoding on a device that can fail

A decoder writes in blocks and looks at the stream now and then, and still its run on any
device is told by its run in memory (`replay`): everything written there is written to the
device, and the result counts only if the stream survived. The run on the device is the shadow
of the run in memory: it keeps pace as long as no flush fails (`OutBuffer.Tracks`), and once one
does it is left with a stream that takes nothing more (`OutBuffer.Lost`). This holds for every
input, also for those the decoder rejects (`RleCompressor.decompress_replay`,
`HuffmanCompressor.decompress_replay`).
-/

set_option autoImplicit false

namespace Lacuna.Model

open Library

/-- The result of a run in memory, on another stream. -/
def replay (out : OStream) (d : Decompressed) : Decompressed :=
  (if (out.write d.2.accepted).good = true then d.1 else none, out.write d.2.accepted)

/-- A run in memory that was left early, and its shadow on `out`. -/
def Replayed (out : OStream) (e e' : Exit Decompressed) : Prop :=
  ∀ d, e = .ret d → e' = .ret (replay out d)

/-- What was written in memory is written to a stream that survives it. -/
theorem replay_of_good (out : OStream) (r : Option UInt64) (written : Bytes)
    (h : (out.write written).good = true) :
    replay out (r, OStream.memory.write written) = (r, out.write written) := by
  simp only [replay, OStream.write_memory_accepted, h, if_true]

/-- A stream that failed on the way is the one everything leaves, and nothing is returned. -/
theorem replay_of_failed (out : OStream) (r : Option UInt64) (written more : Bytes)
    (h : (out.write written).good = false) :
    replay out (r, OStream.memory.write (written ++ more)) = (none, out.write written) := by
  have hall : out.write (written ++ more) = out.write written := by
    rw [OStream.write_append, OStream.write_of_not_good _ more h]
  simp only [replay, OStream.write_memory_accepted, hall, h, Bool.false_eq_true, if_false]

/-- A run that returns nothing returns nothing on another stream. -/
theorem replay_none (out : OStream) (written : Bytes) :
    replay out (none, OStream.memory.write written) = (none, out.write written) := by
  simp only [replay, OStream.write_memory_accepted, ite_self]

/-- A run that returns without having written anything does so on another stream. -/
theorem replay_memory (out : OStream) (r : Option UInt64) (h : out.good = true) :
    replay out (r, OStream.memory) = (r, out) :=
  replay_of_good out r [] h

/-! ## The output buffer -/

namespace OutBuffer

/-- The buffer of a run in memory and that of its shadow on `out`: the same bytes were written
and the same are pending. -/
def Tracks (out : OStream) (s s' : OutBuffer) : Prop :=
  ∃ written, s.out = OStream.memory.write written ∧ s'.out = out.write written ∧
    s'.buf = s.buf ∧ (out.write written).good = true

/-- The buffer of a run in memory whose shadow was left when a flush failed: the shadow's
stream had taken in a part of what was written. -/
def Lost (out : OStream) (s : OutBuffer) (e : Exit Decompressed) : Prop :=
  ∃ written more, s.out = OStream.memory.write (written ++ more) ∧
    e = .ret (none, out.write written) ∧ (out.write written).good = false

/-- The two empty buffers before the first byte. -/
theorem tracks_start (out : OStream) (hout : out.good = true) :
    Tracks out { out := OStream.memory, buf := [] } { out := out, buf := [] } :=
  ⟨[], rfl, rfl, rfl, hout⟩

/-- A push keeps the two buffers together, or the shadow is lost. -/
theorem Tracks.pushBack {out : OStream} {s s' : OutBuffer} (h : Tracks out s s') (c : UInt8) :
    Shadows (Tracks out) (Lost out) (Replayed out) (s.pushBack c) (s'.pushBack c) := by
  obtain ⟨written, hs, hs', hbuf, hgood⟩ := h
  rw [pushBack_eq, pushBack_eq, hbuf, hs, hs', ← OStream.write_append, ← OStream.write_append,
    OStream.write_memory_good, if_pos rfl]
  by_cases hfull : bufferSize ≤ (s.buf ++ [c]).length
  · rw [if_pos hfull, if_pos hfull]
    cases hg : (out.write (written ++ (s.buf ++ [c]))).good with
    | false => exact ⟨written ++ (s.buf ++ [c]), [], by rw [List.append_nil], rfl, hg⟩
    | true => exact ⟨written ++ (s.buf ++ [c]), rfl, rfl, rfl, hg⟩
  · rw [if_neg hfull, if_neg hfull]
    exact ⟨written, rfl, rfl, rfl, hgood⟩

/-- Without its shadow the run in memory goes on. -/
theorem Lost.pushBack {out : OStream} {s : OutBuffer} {e : Exit Decompressed}
    (h : Lost out s e) (c : UInt8) :
    Ends (fun t => Lost out t e) (fun e₀ => Replayed out e₀ e) (s.pushBack c) := by
  obtain ⟨written, more, hs, he, hbad⟩ := h
  rw [pushBack_eq, hs, ← OStream.write_append, OStream.write_memory_good, if_pos rfl]
  by_cases hfull : bufferSize ≤ (s.buf ++ [c]).length
  · rw [if_pos hfull]
    exact ⟨written, more ++ (s.buf ++ [c]), by simp only [List.append_assoc], he, hbad⟩
  · rw [if_neg hfull]
    exact ⟨written, more, rfl, he, hbad⟩

/-- Pushing a list of bytes, with the shadow. -/
theorem Tracks.pushAll {out : OStream} {s s' : OutBuffer} (h : Tracks out s s') (data : Bytes) :
    Shadows (Tracks out) (Lost out) (Replayed out) (data.foldlM OutBuffer.pushBack s)
      (data.foldlM OutBuffer.pushBack s') :=
  foldlM_shadows _ _ _ _ _ data s s' h (fun c _ _ ht => ht.pushBack c)
    (fun c _ _ ht => ht.pushBack c)

/-- Pushing a list of bytes, without the shadow. -/
theorem Lost.pushAll {out : OStream} {s : OutBuffer} {e : Exit Decompressed} (h : Lost out s e)
    (data : Bytes) :
    Ends (fun t => Lost out t e) (fun e₀ => Replayed out e₀ e)
      (data.foldlM OutBuffer.pushBack s) :=
  foldlM_alone _ _ _ data s h fun c _ ht => ht.pushBack c

/-- Giving up, with the shadow. -/
theorem Tracks.giveUp {out : OStream} {s s' : OutBuffer} (h : Tracks out s s') :
    Replayed out (.ret (none, s.out)) (.ret (none, s'.out)) := by
  obtain ⟨written, hs, hs', -, -⟩ := h
  intro d hd
  rw [Exit.ret.injEq] at hd
  rw [← hd, hs, hs', replay_none]

/-- Giving up, without the shadow. -/
theorem Lost.giveUp {out : OStream} {s : OutBuffer} {e : Exit Decompressed} (h : Lost out s e) :
    Replayed out (.ret (none, s.out)) e := by
  obtain ⟨written, more, hs, he, hbad⟩ := h
  intro d hd
  rw [Exit.ret.injEq] at hd
  rw [← hd, he, hs, replay_of_failed out none written more hbad]

/-- The last flush and the result, with the shadow. -/
theorem Tracks.replay_flush {out : OStream} {s s' : OutBuffer} (h : Tracks out s s')
    (r : Option UInt64) :
    replay out (r, s.flushOutBuf.2.out) =
      (if s'.flushOutBuf.1 = true then r else none, s'.flushOutBuf.2.out) := by
  obtain ⟨written, hs, hs', hbuf, -⟩ := h
  rw [flushOutBuf_eq, flushOutBuf_eq, hs, hs', hbuf, ← OStream.write_append,
    ← OStream.write_append]
  simp only [replay, OStream.write_memory_accepted]

/-- The last flush and the result, without the shadow. -/
theorem Lost.replay_flush {out : OStream} {s : OutBuffer} {e : Exit Decompressed}
    (h : Lost out s e) (r : Option UInt64) : e = .ret (replay out (r, s.flushOutBuf.2.out)) := by
  obtain ⟨written, more, hs, he, hbad⟩ := h
  rw [flushOutBuf_eq, hs, ← OStream.write_append, List.append_assoc,
    replay_of_failed out r written _ hbad, he]

/-- The flush of a run in memory succeeds. -/
theorem flushOutBuf_memory (s : OutBuffer) (written : Bytes)
    (h : s.out = OStream.memory.write written) : s.flushOutBuf.1 = true := by
  rw [flushOutBuf_eq, h, ← OStream.write_append, OStream.write_memory_good]

/-- The run in memory can always flush. -/
theorem Tracks.flush_memory {out : OStream} {s s' : OutBuffer} (h : Tracks out s s') :
    s.flushOutBuf.1 = true := by
  obtain ⟨written, hs, -⟩ := h
  exact flushOutBuf_memory s written hs

/-- Also when it goes on alone. -/
theorem Lost.flush_memory {out : OStream} {s : OutBuffer} {e : Exit Decompressed}
    (h : Lost out s e) : s.flushOutBuf.1 = true := by
  obtain ⟨written, more, hs, -⟩ := h
  exact flushOutBuf_memory s (written ++ more) hs

end OutBuffer

/-- The results of two bodies. -/
theorem runBody_replay {out : OStream} {x x' : Except (Exit Decompressed) Decompressed}
    (h : Shadows (fun d d' => d' = replay out d) (fun d e' => e' = .ret (replay out d))
      (Replayed out) x x') (d : Decompressed) (hd : runBody x = .ok d) :
    runBody x' = .ok (replay out d) := by
  cases x with
  | ok d₀ =>
    cases hd
    cases x' with
    | ok d' => exact congrArg Except.ok h
    | error e' =>
      rw [shadows_ok_error] at h
      rw [h]
      rfl
  | error e =>
    cases e with
    | fault f => cases hd
    | ret d₀ =>
      cases hd
      cases x' with
      | ok d' => exact absurd h not_false
      | error e' =>
        rw [shadows_error_error] at h
        rw [h d rfl]
        rfl

/-! ## The run-length decoder -/

namespace RleCompressor

/-- The locals of a run in memory and of its shadow: only the streams differ. -/
def TracksPairs (out : OStream) (s s' : PairState) : Prop :=
  ∃ buffer, s' = { s with buffer := buffer } ∧ s.buffer.Tracks out buffer

/-- One byte of input, with the shadow. -/
theorem decompressByte_shadows {out : OStream} {s s' : PairState} (h : TracksPairs out s s')
    (expectedSize : UInt64) (byte : UInt8) :
    Shadows (TracksPairs out) (fun s e => s.buffer.Lost out e) (Replayed out)
      (decompressByte expectedSize s byte) (decompressByte expectedSize s' byte) := by
  obtain ⟨buffer, rfl, htracks⟩ := h
  unfold decompressByte
  simp only
  split
  · split
    · exact htracks.giveUp
    · exact ⟨buffer, rfl, htracks⟩
  · split
    · exact htracks.giveUp
    · apply (htracks.pushAll (List.replicate s.count.toNat byte)).bind
      · intro t t' ht
        exact ⟨t', rfl, ht⟩
      · intro t e ht
        exact ht

/-- One byte of input, without the shadow. -/
theorem decompressByte_alone {out : OStream} {s : PairState} {e : Exit Decompressed}
    (h : s.buffer.Lost out e) (expectedSize : UInt64) (byte : UInt8) :
    Ends (fun t => t.buffer.Lost out e) (fun e₀ => Replayed out e₀ e)
      (decompressByte expectedSize s byte) := by
  unfold decompressByte
  split
  · split
    · exact h.giveUp
    · exact h
  · split
    · exact h.giveUp
    · apply (h.pushAll (List.replicate s.count.toNat byte)).bind
      intro t ht
      exact ht

/-- The checks after the loops: a count without a value, then the flush and the total. -/
theorem finish_eq (expectedSize : UInt64) (s : PairState) :
    finish expectedSize s =
      if s.hasCount then (none, s.buffer.out)
      else
        (if s.buffer.flushOutBuf.1 = true then
          if s.totalDecompressed ≠ expectedSize then none else some s.totalDecompressed
        else none, s.buffer.flushOutBuf.2.out) := by
  unfold finish
  rcases s.buffer.flushOutBuf with ⟨ok, buffer⟩
  cases ok with
  | false => rfl
  | true =>
    by_cases htotal : s.totalDecompressed = expectedSize
    · simp [htotal]
    · simp [htotal]

/-- The checks after the loops, with the shadow. -/
theorem finish_shadows {out : OStream} {s s' : PairState} (h : TracksPairs out s s')
    (expectedSize : UInt64) : finish expectedSize s' = replay out (finish expectedSize s) := by
  obtain ⟨buffer, rfl, htracks⟩ := h
  rw [finish_eq, finish_eq]
  simp only
  split
  · have hgiveUp := htracks.giveUp _ rfl
    rw [Exit.ret.injEq] at hgiveUp
    exact hgiveUp
  · rw [htracks.flush_memory, if_pos rfl]
    exact (htracks.replay_flush _).symm

/-- The checks after the loops, without the shadow. -/
theorem finish_alone {out : OStream} {s : PairState} {e : Exit Decompressed}
    (h : s.buffer.Lost out e) (expectedSize : UInt64) :
    e = .ret (replay out (finish expectedSize s)) := by
  rw [finish_eq]
  split
  · exact h.giveUp _ rfl
  · rw [h.flush_memory, if_pos rfl]
    exact h.replay_flush _

/-- The loops and the checks after them, over any chunks. -/
theorem decompressChunks_shadows (chunks : List Bytes) (out : OStream) (expectedSize : UInt64)
    (hout : out.good = true) :
    Shadows (fun d d' => d' = replay out d) (fun d e => e = .ret (replay out d)) (Replayed out)
      (decompressChunks chunks OStream.memory expectedSize)
      (decompressChunks chunks out expectedSize) := by
  have hloop : Shadows (TracksPairs out) (fun s e => s.buffer.Lost out e) (Replayed out)
      (chunks.flatten.foldlM (decompressByte expectedSize) (startPairs OStream.memory))
      (chunks.flatten.foldlM (decompressByte expectedSize) (startPairs out)) := by
    apply foldlM_shadows
    · exact ⟨_, rfl, OutBuffer.tracks_start out hout⟩
    · intro byte s s' hs
      exact decompressByte_shadows hs expectedSize byte
    · intro byte s e hs
      exact decompressByte_alone hs expectedSize byte
  unfold decompressChunks
  rw [foldlM_flatten, foldlM_flatten]
  apply hloop.bind
  · intro s s' hs
    exact finish_shadows hs expectedSize
  · intro s e hs
    exact finish_alone hs expectedSize

/-- **The run-length decoder on any device**: what it does is told by its run in memory. -/
theorem decompress_replay (input : IStream) (expectedSize : UInt64) (d : Decompressed)
    (h : decompress input OStream.memory expectedSize = .ok d) (out : OStream)
    (hout : out.good = true) : decompress input out expectedSize = .ok (replay out d) := by
  unfold decompress at h ⊢
  have hmemory : OStream.memory.good = true := rfl
  rw [hmemory, Bool.not_true, Bool.or_false] at h
  rw [hout, Bool.not_true, Bool.or_false]
  split at h
  · rename_i hfail
    cases h
    rw [if_pos hfail, replay_memory out none hout]
  · rename_i hfail
    rw [if_neg hfail]
    split at h
    · rename_i hzero
      rw [if_pos hzero]
      cases hpeek : input.peek.1 with
      | none =>
        rw [hpeek] at h
        cases h
        rw [replay_memory out (some 0) hout]
      | some c =>
        rw [hpeek] at h
        cases h
        rw [replay_memory out none hout]
    · rename_i hzero
      rw [if_neg hzero]
      exact runBody_replay (decompressChunks_shadows _ out expectedSize hout) d h

end RleCompressor

/-! ## The Huffman decoder -/

namespace HuffmanCompressor

/-- The decoding loop without its shadow. -/
theorem decodeLoop_alone (root : HuffmanNode) (expectedSize : UInt64) {out : OStream}
    {e : Exit Decompressed} (fuel : ℕ) (count : UInt64) (reader : BitReader) (buffer : OutBuffer)
    (h : buffer.Lost out e) :
    Ends (fun s => s.2.Lost out e) (fun e₀ => Replayed out e₀ e)
      (decodeLoop root expectedSize fuel count reader buffer) := by
  induction fuel generalizing count reader buffer with
  | zero =>
    rw [decodeLoop]
    split
    · intro d hd
      cases hd
    · exact h
  | succ fuel ih =>
    rw [decodeLoop]
    split
    · cases hwalk : walk root reader with
      | error e₀ =>
        cases e₀ with
        | fault f =>
          intro d hd
          cases hd
        | ret r => exact h.giveUp
      | ok p =>
        apply (h.pushBack p.1).bind
        intro buffer' hbuffer'
        exact ih (count + 1) p.2 buffer' hbuffer'
    · exact h

/-- **The decoding loop with its shadow.** Both walk the same tree over the same bits. -/
theorem decodeLoop_shadows (root : HuffmanNode) (expectedSize : UInt64) {out : OStream}
    (fuel : ℕ) (count : UInt64) (reader : BitReader) (buffer buffer' : OutBuffer)
    (h : buffer.Tracks out buffer') :
    Shadows (fun s s' => s'.1 = s.1 ∧ s.2.Tracks out s'.2) (fun s e => s.2.Lost out e)
      (Replayed out) (decodeLoop root expectedSize fuel count reader buffer)
      (decodeLoop root expectedSize fuel count reader buffer') := by
  induction fuel generalizing count reader buffer buffer' with
  | zero =>
    rw [decodeLoop, decodeLoop]
    split
    · intro d hd
      cases hd
    · exact ⟨rfl, h⟩
  | succ fuel ih =>
    rw [decodeLoop, decodeLoop]
    split
    · cases hwalk : walk root reader with
      | error e₀ =>
        cases e₀ with
        | fault f =>
          intro d hd
          cases hd
        | ret r => exact h.giveUp
      | ok p =>
        apply (h.pushBack p.1).bind
        · intro t t' ht
          exact ih (count + 1) p.2 t t' ht
        · intro t e ht
          exact decodeLoop_alone root expectedSize fuel (count + 1) p.2 t ht
    · exact ⟨rfl, h⟩

/-- The tree path after its loop. -/
theorem decodeTree_eq (root : HuffmanNode) (input : IStream) (out : OStream)
    (expectedSize : UInt64) :
    decodeTree root input out expectedSize =
      (decodeLoop root expectedSize expectedSize.toNat 0 (BitReader.start input)
        { out := out, buf := [] } >>= fun s =>
          pure (if s.2.flushOutBuf.1 = true then some s.1 else none, s.2.flushOutBuf.2.out)) := by
  unfold decodeTree
  congr 1
  funext s
  rcases s with ⟨count, buffer⟩
  simp only
  rcases buffer.flushOutBuf with ⟨ok, buffer'⟩
  cases ok <;> rfl

/-- The tree path, with its shadow. -/
theorem decodeTree_shadows (root : HuffmanNode) (input : IStream) (out : OStream)
    (expectedSize : UInt64) (hout : out.good = true) :
    Shadows (fun d d' => d' = replay out d) (fun d e => e = .ret (replay out d)) (Replayed out)
      (decodeTree root input OStream.memory expectedSize)
      (decodeTree root input out expectedSize) := by
  rw [decodeTree_eq, decodeTree_eq]
  apply (decodeLoop_shadows root expectedSize expectedSize.toNat 0 (BitReader.start input) _ _
    (OutBuffer.tracks_start out hout)).bind
  · rintro ⟨count, buffer⟩ ⟨count', buffer'⟩ ⟨hcount, htracks⟩
    simp only at hcount htracks
    subst hcount
    rw [htracks.flush_memory, if_pos rfl]
    exact (htracks.replay_flush (some count')).symm
  · rintro ⟨count, buffer⟩ e hlost
    rw [hlost.flush_memory, if_pos rfl]
    exact hlost.replay_flush (some count)

/-- In memory the single-symbol loop is not left early. -/
theorem fillLoop_memory (w : ℕ) (value : UInt8) (bufLen fuel remaining : ℕ) (written : Bytes)
    (d : Decompressed) :
    fillLoop w value bufLen fuel remaining (OStream.memory.write written) ≠ .error (.ret d) := by
  intro h
  induction fuel generalizing remaining written with
  | zero =>
    rw [fillLoop] at h
    split at h <;> cases h
  | succ fuel ih =>
    rw [fillLoop] at h
    split at h
    · cases h
    · simp only at h
      rw [← OStream.write_append, OStream.write_memory_good] at h
      exact ih _ _ h

/-- The single-symbol path, on any device. -/
theorem fillSingle_replay (w : ℕ) (value : UInt8) (expectedSize : UInt64) (d : Decompressed)
    (h : runBody (fillSingle w value OStream.memory expectedSize) = .ok d) (out : OStream)
    (hout : out.good = true) :
    runBody (fillSingle w value out expectedSize) = .ok (replay out d) := by
  obtain ⟨r, m⟩ := d
  cases r with
  | none =>
    -- in memory the path returns a value or never ends
    rw [fillSingle] at h
    cases hloop : fillLoop w value (min (expectedSize.toNat % 2 ^ w) bufferSize)
        expectedSize.toNat expectedSize.toNat OStream.memory with
    | ok out' =>
      rw [hloop] at h
      cases h
    | error e =>
      rw [hloop] at h
      cases e with
      | fault f => cases h
      | ret d => exact absurd hloop (fillLoop_memory w value _ _ _ [] d)
  | some v =>
    obtain ⟨rfl, rfl, hother⟩ := fillSingle_transfer w value OStream.memory m expectedSize v h
    rw [hother out hout, replay, OStream.write_memory_accepted]

/-- A stream that is at its end but has not failed has no unique count. -/
theorem decompress_atEnd (T : Target) (input : IStream) (out : OStream) (expectedSize : UInt64)
    (hin : input.good = false) :
    decompress T input out expectedSize = .ok (none, out) := by
  have hcount : readUniqueCount input = none := by
    simp only [readUniqueCount, IStream.get, hin, Bool.false_eq_true, if_false]
  unfold decompress
  rw [hcount]
  split
  · rfl
  · split <;> rfl

/-- **The Huffman decoder on any device**: what it does is told by its run in memory. -/
theorem decompress_replay (T : Target) (input : IStream) (expectedSize : UInt64)
    (d : Decompressed) (h : decompress T input OStream.memory expectedSize = .ok d)
    (out : OStream) (hout : out.good = true) :
    decompress T input out expectedSize = .ok (replay out d) := by
  cases hin : input.good with
  | false =>
    rw [decompress_atEnd T input _ expectedSize hin] at h
    cases h
    rw [decompress_atEnd T input out expectedSize hin, replay_memory out none hout]
  | true =>
    by_cases hzero : expectedSize = 0
    · subst hzero
      rw [decompress_zero T input _ hin rfl] at h
      cases h
      rw [decompress_zero T input out hin hout, replay_memory out _ hout]
    · rcases decompress_cases T input expectedSize hin hzero with
        hdec | ⟨value, -, hdec⟩ | ⟨entries, t, more, input', -, -, -, hdec⟩
      · rw [hdec OStream.memory rfl] at h
        cases h
        rw [hdec out hout, replay_memory out none hout]
      · rw [hdec OStream.memory rfl] at h
        rw [hdec out hout]
        exact fillSingle_replay _ value expectedSize d h out hout
      · rw [hdec OStream.memory rfl] at h
        rw [hdec out hout]
        exact runBody_replay (decodeTree_shadows _ input' out expectedSize hout) d h

end HuffmanCompressor

end Lacuna.Model
