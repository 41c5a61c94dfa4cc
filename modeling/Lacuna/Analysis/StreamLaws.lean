import Lacuna.Model.Compressor

/-!
# Laws of the byte streams

What the codecs' proofs use of a stream. For input: the chunks of a read loop put together
are the bytes that were left (`readChunks_flatten`), and reading is reading from `rest`.
For output: writing is additive (`write_append`), a failed stream takes nothing
(`write_of_not_good`), and on a device with `c` bytes of room the first `c` bytes of what
is written are accepted (`write_fresh_accepted`), with the state bits told by `Report`.
-/

set_option autoImplicit false

namespace Lacuna.Model

namespace IStream

/-- A fresh stream is good. -/
@[simp] theorem good_ofBytes (contents : Bytes) : (ofBytes contents).good = true := rfl

/-- A fresh stream has everything still to come. -/
@[simp] theorem rest_ofBytes (contents : Bytes) : (ofBytes contents).rest = contents := rfl

/-- A fresh stream has not failed. -/
@[simp] theorem failbit_ofBytes (contents : Bytes) : (ofBytes contents).failbit = false := rfl

/-- A good stream has not failed. -/
theorem failbit_of_good (s : IStream) (h : s.good = true) : s.failbit = false := by
  simp only [good, Bool.and_eq_true, Bool.not_eq_true'] at h
  exact h.2

/-- The bytes a stream can still deliver: none once it has met its end or failed. -/
def unread (s : IStream) : Bytes := if s.good then s.rest else []

/-- A good stream delivers what is to come. -/
theorem unread_of_good (s : IStream) (h : s.good = true) : s.unread = s.rest := if_pos h

/-- Other streams deliver nothing. -/
theorem unread_of_not_good (s : IStream) (h : s.good = false) : s.unread = [] := by
  rw [unread, h]
  rfl

/-- A stream that has met its end has nothing to come. -/
theorem unread_eq_rest (s : IStream) (hfail : s.failbit = false)
    (hend : s.eofbit = true → s.rest = []) : s.unread = s.rest := by
  cases hg : s.good with
  | true => exact s.unread_of_good hg
  | false =>
    have heof : s.eofbit = true := by simpa [good, hfail] using hg
    rw [s.unread_of_not_good hg, hend heof]

/-- `get` on a good stream that is at its end. -/
theorem get_nil (s : IStream) (hg : s.good = true) (hr : s.rest = []) : s.get.1 = none := by
  simp only [get, hg, if_true, hr]

/-- `get` on a good stream takes the next byte and leaves the stream good. -/
theorem get_cons (s : IStream) (c : UInt8) (rest : Bytes) (hg : s.good = true)
    (hr : s.rest = c :: rest) :
    s.get = (some c, { s with before := s.before ++ [c], rest := rest }) := by
  simp only [get, hg, if_true, hr]

/-- The stream `n` bytes further on. -/
def skip (s : IStream) (n : ℕ) : IStream :=
  { s with before := s.before ++ s.rest.take n, rest := s.rest.drop n }

@[simp] theorem rest_skip (s : IStream) (n : ℕ) : (s.skip n).rest = s.rest.drop n := rfl

@[simp] theorem good_skip (s : IStream) (n : ℕ) : (s.skip n).good = s.good := rfl

@[simp] theorem skip_zero (s : IStream) : s.skip 0 = s := by
  simp [skip]

/-- Skipping is additive. -/
@[simp] theorem skip_skip (s : IStream) (m n : ℕ) : (s.skip m).skip n = s.skip (m + n) := by
  simp [skip, List.take_add, List.drop_drop]

/-- `get` on a good stream that is not at its end. -/
theorem get_eq_skip (s : IStream) (c : UInt8) (rest : Bytes) (hg : s.good = true)
    (hr : s.rest = c :: rest) : s.get = (some c, s.skip 1) := by
  rw [get_cons s c rest hg hr, skip, hr]
  rfl

/-- `peek` on a good stream sees the first byte still to come. -/
theorem peek_eq_head? (s : IStream) (hg : s.good = true) : s.peek.1 = s.rest.head? := by
  simp only [peek, hg, if_true]
  cases s.rest <;> rfl

/-- A stream that is not good delivers no round. -/
theorem readRounds_of_not_good (n fuel : ℕ) (s : IStream) (h : s.good = false) :
    (readRounds n fuel s).1 = [] := by
  cases fuel with
  | zero => rfl
  | succ fuel => simp [readRounds, read, h]

/-- A read that finds enough bytes takes them and leaves the stream good. -/
theorem read_full (n : ℕ) (s : IStream) (hg : s.good = true) (hn : n ≤ s.rest.length) :
    s.read n =
      (s.rest.take n,
        { before := s.before ++ s.rest.take n
          rest := s.rest.drop n
          eofbit := false
          failbit := false }) := by
  have hlt : ¬ s.rest.length < n := by omega
  simp only [read, hg, if_true, hlt, decide_false]

/-- A read that finds too few bytes takes all of them and fails the stream. -/
theorem read_short (n : ℕ) (s : IStream) (hg : s.good = true) (hn : s.rest.length < n) :
    s.read n =
      (s.rest,
        { before := s.before ++ s.rest
          rest := []
          eofbit := true
          failbit := true }) := by
  simp only [read, hg, if_true, hn, decide_true, List.take_of_length_le (Nat.le_of_lt hn),
    List.drop_of_length_le (Nat.le_of_lt hn)]

/-- A round with a full buffer: the loop goes on behind it. -/
theorem readRounds_full (n fuel : ℕ) (s : IStream) (hg : s.good = true)
    (hn : n ≤ s.rest.length) :
    (readRounds n (fuel + 1) s).1 =
      s.rest.take n :: (readRounds n fuel (s.read n).2).1 := by
  rw [readRounds, read_full n s hg hn]
  rfl

/-- A round with a short buffer is the last, and it counts only if it read something. -/
theorem readRounds_short (n fuel : ℕ) (s : IStream) (hg : s.good = true)
    (hn : s.rest.length < n) :
    (readRounds n (fuel + 1) s).1 = if s.rest = [] then [] else [s.rest] := by
  rw [readRounds, read_short n s hg hn]
  by_cases hnil : s.rest = []
  · simp [hnil]
  · have hpos : 0 < s.rest.length := List.length_pos_iff.mpr hnil
    simp only [hpos, decide_true, Bool.or_true, if_true, hnil, if_false]
    rw [readRounds_of_not_good n fuel _ rfl]

/-- **The rounds of a read loop deliver the input.** Concatenated, the chunks are the bytes
still to come, for any buffer that is not empty. -/
theorem readRounds_flatten (n : ℕ) (hn : 0 < n) (fuel : ℕ) (s : IStream)
    (hg : s.good = true) (hfuel : s.rest.length < fuel) :
    (readRounds n fuel s).1.flatten = s.rest := by
  induction fuel generalizing s with
  | zero => omega
  | succ fuel ih =>
    by_cases hlt : s.rest.length < n
    · rw [readRounds_short n fuel s hg hlt]
      by_cases hnil : s.rest = []
      · simp [hnil]
      · simp [hnil]
    · have hle : n ≤ s.rest.length := by omega
      rw [readRounds_full n fuel s hg hle, read_full n s hg hle, List.flatten_cons,
        ih _ rfl (by simp only [List.length_drop]; omega)]
      exact List.take_append_drop n s.rest

/-- A read loop ends with a failed stream that has delivered everything. -/
theorem readRounds_stream (n : ℕ) (hn : 0 < n) (fuel : ℕ) (s : IStream)
    (hg : s.good = true) (hfuel : s.rest.length < fuel) :
    (readRounds n fuel s).2 =
      { before := s.before ++ s.rest, rest := [], eofbit := true, failbit := true } := by
  induction fuel generalizing s with
  | zero => omega
  | succ fuel ih =>
    by_cases hlt : s.rest.length < n
    · rw [readRounds, read_short n s hg hlt]
      by_cases hnil : s.rest = []
      · simp [hnil]
      · have hpos : 0 < s.rest.length := List.length_pos_iff.mpr hnil
        simp only [hpos, decide_true, Bool.or_true, if_true]
        cases fuel with
        | zero => omega
        | succ fuel => simp [readRounds, read, good]
    · have hle : n ≤ s.rest.length := by omega
      rw [readRounds, read_full n s hg hle]
      simp only [Bool.not_false, Bool.true_or, if_true]
      rw [ih _ rfl (by simp only [List.length_drop]; omega)]
      simp

/-- Rewound after a read loop, a stream stands at the beginning of its contents, wherever the
loop began. -/
theorem rewind_readChunks (s : IStream) (hg : s.good = true) :
    s.readChunks.2.clear.seekBegin = ofBytes (s.before ++ s.rest) := by
  rw [readChunks, readRounds_stream bufferSize (by decide) _ s hg (Nat.lt_succ_self _)]
  simp [clear, seekBegin, ofBytes]

/-- The chunks of a codec's read loop are the bytes still to come. -/
theorem readChunks_flatten (s : IStream) (hg : s.good = true) :
    s.readChunks.1.flatten = s.rest :=
  readRounds_flatten bufferSize (by decide) _ s hg (Nat.lt_succ_self _)

end IStream

namespace OStream

/-- Writing nothing changes nothing. -/
@[simp] theorem write_nil (s : OStream) : s.write [] = s := rfl

/-- Writing a byte first. -/
theorem write_cons (s : OStream) (c : UInt8) (data : Bytes) :
    s.write (c :: data) = (s.put c).write data := rfl

/-- **Writing is additive.** -/
theorem write_append (s : OStream) (data more : Bytes) :
    s.write (data ++ more) = (s.write data).write more := List.foldl_append

/-- A stream that is not good ignores a byte. -/
theorem put_of_not_good (s : OStream) (c : UInt8) (h : s.good = false) : s.put c = s := by
  simp only [good, Bool.not_eq_false'] at h
  simp only [put, h, if_true]

/-- A stream that is not good ignores whatever is written. -/
theorem write_of_not_good (s : OStream) (data : Bytes) (h : s.good = false) :
    s.write data = s := by
  induction data with
  | nil => rfl
  | cons c data ih => rw [write_cons, put_of_not_good s c h, ih]

/-- A write to an unlimited device succeeds and is accepted whole. -/
theorem write_unlimited (s : OStream) (data : Bytes) (hroom : s.room = none)
    (hg : s.good = true) : s.write data = { s with accepted := s.accepted ++ data } := by
  induction data generalizing s with
  | nil => simp
  | cons c data ih =>
    have hf : s.failbit = false := by simpa [good] using hg
    have hput : s.put c = { s with accepted := s.accepted ++ [c] } := by
      simp [put, hf, hroom]
    rw [write_cons, hput, ih { s with accepted := s.accepted ++ [c] } hroom hg]
    simp

/-- Memory takes whatever is written. -/
@[simp] theorem write_memory_accepted (data : Bytes) :
    (memory.write data).accepted = data := by
  rw [write_unlimited memory data rfl rfl]
  rfl

/-- Memory stays good. -/
@[simp] theorem write_memory_good (data : Bytes) : (memory.write data).good = true := by
  rw [write_unlimited memory data rfl rfl]
  rfl

/-- A stream without a refusal to report is not changed by a flush. -/
theorem flush_of_not_refused (s : OStream) (h : s.refused = false) : s.flush = s := by
  cases s
  simp_all [flush]

/-- A write that fits the room left is accepted whole. -/
theorem write_fits (s : OStream) (data : Bytes) (c : ℕ) (hroom : s.room = some c)
    (hg : s.good = true) (hfit : data.length ≤ c) :
    s.write data =
      { s with accepted := s.accepted ++ data, room := some (c - data.length) } := by
  induction data generalizing s c with
  | nil => cases s; simp_all
  | cons b data ih =>
    have hf : s.failbit = false := by simpa [good] using hg
    obtain ⟨k, rfl⟩ : ∃ k, c = k + 1 := ⟨c - 1, by simp at hfit; omega⟩
    have hput : s.put b = { s with accepted := s.accepted ++ [b], room := some k } := by
      simp [put, hf, hroom]
    rw [write_cons, hput,
      ih { s with accepted := s.accepted ++ [b], room := some k } k rfl hg
        (by simpa using hfit)]
    simp

/-- A full device that reports at the write: the first byte refused fails the stream. -/
theorem write_full_atWrite (s : OStream) (b : UInt8) (data : Bytes) (hroom : s.room = some 0)
    (hg : s.good = true) (hrep : s.report = .atWrite) :
    s.write (b :: data) = { s with failbit := true } := by
  have hf : s.failbit = false := by simpa [good] using hg
  rw [write_cons, show s.put b = { s with failbit := true } by simp [put, hf, hroom, hrep],
    write_of_not_good _ _ rfl]

/-- A full device that reports at the flush: nothing is accepted and the stream stays good. -/
theorem write_full_atFlush (s : OStream) (b : UInt8) (data : Bytes) (hroom : s.room = some 0)
    (hg : s.good = true) (hrep : s.report = .atFlush) :
    s.write (b :: data) = { s with refused := true } := by
  have hf : s.failbit = false := by simpa [good] using hg
  induction data generalizing s b with
  | nil => simp [write_cons, put, hf, hroom, hrep]
  | cons c data ih =>
    rw [write_cons, show s.put b = { s with refused := true } by simp [put, hf, hroom, hrep],
      ih { s with refused := true } c hroom hg hrep hf]

/-- A write beyond the room left: the device keeps what fits, and the refusal shows in
`failbit` or only in `refused`. -/
theorem write_overflows (s : OStream) (data : Bytes) (c : ℕ) (hroom : s.room = some c)
    (hg : s.good = true) (hlong : c < data.length) :
    s.write data =
      { s with
        accepted := s.accepted ++ data.take c
        room := some 0
        refused := s.refused || decide (s.report = .atFlush)
        failbit := decide (s.report = .atWrite) } := by
  obtain ⟨b, more, hmore⟩ : ∃ b more, data.drop c = b :: more := by
    cases hd : data.drop c with
    | nil => rw [List.drop_eq_nil_iff] at hd; omega
    | cons b more => exact ⟨b, more, rfl⟩
  have hlen : (data.take c).length = c := by rw [List.length_take]; omega
  have hf : s.failbit = false := by simpa [good] using hg
  have hfirst := write_fits s (data.take c) c hroom hg (by omega)
  rw [hlen, Nat.sub_self] at hfirst
  conv_lhs => rw [← List.take_append_drop c data]
  rw [write_append, hfirst, hmore]
  let full : OStream := { s with accepted := s.accepted ++ data.take c, room := some 0 }
  cases hrep : s.report with
  | atWrite =>
    have h := write_full_atWrite full b more rfl hg hrep
    simpa [full, hrep] using h
  | atFlush =>
    have h := write_full_atFlush full b more rfl hg hrep
    simpa [full, hrep, hf] using h

/-- A write on a fresh bounded device is good, unless it overflows and that is reported at
the write. -/
theorem write_fresh_good (c : ℕ) (report : Report) (data : Bytes) :
    ((fresh (some c) report).write data).good =
      (decide (data.length ≤ c) || decide (report = .atFlush)) := by
  by_cases hfit : data.length ≤ c
  · rw [write_fits _ data c rfl rfl hfit]
    simp [good, fresh, hfit]
  · rw [write_overflows _ data c rfl rfl (by omega)]
    cases report <;> simp [good, fresh, hfit]

/-- A fresh bounded device accepts the first bytes of what is written, as many as it has
room for. -/
theorem write_fresh_accepted (c : ℕ) (report : Report) (data : Bytes) :
    ((fresh (some c) report).write data).accepted = data.take c := by
  by_cases hfit : data.length ≤ c
  · rw [write_fits _ data c rfl rfl hfit]
    simp [fresh, List.take_of_length_le hfit]
  · rw [write_overflows _ data c rfl rfl (by omega)]
    simp [fresh]

end OStream

end Lacuna.Model
