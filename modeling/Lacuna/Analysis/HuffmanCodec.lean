import Lacuna.Analysis.BitStreams
import Lacuna.Analysis.HuffmanTable
import Lacuna.Analysis.OutputBuffer

/-!
# The Huffman codec

What `compress` writes is the table and the packed codewords (`compress_eq`), on any device.
For the decoder, `decompress_cases` lists once what it can do with an input: reject it,
recognise the empty file, repeat a single byte, or walk a tree. The walks decode codewords
(`decodeTree_of_decode`), or run out of bits (`decodeTree_of_decode_none`).
-/

set_option autoImplicit false

namespace Lacuna.Model.HuffmanCompressor

open Library

/-! ## Compression -/

/-- The frequency table of a byte string. -/
def frequenciesOf (data : Bytes) : UInt8 → UInt64 := countFrequencies [data]

/-- The first pass does not depend on the chunks. -/
theorem countFrequencies_flatten (chunks : List Bytes) :
    countFrequencies chunks = frequenciesOf chunks.flatten := by
  funext b
  rw [frequenciesOf, countFrequencies_eq, countFrequencies_eq]
  simp

theorem mem_symbols_frequenciesOf (data : Bytes) (hlen : data.length < 2 ^ 64) (b : UInt8) :
    b ∈ symbols (frequenciesOf data) ↔ b ∈ data := by
  rw [frequenciesOf, mem_symbols_countFrequencies [data] (by simpa using hlen)]
  simp

/-- The bits of the payload: the codewords of the data. -/
def payloadBits (T : Target) (data : Bytes) : List Bool :=
  data.flatMap (codeTable (buildTree T (frequenciesOf data)))

/-- What `compress` writes: the table, and the packed codewords where two or more byte values
occur. -/
def payload (T : Target) (data : Bytes) : Bytes :=
  tableBytes (frequenciesOf data) ++
    if (symbols (frequenciesOf data)).length ≤ 1 then [] else packBits (payloadBits T data)

/-- A code that could not be written: the stream is the one all the codes would have left. -/
def CodeFailed (out₀ : OStream) (bits : List Bool) (r : Bool × OStream) : Prop :=
  ∃ part, part <+: bits ∧ ∃ w : BitWriter, w.Holds out₀ part ∧ w.out.good = false ∧
    r = (false, w.out)

/-- **The second pass** writes the codewords, or fails with the stream they would leave. -/
theorem encodeChunks_ends (codes : UInt8 → List Bool) (chunks : List Bytes) (out : OStream) :
    Ends (fun w => w.Holds out (chunks.flatten.flatMap codes))
      (fun r => CodeFailed out (chunks.flatten.flatMap codes) r)
      (encodeChunks codes chunks (BitWriter.start out)) := by
  unfold encodeChunks
  rw [foldlM_flatten]
  refine Ends.mono (foldlM_ends _ (fun seen w => w.Holds out (seen.flatMap codes))
    (fun seen r => CodeFailed out (seen.flatMap codes) r) _ _ (BitWriter.holds_start out) ?_)
    (fun w hw => hw) ?_
  · intro seen byte w _ hw
    have hbits : (seen ++ [byte]).flatMap codes = seen.flatMap codes ++ codes byte := by simp
    rw [hbits]
    rcases hw.writeCode (codes byte) with ⟨w', heq, hholds⟩ | ⟨w', part, heq, hpart, hholds, hbad⟩
    · simp only [heq, ends_ok]
      exact hholds
    · simp only [heq, ends_error]
      exact ⟨_, (List.prefix_append_right_inj _).mpr hpart, w', hholds, hbad, rfl⟩
  · rintro r ⟨seen, ⟨more, hmore⟩, part, hpart, w, hholds, hbad, rfl⟩
    refine ⟨part, hpart.trans ?_, w, hholds, hbad, rfl⟩
    rw [← hmore, List.flatMap_append]
    exact List.prefix_append _ _

/-- A tree over two symbols or more is not the null pointer. -/
theorem buildTree_isNull (T : Target) (frequencies : UInt8 → UInt64)
    (h : symbols frequencies ≠ []) : (buildTree T frequencies).isNull = false := by
  rcases buildTree_spec T frequencies with ⟨hnil, -⟩ | ⟨t, ht, -⟩
  · exact absurd hnil h
  · rw [ht, HuffmanNode.isNull_ofTree]

/-- What `compress` writes for a stream that stands between `before` and `rest`: the table
counts what is read, and the codewords are those of the whole contents. -/
def payloadAt (T : Target) (before rest : Bytes) : Bytes :=
  tableBytes (frequenciesOf rest) ++
    if (symbols (frequenciesOf rest)).length ≤ 1 then []
    else packBits ((before ++ rest).flatMap (codeTable (buildTree T (frequenciesOf rest))))

/-- At the beginning of the stream both passes read the same bytes. -/
@[simp] theorem payloadAt_nil (T : Target) (data : Bytes) : payloadAt T [] data = payload T data :=
  rfl

/-- **What `compress` does** at any position of a stream, on any device: the payload is written,
and the result is the state of the output stream. -/
theorem compress_at (T : Target) (input : IStream) (out : OStream) (hin : input.good = true)
    (hout : out.good = true) :
    compress T input out =
      ((out.write (payloadAt T input.before input.rest)).good,
        out.write (payloadAt T input.before input.rest)) := by
  have hflatten := IStream.readChunks_flatten input hin
  have hfreq : countFrequencies input.readChunks.1 = frequenciesOf input.rest := by
    rw [countFrequencies_flatten, hflatten]
  have hcount := toNat_uniqueCount (frequenciesOf input.rest)
  unfold compress
  rw [IStream.failbit_of_good input hin, hout]
  simp only [Bool.not_true, Bool.or_self, Bool.false_eq_true, if_false, hfreq, putTable_eq]
  by_cases hone : (symbols (frequenciesOf input.rest)).length ≤ 1
  · have hle : uniqueCount (frequenciesOf input.rest) ≤ 1 := by
      rw [UInt16.le_iff_toNat_le, hcount]
      exact hone
    rw [if_pos hle, payloadAt, if_pos hone, List.append_nil]
  · have hle : ¬ uniqueCount (frequenciesOf input.rest) ≤ 1 := by
      rw [UInt16.le_iff_toNat_le, hcount]
      exact hone
    have hne : symbols (frequenciesOf input.rest) ≠ [] := by
      intro hnil
      rw [hnil] at hone
      exact hone (Nat.zero_le 1)
    rw [if_neg hle, buildTree_isNull T _ hne, payloadAt, if_neg hone, OStream.write_append,
      IStream.rewind_readChunks input hin]
    simp only [Bool.false_eq_true, if_false, IStream.failbit_ofBytes]
    have hends := encodeChunks_ends (codeTable (buildTree T (frequenciesOf input.rest)))
      (IStream.ofBytes (input.before ++ input.rest)).readChunks.1
      (out.write (tableBytes (frequenciesOf input.rest)))
    rw [IStream.readChunks_flatten _ rfl, IStream.rest_ofBytes] at hends
    cases henc : encodeChunks (codeTable (buildTree T (frequenciesOf input.rest)))
        (IStream.ofBytes (input.before ++ input.rest)).readChunks.1
        (BitWriter.start (out.write (tableBytes (frequenciesOf input.rest)))) with
    | error r =>
      rw [henc] at hends
      obtain ⟨part, ⟨more, hmore⟩, w, hholds, hbad, rfl⟩ := hends
      have hall := hholds.out_of_failed hbad more
      rw [hmore] at hall
      simp only [← hall, hbad]
    | ok w =>
      rw [henc] at hends
      obtain ⟨hresult, hstream⟩ := BitWriter.Holds.flush hends
      simp only [hresult, hstream]

/-- **What `compress` does** at the beginning of a stream. -/
theorem compress_eq (T : Target) (input : IStream) (out : OStream) (hin : input.good = true)
    (hbefore : input.before = []) (hout : out.good = true) :
    compress T input out =
      ((out.write (payload T input.rest)).good, out.write (payload T input.rest)) := by
  have h := compress_at T input out hin hout
  rw [hbefore, payloadAt_nil] at h
  exact h

/-- `compress` into memory. -/
theorem compress_memory (T : Target) (data : Bytes) :
    compress T (IStream.ofBytes data) OStream.memory =
      (true, OStream.memory.write (payload T data)) := by
  rw [compress_eq T _ _ rfl rfl rfl, IStream.rest_ofBytes, OStream.write_memory_good]

/-- A stream that is at its end but has not failed is taken for an empty one. -/
theorem compress_atEnd (T : Target) (input : IStream) (out : OStream) (hin : input.good = false)
    (hfail : input.failbit = false) (hout : out.good = true) :
    compress T input out = ((out.write (payload T [])).good, out.write (payload T [])) := by
  have hchunks : input.readChunks.1 = [] := IStream.readRounds_of_not_good _ _ input hin
  have hfreq : countFrequencies [] = frequenciesOf [] := countFrequencies_flatten []
  have hzero : (symbols (frequenciesOf [])).length ≤ 1 := by decide
  have hle : uniqueCount (frequenciesOf []) ≤ 1 := by
    rw [UInt16.le_iff_toNat_le, toNat_uniqueCount]
    exact hzero
  unfold compress
  rw [hfail, hout]
  simp only [Bool.not_true, Bool.or_self, Bool.false_eq_true, if_false, hchunks, hfreq,
    putTable_eq, hle, if_true, payload, hzero, List.append_nil]

/-- Before nothing, nothing is encoded. -/
theorem payloadAt_empty (T : Target) (before : Bytes) :
    payloadAt T before [] = payload T [] := by
  have hzero : (symbols (frequenciesOf [])).length ≤ 1 := by decide
  rw [payload, payloadAt, if_pos hzero, if_pos hzero]

/-- A stream that has failed is refused. -/
theorem compress_failed (T : Target) (input : IStream) (out : OStream)
    (hfail : input.failbit = true) : compress T input out = (false, out) := by
  simp only [compress, hfail, Bool.true_or, if_true]

/-- **What `compress` does** on any stream that has not failed. -/
theorem compress_unread (T : Target) (input : IStream) (out : OStream)
    (hfail : input.failbit = false) (hout : out.good = true) :
    compress T input out =
      ((out.write (payloadAt T input.before input.unread)).good,
        out.write (payloadAt T input.before input.unread)) := by
  cases hin : input.good with
  | true =>
    rw [input.unread_of_good hin]
    exact compress_at T input out hin hout
  | false =>
    rw [input.unread_of_not_good hin, payloadAt_empty]
    exact compress_atEnd T input out hin hfail hout

/-! ## The tree walks -/

/-- A walk without enough bits is left with a truncated bitstream. -/
theorem walk_none {n : HuffmanNode} (hfull : n.Full) (r : BitReader) (hg : r.input.good = true)
    (h : n.shape.decodeOne r.bits = none) : walk n r = .error (.ret ()) := by
  induction hfull generalizing r with
  | leaf value frequency => cases h
  | node value frequency left right hleft hright ihl ihr =>
    rw [hleft.shape_node] at h
    simp only [walk, hleft.isNull, Bool.false_and, Bool.false_eq_true, if_false]
    cases hbits : r.bits with
    | nil =>
      have hnone := r.readBit_nil hg hbits
      split
      · rfl
      · next bit r' heq =>
        rw [heq] at hnone
        cases hnone
    | cons bit rest =>
      obtain ⟨r', hread, hrest, hg'⟩ := r.readBit_cons hg bit rest hbits
      rw [hbits] at h
      rw [hread]
      cases bit with
      | false => exact ihl r' hg' (hrest ▸ h)
      | true => exact ihr r' hg' (hrest ▸ h)

/-- **A walk follows the bits to a leaf** and never meets a null pointer. -/
theorem walk_some {n : HuffmanNode} (hfull : n.Full) (r : BitReader) (hg : r.input.good = true)
    (v : UInt8) (rest : List Bool) (h : n.shape.decodeOne r.bits = some (v, rest)) :
    ∃ r', walk n r = .ok (v, r') ∧ r'.bits = rest ∧ r'.input.good = true := by
  induction hfull generalizing r with
  | leaf value frequency =>
    obtain ⟨rfl, rfl⟩ := Prod.mk.inj (Option.some.inj h)
    exact ⟨r, rfl, rfl, hg⟩
  | node value frequency left right hleft hright ihl ihr =>
    rw [hleft.shape_node] at h
    simp only [walk, hleft.isNull, Bool.false_and, Bool.false_eq_true, if_false]
    cases hbits : r.bits with
    | nil => rw [hbits] at h; cases h
    | cons bit more =>
      obtain ⟨r', hread, hmore, hg'⟩ := r.readBit_cons hg bit more hbits
      rw [hbits] at h
      rw [hread]
      cases bit with
      | false => exact ihl r' hg' (hmore ▸ h)
      | true => exact ihr r' hg' (hmore ▸ h)

/-! ## The decoding loop -/

/-- A count below the expected size can be counted up. -/
theorem toNat_count_succ {count expectedSize : UInt64} {k : ℕ}
    (h : count.toNat + (k + 1) = expectedSize.toNat) :
    (count + 1).toNat + k = expectedSize.toNat := by
  have hsize := expectedSize.toNat_lt
  rw [UInt64.toNat_add, show (1 : UInt64).toNat = 1 from rfl, Nat.mod_eq_of_lt (by omega)]
  omega

/-- The walks of the decoding loop, one for each symbol, every one from the root again. -/
def walks (root : HuffmanNode) : ℕ → BitReader → Except (Exit Unit) (Bytes × BitReader)
  | 0, reader => .ok ([], reader)
  | n + 1, reader => do
    let (value, reader) ← walk root reader
    let (values, reader) ← walks root n reader
    return (value :: values, reader)

/-- **Walks that end** follow the bits as the code tree decodes them, and use no other bits. -/
theorem walks_of_decode {root : HuffmanNode} (hfull : root.Full) (k : ℕ) (r : BitReader)
    (hg : r.input.good = true) (d : Bytes) (rest : List Bool)
    (h : root.shape.decode k r.bits = some (d, rest)) :
    ∃ r', walks root k r = .ok (d, r') ∧ r'.bits = rest ∧ r'.input.good = true := by
  induction k generalizing r d with
  | zero =>
    obtain ⟨rfl, hrest⟩ := (root.shape.decode_zero_eq_some r.bits d rest).mp h
    exact ⟨r, rfl, hrest, hg⟩
  | succ k ih =>
    obtain ⟨v, behind, d', hone, hd', rfl⟩ :=
      (root.shape.decode_succ_eq_some k r.bits d rest).mp h
    obtain ⟨r₁, hwalk, hbits, hg₁⟩ := walk_some hfull r hg v behind hone
    obtain ⟨r₂, hwalks, hbits₂, hg₂⟩ := ih r₁ hg₁ d' (hbits.symm ▸ hd')
    refine ⟨r₂, ?_, hbits₂, hg₂⟩
    rw [walks, hwalk]
    simp only [bind, Except.bind, hwalks]
    rfl

/-- **The loop makes these walks** and pushes what they end at. -/
theorem decodeLoop_of_walks (root : HuffmanNode) (expectedSize : UInt64) (k : ℕ)
    (count : UInt64) (r r' : BitReader) (buffer : OutBuffer) (d : Bytes)
    (hcount : count.toNat + k = expectedSize.toNat) (h : walks root k r = .ok (d, r')) :
    decodeLoop root expectedSize k count r buffer =
      (d.foldlM OutBuffer.pushBack buffer).map fun buffer => (expectedSize, buffer) := by
  induction k generalizing count r buffer d with
  | zero =>
    have hd : ([], r) = (d, r') := Except.ok.inj h
    rw [Prod.mk.injEq] at hd
    obtain ⟨rfl, -⟩ := hd
    have heq : count = expectedSize := UInt64.toNat_inj.mp hcount
    subst heq
    rw [decodeLoop, if_neg (UInt64.lt_irrefl count)]
    rfl
  | succ k ih =>
    have hlt : count < expectedSize := by
      rw [UInt64.lt_iff_toNat_lt]
      omega
    rw [walks] at h
    obtain ⟨⟨v, r₁⟩, hwalk, h⟩ := exists_of_bind_eq_ok h
    obtain ⟨⟨d', r₂⟩, hwalks, h⟩ := exists_of_bind_eq_ok h
    have hpair : (v :: d', r₂) = (d, r') := Except.ok.inj h
    rw [Prod.mk.injEq] at hpair
    obtain ⟨rfl, rfl⟩ := hpair
    simp only [decodeLoop, hlt, if_true, hwalk, List.foldlM_cons]
    cases hp : buffer.pushBack v with
    | error e => rfl
    | ok buffer' => exact ih (count + 1) r₁ buffer' d' (toNat_count_succ hcount) hwalks

/-- **The loop over a decodable input**: it counts up to the expected size and pushes what the
bits decode to; only a flush can stop it. -/
theorem decodeLoop_of_decode (frequencies : UInt8 → UInt64) (t : CodeTree UInt8)
    (expectedSize : UInt64) (k : ℕ) (count : UInt64) (r : BitReader) (buffer : OutBuffer)
    {out₀ : OStream} {data : Bytes} (hg : r.input.good = true)
    (hcount : count.toNat + k = expectedSize.toNat) (hholds : buffer.Holds out₀ data)
    (d : Bytes) (rest : List Bool) (h : t.decode k r.bits = some (d, rest)) :
    Ends (fun s => s.1 = expectedSize ∧ s.2.Holds out₀ (data ++ d))
      (fun e => ∃ pushed, pushed <+: d ∧ OutBuffer.FlushFailed out₀ (data ++ pushed) e)
      (decodeLoop (HuffmanNode.ofTree frequencies t) expectedSize k count r buffer) := by
  obtain ⟨r', hwalks, -, -⟩ := walks_of_decode (HuffmanNode.full_ofTree frequencies t) k r hg d
    rest (by rw [HuffmanNode.shape_ofTree]; exact h)
  have hpush := hholds.pushAll_ends d
  rw [decodeLoop_of_walks _ expectedSize k count r r' buffer d hcount hwalks]
  cases hrun : d.foldlM OutBuffer.pushBack buffer with
  | error e =>
    rw [hrun] at hpush
    exact hpush
  | ok buffer' =>
    rw [hrun] at hpush
    exact ⟨rfl, hpush⟩

/-- **The loop over an input that runs out of bits** ends in `nullopt`, and has written a part of
what was decoded before. -/
theorem decodeLoop_of_runsOut (frequencies : UInt8 → UInt64) (t : CodeTree UInt8)
    (expectedSize : UInt64) (k : ℕ) (count : UInt64) (r : BitReader) (buffer : OutBuffer)
    {out₀ : OStream} {data : Bytes} (hg : r.input.good = true)
    (hcount : count.toNat + k = expectedSize.toNat) (hholds : buffer.Holds out₀ data)
    (h : t.decode k r.bits = none) :
    ∃ written, decodeLoop (HuffmanNode.ofTree frequencies t) expectedSize k count r buffer =
      .error (.ret (none, out₀.write written)) ∧ written <+: data ++ t.decodeSome k r.bits := by
  induction k generalizing count r buffer data with
  | zero => cases h
  | succ k ih =>
    have hlt : count < expectedSize := by
      rw [UInt64.lt_iff_toNat_lt]
      omega
    rw [CodeTree.decode] at h
    rw [CodeTree.decodeSome]
    cases hone : t.decodeOne r.bits with
    | none =>
      have hwalk := walk_none (HuffmanNode.full_ofTree frequencies t) r hg
        (by rw [HuffmanNode.shape_ofTree]; exact hone)
      obtain ⟨written, hpre, hout⟩ := hholds.written
      refine ⟨written, ?_, hpre.trans (List.prefix_append _ _)⟩
      simp only [decodeLoop, hlt, if_true, hwalk, hout]
    | some p =>
      obtain ⟨v, more⟩ := p
      rw [hone] at h
      simp only [Option.map_eq_none_iff] at h
      obtain ⟨r', hwalk, hbits, hg'⟩ := walk_some (HuffmanNode.full_ofTree frequencies t) r hg v
        more (by rw [HuffmanNode.shape_ofTree]; exact hone)
      have hpush := hholds.pushBack_ends v
      simp only [decodeLoop, hlt, if_true, hwalk]
      cases hp : buffer.pushBack v with
      | error e =>
        rw [hp] at hpush
        obtain ⟨rfl, -⟩ := hpush
        exact ⟨data ++ [v], rfl, t.decodeSome k more, List.append_assoc _ _ _⟩
      | ok buffer' =>
        rw [hp] at hpush
        obtain ⟨written, heq, hpre⟩ := ih (count + 1) r' buffer' hg' (toNat_count_succ hcount)
          hpush (hbits.symm ▸ h)
        refine ⟨written, heq, ?_⟩
        rw [hbits, ← List.append_cons] at hpre
        exact hpre

/-- No more bytes are written then than were still expected. -/
theorem decodeLoop_of_decode_none (frequencies : UInt8 → UInt64) (t : CodeTree UInt8)
    (expectedSize : UInt64) (k : ℕ) (count : UInt64) (r : BitReader) (buffer : OutBuffer)
    {out₀ : OStream} {data : Bytes} (hg : r.input.good = true)
    (hcount : count.toNat + k = expectedSize.toNat) (hholds : buffer.Holds out₀ data)
    (h : t.decode k r.bits = none) :
    ∃ written, decodeLoop (HuffmanNode.ofTree frequencies t) expectedSize k count r buffer =
      .error (.ret (none, out₀.write written)) ∧ written.length ≤ data.length + k := by
  obtain ⟨written, heq, hpre⟩ := decodeLoop_of_runsOut frequencies t expectedSize k count r buffer
    hg hcount hholds h
  have hlen := hpre.length_le
  have hdecoded := t.length_decodeSome_le k r.bits
  rw [List.length_append] at hlen
  exact ⟨written, heq, by omega⟩

/-- **The tree path on a decodable input**, on any device: everything decoded is written, and
the size is returned if the stream survived. -/
theorem decodeTree_of_decode (frequencies : UInt8 → UInt64) (t : CodeTree UInt8)
    (input : IStream) (out : OStream) (expectedSize : UInt64) (hin : input.good = true)
    (hout : out.good = true) (d : Bytes) (rest : List Bool)
    (h : t.decode expectedSize.toNat (unpackBits input.rest) = some (d, rest)) :
    runBody (decodeTree (HuffmanNode.ofTree frequencies t) input out expectedSize) =
      .ok (if (out.write d).good = true then some expectedSize else none, out.write d) := by
  have hloop := decodeLoop_of_decode frequencies t expectedSize expectedSize.toNat 0
    (BitReader.start input) { out := out, buf := [] } hin (by simp)
    (OutBuffer.holds_start out hout) d rest h
  unfold decodeTree
  cases hrun : decodeLoop (HuffmanNode.ofTree frequencies t) expectedSize expectedSize.toNat 0
      (BitReader.start input) { out := out, buf := [] } with
  | error e =>
    rw [hrun] at hloop
    obtain ⟨pushed, ⟨more, hmore⟩, rfl, hbad⟩ := hloop
    rw [List.nil_append] at hbad
    have hall : out.write d = out.write pushed := by
      rw [← hmore, OStream.write_append, OStream.write_of_not_good _ _ hbad]
    rw [hall, hbad]
    rfl
  | ok s =>
    obtain ⟨count, buffer⟩ := s
    rw [hrun] at hloop
    obtain ⟨rfl, hholds⟩ := hloop
    rw [List.nil_append] at hholds
    have hflush : buffer.flushOutBuf = _ := OutBuffer.Holds.flushOutBuf_eq hholds
    simp only [bind, Except.bind, hflush]
    cases (out.write d).good <;> rfl

/-- **The tree path on an input that runs out of bits.** -/
theorem decodeTree_of_decode_none (frequencies : UInt8 → UInt64) (t : CodeTree UInt8)
    (input : IStream) (out : OStream) (expectedSize : UInt64) (hin : input.good = true)
    (hout : out.good = true)
    (h : t.decode expectedSize.toNat (unpackBits input.rest) = none) :
    ∃ written, runBody (decodeTree (HuffmanNode.ofTree frequencies t) input out expectedSize) =
      .ok (none, out.write written) ∧ written.length ≤ expectedSize.toNat := by
  obtain ⟨written, heq, hlen⟩ := decodeLoop_of_decode_none frequencies t expectedSize
    expectedSize.toNat 0 (BitReader.start input) { out := out, buf := [] } hin (by simp)
    (OutBuffer.holds_start out hout) h
  refine ⟨written, ?_, by simpa using hlen⟩
  rw [decodeTree, heq]
  rfl

/-- **The tree path on any input** writes a part of what the bits decode to, and all that is
expected where it returns a value. -/
theorem decodeTree_written (frequencies : UInt8 → UInt64) (t : CodeTree UInt8)
    (input : IStream) (out : OStream) (expectedSize : UInt64) (hin : input.good = true)
    (hout : out.good = true) :
    ∃ r written, runBody (decodeTree (HuffmanNode.ofTree frequencies t) input out expectedSize) =
        .ok (r, out.write written) ∧
      written <+: t.decodeSome expectedSize.toNat (unpackBits input.rest) ∧
      (r ≠ none → written.length = expectedSize.toNat) := by
  cases hdec : t.decode expectedSize.toNat (unpackBits input.rest) with
  | none =>
    obtain ⟨written, heq, hpre⟩ := decodeLoop_of_runsOut frequencies t expectedSize
      expectedSize.toNat 0 (BitReader.start input) { out := out, buf := [] } hin (by simp)
      (OutBuffer.holds_start out hout) hdec
    refine ⟨none, written, ?_, hpre, fun h => absurd rfl h⟩
    rw [decodeTree, heq]
    rfl
  | some p =>
    obtain ⟨d, rest⟩ := p
    have heq := decodeTree_of_decode frequencies t input out expectedSize hin hout d rest hdec
    refine ⟨_, d, heq, ?_, fun _ => t.length_of_decode _ _ d rest hdec⟩
    rw [t.decodeSome_of_decode _ _ d rest hdec]

/-! ## The single-symbol path -/

/-- **Filling with one byte**, as long as the size fits in `size_t`: everything is written,
whatever the device does with it. -/
theorem fillLoop_eq (w : ℕ) (value : UInt8) (bufLen fuel remaining : ℕ) (out : OStream)
    (hfits : remaining < 2 ^ w) (hbuf : remaining = 0 ∨ 1 ≤ bufLen) (hfuel : remaining ≤ fuel)
    (hout : out.good = true) :
    fillLoop w value bufLen fuel remaining out =
      if (out.write (List.replicate remaining value)).good = true then
        .ok (out.write (List.replicate remaining value))
      else .error (.ret (none, out.write (List.replicate remaining value))) := by
  induction fuel generalizing remaining out with
  | zero =>
    have hzero : remaining = 0 := Nat.le_zero.mp hfuel
    subst hzero
    simp [fillLoop, hout]
  | succ fuel ih =>
    by_cases hzero : remaining = 0
    · subst hzero
      simp [fillLoop, hout]
    · have hpos : 1 ≤ min remaining bufLen := by
        rcases hbuf with h | h <;> omega
      have hle : min remaining bufLen ≤ remaining := min_le_left _ _
      have hsplit : List.replicate remaining value =
          List.replicate (min remaining bufLen) value ++
            List.replicate (remaining - min remaining bufLen) value := by
        rw [List.replicate_append_replicate, Nat.add_sub_of_le hle]
      rw [fillLoop, if_neg hzero, Nat.mod_eq_of_lt hfits, hsplit, OStream.write_append]
      cases hg : (out.write (List.replicate (min remaining bufLen) value)).good with
      | false =>
        rw [OStream.write_of_not_good _ _ hg]
        simp [hg]
      | true =>
        simp only [Bool.not_true, Bool.false_eq_true, if_false, hg]
        exact ih (remaining - min remaining bufLen) _ (by omega) (by omega) (by omega) hg

/-- The single-symbol path, as long as the size fits in `size_t`. -/
theorem fillSingle_eq (w : ℕ) (value : UInt8) (out : OStream) (expectedSize : UInt64)
    (hfits : expectedSize.toNat < 2 ^ w) (hout : out.good = true) :
    runBody (fillSingle w value out expectedSize) =
      .ok (if (out.write (List.replicate expectedSize.toNat value)).good = true then
        some expectedSize else none, out.write (List.replicate expectedSize.toNat value)) := by
  have hbuf : expectedSize.toNat = 0 ∨ 1 ≤ min (expectedSize.toNat % 2 ^ w) bufferSize := by
    rw [Nat.mod_eq_of_lt hfits, bufferSize]
    omega
  rw [fillSingle, fillLoop_eq w value _ _ _ out hfits hbuf le_rfl hout]
  cases (out.write (List.replicate expectedSize.toNat value)).good <;> rfl

/-- Whatever the width of `size_t`, a loop that ends on one device has written the whole size,
and on another it ends too or is stopped by the stream. -/
theorem fillLoop_transfer (w : ℕ) (value : UInt8) (bufLen fuel remaining : ℕ)
    (out out' : OStream) (h : fillLoop w value bufLen fuel remaining out = .ok out')
    (out₂ : OStream) (hout₂ : out₂.good = true) :
    out' = out.write (List.replicate remaining value) ∧
    fillLoop w value bufLen fuel remaining out₂ =
      if (out₂.write (List.replicate remaining value)).good = true then
        .ok (out₂.write (List.replicate remaining value))
      else .error (.ret (none, out₂.write (List.replicate remaining value))) := by
  induction fuel generalizing remaining out out₂ with
  | zero =>
    by_cases hzero : remaining = 0
    · subst hzero
      have hout' : out = out' := Except.ok.inj h
      simp [fillLoop, hout₂, hout']
    · rw [fillLoop, if_neg hzero] at h
      cases h
  | succ fuel ih =>
    by_cases hzero : remaining = 0
    · subst hzero
      have hout' : out = out' := Except.ok.inj h
      simp [fillLoop, hout₂, hout']
    · have hle : min (remaining % 2 ^ w) bufLen ≤ remaining :=
        le_trans (min_le_left _ _) (Nat.mod_le _ _)
      have hsplit : List.replicate remaining value =
          List.replicate (min (remaining % 2 ^ w) bufLen) value ++
            List.replicate (remaining - min (remaining % 2 ^ w) bufLen) value := by
        rw [List.replicate_append_replicate, Nat.add_sub_of_le hle]
      rw [fillLoop, if_neg hzero] at h
      simp only at h
      split at h
      · cases h
      · rw [fillLoop, if_neg hzero, hsplit, OStream.write_append, OStream.write_append]
        cases hg : (out₂.write (List.replicate (min (remaining % 2 ^ w) bufLen) value)).good with
        | false =>
          rw [OStream.write_of_not_good _ _ hg]
          simp only [hg, Bool.not_false, if_true, Bool.false_eq_true, if_false, and_true]
          exact (ih _ _ h OStream.memory rfl).1
        | true =>
          simp only [hg, Bool.not_true, Bool.false_eq_true, if_false]
          exact ih _ _ h _ hg

/-- A loop left early returns `nullopt`. -/
theorem fillLoop_ret_ne_some (w : ℕ) (value : UInt8) (bufLen fuel remaining : ℕ)
    (out : OStream) (r : Decompressed) (v : UInt64) (out' : OStream)
    (h : fillLoop w value bufLen fuel remaining out = .error (.ret r)) : r ≠ (some v, out') := by
  induction fuel generalizing remaining out with
  | zero =>
    rw [fillLoop] at h
    split at h <;> cases h
  | succ fuel ih =>
    rw [fillLoop] at h
    split at h
    · cases h
    · simp only at h
      split at h
      · cases h
        simp
      · exact ih _ _ h

/-- **A value the single-symbol path returns** on one device is the size, that many bytes were
written, and on another device the path does the same or is stopped by the stream. -/
theorem fillSingle_transfer (w : ℕ) (value : UInt8) (out out' : OStream)
    (expectedSize v : UInt64)
    (h : runBody (fillSingle w value out expectedSize) = .ok (some v, out')) :
    v = expectedSize ∧ out' = out.write (List.replicate expectedSize.toNat value) ∧
    ∀ out₂ : OStream, out₂.good = true → runBody (fillSingle w value out₂ expectedSize) =
      .ok (if (out₂.write (List.replicate expectedSize.toNat value)).good = true then
        some expectedSize else none, out₂.write (List.replicate expectedSize.toNat value)) := by
  rw [fillSingle] at h
  cases hloop : fillLoop w value (min (expectedSize.toNat % 2 ^ w) bufferSize)
      expectedSize.toNat expectedSize.toNat out with
  | error e =>
    rw [hloop] at h
    cases e with
    | fault f => cases h
    | ret r =>
      have hr : r = (some v, out') := Except.ok.inj h
      exact absurd hr (fillLoop_ret_ne_some w value _ _ _ out r v out' hloop)
  | ok out'' =>
    rw [hloop] at h
    have hpair : (some expectedSize, out'') = (some v, out') := Except.ok.inj h
    rw [Prod.mk.injEq, Option.some.injEq] at hpair
    obtain ⟨rfl, rfl⟩ := hpair
    refine ⟨rfl, (fillLoop_transfer _ _ _ _ _ _ _ hloop OStream.memory rfl).1, ?_⟩
    intro out₂ hout₂
    rw [fillSingle, (fillLoop_transfer _ _ _ _ _ _ _ hloop out₂ hout₂).2]
    cases (out₂.write (List.replicate expectedSize.toNat value)).good <;> rfl

end Lacuna.Model.HuffmanCompressor
