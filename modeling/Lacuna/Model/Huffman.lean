import Mathlib.Algebra.Group.Nat.Defs
import Lacuna.Model.HuffmanTree

/-!
# `HuffmanCompressor`

The codec half of `core/huffman.cpp`: the bit writer and reader, the serialised frequency
table, the two passes of `compress` and the two decoding paths of `decompress`. Shifts of a
byte are done in `int` and narrowed by a cast, as in C++.
-/

set_option autoImplicit false

namespace Lacuna.Model

/-! ## Bit streams -/

/-- `struct BitWriter`. -/
structure BitWriter where
  out : OStream
  currentByte : UInt8
  bitCount : ℕ

namespace BitWriter

/-- `BitWriter writer(out)`. -/
def start (out : OStream) : BitWriter := { out := out, currentByte := 0, bitCount := 0 }

/-- `write_bit(bit)`. -/
def writeBit (w : BitWriter) (bit : Bool) : Bool × BitWriter :=
  let currentByte := UInt8.ofNat ((w.currentByte.toNat <<< 1) ||| bit.toNat)
  let bitCount := w.bitCount + 1
  if bitCount = 8 then
    let out := w.out.put currentByte
    (out.good, { out := out, currentByte := 0, bitCount := 0 })
  else (w.out.good, { w with currentByte := currentByte, bitCount := bitCount })

/-- `write_code(code)`: the first bit that fails ends the loop. -/
def writeCode : BitWriter → List Bool → Bool × BitWriter
  | w, [] => (true, w)
  | w, bit :: code =>
    match w.writeBit bit with
    | (false, w) => (false, w)
    | (true, w) => w.writeCode code

/-- `flush()`. -/
def flush (w : BitWriter) : Bool × BitWriter :=
  if 0 < w.bitCount then
    let currentByte := UInt8.ofNat (w.currentByte.toNat <<< (8 - w.bitCount))
    let out := w.out.put currentByte
    (out.good, { out := out, currentByte := 0, bitCount := 0 })
  else (w.out.good, w)

end BitWriter

/-- `struct BitReader`. -/
structure BitReader where
  input : IStream
  currentByte : UInt8
  bitCount : ℕ

namespace BitReader

/-- `BitReader reader(in)`. -/
def start (input : IStream) : BitReader := { input := input, currentByte := 0, bitCount := 0 }

/-- The last two lines of `read_bit()`: the next bit of a byte not used up. -/
def nextBit (r : BitReader) : ℕ × BitReader :=
  ((r.currentByte.toNat >>> (r.bitCount - 1)) &&& 1, { r with bitCount := r.bitCount - 1 })

/-- `read_bit()`. -/
def readBit (r : BitReader) : Option ℕ × BitReader :=
  if r.bitCount = 0 then
    match r.input.get with
    | (none, input) => (none, { r with input := input })
    | (some c, input) =>
      let (bit, r) := nextBit { input := input, currentByte := c, bitCount := 8 }
      (some bit, r)
  else
    let (bit, r) := nextBit r
    (some bit, r)

end BitReader

namespace HuffmanCompressor

/-! ## Compression -/

/-- The first pass: `frequencies[byte]++` for every byte read. -/
def countFrequencies (chunks : List Bytes) : UInt8 → UInt64 :=
  chunks.foldl
    (fun frequencies chunk => chunk.foldl
      (fun frequencies byte => Function.update frequencies byte (frequencies byte + 1))
      frequencies)
    (fun _ => 0)

/-- The number of byte values that occur. -/
def uniqueCount (frequencies : UInt8 → UInt64) : UInt16 :=
  (List.range 256).foldl
    (fun count i => if 0 < frequencies (UInt8.ofNat i) then count + 1 else count) 0

/-- One table entry: the value and its frequency in eight bytes, least significant first. -/
def putEntry (out : OStream) (value : UInt8) (freq : UInt64) : OStream :=
  (List.range 8).foldl
    (fun out b => out.put ((freq >>> UInt64.ofNat (b * 8)) &&& 0xFF).toUInt8) (out.put value)

/-- The serialised frequency table: the unique count in two bytes, then an entry for each
byte value that occurs. -/
def putTable (out : OStream) (frequencies : UInt8 → UInt64) : OStream :=
  let count := uniqueCount frequencies
  let out := (out.put (count &&& 0xFF).toUInt8).put ((count >>> 8) &&& 0xFF).toUInt8
  (List.range 256).foldl
    (fun out i =>
      if 0 < frequencies (UInt8.ofNat i) then
        putEntry out (UInt8.ofNat i) (frequencies (UInt8.ofNat i))
      else out)
    out

/-- The second pass; a code that fails to be written returns `false`. -/
def encodeChunks (codes : UInt8 → List Bool) (chunks : List Bytes) (writer : BitWriter) :
    Except (Bool × OStream) BitWriter :=
  chunks.foldlM
    (fun writer chunk => chunk.foldlM
      (fun writer byte =>
        match writer.writeCode (codes byte) with
        | (false, writer) => Except.error (false, writer.out)
        | (true, writer) => Except.ok writer)
      writer)
    writer

/-- `HuffmanCompressor::compress`. -/
def compress (T : Target) (input : IStream) (out : OStream) : Bool × OStream :=
  if input.failbit || !out.good then (false, out)
  else
    let (chunks, input) := input.readChunks
    let frequencies := countFrequencies chunks
    let out := putTable out frequencies
    if uniqueCount frequencies ≤ 1 then (out.good, out)
    else
      let root := buildTree T frequencies
      if root.isNull then (false, out)
      else
        let codes := codeTable root
        let input := input.clear.seekBegin
        if input.failbit then (false, out)
        else
          match encodeChunks codes input.readChunks.1 (BitWriter.start out) with
          | .error result => result
          | .ok writer => (writer.flush.1, writer.flush.2.out)

/-! ## Decompression: the frequency table -/

/-- The unique count, two bytes little-endian. -/
def readUniqueCount (input : IStream) : Option (UInt16 × IStream) :=
  match input.get with
  | (none, _) => none
  | (some low, input) =>
    match input.get with
    | (none, _) => none
    | (some high, input) => some (low.toUInt16 ||| (high.toUInt16 <<< 8), input)

/-- One round of the loop over the bytes of a frequency. -/
def readFrequencyByte (s : UInt64 × IStream) (b : ℕ) : Option (UInt64 × IStream) :=
  match s.2.get with
  | (none, _) => none
  | (some c, input) => some (s.1 ||| (c.toUInt64 <<< UInt64.ofNat (b * 8)), input)

/-- The eight bytes of a frequency, put together by shifts. -/
def readFrequency (input : IStream) : Option (UInt64 × IStream) :=
  (List.range 8).foldlM readFrequencyByte (0, input)

/-- The locals of the table loop: the array, the running sum modulo `2 ^ 64`, and the
stream. -/
structure TableState where
  frequencies : UInt8 → UInt64
  sumFrequencies : UInt64
  input : IStream

/-- One round of the table loop. A repeated value overwrites its entry, and both
frequencies are summed. -/
def readEntry (s : TableState) : Option TableState :=
  match s.input.get with
  | (none, _) => none
  | (some value, input) =>
    match readFrequency input with
    | none => none
    | some (freq, input) =>
      some
        { frequencies := Function.update s.frequencies value freq
          sumFrequencies := s.sumFrequencies + freq
          input := input }

/-- `for (i = 0; i < unique_count; ++i)`. -/
def readEntries (uniqueCount : ℕ) (s : TableState) : Option TableState :=
  (List.range uniqueCount).foldlM (fun s _ => readEntry s) s

/-! ## Decompression: the payload -/

/-- The value of the first entry that is positive. -/
def singleChar (frequencies : UInt8 → UInt64) : UInt8 :=
  match (List.range 256).find? (fun i => 0 < frequencies (UInt8.ofNat i)) with
  | some i => UInt8.ofNat i
  | none => 0

/-- `while (remaining > 0)` of the single-symbol path, for a `size_t` of `w` bits: both
casts to `size_t` keep the low `w` bits only. A round that writes nothing leaves the
state as it was, so a loop that is not done after `expected_size` rounds never is. -/
def fillLoop (w : ℕ) (value : UInt8) (bufLen : ℕ) :
    ℕ → ℕ → OStream → Except (Exit Decompressed) OStream
  | 0, remaining, out => if remaining = 0 then .ok out else .error (.fault .divergence)
  | fuel + 1, remaining, out =>
    if remaining = 0 then .ok out
    else
      let toWrite := min (remaining % 2 ^ w) bufLen
      let out := out.write (List.replicate toWrite value)
      if !out.good then .error (.ret (none, out))
      else fillLoop w value bufLen fuel (remaining - toWrite) out

/-- The single-symbol path. -/
def fillSingle (w : ℕ) (value : UInt8) (out : OStream) (expectedSize : UInt64) :
    Except (Exit Decompressed) Decompressed := do
  let bufLen := min (expectedSize.toNat % 2 ^ w) bufferSize
  let out ← fillLoop w value bufLen expectedSize.toNat expectedSize.toNat out
  return (some expectedSize, out)

/-- `while (!current->is_leaf())`: the walk from a node to a leaf, left on a zero bit. A
null `current` is dereferenced by the loop condition itself; `none` is a truncated
bitstream. -/
def walk : HuffmanNode → BitReader → Except (Exit Unit) (UInt8 × BitReader)
  | .null, _ => .error (.fault .nullDereference)
  | .node value _ left right, reader =>
    if left.isNull && right.isNull then .ok (value, reader)
    else
      match reader.readBit with
      | (none, _) => .error (.ret ())
      | (some bit, reader) => if bit = 0 then walk left reader else walk right reader

/-- `while (decompressed_count < expected_size)`, from a given count on. Every round counts
one symbol, so as many rounds as symbols are expected are enough (`decodeLoop_of_walks`). -/
def decodeLoop (root : HuffmanNode) (expectedSize : UInt64) :
    ℕ → UInt64 → BitReader → OutBuffer → Except (Exit Decompressed) (UInt64 × OutBuffer)
  | 0, count, _, buffer =>
    if count < expectedSize then .error (.fault .divergence) else .ok (count, buffer)
  | fuel + 1, count, reader, buffer =>
    if count < expectedSize then
      match walk root reader with
      | .error (.fault f) => .error (.fault f)
      | .error (.ret ()) => .error (.ret (none, buffer.out))
      | .ok (value, reader) => do
        let buffer ← buffer.pushBack value
        decodeLoop root expectedSize fuel (count + 1) reader buffer
    else .ok (count, buffer)

/-- The tree path: the decoding loop, the last flush and the count returned. -/
def decodeTree (root : HuffmanNode) (input : IStream) (out : OStream) (expectedSize : UInt64) :
    Except (Exit Decompressed) Decompressed := do
  let (decompressedCount, buffer) ← decodeLoop root expectedSize expectedSize.toNat 0
    (BitReader.start input) { out := out, buf := [] }
  match buffer.flushOutBuf with
  | (false, buffer) => return (none, buffer.out)
  | (true, buffer) => return (some decompressedCount, buffer.out)

/-- `HuffmanCompressor::decompress`. -/
def decompress (T : Target) (input : IStream) (out : OStream) (expectedSize : UInt64) :
    Except Fault Decompressed :=
  if input.failbit || !out.good then .ok (none, out)
  else if expectedSize = 0 then
    match readUniqueCount input with
    | none => .ok (none, out)
    | some (count, input) =>
      if count ≠ 0 || input.peek.1.isSome then .ok (none, out) else .ok (some 0, out)
  else
    match readUniqueCount input with
    | none => .ok (none, out)
    | some (count, input) =>
      if count = 0 || 256 < count then .ok (none, out)
      else
        match readEntries count.toNat
            { frequencies := fun _ => 0, sumFrequencies := 0, input := input } with
        | none => .ok (none, out)
        | some table =>
          if table.sumFrequencies ≠ expectedSize then .ok (none, out)
          else if count = 1 then
            runBody (fillSingle T.sizeBits (singleChar table.frequencies) out expectedSize)
          else
            let root := buildTree T table.frequencies
            if root.isNull then .ok (none, out)
            else runBody (decodeTree root table.input out expectedSize)

end HuffmanCompressor

/-- `class HuffmanCompressor : public Compressor`. -/
def HuffmanCompressor (T : Target) : Compressor where
  compress := HuffmanCompressor.compress T
  decompress := HuffmanCompressor.decompress T

end Lacuna.Model
