import Lacuna.Model.Compressor

/-!
# `RleCompressor`

The run-length codec of `core/rle.cpp`, loop by loop. The payload is a sequence of pairs
(count, value); the encoder keeps the current run in two bytes and a flag, the decoder
remembers a count that still waits for its value.
-/

set_option autoImplicit false

namespace Lacuna.Model.RleCompressor

/-! ## Compression -/

/-- The locals `run_val`, `run_len` and `has_run`, and the stream. -/
structure RunState where
  runVal : UInt8
  runLen : UInt8
  hasRun : Bool
  out : OStream
deriving DecidableEq, Repr

/-- `write_block(len, val)`. -/
def writeBlock (out : OStream) (len val : UInt8) : Bool × OStream :=
  let out := (out.put len).put val
  (out.good, out)

/-- The body of the inner loop of `compress`; a failed block returns `false`. -/
def compressByte (s : RunState) (byte : UInt8) : Except (Bool × OStream) RunState :=
  if !s.hasRun then
    .ok { s with runVal := byte, runLen := 1, hasRun := true }
  else if byte = s.runVal then
    if s.runLen = 255 then
      match writeBlock s.out s.runLen s.runVal with
      | (false, out) => .error (false, out)
      | (true, out) => .ok { s with runLen := 1, out := out }
    else .ok { s with runLen := s.runLen + 1 }
  else
    match writeBlock s.out s.runLen s.runVal with
    | (false, out) => .error (false, out)
    | (true, out) => .ok { s with runVal := byte, runLen := 1, out := out }

/-- The two nested loops of `compress` over the chunks read. -/
def compressChunks (chunks : List Bytes) (s : RunState) : Except (Bool × OStream) RunState :=
  chunks.foldlM (fun s chunk => chunk.foldlM compressByte s) s

/-- `RleCompressor::compress`. -/
def compress (input : IStream) (out : OStream) : Bool × OStream :=
  if input.failbit || !out.good then (false, out)
  else
    match compressChunks input.readChunks.1
        { runVal := 0, runLen := 0, hasRun := false, out := out } with
    | .error result => result
    | .ok s =>
      if s.hasRun && 0 < s.runLen then
        match writeBlock s.out s.runLen s.runVal with
        | (false, out) => (false, out)
        | (true, out) => (out.good, out)
      else (s.out.good, s.out)

/-! ## Decompression -/

/-- The locals `total_decompressed`, `has_count` and `count`, and the buffered output. -/
structure PairState where
  totalDecompressed : UInt64
  hasCount : Bool
  count : UInt8
  buffer : OutBuffer
deriving DecidableEq, Repr

/-- `for (c = 0; c < count; ++c)`: one copy of the value for each unit of the count. -/
def pushRun (buffer : OutBuffer) (count : ℕ) (value : UInt8) :
    Except (Exit Decompressed) OutBuffer :=
  (List.replicate count value).foldlM OutBuffer.pushBack buffer

/-- The body of the inner loop of `decompress`. The sum in the guard is taken modulo
`2 ^ 64`, as `uint64_t` arithmetic is. -/
def decompressByte (expectedSize : UInt64) (s : PairState) (byte : UInt8) :
    Except (Exit Decompressed) PairState :=
  if !s.hasCount then
    if byte = 0 then .error (.ret (none, s.buffer.out))
    else .ok { s with count := byte, hasCount := true }
  else if s.totalDecompressed + s.count.toUInt64 > expectedSize then
    .error (.ret (none, s.buffer.out))
  else do
    let buffer ← pushRun s.buffer s.count.toNat byte
    pure { s with
      totalDecompressed := s.totalDecompressed + s.count.toUInt64
      hasCount := false
      buffer := buffer }

/-- The locals before the first byte. -/
def startPairs (out : OStream) : PairState :=
  { totalDecompressed := 0, hasCount := false, count := 0, buffer := { out := out, buf := [] } }

/-- The checks after the loops of `decompress`. -/
def finish (expectedSize : UInt64) (s : PairState) : Decompressed :=
  if s.hasCount then (none, s.buffer.out)
  else
    match s.buffer.flushOutBuf with
    | (false, buffer) => (none, buffer.out)
    | (true, buffer) =>
      if s.totalDecompressed ≠ expectedSize then (none, buffer.out)
      else (some s.totalDecompressed, buffer.out)

/-- The two nested loops of `decompress`, over the input in the chunks it arrives in, and
the checks after them. -/
def decompressChunks (chunks : List Bytes) (out : OStream) (expectedSize : UInt64) :
    Except (Exit Decompressed) Decompressed := do
  let s ← chunks.foldlM (fun s chunk => chunk.foldlM (decompressByte expectedSize) s)
    (startPairs out)
  return finish expectedSize s

/-- `RleCompressor::decompress`. -/
def decompress (input : IStream) (out : OStream) (expectedSize : UInt64) :
    Except Fault Decompressed :=
  if input.failbit || !out.good then .ok (none, out)
  else if expectedSize = 0 then
    match input.peek.1 with
    | some _ => .ok (none, out)
    | none => .ok (some 0, out)
  else runBody (decompressChunks input.readChunks.1 out expectedSize)

end Lacuna.Model.RleCompressor

namespace Lacuna.Model

/-- `class RleCompressor : public Compressor`. -/
def RleCompressor : Compressor where
  compress := RleCompressor.compress
  decompress := RleCompressor.decompress

end Lacuna.Model
