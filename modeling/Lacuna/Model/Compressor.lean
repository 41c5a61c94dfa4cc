import Lacuna.Model.Stream

/-!
# The compressor interface and the buffered output of the decoders

`Compressor` is the abstract class of `core/compressor.hpp`. A decoder can leave a loop in
two ways that are not an ordinary next round: by a `return`, and by an event the C++
sources leave undefined. `Exit` keeps the two apart, so that the absence of the second is
something to prove and not a convention.

Both decoders collect their output in a 65536-byte buffer and share the code that hands
it on; `OutBuffer` is that code.
-/

set_option autoImplicit false

namespace Lacuna.Model

/-- What can go wrong below the level of return values: a null pointer is followed, a loop
comes back to a state it was in and never ends, or an index is behind the end of what it
indexes. -/
inductive Fault where
  | nullDereference
  | divergence
  | outOfRange
deriving DecidableEq, Repr

/-- How a function body is left before its end. -/
inductive Exit (ρ : Type) where
  | fault (f : Fault)
  | ret (result : ρ)
deriving DecidableEq, Repr

/-- A whole body that ends in an explicit `return`: only a fault escapes it. -/
def runBody {ρ : Type} : Except (Exit ρ) ρ → Except Fault ρ
  | .ok result => .ok result
  | .error (.ret result) => .ok result
  | .error (.fault f) => .error f

/-- What `decompress` leaves behind: its return value and the output stream. -/
abbrev Decompressed := Option UInt64 × OStream

/-- The abstract class `Compressor`. -/
structure Compressor where
  compress : IStream → OStream → Bool × OStream
  decompress : IStream → OStream → UInt64 → Except Fault Decompressed

/-! ## The output buffer of the decoders -/

/-- The pair a decoder writes through: the stream and `out_buf`. -/
structure OutBuffer where
  out : OStream
  buf : Bytes
deriving DecidableEq, Repr

namespace OutBuffer

/-- `flush_out_buf()`. -/
def flushOutBuf (s : OutBuffer) : Bool × OutBuffer :=
  let s' : OutBuffer := if s.buf.isEmpty then s else { out := s.out.write s.buf, buf := [] }
  (s'.out.good, s')

/-- `out_buf.push_back(c)` and the flush of a full buffer that follows it; a failed flush
returns `nullopt`. -/
def pushBack (s : OutBuffer) (c : UInt8) : Except (Exit Decompressed) OutBuffer :=
  let s : OutBuffer := { s with buf := s.buf ++ [c] }
  if bufferSize ≤ s.buf.length then
    match s.flushOutBuf with
    | (false, s') => .error (.ret (none, s'.out))
    | (true, s') => .ok s'
  else .ok s

end OutBuffer

end Lacuna.Model
