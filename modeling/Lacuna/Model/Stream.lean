import Mathlib.Data.List.Basic

/-!
# Byte streams

The codecs talk to the outside through `std::istream` and `std::ostream`. An input
stream is kept as the bytes already read and the bytes still to come, so that every
value is a legal position in some contents; an output stream is kept as the bytes its
device took together with the room that is left on it.

Two devices matter. A device may take any number of bytes (a string stream, a disk that
is not full), or only its first few; and the refusal of a byte may show in the stream
state at the write itself, or only once the buffers are flushed at a `flush` or a
`close`. A refused device takes nothing more.
-/

set_option autoImplicit false

namespace Lacuna.Model

/-- A byte string: the contents of a file, a `std::string`, the spelling of a path. -/
abbrev Bytes := List UInt8

/-- The bytes of a string literal of the sources. -/
def text (s : String) : Bytes := s.toUTF8.data.toList

/-- The decimal digits `operator<<` prints for an unsigned integer. -/
def decimal (n : ℕ) : Bytes := text (toString n)

/-- `constexpr size_t buffer_size = 65536`, the same in both codecs. -/
def bufferSize : ℕ := 65536

/-! ## Input streams -/

/-- `std::istream`: the bytes read so far, the bytes to come and the two state bits an
input operation can set. -/
structure IStream where
  before : Bytes
  rest : Bytes
  eofbit : Bool
  failbit : Bool
deriving DecidableEq, Repr

namespace IStream

/-- A fresh stream over some contents: `std::istringstream`, an `std::ifstream` just
opened, or standard input at program start. -/
def ofBytes (contents : Bytes) : IStream :=
  { before := [], rest := contents, eofbit := false, failbit := false }

/-- `good()`. -/
def good (s : IStream) : Bool := !s.eofbit && !s.failbit

/-- `in.get(c)`: at the end of input both state bits are set and nothing is read. -/
def get (s : IStream) : Option UInt8 × IStream :=
  if s.good then
    match s.rest with
    | [] => (none, { s with eofbit := true, failbit := true })
    | c :: rest => (some c, { s with before := s.before ++ [c], rest := rest })
  else (none, { s with failbit := true })

/-- `in.peek()`: `none` is `EOF`. -/
def peek (s : IStream) : Option UInt8 × IStream :=
  if s.good then
    match s.rest with
    | [] => (none, { s with eofbit := true })
    | c :: _ => (some c, s)
  else (none, { s with failbit := true })

/-- `in.read(buf, n)`: the bytes stored in the buffer, whose number is `gcount()`. A
short read sets both state bits. -/
def read (s : IStream) (n : ℕ) : Bytes × IStream :=
  if s.good then
    (s.rest.take n,
      { before := s.before ++ s.rest.take n
        rest := s.rest.drop n
        eofbit := decide (s.rest.length < n)
        failbit := decide (s.rest.length < n) })
  else ([], { s with failbit := true })

/-- `in.clear()`. -/
def clear (s : IStream) : IStream := { s with eofbit := false, failbit := false }

/-- `in.seekg(0, std::ios::beg)`: `eofbit` is cleared first, and a failed stream stays
where it is. -/
def seekBegin (s : IStream) : IStream :=
  if s.failbit then { s with eofbit := false }
  else { before := [], rest := s.before ++ s.rest, eofbit := false, failbit := false }

/-- The rounds of `while (in.read(buf, n) || in.gcount() > 0)`: the buffer contents each
round hands to the loop body, and the stream when the condition fails. -/
def readRounds (n : ℕ) : ℕ → IStream → List Bytes × IStream
  | 0, s => ([], s)
  | fuel + 1, s =>
    let (chunk, s') := s.read n
    if !s'.failbit || 0 < chunk.length then
      let (chunks, s'') := readRounds n fuel s'
      (chunk :: chunks, s'')
    else ([], s')

/-- The chunks the read loop of a codec sees. No round but the last is empty, so one round
more than there are bytes is never used up (`readChunks_flatten`). The loop bodies do not
touch the stream, so what is read does not depend on them. -/
def readChunks (s : IStream) : List Bytes × IStream :=
  readRounds bufferSize (s.rest.length + 1) s

end IStream

/-! ## Output streams -/

/-- When the refusal of a byte reaches the stream state: at the write that hands the byte
over, or only when the buffers are flushed. -/
inductive Report where
  | atWrite
  | atFlush
deriving DecidableEq, Repr

/-- `std::ostream`: the bytes the device took, the room left on it (`none`: unlimited),
when it reports a refusal, whether a refused byte is still unreported, and `failbit`. -/
structure OStream where
  accepted : Bytes
  room : Option ℕ
  report : Report
  refused : Bool
  failbit : Bool
deriving DecidableEq, Repr

namespace OStream

/-- A fresh stream on an empty device. -/
def fresh (room : Option ℕ) (report : Report) : OStream :=
  { accepted := [], room := room, report := report, refused := false, failbit := false }

/-- `std::ostringstream`: memory takes every byte. -/
def memory : OStream := fresh none .atWrite

/-- `good()`; `!out` is its negation. -/
def good (s : OStream) : Bool := !s.failbit

/-- `out.put(c)`. -/
def put (s : OStream) (c : UInt8) : OStream :=
  if s.failbit then s
  else
    match s.room with
    | none => { s with accepted := s.accepted ++ [c] }
    | some (room + 1) => { s with accepted := s.accepted ++ [c], room := some room }
    | some 0 =>
      match s.report with
      | .atWrite => { s with failbit := true }
      | .atFlush => { s with refused := true }

/-- `out.write(data, n)`, and `operator<<` on a string. -/
def write (s : OStream) (data : Bytes) : OStream := data.foldl put s

/-- `out.flush()` and `out.close()`: a refusal not yet reported is reported now. -/
def flush (s : OStream) : OStream := { s with failbit := s.failbit || s.refused }

end OStream

end Lacuna.Model
