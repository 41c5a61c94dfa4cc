import Lacuna.Model.Stream

/-!
# The `.lac` header

`write_header` and `read_header` of `utils/file_io.cpp`: four magic bytes, a version, an
algorithm id and the original size in eight bytes, least significant first.
-/

set_option autoImplicit false

namespace Lacuna.Model

/-- `Header::MAGIC`. -/
def magic : Bytes := [76, 65, 67, 0]

/-- `Header::CURRENT_VERSION`. -/
def currentVersion : UInt8 := 0x01

/-- `Header::CURRENT_ALGO`. -/
def currentAlgo : UInt8 := 0x01

/-- `struct Header`. -/
structure Header where
  version : UInt8 := currentVersion
  algorithmId : UInt8 := currentAlgo
  originalSize : UInt64 := 0
deriving DecidableEq, Repr

/-- `size_bytes`, filled by the first loop over `i < 8`. -/
def sizeBytes (size : UInt64) : Bytes :=
  (List.range 8).map fun i => ((size >>> UInt64.ofNat (i * 8)) &&& 0xFF).toUInt8

/-- `write_header(out, header)`. -/
def writeHeader (out : OStream) (header : Header) : Bool × OStream :=
  if !out.good then (false, out)
  else
    let out := out.write magic
    let out := out.write [header.version]
    let out := out.write [header.algorithmId]
    let out := out.write (sizeBytes header.originalSize)
    (out.good, out)

/-- The second loop over `i < 8`: the size put together from its bytes. -/
def sizeOfBytes (bytes : Bytes) : UInt64 :=
  (List.range 8).foldl
    (fun size i => size ||| ((bytes.getD i 0).toUInt64 <<< UInt64.ofNat (i * 8))) 0

/-- `read_header(in)`: the header, and the stream behind it. -/
def readHeader (input : IStream) : Option Header × IStream :=
  if input.failbit then (none, input)
  else
    let (magicBuf, input) := input.read 4
    if magicBuf.length ≠ 4 || magicBuf ≠ magic then (none, input)
    else
      let (version, input) := input.read 1
      if version.length ≠ 1 || version ≠ [currentVersion] then (none, input)
      else
        let (algo, input) := input.read 1
        if algo.length ≠ 1 || (algo ≠ [0x01] && algo ≠ [0x02]) then (none, input)
        else
          let (size, input) := input.read 8
          if size.length ≠ 8 then (none, input)
          else
            (some
              { version := version.headD 0
                algorithmId := algo.headD 0
                originalSize := sizeOfBytes size },
              input)

end Lacuna.Model
