import Lacuna.Model.FileIo
import Lacuna.Model.Huffman
import Lacuna.Model.Rle

/-!
# Choosing a codec and running a trial

`run_trial` of `utils/benchmark.cpp`, which makes an archive in memory, and the choice of
a compressor by its id, which the decompressing command makes in the same way.
-/

set_option autoImplicit false

namespace Lacuna.Model

/-- The `std::make_unique` cascade on the algorithm id; `none` is the null pointer. -/
def selectCompressor (T : Target) (algorithmId : UInt8) : Option Compressor :=
  if algorithmId = 0x01 then some RleCompressor
  else if algorithmId = 0x02 then some (HuffmanCompressor T)
  else none

/-- `struct TrialResult`. -/
structure TrialResult where
  algoId : UInt8 := 0
  compressedSize : ℕ := 0
  durationMs : Float := 0
  serializedData : Bytes := []
  success : Bool := false

/-- `run_trial(original_data, algo_id)`; `elapsed` is what the clock measures. -/
def runTrial (T : Target) (elapsed : Float) (originalData : Bytes) (algoId : UInt8) :
    TrialResult :=
  let result : TrialResult := { algoId := algoId }
  match selectCompressor T algoId with
  | none => result
  | some compressor =>
    let header : Header :=
      { version := currentVersion
        algorithmId := algoId
        originalSize := UInt64.ofNat originalData.length }
    match writeHeader OStream.memory header with
    | (false, _) => result
    | (true, out) =>
      match compressor.compress (IStream.ofBytes originalData) out with
      | (false, _) => result
      | (true, out) =>
        { result with
          durationMs := elapsed
          serializedData := out.accepted
          compressedSize := out.accepted.length
          success := true }

end Lacuna.Model
