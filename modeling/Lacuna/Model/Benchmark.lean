import Lacuna.Model.Trial

/-!
# The benchmark of a file

The loop of `run_benchmark` in `utils/benchmark.cpp` over the files it has found: each is read,
compressed with both codecs in memory, and recorded with the codec that made the smaller
archive.
-/

set_option autoImplicit false

namespace Lacuna.Model

/-- `struct BenchmarkResult`. -/
structure BenchmarkResult where
  fileName : Bytes
  originalSize : UInt64 := 0
  rleSize : ℕ := 0
  huffSize : ℕ := 0
  rleRatio : Float := 0
  huffRatio : Float := 0
  rleTimeMs : Float := 0
  huffTimeMs : Float := 0
  recommendedAlgo : Bytes

/-- A file of the list, as the loop body finds it: its path relative to the directory, what an
`std::ifstream` on it delivers (`none`: it cannot be opened), and what the clock measures. -/
structure BenchmarkFile where
  fileName : Bytes
  contents : Option Bytes
  rleElapsed : Float
  huffElapsed : Float

/-- The ratio of a trial in per cent. -/
def trialRatio (originalSize : UInt64) (compressedSize : ℕ) : Float :=
  if 0 < originalSize then
    (1.0 - (UInt64.ofNat compressedSize).toFloat / originalSize.toFloat) * 100.0
  else 0.0

/-- The body of the loop: the record it pushes, or `none` where it continues without one. -/
def benchmarkFile (T : Target) (file : BenchmarkFile) : Option BenchmarkResult :=
  match file.contents with
  | none => none
  | some originalData =>
    let originalSize := UInt64.ofNat originalData.length
    let rleRes := runTrial T file.rleElapsed originalData 0x01
    let huffRes := runTrial T file.huffElapsed originalData 0x02
    if !rleRes.success || !huffRes.success then none
    else
      some
        { fileName := file.fileName
          originalSize := originalSize
          rleSize := rleRes.compressedSize
          huffSize := huffRes.compressedSize
          rleRatio := trialRatio originalSize rleRes.compressedSize
          huffRatio := trialRatio originalSize huffRes.compressedSize
          rleTimeMs := rleRes.durationMs
          huffTimeMs := huffRes.durationMs
          recommendedAlgo :=
            if huffRes.compressedSize < rleRes.compressedSize then text "Huffman"
            else text "RLE" }

/-- `results` after the loop. -/
def benchmarkResults (T : Target) (files : List BenchmarkFile) : List BenchmarkResult :=
  files.filterMap (benchmarkFile T)

end Lacuna.Model
