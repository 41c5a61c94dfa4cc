import Mathlib.Tactic.IntervalCases
import Lacuna.Library.RawJson
import Lacuna.Model.Info
import Lacuna.Model.BenchmarkReport

/-!
# The JSON reports as raw texts

Each JSON report of the commands is a raw text (`RawJson`): the paths are put between quotes as
they are, and all else is chosen by the program. Whole numbers are printed as JSON numbers
(`isNumber_decimal`); of the floating-point numbers this is assumed (`PrintsNumbers`).
-/

set_option autoImplicit false

namespace Lacuna.Model

open Lacuna.Library

/-! ## Numbers -/

/-- **Floating-point numbers print as JSON numbers.** -/
structure PrintsNumbers (numbers : Numbers) (milliseconds : Milliseconds) : Prop where
  fixed : ∀ x, isNumber (numbers.fixed x) = true
  general : ∀ x, isNumber (numbers.general x) = true
  milliseconds : ∀ x, isNumber (milliseconds x) = true

/-- The bytes of a string are the encodings of its characters. -/
theorem text_ofList (chars : List Char) :
    text (String.ofList chars) = chars.flatMap String.utf8EncodeChar := by
  rw [text, String.toUTF8_eq_toByteArray, String.toByteArray_ofList, List.utf8Encode,
    List.toList_data_toByteArray]

/-- A digit is one byte. -/
theorem utf8EncodeChar_digitChar (d : ℕ) (hd : d < 10) :
    String.utf8EncodeChar d.digitChar = [UInt8.ofNat (48 + d)] := by
  interval_cases d <;> rfl

/-- The last digit comes off the end. -/
theorem decimal_eq (n : ℕ) :
    decimal n = (if n < 10 then [] else decimal (n / 10)) ++ [UInt8.ofNat (48 + n % 10)] := by
  have hdigits : ∀ m, decimal m = (Nat.toDigits 10 m).flatMap String.utf8EncodeChar := fun m => by
    rw [decimal, Nat.toString_eq_ofList_toDigits, text_ofList]
  rw [hdigits, hdigits, Nat.toDigits_eq_if (by decide)]
  split
  next hsmall =>
    rw [List.flatMap_singleton, utf8EncodeChar_digitChar n hsmall, Nat.mod_eq_of_lt hsmall,
      List.nil_append]
  next =>
    rw [List.flatMap_append, List.flatMap_singleton,
      utf8EncodeChar_digitChar (n % 10) (Nat.mod_lt n (by decide))]

/-- A number that is not zero begins with a digit that is not. -/
theorem foldlM_decimal (n : ℕ) (hn : 0 < n) :
    (decimal n).foldlM NumberState.step .start = some .digits := by
  induction n using Nat.strong_induction_on with
  | _ n ih =>
    rw [decimal_eq, List.foldlM_append]
    have hmod : n % 10 < 10 := Nat.mod_lt n (by decide)
    split
    next hsmall =>
      rw [Nat.mod_eq_of_lt hsmall]
      interval_cases n <;> rfl
    next hlarge =>
      rw [ih (n / 10) (by omega) (by omega)]
      generalize n % 10 = d at hmod
      interval_cases d <;> rfl

/-- **Whole numbers print as JSON numbers.** -/
theorem isNumber_decimal (n : ℕ) : isNumber (decimal n) = true := by
  rcases Nat.eq_zero_or_pos n with rfl | hn
  · decide
  · rw [isNumber, foldlM_decimal n hn]
    rfl

/-! ## The reports -/

/-- The reports of the commands: a member on each line. -/
def reportLayout : JsonLayout where
  item := [10, 32, 32]
  colon := [32]
  close := [10]
  item_spaces := by decide
  colon_spaces := by decide
  close_spaces := by decide

/-- The records of a benchmark, inside the report. -/
def recordLayout : JsonLayout where
  item := [10, 32, 32, 32, 32, 32, 32]
  colon := [32]
  close := [10, 32, 32, 32, 32]
  item_spaces := by decide
  colon_spaces := by decide
  close_spaces := by decide

/-- An object on one line. -/
def inlineLayout : JsonLayout where
  item := [32]
  colon := [32]
  close := [32]
  item_spaces := by decide
  colon_spaces := by decide
  close_spaces := by decide

/-- The list of the records: one behind the other. -/
def listLayout : JsonLayout where
  item := [10, 32, 32, 32, 32]
  colon := []
  close := [10, 32, 32]
  item_spaces := by decide
  colon_spaces := by decide
  close_spaces := by decide

/-- No white space at all. -/
def compactLayout : JsonLayout where
  item := []
  colon := []
  close := []
  item_spaces := by decide
  colon_spaces := by decide
  close_spaces := by decide

/-- A word of the sources. -/
def word (s : String) (h : IsUnescaped (text s) ∧ IsAscii (text s)) : JsonWord := ⟨text s, h⟩

/-- A whole number. -/
def wholeNumber (n : ℕ) : RawJson := .number (decimal n) (isNumber_decimal n)

section

variable (host : Host) (milliseconds : Milliseconds)
  (hnumbers : PrintsNumbers host.numbers milliseconds)

/-- The JSON report of `handle_compress` as a raw text. -/
def compressRaw (inputPath outDest : Bytes) (algoName : JsonWord) (origSz compSz : UInt64) :
    RawJson :=
  .object reportLayout [
    (word "status" (by decide), .word (word "success" (by decide))),
    (word "input" (by decide), .quoted (shownPath "<stdin>" inputPath)),
    (word "output" (by decide), .quoted (shownPath "<stdout>" outDest)),
    (word "algorithm" (by decide), .word algoName),
    (word "original_bytes" (by decide), wholeNumber origSz.toNat),
    (word "compressed_bytes" (by decide), wholeNumber compSz.toNat),
    (word "ratio_pct" (by decide),
      .number (host.numbers.fixed (ratio origSz compSz)) (hnumbers.fixed _)),
    (word "duration_ms" (by decide),
      .number (host.numbers.fixed host.elapsed) (hnumbers.fixed _))]

/-- **The report of `handle_compress` is this raw text.** -/
theorem compressJson_eq (inputPath outDest : Bytes) (algoName : JsonWord)
    (origSz compSz : UInt64) :
    compressJson host inputPath outDest algoName.1 origSz compSz =
      (compressRaw host milliseconds hnumbers inputPath outDest algoName origSz compSz).bytes ++
        [10] := by
  simp [compressJson, compressRaw]
  -- the same bytes, with the literals of the source cut where a member ends
  rfl

/-- The JSON report of `handle_decompress` as a raw text. -/
def decompressRaw (inputPath outDest : Bytes) (restored : UInt64) : RawJson :=
  .object reportLayout [
    (word "status" (by decide), .word (word "success" (by decide))),
    (word "input" (by decide), .quoted (shownPath "<stdin>" inputPath)),
    (word "output" (by decide), .quoted (shownPath "<stdout>" outDest)),
    (word "restored_bytes" (by decide), wholeNumber restored.toNat),
    (word "duration_ms" (by decide),
      .number (host.numbers.general host.elapsed) (hnumbers.general _))]

/-- **The report of `handle_decompress` is this raw text.** -/
theorem decompressJson_eq (inputPath outDest : Bytes) (restored : UInt64) :
    decompressJson host inputPath outDest restored =
      (decompressRaw host milliseconds hnumbers inputPath outDest restored).bytes ++ [10] := by
  simp [decompressJson, decompressRaw]
  rfl

/-- The JSON report of `handle_info` as a raw text. -/
def infoRaw (inputPath : Bytes) (algoStr : JsonWord) (header : Header) (compressedSize : ℕ) :
    RawJson :=
  .object reportLayout [
    (word "file" (by decide), .quoted inputPath),
    (word "algorithm" (by decide), .word algoStr),
    (word "version" (by decide), wholeNumber header.version.toNat),
    (word "original_size" (by decide), wholeNumber header.originalSize.toNat),
    (word "compressed_size" (by decide), wholeNumber compressedSize),
    (word "ratio" (by decide), .number
      (host.numbers.fixed (ratio header.originalSize (UInt64.ofNat compressedSize)))
      (hnumbers.fixed _))]

/-- **The report of `handle_info` is this raw text.** -/
theorem infoJson_eq (inputPath : Bytes) (algoStr : JsonWord) (header : Header)
    (compressedSize : ℕ) :
    infoJson host inputPath algoStr.1 header compressedSize =
      (infoRaw host milliseconds hnumbers inputPath algoStr header compressedSize).bytes ++
        [10] := by
  simp [infoJson, infoRaw]
  rfl

/-- What a record says of one codec. -/
def codecRaw (size : ℕ) (ratio duration : Float) : RawJson :=
  .object inlineLayout [
    (word "bytes" (by decide), wholeNumber size),
    (word "ratio_pct" (by decide), .number (host.numbers.fixed ratio) (hnumbers.fixed _)),
    (word "duration_ms" (by decide), .number (milliseconds duration) (hnumbers.milliseconds _))]

/-- The winner of a record. -/
def winnerOf (r : BenchmarkResult) : JsonWord :=
  if r.recommendedAlgo = text "Huffman" then word "Huffman" (by decide) else word "RLE" (by decide)

/-- A record of the benchmark as a raw text. -/
def recordRaw (r : BenchmarkResult) : RawJson :=
  .object recordLayout [
    (word "file" (by decide), .quoted r.fileName),
    (word "original_bytes" (by decide), wholeNumber r.originalSize.toNat),
    (word "rle" (by decide), codecRaw host milliseconds hnumbers r.rleSize r.rleRatio r.rleTimeMs),
    (word "huffman" (by decide),
      codecRaw host milliseconds hnumbers r.huffSize r.huffRatio r.huffTimeMs),
    (word "winner" (by decide), .word (winnerOf r))]

/-- The text of a record between its indentation and its comma. -/
theorem benchmarkRecord_eq (r : BenchmarkResult) (hr : r.recommendedAlgo = (winnerOf r).1)
    (last : Bool) :
    benchmarkRecord host milliseconds r last =
      [32, 32, 32, 32] ++ ((recordRaw host milliseconds hnumbers r).bytes ++
        ((if last then [] else [44]) ++ [10])) := by
  rw [benchmarkRecord, hr, recordRaw]
  generalize winnerOf r = winner
  simp [codecRaw]
  rfl

/-- The records behind the first, with the commas in front of them and the end of the list. -/
theorem benchmarkRecords_eq (results : List BenchmarkResult)
    (hwinners : ∀ r ∈ results, r.recommendedAlgo = (winnerOf r).1) (total k : ℕ)
    (htotal : k + results.length = total) :
    (if results.isEmpty then [] else [44]) ++ 10 ::
      ((results.zipIdx k).flatMap (fun entry =>
        benchmarkRecord host milliseconds entry.1 (!decide (entry.2 + 1 < total))) ++
          [32, 32, 93]) =
      listLayout.moreElements (results.map (recordRaw host milliseconds hnumbers)) := by
  induction results generalizing k with
  | nil => rfl
  | cons r results ih =>
    rw [List.forall_mem_cons] at hwinners
    rw [List.length_cons] at htotal
    have hrest := ih hwinners.2 (k + 1) (by omega)
    have hlast : (!decide (k + 1 < total)) = results.isEmpty := by
      cases results with
      | nil =>
        rw [List.length_nil] at htotal
        simp; omega
      | cons r' results =>
        rw [List.length_cons] at htotal
        simp; omega
    rw [List.map_cons, JsonLayout.moreElements, ← hrest, List.zipIdx_cons, List.flatMap_cons,
      hlast, benchmarkRecord_eq host milliseconds hnumbers r hwinners.1]
    simp only [List.append_assoc, List.cons_append, List.nil_append]
    rfl

/-- The JSON report of `run_benchmark` as a raw text. -/
def benchmarkRaw (dirPath : Bytes) (results : List BenchmarkResult) : RawJson :=
  .object reportLayout [
    (word "directory" (by decide), .quoted dirPath),
    (word "files_count" (by decide), wholeNumber results.length),
    (word "results" (by decide),
      .array listLayout ⟨_, rfl⟩ (results.map (recordRaw host milliseconds hnumbers)))]

/-- The text of the list of records. -/
theorem listLayout_array (results : List BenchmarkResult)
    (hwinners : ∀ r ∈ results, r.recommendedAlgo = (winnerOf r).1) :
    listLayout.array (results.map (recordRaw host milliseconds hnumbers)) =
      91 :: 10 :: (results.zipIdx.flatMap (fun entry =>
        benchmarkRecord host milliseconds entry.1 (!decide (entry.2 + 1 < results.length))) ++
          [32, 32, 93]) := by
  cases results with
  | nil => rfl
  | cons r results =>
    rw [List.forall_mem_cons] at hwinners
    have hrest := benchmarkRecords_eq host milliseconds hnumbers results hwinners.2
      (results.length + 1) 1 (Nat.add_comm 1 results.length)
    have hlast : (!decide (0 + 1 < results.length + 1)) = results.isEmpty := by
      cases results <;> simp
    rw [List.map_cons, JsonLayout.array, ← hrest, List.zipIdx_cons, List.flatMap_cons,
      List.length_cons, hlast, benchmarkRecord_eq host milliseconds hnumbers r hwinners.1]
    simp only [List.append_assoc, List.cons_append, List.nil_append]
    rfl

/-- **The report of `run_benchmark` is this raw text.** -/
theorem benchmarkJson_eq (dirPath : Bytes) (results : List BenchmarkResult)
    (hwinners : ∀ r ∈ results, r.recommendedAlgo = (winnerOf r).1) :
    benchmarkJson host milliseconds dirPath results =
      (benchmarkRaw host milliseconds hnumbers dirPath results).bytes ++ [10] := by
  simp [benchmarkJson, benchmarkRaw, listLayout_array host milliseconds hnumbers results hwinners]
  rfl

end

/-- The empty list without white space. -/
def emptyList : RawJson :=
  .known (compactLayout.array []) (.array []) (RawJson.spells_array compactLayout [] (by simp))
    (by decide)

/-- The JSON report on a directory without matching files as a raw text. -/
def emptyBenchmarkRaw (dirPath : Bytes) : RawJson :=
  .object compactLayout [
    (word "directory" (by decide), .quoted dirPath),
    (word "files_count" (by decide), wholeNumber 0),
    (word "results" (by decide), emptyList)]

/-- **The report on a directory without matching files is this raw text.** -/
theorem emptyBenchmarkJson_eq (dirPath : Bytes) :
    emptyBenchmarkJson dirPath = (emptyBenchmarkRaw dirPath).bytes ++ [10] := by
  simp [emptyBenchmarkJson, emptyBenchmarkRaw, emptyList]
  rfl

end Lacuna.Model
