import Lacuna.Analysis.DirectoryScan
import Lacuna.Analysis.Program
import Lacuna.Analysis.Suggestions

/-!
# Runs come to an end

With a 64-bit `size_t` neither decoder meets a fault, whatever it is given (`exists_decompress`);
a compression never does (`exists_handleCompress`), and a benchmark only where its scan does not
come to an end. So the program always returns (`exists_main`).
-/

set_option autoImplicit false

namespace Lacuna.Model

open Library

variable {Dir : Type}

/-- **A decoder always returns**, with a 64-bit `size_t`. -/
theorem exists_decompress (T : Target) (hbits : T.sizeBits = 64) (algorithmId : UInt8)
    (c : Compressor) (hc : selectCompressor T algorithmId = some c) (input : IStream)
    (out : OStream) (expectedSize : UInt64) (hin : input.good = true) (hout : out.good = true) :
    ∃ r out', c.decompress input out expectedSize = .ok (r, out') := by
  unfold selectCompressor at hc
  split at hc
  · cases hc
    obtain ⟨r, written, heq, -⟩ :=
      RleCompressor.decompress_sound input out expectedSize hin hout
    exact ⟨r, _, heq⟩
  split at hc
  · cases hc
    change ∃ r out', HuffmanCompressor.decompress T input out expectedSize = .ok (r, out')
    by_cases hzero : expectedSize = 0
    · subst hzero
      exact ⟨_, _, HuffmanCompressor.decompress_zero T input out hin hout⟩
    rcases HuffmanCompressor.decompress_cases T input expectedSize hin hzero with
      heq | ⟨value, -, heq⟩ | ⟨entries, t, more, input', -, hin', -, heq⟩
    · exact ⟨_, _, heq out hout⟩
    · have hfits : expectedSize.toNat < 2 ^ T.sizeBits := by
        rw [hbits]
        exact expectedSize.toNat_lt
      rw [heq out hout, HuffmanCompressor.fillSingle_eq _ value out expectedSize hfits hout]
      exact ⟨_, _, rfl⟩
    · rw [heq out hout]
      cases hdec : t.decode expectedSize.toNat (unpackBits input'.rest) with
      | none =>
        obtain ⟨written, hrun, -⟩ := HuffmanCompressor.decodeTree_of_decode_none _ t input' out
          expectedSize hin' hout hdec
        exact ⟨_, _, hrun⟩
      | some p =>
        obtain ⟨d, rest⟩ := p
        exact ⟨_, _, HuffmanCompressor.decodeTree_of_decode _ t input' out expectedSize hin' hout
          d rest hdec⟩
  · cases hc

/-- A decompression always returns, with a 64-bit `size_t`. -/
theorem exists_handleDecompress (host : Host) (hbits : host.target.sizeBits = 64)
    (opt : CliOptions) (files : FileSystem) :
    ∃ ok w, handleDecompress host opt (World.start host files) = .ok (ok, w) := by
  by_cases hextracts : ∃ header input, Extracts host opt files header input
  · obtain ⟨header, input, hextracts⟩ := hextracts
    obtain ⟨hvalid, hgood⟩ := hextracts.valid
    obtain ⟨c, hc, -⟩ := exists_compressor host.target header.algorithmId hvalid.2
    obtain ⟨r, out', hdec⟩ := exists_decompress host.target hbits header.algorithmId c hc
      (payloadStream host opt input) (host.device (decompressDest opt)) header.originalSize hgood
      (host.good_device _)
    rw [handleDecompress_of_extracts host opt files header input hextracts]
    simp only [restorePayload, hc, hdec]
    cases r with
    | none =>
      by_cases hdest : decompressDest opt ≠ dash
      · exact ⟨_, _, if_pos hdest⟩
      · exact ⟨_, _, if_neg hdest⟩
    | some v => exact ⟨_, _, rfl⟩
  · obtain ⟨w, hrun⟩ := exists_handleDecompress_of_not_extracts host opt files hextracts
    exact ⟨false, w, hrun⟩

/-- A compression always returns. -/
theorem exists_handleCompress (host : Host) (opt : CliOptions) (w : World) :
    ∃ ok w', handleCompress host opt w = .ok (ok, w') := by
  have hselect : ∀ inputPath fileData, ∃ r, selectArchive host opt inputPath fileData = .ok r := by
    intro inputPath fileData
    unfold selectArchive
    split
    · exact ⟨_, rfl⟩
    · split
      · exact ⟨_, rfl⟩
      · rename_i algoStr _ _
        split
        · obtain ⟨s, hs⟩ := exists_findSuggestion host.target algoStr knownAlgos
          simp only [unknownAlgorithm, hs, bind, Except.bind]
          by_cases hempty : s.isEmpty = true
          · simp only [hempty, if_true]
            exact ⟨_, rfl⟩
          · simp only [hempty, Bool.false_eq_true, if_false]
            exact ⟨_, rfl⟩
        · simp only
          split
          · exact ⟨_, rfl⟩
          · exact ⟨_, rfl⟩
  unfold handleCompress
  simp only
  split
  · exact ⟨_, _, rfl⟩
  split
  · exact ⟨_, _, rfl⟩
  rename_i fileData _
  obtain ⟨r, hr⟩ := hselect opt.positionalTarget fileData
  rw [hr]
  cases r with
  | error message => exact ⟨_, _, rfl⟩
  | ok chosen => exact ⟨_, _, rfl⟩

/-- A benchmark returns where its scan comes to an end. -/
theorem exists_benchmark (machine : Machine Dir) (dirPath : Bytes) (jsonOutput quiet : Bool)
    (w : World)
    (hscan : ∀ dir, machine.entryAt dirPath = .directory dir →
      ∃ paths, scanDirectory machine.graph machine.depth (.directory dir) = some paths) :
    ∃ ok w', machine.benchmark dirPath jsonOutput quiet w = .ok (ok, w') := by
  unfold Machine.benchmark
  cases hentry : machine.entryAt dirPath with
  | directory dir =>
    obtain ⟨paths, hpaths⟩ := hscan dir hentry
    simp only [hpaths]
    exact ⟨_, _, rfl⟩
  | regularFile => exact ⟨_, _, rfl⟩
  | other => exact ⟨_, _, rfl⟩

/-- **The program always returns**, with a 64-bit `size_t` and scans that come to an end. -/
theorem exists_main (machine : Machine Dir) (hbits : machine.host.target.sizeBits = 64)
    (hscan : ∀ dirPath dir, machine.entryAt dirPath = .directory dir →
      ∃ paths, scanDirectory machine.graph machine.depth (.directory dir) = some paths)
    (args : List Bytes) (files : FileSystem) :
    ∃ status w, main machine args (World.start machine.host files) = .ok (status, w) := by
  cases hparse : parseCliArgs machine.host.console args with
  | error rejected =>
    obtain ⟨opt, line⟩ := rejected
    simp only [main, hparse]
    exact ⟨_, _, rfl⟩
  | ok opt =>
    have hreturns : ∃ ok w, runOptions machine opt (World.start machine.host files) =
        .ok (ok, w) := by
      have hbranch := runsAs_runOptions machine opt (World.start machine.host files)
      generalize runOptions machine opt (World.start machine.host files) = result at hbranch ⊢
      cases hbranch with
      | print message => exact ⟨_, _, rfl⟩
      | compress => exact exists_handleCompress machine.host opt _
      | decompress => exact exists_handleDecompress machine.host hbits opt files
      | info => exact ⟨_, _, rfl⟩
      | benchmark dirPath => exact exists_benchmark machine dirPath _ _ _ (hscan dirPath)
      | unknown =>
        obtain ⟨s, hs⟩ := exists_findSuggestion machine.host.target opt.command knownCommands
        simp only [unknownCommand, hs, bind, Except.bind]
        by_cases hempty : s.isEmpty = true
        · simp only [hempty, if_true]
          exact ⟨_, _, rfl⟩
        · simp only [hempty, Bool.false_eq_true, if_false]
          exact ⟨_, _, rfl⟩
    obtain ⟨ok, w, hrun⟩ := hreturns
    exact ⟨_, _, main_of_parsed machine args _ w opt ok hparse hrun⟩

end Lacuna.Model
