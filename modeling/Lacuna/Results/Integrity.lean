import Lacuna.Analysis.Archive

/-!
# Damaged archives

A cut is always found (`truncation_rejected`): the run-length decoder misses bytes, and the
Huffman decoder misses bits, since the packed codewords have fewer than eight filling bits.
Trailing bytes are found by the run-length decoder and for empty files; the other Huffman
payloads end where the last symbol does, and nothing looks further (`trailing_rejected_iff`).
-/

set_option autoImplicit false

namespace Lacuna.Results

open Model Library

/-! ## Truncation -/

/-- **Truncation is always detected.** Every strict prefix of an archive is rejected: its
header is incomplete, or the decompressor returns `nullopt`. -/
theorem truncation_rejected (T T' : Target) (elapsed : Float) (data : Bytes)
    (algorithmId : UInt8) (ha : IsCodec algorithmId) (hlen : data.length < 2 ^ 64)
    (out : OStream) (hout : out.good = true) (part missing : Bytes)
    (hcut : (runTrial T elapsed data algorithmId).serializedData = part ++ missing)
    (hne : missing ≠ []) : Rejected T' part out := by
  rw [(runTrial_eq T elapsed data algorithmId ha).2] at hcut
  exact rejected_of_cut T T' data algorithmId ha hlen out hout part missing hcut hne

/-- An archive that lost its last byte. -/
theorem truncation_rejected_lastByte :
    Rejected Target.scan
      (runTrial Target.scan 0 [65, 65, 66] 0x02).serializedData.dropLast OStream.memory := by
  have hne : (runTrial Target.scan 0 [65, 65, 66] 0x02).serializedData ≠ [] := by
    rw [(runTrial_eq Target.scan 0 [65, 65, 66] 0x02 (by decide)).2, archive]
    simp [headerBytes, magic]
  exact truncation_rejected Target.scan Target.scan 0 [65, 65, 66] 0x02 (by decide) (by decide)
    OStream.memory rfl _ _ (List.dropLast_append_getLast hne).symm (List.cons_ne_nil _ _)

/-! ## Trailing data -/

/-- The run-length decoder rejects a payload followed by anything. -/
theorem rle_decompress_trailing (data trailing : Bytes) (input : IStream) (out : OStream)
    (hin : input.good = true) (hout : out.good = true) (hlen : data.length + 255 < 2 ^ 64)
    (hne : trailing ≠ []) (hr : input.rest = RleCompressor.payload data ++ trailing) :
    ∃ out', RleCompressor.decompress input out (UInt64.ofNat data.length) = .ok (none, out') := by
  have hlen64 : data.length < 2 ^ 64 := by omega
  have hsize : (UInt64.ofNat data.length).toNat = data.length := UInt64.toNat_ofNat_of_lt' hlen64
  obtain ⟨r, written, heq, -, hsome⟩ := RleCompressor.decompress_bounded input out
    (UInt64.ofNat data.length) hin hout
    (RleCompressor.noWrap_of_size _ _ (by rw [hsize]; exact hlen))
  cases r with
  | none => exact ⟨_, heq⟩
  | some v =>
    obtain ⟨-, runs, hruns, hsum, hbytes, -⟩ := hsome v rfl
    rw [hr] at hbytes
    -- the payload already stands for all bytes expected
    have hall : cappedRuns 255 data = runs := RleCompressor.runs_eq_of_pairBytes_prefix
      (RleCompressor.validRuns_cappedRuns data) hruns ⟨trailing, hbytes⟩
      (by rw [hsum, runsTotal_cappedRuns, hsize])
    rw [RleCompressor.payload, hall] at hbytes
    exact absurd (List.append_right_eq_self.mp hbytes) hne

/-- A Huffman archive followed by anything is rejected only if it is that of the empty file. -/
theorem huffman_trailing_iff (T T' : Target) (data trailing : Bytes)
    (hlen : data.length < 2 ^ T'.sizeBits) (hne : trailing ≠ []) :
    Rejected T' (archive T 0x02 data ++ trailing) OStream.memory ↔ data = [] := by
  have ha : IsCodec 0x02 := Or.inr rfl
  rw [archive, List.append_assoc, rejected_file_iff T' _ _ OStream.memory
    (archiveHeader_valid 0x02 data ha) (HuffmanCompressor T') rfl]
  have hr : (behindHeader (archiveHeader 0x02 data) (archivePayload T 0x02 data ++ trailing)).rest =
      HuffmanCompressor.payload T data ++ trailing := rfl
  have hin : (behindHeader (archiveHeader 0x02 data)
      (archivePayload T 0x02 data ++ trailing)).good = true := rfl
  generalize behindHeader (archiveHeader 0x02 data) (archivePayload T 0x02 data ++ trailing) =
    input at *
  constructor
  · rintro ⟨out', hdec⟩
    by_contra hdata
    have hrestored := HuffmanCompressor.decompress_payload_append T T' data trailing input
      OStream.memory hin rfl hdata (T'.lt_two_pow_64 hlen) hlen hr
    rw [OStream.write_memory_good] at hrestored
    have hboth := hrestored.symm.trans hdec
    simp at hboth
  · rintro rfl
    rw [HuffmanCompressor.payload_nil] at hr
    have hrest : input.rest ≠ HuffmanCompressor.countBytes 0 := by
      rw [hr]
      intro heq
      exact hne (List.append_right_eq_self.mp heq)
    have hzero := HuffmanCompressor.decompress_zero T' input OStream.memory hin rfl
    rw [if_neg hrest] at hzero
    exact ⟨_, hzero⟩

/-- **When trailing data is detected.** An archive with anything appended is rejected if and
only if it is a run-length archive or the archive of the empty file. -/
theorem trailing_rejected_iff (T T' : Target) (elapsed : Float) (data : Bytes)
    (algorithmId : UInt8) (ha : IsCodec algorithmId) (hlen : data.length + 255 < 2 ^ 64)
    (hfits : data.length < 2 ^ T'.sizeBits) (trailing : Bytes) (hne : trailing ≠ []) :
    Rejected T' ((runTrial T elapsed data algorithmId).serializedData ++ trailing)
        OStream.memory ↔
      algorithmId = 0x01 ∨ data = [] := by
  rw [(runTrial_eq T elapsed data algorithmId ha).2]
  rcases ha with rfl | rfl
  · refine ⟨fun _ => Or.inl rfl, fun _ => ?_⟩
    have ha : IsCodec 0x01 := Or.inl rfl
    rw [archive, List.append_assoc, rejected_file_iff T' _ _ OStream.memory
      (archiveHeader_valid 0x01 data ha) RleCompressor rfl]
    exact rle_decompress_trailing data trailing (behindHeader _ _) OStream.memory rfl rfl hlen
      hne rfl
  · rw [huffman_trailing_iff T T' data trailing hfits hne]
    refine ⟨Or.inr, ?_⟩
    rintro (h | h)
    · exact absurd h (by decide)
    · exact h

/-- Trailing data behind a run-length archive. -/
theorem trailing_rejected_iff_runs :
    Rejected Target.scan
        ((runTrial Target.scan 0 [7, 7] 0x01).serializedData ++ [1, 8]) OStream.memory ↔
      (0x01 : UInt8) = 0x01 ∨ ([7, 7] : Bytes) = [] :=
  trailing_rejected_iff Target.scan Target.scan 0 [7, 7] 0x01 (by decide) (by decide) (by decide)
    [1, 8] (by decide)

/-- A Huffman archive of two symbols followed by a zero byte is accepted. -/
theorem trailing_accepted :
    ¬ Rejected Target.scan
      ((runTrial Target.scan 0 [65, 66] 0x02).serializedData ++ [0]) OStream.memory := by
  rw [(runTrial_eq Target.scan 0 [65, 66] 0x02 (by decide)).2]
  intro h
  have hnil := (huffman_trailing_iff Target.scan Target.scan [65, 66] [0] (by decide)
    (by decide)).mp h
  exact absurd hnil (by decide)

end Lacuna.Results
