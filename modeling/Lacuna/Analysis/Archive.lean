import Lacuna.Analysis.HuffmanDecode
import Lacuna.Analysis.RleCodec
import Lacuna.Model.Trial

/-!
# Archives

An archive is a header followed by the payload of one of the two codecs (`archive`), and it is
what `run_trial` produces (`runTrial_eq`). Reading one is reading the header and running the
decompressor it selects; the laws here put the header codec and the two payload codecs
together.
-/

set_option autoImplicit false

namespace Lacuna.Model

open Library

/-- The header `run_trial` writes. -/
def archiveHeader (algorithmId : UInt8) (data : Bytes) : Header :=
  { version := currentVersion
    algorithmId := algorithmId
    originalSize := UInt64.ofNat data.length }

/-- The payload of the codec with a given id. -/
def archivePayload (T : Target) (algorithmId : UInt8) (data : Bytes) : Bytes :=
  if algorithmId = 0x01 then RleCompressor.payload data else HuffmanCompressor.payload T data

/-- The archive of a byte string. -/
def archive (T : Target) (algorithmId : UInt8) (data : Bytes) : Bytes :=
  headerBytes (archiveHeader algorithmId data) ++ archivePayload T algorithmId data

/-- The ids of the two codecs. -/
def IsCodec (algorithmId : UInt8) : Prop := algorithmId = 0x01 ∨ algorithmId = 0x02

/-- A size that fits in `size_t` fits in 64 bits. -/
theorem Target.lt_two_pow_64 (T : Target) {n : ℕ} (h : n < 2 ^ T.sizeBits) : n < 2 ^ 64 := by
  rcases T.sizeBits_eq with hbits | hbits
  · rw [hbits] at h
    omega
  · rw [hbits] at h
    exact h

instance (algorithmId : UInt8) : Decidable (IsCodec algorithmId) :=
  inferInstanceAs (Decidable (_ ∨ _))

/-- The header of an archive is valid. -/
theorem archiveHeader_valid (algorithmId : UInt8) (data : Bytes) (ha : IsCodec algorithmId) :
    (archiveHeader algorithmId data).Valid := ⟨rfl, ha⟩

/-- The codec with a valid id. -/
theorem exists_compressor (T : Target) (algorithmId : UInt8) (ha : IsCodec algorithmId) :
    ∃ c, selectCompressor T algorithmId = some c ∧
      ((algorithmId = 0x01 ∧ c = RleCompressor) ∨
        (algorithmId = 0x02 ∧ c = HuffmanCompressor T)) := by
  rcases ha with rfl | rfl
  · exact ⟨RleCompressor, rfl, Or.inl ⟨rfl, rfl⟩⟩
  · exact ⟨HuffmanCompressor T, rfl, Or.inr ⟨rfl, rfl⟩⟩

/-- **The selected `compress` writes the payload**, on any device. -/
theorem compress_archivePayload (T : Target) (algorithmId : UInt8) (ha : IsCodec algorithmId)
    (data : Bytes) (out : OStream) (hout : out.good = true) :
    ∃ c, selectCompressor T algorithmId = some c ∧
      c.compress (IStream.ofBytes data) out =
        ((out.write (archivePayload T algorithmId data)).good,
          out.write (archivePayload T algorithmId data)) := by
  obtain ⟨c, hc, hwhich⟩ := exists_compressor T algorithmId ha
  refine ⟨c, hc, ?_⟩
  rcases hwhich with ⟨rfl, rfl⟩ | ⟨rfl, rfl⟩
  · exact RleCompressor.compress_eq _ out rfl hout
  · exact HuffmanCompressor.compress_eq T _ out rfl rfl hout

/-- **What `run_trial` returns**: a successful trial with the archive and its size. -/
theorem runTrial_archive (T : Target) (elapsed : Float) (data : Bytes) (algorithmId : UInt8)
    (ha : IsCodec algorithmId) :
    runTrial T elapsed data algorithmId =
      { algoId := algorithmId
        compressedSize := (archive T algorithmId data).length
        durationMs := elapsed
        serializedData := archive T algorithmId data
        success := true } := by
  have hheader := writeHeader_eq OStream.memory (archiveHeader algorithmId data) rfl
  obtain ⟨c, hc, hcompress⟩ := compress_archivePayload T algorithmId ha data
    (OStream.memory.write (headerBytes (archiveHeader algorithmId data)))
    (OStream.write_memory_good _)
  rw [OStream.write_memory_good] at hheader
  rw [← OStream.write_append, ← archive, OStream.write_memory_good] at hcompress
  unfold runTrial
  rw [archiveHeader] at hheader
  simp only [hc, hheader]
  rw [← archiveHeader, hcompress]
  simp only [OStream.write_memory_accepted]

/-- **`run_trial` succeeds and produces the archive.** -/
theorem runTrial_eq (T : Target) (elapsed : Float) (data : Bytes) (algorithmId : UInt8)
    (ha : IsCodec algorithmId) :
    (runTrial T elapsed data algorithmId).success = true ∧
      (runTrial T elapsed data algorithmId).serializedData = archive T algorithmId data := by
  rw [runTrial_archive T elapsed data algorithmId ha]
  exact ⟨rfl, rfl⟩

/-! ## Reading an archive -/

/-- A file is rejected: there is no header in it, or the decompressor its header selects
returns `nullopt`. -/
def Rejected (T : Target) (file : Bytes) (out : OStream) : Prop :=
  (readHeader (IStream.ofBytes file)).1 = none ∨
  ∃ header input c out', readHeader (IStream.ofBytes file) = (some header, input) ∧
    selectCompressor T header.algorithmId = some c ∧
    c.decompress input out header.originalSize = .ok (none, out')

/-- The stream behind a header that was read. -/
def behindHeader (header : Header) (body : Bytes) : IStream :=
  { before := headerBytes header, rest := body, eofbit := false, failbit := false }

/-- Reading a file that starts with a valid header. -/
theorem readHeader_file (header : Header) (body : Bytes) (hvalid : header.Valid) :
    readHeader (IStream.ofBytes (headerBytes header ++ body)) =
      (some header, behindHeader header body) :=
  readHeader_append (IStream.ofBytes (headerBytes header ++ body)) header body rfl hvalid rfl

/-- A file with a valid header is rejected if and only if the decompressor returns
`nullopt`. -/
theorem rejected_file_iff (T : Target) (header : Header) (body : Bytes) (out : OStream)
    (hvalid : header.Valid) (c : Compressor)
    (hc : selectCompressor T header.algorithmId = some c) :
    Rejected T (headerBytes header ++ body) out ↔
      ∃ out', c.decompress (behindHeader header body) out header.originalSize =
        .ok (none, out') := by
  have hread := readHeader_file header body hvalid
  constructor
  · rintro (hnone | ⟨header', input, c', out', hread', hc', hdec⟩)
    · rw [hread] at hnone
      cases hnone
    · rw [hread, Prod.mk.injEq, Option.some.injEq] at hread'
      obtain ⟨rfl, rfl⟩ := hread'
      rw [hc, Option.some.injEq] at hc'
      subst hc'
      exact ⟨out', hdec⟩
  · rintro ⟨out', hdec⟩
    exact Or.inr ⟨header, _, c, out', hread, hc, hdec⟩

/-- **A cut archive is rejected**: its header is incomplete, or its payload is cut short. -/
theorem rejected_of_cut (T T' : Target) (data : Bytes) (algorithmId : UInt8)
    (ha : IsCodec algorithmId) (hlen : data.length < 2 ^ 64) (out : OStream)
    (hout : out.good = true) (part missing : Bytes)
    (hcut : archive T algorithmId data = part ++ missing) (hne : missing ≠ []) :
    Rejected T' part out := by
  rw [archive] at hcut
  have hvalid := archiveHeader_valid algorithmId data ha
  by_cases hshort : part.length < 14
  · -- the cut lies in the header
    left
    cases hread : (readHeader (IStream.ofBytes part)).1 with
    | none => rfl
    | some header =>
      obtain ⟨-, hpre⟩ := readHeader_sound (IStream.ofBytes part) header rfl hread
      have hle := hpre.length_le
      rw [length_headerBytes, IStream.rest_ofBytes] at hle
      omega
  · obtain ⟨body, rfl, hbody⟩ := HuffmanCompressor.exists_append_of_length_le hcut
      (by rw [length_headerBytes]; omega)
    obtain ⟨c, hc, hwhich⟩ := exists_compressor T' algorithmId ha
    rw [rejected_file_iff T' _ body out hvalid c hc]
    rcases hwhich with ⟨rfl, rfl⟩ | ⟨rfl, rfl⟩
    · exact RleCompressor.decompress_cut data body missing _ out rfl hout hlen hbody hne rfl
    · exact HuffmanCompressor.decompress_cut T T' data body missing _ out rfl hout hlen hbody hne
        rfl

/-! ## What a decompressor restores -/

/-- The decompressor restores `data` from its input: on every device, all of it is written, and
the expected size is returned if the stream survived. -/
def Restores (c : Compressor) (input : IStream) (expectedSize : UInt64) (data : Bytes) : Prop :=
  ∀ out : OStream, out.good = true → c.decompress input out expectedSize =
    .ok (if (out.write data).good = true then some expectedSize else none, out.write data)

/-- The run-length decoder returns a value only where it restores something. -/
theorem rle_restores_of_value (input : IStream) (out : OStream) (expectedSize : UInt64)
    (hin : input.good = true) (hout : out.good = true) (v : UInt64) (out' : OStream)
    (h : RleCompressor.decompress input out expectedSize = .ok (some v, out')) :
    ∃ data, Restores RleCompressor input expectedSize data ∧ v = expectedSize ∧
      out' = out.write data := by
  obtain ⟨r, written, heq, -, hsome⟩ := RleCompressor.decompress_sound input out expectedSize hin
    hout
  rw [heq, Except.ok.injEq, Prod.mk.injEq] at h
  obtain ⟨rfl, rfl⟩ := h
  obtain ⟨hv, runs, hvalid, hadm, htotal, hrest, rfl⟩ := hsome v rfl
  refine ⟨expandRuns runs, ?_, hv, rfl⟩
  intro out₂ hout₂
  exact RleCompressor.decompress_runs input out₂ expectedSize runs hin hout₂ hrest hvalid hadm
    htotal

/-- The Huffman decoder returns a value only where it restores something. -/
theorem huffman_restores_of_value (T : Target) (input : IStream) (out : OStream)
    (expectedSize : UInt64) (hin : input.good = true) (hout : out.good = true) (v : UInt64)
    (out' : OStream)
    (h : HuffmanCompressor.decompress T input out expectedSize = .ok (some v, out')) :
    ∃ data, Restores (HuffmanCompressor T) input expectedSize data ∧ v = expectedSize ∧
      out' = out.write data := by
  by_cases hzero : expectedSize = 0
  · subst hzero
    rw [HuffmanCompressor.decompress_zero T input out hin hout, Except.ok.injEq,
      Prod.mk.injEq] at h
    obtain ⟨hv, rfl⟩ := h
    obtain ⟨hrest, hv⟩ := Option.ite_none_right_eq_some.mp hv
    refine ⟨[], ?_, (Option.some.inj hv).symm, rfl⟩
    intro out₂ hout₂
    have hdec := HuffmanCompressor.decompress_zero T input out₂ hin hout₂
    rw [if_pos hrest] at hdec
    rw [OStream.write_nil, hout₂]
    exact hdec
  · rcases HuffmanCompressor.decompress_cases T input expectedSize hin hzero with
      hdec | ⟨value, -, hdec⟩ | ⟨entries, t, more, input', -, hin', -, hdec⟩
    · rw [hdec out hout] at h
      cases h
    · rw [hdec out hout] at h
      obtain ⟨hv, hout', htransfer⟩ := HuffmanCompressor.fillSingle_transfer _ _ _ _ _ _ h
      refine ⟨List.replicate expectedSize.toNat value, ?_, hv, hout'⟩
      intro out₂ hout₂
      exact (hdec out₂ hout₂).trans (htransfer out₂ hout₂)
    · rw [hdec out hout] at h
      cases hdecode : t.decode expectedSize.toNat (unpackBits input'.rest) with
      | none =>
        obtain ⟨written, hnone, -⟩ := HuffmanCompressor.decodeTree_of_decode_none
          (HuffmanCompressor.setEntries (fun _ => 0) entries) t input' out expectedSize hin' hout
          hdecode
        rw [hnone] at h
        cases h
      | some p =>
        obtain ⟨d, rest⟩ := p
        rw [HuffmanCompressor.decodeTree_of_decode _ t input' out expectedSize hin' hout d rest
          hdecode, Except.ok.injEq, Prod.mk.injEq] at h
        obtain ⟨-, hsome⟩ := Option.ite_none_right_eq_some.mp h.1
        refine ⟨d, ?_, (Option.some.inj hsome).symm, h.2.symm⟩
        intro out₂ hout₂
        exact (hdec out₂ hout₂).trans (HuffmanCompressor.decodeTree_of_decode _ t input' out₂
          expectedSize hin' hout₂ d rest hdecode)

/-- **A value is returned only where something is restored**, and then on every device alike. -/
theorem restores_of_value (T : Target) (algorithmId : UInt8) (c : Compressor)
    (hc : selectCompressor T algorithmId = some c) (input : IStream) (out : OStream)
    (expectedSize : UInt64) (hin : input.good = true) (hout : out.good = true) (v : UInt64)
    (out' : OStream) (h : c.decompress input out expectedSize = .ok (some v, out')) :
    ∃ data, Restores c input expectedSize data ∧ v = expectedSize ∧ out' = out.write data := by
  unfold selectCompressor at hc
  split at hc
  · cases hc
    exact rle_restores_of_value input out expectedSize hin hout v out' h
  · split at hc
    · cases hc
      exact huffman_restores_of_value T input out expectedSize hin hout v out' h
    · cases hc

/-- **The selected `decompress` restores the data** from its payload. -/
theorem restores_archivePayload (T T' : Target) (algorithmId : UInt8)
    (ha : IsCodec algorithmId) (data : Bytes) (hlen : data.length < 2 ^ T'.sizeBits)
    (input : IStream) (hin : input.good = true)
    (hr : input.rest = archivePayload T algorithmId data) :
    ∃ c, selectCompressor T' algorithmId = some c ∧
      Restores c input (UInt64.ofNat data.length) data := by
  have hlen64 := T'.lt_two_pow_64 hlen
  have hsize : (UInt64.ofNat data.length).toNat = data.length :=
    UInt64.toNat_ofNat_of_lt' hlen64
  obtain ⟨c, hc, hwhich⟩ := exists_compressor T' algorithmId ha
  refine ⟨c, hc, fun out hout => ?_⟩
  rcases hwhich with ⟨rfl, rfl⟩ | ⟨rfl, rfl⟩
  · have hruns := RleCompressor.decompress_payload input out (UInt64.ofNat data.length)
      (cappedRuns 255 data) hin hout hr (RleCompressor.validRuns_cappedRuns data)
      (by rw [hsize]; exact runsTotal_cappedRuns 255 data)
    rw [expandRuns_cappedRuns] at hruns
    exact hruns
  · by_cases hne : data = []
    · subst hne
      have hzero := HuffmanCompressor.decompress_zero T' input out hin hout
      have hpayload : input.rest = HuffmanCompressor.countBytes 0 := by
        rw [hr]
        exact HuffmanCompressor.payload_nil T
      rw [if_pos hpayload] at hzero
      rw [OStream.write_nil, hout]
      exact hzero
    · exact HuffmanCompressor.decompress_payload_append T T' data [] input out hin hout hne
        hlen64 hlen (by rw [List.append_nil]; exact hr)

end Lacuna.Model
