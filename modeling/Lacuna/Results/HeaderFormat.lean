import Lacuna.Analysis.HeaderCodec

/-!
# The header format

`read_header` and `write_header` are written field by field and know nothing of each other.
Together they define one format: the reader accepts exactly the byte strings that begin with
what the writer emits for a valid header (`readHeader_ofBytes_iff`), and hands on the stream
right behind it.
-/

set_option autoImplicit false

namespace Lacuna.Results

open Model

/-- What `write_header` emits for a header, into memory. -/
def emittedHeader (h : Header) : Bytes := (writeHeader OStream.memory h).2.accepted

/-- The writer emits the bytes of the header. -/
theorem emittedHeader_eq (h : Header) : emittedHeader h = headerBytes h := by
  rw [emittedHeader, writeHeader_eq OStream.memory h rfl]
  exact OStream.write_memory_accepted (headerBytes h)

/-- The fields can be read off the bytes of a header. -/
theorem headerBytes_injective : Function.Injective headerBytes := by
  intro h h' heq
  obtain ⟨hfields, hsize⟩ := List.append_inj heq (by simp)
  have horiginal := congrArg sizeOfBytes hsize
  rw [sizeOfBytes_sizeBytes, sizeOfBytes_sizeBytes] at horiginal
  obtain ⟨hversion, halgorithm⟩ := List.append_inj hfields (by simp)
  rw [List.append_cancel_left_eq, List.singleton_inj] at hversion
  rw [List.singleton_inj] at halgorithm
  cases h
  cases h'
  simp_all

/-- The stream a header was read from stands right behind it. -/
theorem readHeader_ofBytes_stream (s : Bytes) (h : Header)
    (hread : (readHeader (IStream.ofBytes s)).1 = some h) :
    (readHeader (IStream.ofBytes s)).2 =
      { before := headerBytes h, rest := s.drop 14, eofbit := false, failbit := false } := by
  obtain ⟨hvalid, payload, hs⟩ := readHeader_sound _ h (IStream.good_ofBytes s) hread
  rw [IStream.rest_ofBytes] at hs
  have hdrop : s.drop 14 = payload := by
    rw [← hs]
    exact List.drop_left' (length_headerBytes h)
  rw [hdrop, readHeader_append _ h payload (IStream.good_ofBytes s) hvalid hs.symm]
  rfl

/-- **The reader accepts exactly what the writer emits for valid headers.** A byte string is
read as a header if and only if the header has the current version and the id of a codec, and
the string begins with the fourteen bytes `write_header` emits for it. The stream is then left
right behind them, in a good state, so that the payload is read from its first byte; and no
other header has the same bytes. -/
theorem readHeader_ofBytes_iff (s : Bytes) (h : Header) :
    ((readHeader (IStream.ofBytes s)).1 = some h ↔
      h.version = 1 ∧ (h.algorithmId = 1 ∨ h.algorithmId = 2) ∧
        (emittedHeader h).length = 14 ∧ emittedHeader h <+: s) ∧
    ((readHeader (IStream.ofBytes s)).1 = some h →
      (readHeader (IStream.ofBytes s)).2 =
        { before := emittedHeader h, rest := s.drop 14, eofbit := false, failbit := false }) ∧
    ∀ h' : Header, emittedHeader h' = emittedHeader h → h' = h := by
  rw [emittedHeader_eq]
  refine ⟨⟨?_, ?_⟩, readHeader_ofBytes_stream s h, ?_⟩
  · intro hread
    obtain ⟨hvalid, hprefix⟩ := readHeader_sound _ h (IStream.good_ofBytes s) hread
    exact ⟨hvalid.1, hvalid.2, length_headerBytes h, hprefix⟩
  · rintro ⟨hversion, halgorithm, -, payload, hs⟩
    rw [readHeader_append _ h payload (IStream.good_ofBytes s) ⟨hversion, halgorithm⟩ hs.symm]
  · intro h' heq
    rw [emittedHeader_eq] at heq
    exact headerBytes_injective heq

end Lacuna.Results
