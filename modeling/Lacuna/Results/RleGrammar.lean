import Lacuna.Library.GreedyRuns
import Lacuna.Analysis.RleCodec

/-!
# The language of the run-length codec

The decoder accepts the payloads that are complete pairs with counts that are not zero and sum
up to the expected size (`accepts_grammar`), however the bytes are delivered. Many payloads
stand for the same data; the encoder picks a shortest one (`compress_shortest`), and the
payloads it can pick are those in which a pair is full wherever its value goes on
(`compress_canonical_iff`).
-/

set_option autoImplicit false

namespace Lacuna.Results

open Model Library RleCompressor

/-! ## The grammar -/

/-- `payload` is a sequence of complete pairs, the counts of which lie between `1` and `255`
and sum up to `size`. -/
def SpellsRuns (payload : Bytes) (size : ℕ) (runs : List (ℕ × UInt8)) : Prop :=
  ValidRuns runs ∧ runsTotal runs = size ∧ payload = pairBytes runs

/-- `decompress` on an input that is delivered in given chunks: a byte can be peeked if there
is a chunk, and the loops see the chunks as they come. -/
def decompressDelivered (chunks : List Bytes) (out : OStream) (expectedSize : UInt64) :
    Except Fault Decompressed :=
  if !out.good then .ok (none, out)
  else if expectedSize = 0 then
    match chunks with
    | _ :: _ => .ok (none, out)
    | [] => .ok (some 0, out)
  else runBody (decompressChunks chunks out expectedSize)

/-- The loops see only the bytes. -/
theorem decompressChunks_flatten (chunks more : List Bytes) (out : OStream)
    (expectedSize : UInt64) (h : chunks.flatten = more.flatten) :
    decompressChunks chunks out expectedSize = decompressChunks more out expectedSize := by
  rw [decompressChunks, decompressChunks, foldlM_flatten, foldlM_flatten, h]

/-- **The delivery does not matter**: on any stream with the same bytes to come, `decompress`
does the same. -/
theorem decompressDelivered_eq (chunks : List Bytes) (input : IStream) (out : OStream)
    (expectedSize : UInt64) (hne : ∀ chunk ∈ chunks, chunk ≠ []) (hin : input.good = true)
    (hrest : input.rest = chunks.flatten) :
    decompressDelivered chunks out expectedSize = decompress input out expectedSize := by
  have hchunks : chunks.flatten = input.readChunks.1.flatten := by
    rw [IStream.readChunks_flatten input hin, hrest]
  have hpeek := IStream.peek_eq_head? input hin
  unfold decompressDelivered decompress
  rw [IStream.failbit_of_good input hin, Bool.false_or, hpeek, hrest,
    decompressChunks_flatten chunks _ out expectedSize hchunks]
  cases chunks with
  | nil => rfl
  | cons chunk chunks =>
    obtain ⟨b, rest, rfl⟩ := List.exists_cons_of_ne_nil (hne chunk List.mem_cons_self)
    rfl

/-- What `decompress` returns for a payload of the grammar, and that it returns nothing for
others. -/
theorem decompress_grammar (input : IStream) (expectedSize : UInt64) (hin : input.good = true)
    (hwrap : NoWrap expectedSize input.rest) :
    ∃ r out, decompress input OStream.memory expectedSize = .ok (r, out) ∧
      (r.isSome = true ↔ ∃ runs, SpellsRuns input.rest expectedSize.toNat runs) ∧
      ∀ runs, SpellsRuns input.rest expectedSize.toNat runs →
        r = some expectedSize ∧ out.accepted = expandRuns runs := by
  obtain ⟨r, written, heq, -, hsound⟩ :=
    decompress_bounded input OStream.memory expectedSize hin rfl hwrap
  have hcomplete : ∀ runs, SpellsRuns input.rest expectedSize.toNat runs →
      r = some expectedSize ∧ (OStream.memory.write written).accepted = expandRuns runs := by
    rintro runs ⟨hvalid, htotal, hrest⟩
    have h := decompress_payload input OStream.memory expectedSize runs hin rfl hrest hvalid htotal
    rw [OStream.write_memory_good, if_pos rfl, heq, Except.ok.injEq, Prod.mk.injEq] at h
    rw [h.2, OStream.write_memory_accepted]
    exact ⟨h.1, rfl⟩
  refine ⟨r, OStream.memory.write written, heq, ?_, hcomplete⟩
  constructor
  · intro hsome
    obtain ⟨v, hv⟩ := Option.isSome_iff_exists.mp hsome
    obtain ⟨-, runs, hvalid, htotal, hrest, -⟩ := hsound v hv
    exact ⟨runs, hvalid, htotal, hrest⟩
  · rintro ⟨runs, hruns⟩
    rw [(hcomplete runs hruns).1]
    rfl

/-- **The decoder accepts exactly its grammar.** Of a payload shorter than `2 ^ 57` bytes,
delivered in any chunks that are not empty, a value is returned if and only if it is a sequence
of complete pairs with counts between `1` and `255` that sum up to the expected size. The value
is that size, the output is what the pairs stand for, and a stream that delivers the bytes in
other chunks gives the same. -/
theorem accepts_grammar (chunks : List Bytes) (expectedSize : UInt64)
    (hne : ∀ chunk ∈ chunks, chunk ≠ []) (hlen : chunks.flatten.length < 2 ^ 57) :
    ∃ r out, decompressDelivered chunks OStream.memory expectedSize = .ok (r, out) ∧
      (r.isSome = true ↔ ∃ runs, SpellsRuns chunks.flatten expectedSize.toNat runs) ∧
      (∀ runs, SpellsRuns chunks.flatten expectedSize.toNat runs →
        r = some expectedSize ∧ out.accepted = expandRuns runs) ∧
      ∀ input : IStream, input.good = true → input.rest = chunks.flatten →
        decompress input OStream.memory expectedSize = .ok (r, out) := by
  have hwrap := noWrap_of_length expectedSize chunks.flatten hlen
  obtain ⟨r, out, heq, hiff, hruns⟩ :=
    decompress_grammar (IStream.ofBytes chunks.flatten) expectedSize rfl hwrap
  have hdelivered := decompressDelivered_eq chunks (IStream.ofBytes chunks.flatten)
    OStream.memory expectedSize hne rfl rfl
  refine ⟨r, out, hdelivered.trans heq, hiff, hruns, ?_⟩
  intro input hin hrest
  rw [← decompressDelivered_eq chunks input OStream.memory expectedSize hne hin hrest]
  exact hdelivered.trans heq

/-- A pair that is split between two chunks. -/
theorem accepts_grammar_split :
    ∃ r out, decompressDelivered [[3], [7]] OStream.memory 3 = .ok (r, out) ∧
      (r.isSome = true ↔ ∃ runs, SpellsRuns [3, 7] 3 runs) ∧
      (∀ runs, SpellsRuns [3, 7] 3 runs → r = some 3 ∧ out.accepted = expandRuns runs) ∧
      ∀ input : IStream, input.good = true → input.rest = [3, 7] →
        decompress input OStream.memory 3 = .ok (r, out) :=
  accepts_grammar [[3], [7]] 3 (by simp) (by decide)

/-! ## The payloads of the encoder -/

/-- What an accepted payload spells. -/
theorem runs_of_decompress (payload : Bytes) (expectedSize v : UInt64) (out : OStream)
    (h : decompress (IStream.ofBytes payload) OStream.memory expectedSize = .ok (some v, out)) :
    ∃ runs, ValidRuns runs ∧ payload = pairBytes runs ∧ out.accepted = expandRuns runs := by
  obtain ⟨r, written, heq, -, hsound⟩ :=
    decompress_sound (IStream.ofBytes payload) OStream.memory expectedSize rfl rfl
  rw [heq, Except.ok.injEq, Prod.mk.injEq] at h
  obtain ⟨-, runs, hvalid, -, -, hrest, hwritten⟩ := hsound v h.1
  refine ⟨runs, hvalid, hrest, ?_⟩
  rw [← h.2, OStream.write_memory_accepted, hwritten]

/-- **The encoder's payload is a shortest one**: no payload the decoder accepts for the same
data has fewer bytes. -/
theorem compress_shortest (payload : Bytes) (expectedSize v : UInt64) (out : OStream)
    (h : decompress (IStream.ofBytes payload) OStream.memory expectedSize = .ok (some v, out)) :
    (compress (IStream.ofBytes out.accepted) OStream.memory).1 = true ∧
      (compress (IStream.ofBytes out.accepted) OStream.memory).2.accepted.length ≤
        payload.length := by
  obtain ⟨runs, hvalid, rfl, hout⟩ := runs_of_decompress payload expectedSize v out h
  have hle := length_cappedRuns_le 255 runs hvalid
  rw [compress_memory, OStream.write_memory_accepted, hout, RleCompressor.payload,
    length_pairBytes, length_pairBytes]
  exact ⟨rfl, by omega⟩

/-- A run of three that was split in two. -/
theorem compress_shortest_split :
    (compress (IStream.ofBytes [7, 7, 7]) OStream.memory).1 = true ∧
      (compress (IStream.ofBytes [7, 7, 7]) OStream.memory).2.accepted.length ≤
        ([2, 7, 1, 7] : Bytes).length :=
  compress_shortest [2, 7, 1, 7] 3 3 (OStream.memory.write [7, 7, 7]) (by decide +kernel)

/-- The pairs of a payload, with their counts as numbers. -/
def pairs : Bytes → List (ℕ × UInt8)
  | count :: value :: rest => (count.toNat, value) :: pairs rest
  | _ => []

/-- The pairs of the bytes of valid runs are the runs. -/
theorem pairs_pairBytes (runs : List (ℕ × UInt8)) (h : ValidRuns runs) :
    pairs (pairBytes runs) = runs := by
  induction runs with
  | nil => rfl
  | cons r runs ih =>
    have hcount := toNat_ofNat_count (h r List.mem_cons_self).2
    rw [pairBytes_cons, pairs, hcount, ih fun x hx => h x (List.mem_cons_of_mem r hx)]

/-- **The canonical payloads.** The encoder makes an accepted payload again from its data if
and only if every pair that is immediately followed by one with the same value has the count
`255`. -/
theorem compress_canonical_iff (payload : Bytes) (expectedSize v : UInt64) (out : OStream)
    (h : decompress (IStream.ofBytes payload) OStream.memory expectedSize = .ok (some v, out)) :
    (compress (IStream.ofBytes out.accepted) OStream.memory).2.accepted = payload ↔
      (pairs payload).IsChain fun r next => r.2 = next.2 → r.1 = 255 := by
  obtain ⟨runs, hvalid, rfl, hout⟩ := runs_of_decompress payload expectedSize v out h
  have hchain := cappedRuns_expandRuns_iff 255 runs hvalid
  rw [compress_memory, OStream.write_memory_accepted, hout, pairs_pairBytes runs hvalid]
  refine Iff.trans ?_ hchain
  constructor
  · intro heq
    exact runs_eq_of_pairBytes_eq (validRuns_cappedRuns _) hvalid heq
  · intro heq
    rw [RleCompressor.payload, heq]

/-- A run of three in two pairs, which is not how it is made again. -/
theorem compress_canonical_iff_twoPairs :
    (compress (IStream.ofBytes [7, 7, 7]) OStream.memory).2.accepted = [2, 7, 1, 7] ↔
      (pairs [2, 7, 1, 7]).IsChain fun r next => r.2 = next.2 → r.1 = 255 :=
  compress_canonical_iff [2, 7, 1, 7] 3 3 (OStream.memory.write [7, 7, 7]) (by decide +kernel)

/-! ## Concatenation -/

/-- What `compress` puts into memory for some data. -/
def emitted (data : Bytes) : Bytes :=
  (compress (IStream.ofBytes data) OStream.memory).2.accepted

/-- It is the payload. -/
theorem emitted_eq (data : Bytes) : emitted data = RleCompressor.payload data := by
  rw [emitted, compress_memory, OStream.write_memory_accepted]

/-- `payload` is taken for the data by the decoder, at their length. -/
def StandsFor (payload data : Bytes) : Prop :=
  decompress (IStream.ofBytes payload) OStream.memory (UInt64.ofNat data.length) =
    .ok (some (UInt64.ofNat data.length), OStream.memory.write data)

/-- Valid pairs stand for what they spell. -/
theorem standsFor_pairBytes (runs : List (ℕ × UInt8)) (hvalid : ValidRuns runs)
    (hlen : (expandRuns runs).length < 2 ^ 64) :
    StandsFor (pairBytes runs) (expandRuns runs) := by
  have h := decompress_payload (IStream.ofBytes (pairBytes runs)) OStream.memory
    (UInt64.ofNat (expandRuns runs).length) runs rfl rfl rfl hvalid
    (by rw [UInt64.toNat_ofNat_of_lt' hlen, length_expandRuns])
  rw [OStream.write_memory_good, if_pos rfl] at h
  exact h

/-- How the codec treats a file that is cut in two. The payload of the whole is that of the parts,
one after the other, exactly where the last pair of the first is full or the second begins with
another value; in any case it is no longer, and at most one pair shorter. Any payloads of the
parts, one after the other, are one of the whole. -/
structure Concatenates (data more : Bytes) : Prop where
  exact_iff : emitted (data ++ more) = emitted data ++ emitted more ↔
    ∀ r ∈ (pairs (emitted data)).getLast?, ∀ next ∈ (pairs (emitted more)).head?,
      r.2 = next.2 → r.1 = 255
  at_most : (emitted (data ++ more)).length ≤ (emitted data).length + (emitted more).length
  at_least : (emitted data).length + (emitted more).length ≤
    (emitted (data ++ more)).length + 2
  decoded : ∀ payload payload' : Bytes, StandsFor payload data → StandsFor payload' more →
    StandsFor (payload ++ payload') (data ++ more)

/-- **Cutting a file costs at most one pair**, and concatenated payloads stand for concatenated
data. -/
theorem rle_concatenates (data more : Bytes) (hlen : (data ++ more).length < 2 ^ 64) :
    Concatenates data more := by
  have hpairs : ∀ d : Bytes, pairs (emitted d) = cappedRuns 255 d := by
    intro d
    rw [emitted_eq, RleCompressor.payload, pairs_pairBytes _ (validRuns_cappedRuns d)]
  have hlength : ∀ d : Bytes, (emitted d).length = 2 * (cappedRuns 255 d).length := by
    intro d
    rw [emitted_eq, RleCompressor.payload, length_pairBytes]
  have hvalid : ValidRuns (cappedRuns 255 data ++ cappedRuns 255 more) := by
    intro r hr
    rcases List.mem_append.mp hr with hr | hr
    · exact validRuns_cappedRuns data r hr
    · exact validRuns_cappedRuns more r hr
  have hmost := length_cappedRuns_append_le 255 (by decide) data more
  have hleast := length_cappedRuns_add_le 255 (by decide) data more
  constructor
  · rw [hpairs, hpairs, emitted_eq, emitted_eq, emitted_eq, RleCompressor.payload,
      RleCompressor.payload, RleCompressor.payload, ← pairBytes_append]
    refine Iff.trans ?_ (cappedRuns_append_iff 255 (by decide) data more)
    exact ⟨runs_eq_of_pairBytes_eq (validRuns_cappedRuns _) hvalid, fun heq => by rw [heq]⟩
  · rw [hlength, hlength, hlength]
    omega
  · rw [hlength, hlength, hlength]
    omega
  · intro payload payload' h h'
    obtain ⟨runs, hruns, rfl, hout⟩ := runs_of_decompress _ _ _ _ h
    obtain ⟨runs', hruns', rfl, hout'⟩ := runs_of_decompress _ _ _ _ h'
    rw [OStream.write_memory_accepted] at hout hout'
    subst hout hout'
    rw [← pairBytes_append, ← expandRuns_append] at *
    apply standsFor_pairBytes _ _ hlen
    intro r hr
    rcases List.mem_append.mp hr with hr | hr
    · exact hruns r hr
    · exact hruns' r hr

/-- A run of six that is cut in two. -/
theorem rle_concatenates_cut : Concatenates [7, 7, 7] [7, 7, 7] :=
  rle_concatenates [7, 7, 7] [7, 7, 7] (by decide)

end Lacuna.Results
