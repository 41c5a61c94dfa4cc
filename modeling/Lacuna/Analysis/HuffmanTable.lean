import Mathlib.Algebra.BigOperators.Group.List.Lemmas
import Lacuna.Analysis.HeaderCodec
import Lacuna.Analysis.TreeShape
import Lacuna.Model.Huffman

/-!
# The serialised frequency table

The table is a count in two bytes and nine bytes for every entry. The writer lists the byte
values that occur (`putTable_eq`); the reader takes any sequence of entries, sets them one
after the other and sums up the frequencies (`readEntries_append`), and fails on an input
that is too short (`readEntries_short`). Read back, a table written gives the frequencies
it was written from (`setEntries_tableEntries`).
-/

set_option autoImplicit false

namespace Lacuna.Model.HuffmanCompressor

open Library

/-! ## Counting -/

/-- The first pass over one list of bytes, on top of given frequencies. -/
theorem foldl_count (data : Bytes) (frequencies : UInt8 → UInt64) (b : UInt8) :
    data.foldl (fun frequencies byte =>
        Function.update frequencies byte (frequencies byte + 1)) frequencies b =
      frequencies b + UInt64.ofNat (data.count b) := by
  induction data generalizing frequencies with
  | nil => simp
  | cons byte data ih =>
    rw [List.foldl_cons, ih, List.count_cons]
    by_cases hb : byte = b
    · subst hb
      rw [Function.update_self, beq_self_eq_true, if_pos rfl, UInt64.ofNat_add,
        UInt64.add_assoc, UInt64.add_comm 1]
      rfl
    · rw [Function.update_of_ne (Ne.symm hb)]
      simp [hb]

/-- **The first pass counts**, modulo `2 ^ 64`. -/
theorem countFrequencies_eq (chunks : List Bytes) (b : UInt8) :
    countFrequencies chunks b = UInt64.ofNat (chunks.flatten.count b) := by
  rw [countFrequencies, ← List.foldl_flatten, foldl_count]
  simp

/-- The counts of a byte string that is not too long are exact. -/
theorem toNat_countFrequencies (chunks : List Bytes) (hlen : chunks.flatten.length < 2 ^ 64)
    (b : UInt8) : (countFrequencies chunks b).toNat = chunks.flatten.count b := by
  rw [countFrequencies_eq]
  exact UInt64.toNat_ofNat_of_lt' (lt_of_le_of_lt (List.count_le_length) hlen)

/-- The symbols of a byte string are the bytes that occur in it. -/
theorem mem_symbols_countFrequencies (chunks : List Bytes)
    (hlen : chunks.flatten.length < 2 ^ 64) (b : UInt8) :
    b ∈ symbols (countFrequencies chunks) ↔ b ∈ chunks.flatten := by
  rw [mem_symbols, UInt64.lt_iff_toNat_lt, toNat_countFrequencies chunks hlen]
  exact List.count_pos_iff

/-! ## Writing the table -/

/-- The bytes of one entry. -/
def entryBytes (entry : UInt8 × UInt64) : Bytes := entry.1 :: sizeBytes entry.2

/-- The bytes of a list of entries. -/
def entriesBytes (entries : List (UInt8 × UInt64)) : Bytes := entries.flatMap entryBytes

/-- The entries of a frequency table, in the order of their values. -/
def tableEntries (frequencies : UInt8 → UInt64) : List (UInt8 × UInt64) :=
  (symbols frequencies).map fun b => (b, frequencies b)

/-- The two bytes of the unique count. -/
def countBytes (count : UInt16) : Bytes :=
  [(count &&& 0xFF).toUInt8, ((count >>> 8) &&& 0xFF).toUInt8]

/-- The bytes of a frequency table. -/
def tableBytes (frequencies : UInt8 → UInt64) : Bytes :=
  countBytes (uniqueCount frequencies) ++ entriesBytes (tableEntries frequencies)

@[simp] theorem entriesBytes_nil : entriesBytes [] = [] := rfl

@[simp] theorem entriesBytes_cons (entry : UInt8 × UInt64) (entries : List (UInt8 × UInt64)) :
    entriesBytes (entry :: entries) = entryBytes entry ++ entriesBytes entries := rfl

@[simp] theorem length_entryBytes (entry : UInt8 × UInt64) : (entryBytes entry).length = 9 := by
  simp [entryBytes]

@[simp] theorem length_entriesBytes (entries : List (UInt8 × UInt64)) :
    (entriesBytes entries).length = 9 * entries.length := by
  induction entries with
  | nil => rfl
  | cons entry entries ih =>
    rw [entriesBytes_cons, List.length_append, length_entryBytes, ih, List.length_cons]
    omega

@[simp] theorem length_tableEntries (frequencies : UInt8 → UInt64) :
    (tableEntries frequencies).length = (symbols frequencies).length := by
  simp [tableEntries]

/-- The unique count is the number of symbols, which fits in two bytes. -/
theorem toNat_uniqueCount (frequencies : UInt8 → UInt64) :
    (uniqueCount frequencies).toNat = (symbols frequencies).length := by
  have hle := length_symbols_le frequencies
  have hfold : ∀ (l : List UInt8) (n : UInt16), n.toNat + l.length < 2 ^ 16 →
      (l.foldl (fun count _ => count + 1) n).toNat = n.toNat + l.length := by
    intro l
    induction l with
    | nil => intro n _; rfl
    | cons b l ih =>
      intro n hn
      rw [List.length_cons] at hn
      have hone : (n + 1).toNat = n.toNat + 1 := by
        rw [UInt16.toNat_add, show (1 : UInt16).toNat = 1 from rfl, Nat.mod_eq_of_lt (by omega)]
      rw [List.foldl_cons, ih (n + 1) (by omega), hone, List.length_cons]
      omega
  have hcount := foldl_range_symbols frequencies (fun (count : UInt16) _ => count + 1) 0
  rw [uniqueCount, hcount, hfold _ 0 (by simp; omega)]
  simp

/-- One entry is one write of its bytes. -/
theorem putEntry_eq (out : OStream) (value : UInt8) (freq : UInt64) :
    putEntry out value freq = out.write (entryBytes (value, freq)) := by
  rw [putEntry, entryBytes, sizeBytes, OStream.write_cons, OStream.write, List.foldl_map]

/-- **The table is one write of its bytes.** -/
theorem putTable_eq (out : OStream) (frequencies : UInt8 → UInt64) :
    putTable out frequencies = out.write (tableBytes frequencies) := by
  have hentries : ∀ (l : List UInt8) (out : OStream),
      l.foldl (fun out b => putEntry out b (frequencies b)) out =
        out.write (entriesBytes (l.map fun b => (b, frequencies b))) := by
    intro l
    induction l with
    | nil => intro out; rfl
    | cons b l ih =>
      intro out
      rw [List.foldl_cons, ih, putEntry_eq, List.map_cons, entriesBytes_cons,
        OStream.write_append]
  rw [putTable, foldl_range_symbols frequencies
    (fun out b => putEntry out b (frequencies b)), hentries, tableBytes, OStream.write_append]
  rfl

/-! ## Reading the table -/

/-- Two bytes or-ed together, seen on the numbers. -/
theorem toNat_orCount (low high : UInt8) :
    (low.toUInt16 ||| (high.toUInt16 <<< 8)).toNat = low.toNat + high.toNat * 2 ^ 8 := by
  have hlow : low.toNat < 2 ^ 8 := low.toNat_lt
  have hhigh : high.toNat <<< 8 < 2 ^ 16 := by
    have hlt : high.toNat < 2 ^ 8 := high.toNat_lt
    rw [Nat.shiftLeft_eq]
    omega
  rw [UInt16.toNat_or, UInt16.toNat_shiftLeft, UInt8.toNat_toUInt16, UInt8.toNat_toUInt16,
    show (8 : UInt16).toNat % 16 = 8 from rfl, Nat.mod_eq_of_lt hhigh,
    or_shiftLeft_eq_add low.toNat high.toNat 8 hlow]

/-- The two bytes of a count are its two digits. -/
theorem map_toNat_countBytes (count : UInt16) :
    (countBytes count).map UInt8.toNat = [count.toNat % 2 ^ 8, count.toNat / 2 ^ 8] := by
  have hlt : count.toNat < 2 ^ 16 := count.toNat_lt
  have hmask : ∀ c : UInt16, (c &&& 0xFF).toUInt8.toNat = c.toNat % 2 ^ 8 := by
    intro c
    rw [UInt16.toNat_toUInt8, UInt16.toNat_and, show (0xFF : UInt16).toNat = 2 ^ 8 - 1 from rfl,
      Nat.and_two_pow_sub_one_eq_mod, Nat.mod_mod]
  rw [countBytes, List.map_cons, List.map_singleton, hmask, hmask, UInt16.toNat_shiftRight,
    show (8 : UInt16).toNat % 16 = 8 from rfl, Nat.shiftRight_eq_div_pow,
    Nat.mod_eq_of_lt (show count.toNat / 2 ^ 8 < 2 ^ 8 by omega)]

/-- The two bytes of a count give the count. -/
theorem or_countBytes (count : UInt16) :
    (count &&& 0xFF).toUInt8.toUInt16 |||
      (((count >>> 8) &&& 0xFF).toUInt8.toUInt16 <<< 8) = count := by
  have hdigits := map_toNat_countBytes count
  rw [countBytes, List.map_cons, List.map_singleton, List.cons.injEq, List.cons.injEq] at hdigits
  apply UInt16.toNat_inj.mp
  rw [toNat_orCount, hdigits.1, hdigits.2.1]
  omega

/-- Two bytes are the bytes of the count they give. -/
theorem countBytes_or (low high : UInt8) :
    countBytes (low.toUInt16 ||| (high.toUInt16 <<< 8)) = [low, high] := by
  have hlow : low.toNat < 2 ^ 8 := low.toNat_lt
  have hmap := map_toNat_countBytes (low.toUInt16 ||| (high.toUInt16 <<< 8))
  rw [toNat_orCount, Nat.add_mul_mod_self_right, Nat.mod_eq_of_lt hlow,
    Nat.add_mul_div_right _ _ (Nat.two_pow_pos 8), Nat.div_eq_of_lt hlow, Nat.zero_add] at hmap
  exact List.map_injective_iff.mpr (fun a b => UInt8.toNat_inj.mp) hmap

/-- Two bytes are a count. -/
theorem exists_countBytes (data : Bytes) (h : 2 ≤ data.length) :
    ∃ count more, data = countBytes count ++ more := by
  match data, h with
  | low :: high :: more, _ =>
    exact ⟨low.toUInt16 ||| (high.toUInt16 <<< 8), more, by rw [countBytes_or]; rfl⟩

/-- Nine bytes are an entry. -/
theorem exists_entry (data : Bytes) (h : 9 ≤ data.length) :
    ∃ entry more, data = entryBytes entry ++ more := by
  cases data with
  | nil => simp at h
  | cons value rest =>
    rw [List.length_cons] at h
    refine ⟨(value, sizeOfBytes (rest.take 8)), rest.drop 8, ?_⟩
    rw [entryBytes, sizeBytes_sizeOfBytes _ (by rw [List.length_take]; omega), List.cons_append,
      List.take_append_drop]

/-- Enough bytes are a sequence of entries. -/
theorem exists_entries (n : ℕ) (data : Bytes) (h : 9 * n ≤ data.length) :
    ∃ entries more, entries.length = n ∧ data = entriesBytes entries ++ more := by
  induction n generalizing data with
  | zero => exact ⟨[], data, rfl, rfl⟩
  | succ n ih =>
    obtain ⟨entry, rest, rfl⟩ := exists_entry data (by omega)
    rw [List.length_append, length_entryBytes] at h
    obtain ⟨entries, more, hlen, rfl⟩ := ih rest (by omega)
    refine ⟨entry :: entries, more, by rw [List.length_cons, hlen], ?_⟩
    rw [entriesBytes_cons, List.append_assoc]

/-- The frequency array after a list of entries. -/
def setEntries (frequencies : UInt8 → UInt64) (entries : List (UInt8 × UInt64)) :
    UInt8 → UInt64 :=
  entries.foldl (fun frequencies entry => Function.update frequencies entry.1 entry.2) frequencies

/-- The running sum after a list of entries. -/
def sumEntries (sum : UInt64) (entries : List (UInt8 × UInt64)) : UInt64 :=
  entries.foldl (fun sum entry => sum + entry.2) sum

/-- One entry more. -/
theorem setEntries_cons (frequencies : UInt8 → UInt64) (entry : UInt8 × UInt64)
    (entries : List (UInt8 × UInt64)) :
    setEntries frequencies (entry :: entries) =
      setEntries (Function.update frequencies entry.1 entry.2) entries := rfl

/-- A byte value that has no entry keeps its frequency. -/
theorem setEntries_of_notMem (frequencies : UInt8 → UInt64) (entries : List (UInt8 × UInt64))
    (b : UInt8) (h : b ∉ entries.map Prod.fst) :
    setEntries frequencies entries b = frequencies b := by
  induction entries generalizing frequencies with
  | nil => rfl
  | cons entry entries ih =>
    rw [List.map_cons, List.mem_cons, not_or] at h
    rw [setEntries_cons, ih _ h.2, Function.update_of_ne h.1]

/-- Where no value is repeated, every entry sets its frequency. -/
theorem setEntries_of_nodup (frequencies : UInt8 → UInt64) (entries : List (UInt8 × UInt64))
    (hnd : (entries.map Prod.fst).Nodup) (entry : UInt8 × UInt64) (h : entry ∈ entries) :
    setEntries frequencies entries entry.1 = entry.2 := by
  induction entries generalizing frequencies with
  | nil => cases h
  | cons first entries ih =>
    rw [List.map_cons, List.nodup_cons] at hnd
    rw [setEntries_cons]
    rcases List.mem_cons.mp h with rfl | h
    · rw [setEntries_of_notMem _ entries _ hnd.1, Function.update_self]
    · exact ih _ hnd.2 h

/-- The symbols of a table of distinct values with positive frequencies are its values. -/
theorem perm_symbols_of_nodup (entries : List (UInt8 × UInt64))
    (hnd : (entries.map Prod.fst).Nodup) (hpos : ∀ entry ∈ entries, 0 < entry.2) :
    (symbols (setEntries (fun _ => 0) entries)).Perm (entries.map Prod.fst) := by
  rw [List.perm_ext_iff_of_nodup (nodup_symbols _) hnd]
  intro b
  rw [mem_symbols]
  constructor
  · intro hb
    by_contra hno
    rw [setEntries_of_notMem _ entries b hno] at hb
    exact absurd hb (UInt64.lt_irrefl 0)
  · intro hb
    obtain ⟨entry, hentry, rfl⟩ := List.mem_map.mp hb
    rw [setEntries_of_nodup _ entries hnd entry hentry]
    exact hpos entry hentry

/-- A table of distinct values with positive frequencies has as many symbols as entries. -/
theorem length_symbols_of_nodup (entries : List (UInt8 × UInt64))
    (hnd : (entries.map Prod.fst).Nodup) (hpos : ∀ entry ∈ entries, 0 < entry.2) :
    (symbols (setEntries (fun _ => 0) entries)).length = entries.length := by
  rw [(perm_symbols_of_nodup entries hnd hpos).length_eq, List.length_map]

/-- Setting one frequency adds no more than that frequency to a sum over distinct values. -/
theorem sum_update_le (l : List UInt8) (hnd : l.Nodup) (frequencies : UInt8 → UInt64)
    (value : UInt8) (freq : UInt64) :
    (l.map fun b => (Function.update frequencies value freq b).toNat).sum ≤
      (l.map fun b => (frequencies b).toNat).sum + freq.toNat := by
  induction l with
  | nil => simp
  | cons b l ih =>
    rw [List.nodup_cons] at hnd
    rw [List.map_cons, List.sum_cons, List.map_cons, List.sum_cons]
    by_cases hb : b = value
    · have hrest : (l.map fun b => (Function.update frequencies value freq b).toNat) =
          l.map fun b => (frequencies b).toNat := by
        apply List.map_congr_left
        intro c hc
        have hne : c ≠ value := fun h => hnd.1 (hb ▸ h ▸ hc)
        rw [Function.update_of_ne hne]
      rw [hrest, hb, Function.update_self]
      omega
    · have hle := ih hnd.2
      rw [Function.update_of_ne hb]
      omega

/-- The frequencies that are kept add up to no more than all that were read. -/
theorem sum_setEntries_le (l : List UInt8) (hnd : l.Nodup) (frequencies : UInt8 → UInt64)
    (entries : List (UInt8 × UInt64)) :
    (l.map fun b => (setEntries frequencies entries b).toNat).sum ≤
      (l.map fun b => (frequencies b).toNat).sum +
        (entries.map fun entry => entry.2.toNat).sum := by
  induction entries generalizing frequencies with
  | nil => exact Nat.le_add_right _ _
  | cons entry entries ih =>
    have hle := sum_update_le l hnd frequencies entry.1 entry.2
    have htail := ih (Function.update frequencies entry.1 entry.2)
    rw [setEntries_cons, List.map_cons, List.sum_cons]
    omega

/-- An entry is determined by its bytes. -/
theorem entryBytes_injective {entry entry' : UInt8 × UInt64}
    (h : entryBytes entry = entryBytes entry') : entry = entry' := by
  rw [entryBytes, entryBytes, List.cons.injEq] at h
  have hfreq := congrArg sizeOfBytes h.2
  rw [sizeOfBytes_sizeBytes, sizeOfBytes_sizeBytes] at hfreq
  exact Prod.ext h.1 hfreq

/-- The entries at the head of a byte string are determined by their number. -/
theorem entries_unique (entries entries' : List (UInt8 × UInt64)) (more more' : Bytes)
    (hlen : entries.length = entries'.length)
    (h : entriesBytes entries ++ more = entriesBytes entries' ++ more') :
    entries = entries' ∧ more = more' := by
  induction entries generalizing entries' with
  | nil =>
    have hnil := List.eq_nil_of_length_eq_zero hlen.symm
    subst hnil
    exact ⟨rfl, h⟩
  | cons entry entries ih =>
    cases entries' with
    | nil => cases hlen
    | cons entry' entries' =>
      rw [entriesBytes_cons, entriesBytes_cons, List.append_assoc, List.append_assoc] at h
      obtain ⟨hfirst, hrest⟩ := List.append_inj h (by simp)
      obtain ⟨htail, hmore⟩ := ih entries' (by simpa using hlen) hrest
      rw [entryBytes_injective hfirst, htail]
      exact ⟨rfl, hmore⟩

/-- The unique count is read from two bytes. -/
theorem readUniqueCount_cons (input : IStream) (low high : UInt8) (more : Bytes)
    (hg : input.good = true) (hr : input.rest = low :: high :: more) :
    readUniqueCount input = some (low.toUInt16 ||| (high.toUInt16 <<< 8), input.skip 2) := by
  have hhigh : (input.skip 1).get = (some high, (input.skip 1).skip 1) :=
    IStream.get_eq_skip _ high more (by simpa using hg) (by rw [IStream.rest_skip, hr]; rfl)
  simp only [readUniqueCount, IStream.get_eq_skip input low _ hg hr, hhigh, IStream.skip_skip]

/-- Fewer than two bytes are no unique count. -/
theorem readUniqueCount_short (input : IStream) (hg : input.good = true)
    (hlen : input.rest.length < 2) : readUniqueCount input = none := by
  have hend : ∀ s : IStream, s.good = true → s.rest = [] → ∃ s', s.get = (none, s') := by
    intro s hs hr
    exact ⟨s.get.2, Prod.ext (IStream.get_nil s hs hr) rfl⟩
  match hr : input.rest with
  | [] =>
    obtain ⟨s', hs'⟩ := hend input hg hr
    simp only [readUniqueCount, hs']
  | [low] =>
    obtain ⟨s', hs'⟩ := hend (input.skip 1) (by simpa using hg) (by rw [IStream.rest_skip, hr]; rfl)
    simp only [readUniqueCount, IStream.get_eq_skip input low [] hg hr, hs']
  | _ :: _ :: rest =>
    rw [hr, List.length_cons, List.length_cons] at hlen
    omega

/-- **The unique count is read** from its bytes. -/
theorem readUniqueCount_append (input : IStream) (count : UInt16) (more : Bytes)
    (hg : input.good = true) (hr : input.rest = countBytes count ++ more) :
    readUniqueCount input = some (count, input.skip 2) := by
  rw [readUniqueCount_cons input _ _ more hg hr, or_countBytes]

/-- A frequency is put together from the bytes in front. -/
theorem readFrequency_loop (input : IStream) (bytes more : Bytes) (n : ℕ)
    (hg : input.good = true) (hr : input.rest = bytes ++ more) (hn : n ≤ bytes.length) :
    (List.range n).foldlM readFrequencyByte (0, input) =
      some ((List.range n).foldl
        (fun size i => size ||| ((bytes.getD i 0).toUInt64 <<< UInt64.ofNat (i * 8))) 0,
        input.skip n) := by
  induction n with
  | zero => simp
  | succ n ih =>
    have hdrop : (input.skip n).rest = bytes.getD n 0 :: (bytes.drop (n + 1) ++ more) := by
      have hlt : n < bytes.length := hn
      have hget : bytes.getD n 0 = bytes[n] := by simp [hlt]
      rw [IStream.rest_skip, hr, List.drop_append_of_le_length (by omega),
        List.drop_eq_getElem_cons hlt, hget, List.cons_append]
    rw [List.range_succ, List.foldlM_append, ih (by omega), List.foldl_append]
    simp only [Option.bind_eq_bind, Option.bind_some, List.foldlM_cons, List.foldlM_nil,
      List.foldl_cons, List.foldl_nil]
    rw [readFrequencyByte, IStream.get_eq_skip _ _ _ (by simpa using hg) hdrop]
    simp

/-- Eight bytes are read as the frequency they are the bytes of. -/
theorem readFrequency_append (input : IStream) (freq : UInt64) (more : Bytes)
    (hg : input.good = true) (hr : input.rest = sizeBytes freq ++ more) :
    readFrequency input = some (freq, input.skip 8) := by
  have hloop := readFrequency_loop input (sizeBytes freq) more 8 hg hr (by simp)
  rw [← sizeOfBytes, sizeOfBytes_sizeBytes] at hloop
  exact hloop

/-- Fewer than eight bytes are no frequency. -/
theorem readFrequency_short (input : IStream) (hg : input.good = true)
    (hlen : input.rest.length < 8) : readFrequency input = none := by
  have hloop := readFrequency_loop input input.rest [] input.rest.length hg (by simp) le_rfl
  obtain ⟨k, hk⟩ : ∃ k, 8 = input.rest.length + (k + 1) := ⟨7 - input.rest.length, by omega⟩
  have hnone : (input.skip input.rest.length).get.1 = none :=
    IStream.get_nil _ (by simpa using hg) (by simp)
  have hrange : List.range 8 = List.range input.rest.length ++
      (List.range (k + 1)).map (input.rest.length + ·) := by rw [hk, List.range_add]
  rw [readFrequency, hrange, List.foldlM_append, hloop, List.range_succ_eq_map]
  simp only [Option.bind_eq_bind, Option.bind_some, List.map_cons, List.foldlM_cons]
  unfold readFrequencyByte
  split
  · rfl
  · next c input' heq =>
    rw [heq] at hnone
    cases hnone

/-- **One entry is read** from its bytes. -/
theorem readEntry_append (s : TableState) (entry : UInt8 × UInt64) (more : Bytes)
    (hg : s.input.good = true) (hr : s.input.rest = entryBytes entry ++ more) :
    readEntry s =
      some { frequencies := Function.update s.frequencies entry.1 entry.2
             sumFrequencies := s.sumFrequencies + entry.2
             input := s.input.skip 9 } := by
  have hvalue : s.input.get = (some entry.1, s.input.skip 1) :=
    IStream.get_eq_skip s.input entry.1 (sizeBytes entry.2 ++ more) hg hr
  have hfreq := readFrequency_append (s.input.skip 1) entry.2 more (by simpa using hg)
    (by rw [IStream.rest_skip, hr]; rfl)
  simp only [readEntry, hvalue, hfreq, IStream.skip_skip]

/-- Fewer than nine bytes are no entry. -/
theorem readEntry_short (s : TableState) (hg : s.input.good = true)
    (hlen : s.input.rest.length < 9) : readEntry s = none := by
  cases hr : s.input.rest with
  | nil =>
    have hnone := IStream.get_nil s.input hg hr
    unfold readEntry
    split
    · rfl
    · next c input heq =>
      rw [heq] at hnone
      cases hnone
  | cons c rest =>
    have hfreq := readFrequency_short (s.input.skip 1) (by simpa using hg) (by
      rw [IStream.rest_skip, List.length_drop]
      omega)
    simp only [readEntry, IStream.get_eq_skip s.input c rest hg hr, hfreq]

/-- The table loop reads an entry and goes on. -/
theorem readEntries_succ (n : ℕ) (s : TableState) :
    readEntries (n + 1) s = (readEntry s).bind (readEntries n) := by
  unfold readEntries
  simp only [List.range_succ_eq_map, List.foldlM_cons, List.foldlM_map]
  rfl

/-- **A sequence of entries is read** from its bytes. -/
theorem readEntries_append (s : TableState) (entries : List (UInt8 × UInt64)) (more : Bytes)
    (hg : s.input.good = true) (hr : s.input.rest = entriesBytes entries ++ more) :
    readEntries entries.length s =
      some { frequencies := setEntries s.frequencies entries
             sumFrequencies := sumEntries s.sumFrequencies entries
             input := s.input.skip (9 * entries.length) } := by
  induction entries generalizing s with
  | nil => simp [readEntries, setEntries, sumEntries]
  | cons entry entries ih =>
    rw [entriesBytes_cons, List.append_assoc] at hr
    rw [List.length_cons, readEntries_succ, readEntry_append s entry _ hg hr, Option.bind_some,
      ih _ (by simpa using hg) (by
        simp only [IStream.rest_skip, hr, List.drop_left' (length_entryBytes entry)])]
    simp only [setEntries, sumEntries, List.foldl_cons, IStream.skip_skip, Nat.mul_succ,
      Nat.add_comm]

/-- **Too few bytes are no table.** -/
theorem readEntries_short (n : ℕ) (s : TableState) (hg : s.input.good = true)
    (hlen : s.input.rest.length < 9 * n) : readEntries n s = none := by
  induction n generalizing s with
  | zero => omega
  | succ n ih =>
    rw [readEntries_succ]
    by_cases hentry : s.input.rest.length < 9
    · rw [readEntry_short s hg hentry, Option.bind_none]
    · obtain ⟨entry, more, hr⟩ := exists_entry s.input.rest (by omega)
      rw [readEntry_append s entry more hg hr, Option.bind_some]
      apply ih _ (by simpa using hg)
      simp only [IStream.rest_skip, List.length_drop]
      omega

/-! ## A table read back -/

/-- Entries for the symbols of a list set their frequencies and leave the others. -/
theorem setEntries_map (frequencies g : UInt8 → UInt64) (l : List UInt8) (b : UInt8) :
    setEntries g (l.map fun b => (b, frequencies b)) b =
      if b ∈ l then frequencies b else g b := by
  induction l generalizing g with
  | nil => simp [setEntries]
  | cons c l ih =>
    have hstep : setEntries g ((c :: l).map fun b => (b, frequencies b)) b =
        setEntries (Function.update g c (frequencies c)) (l.map fun b => (b, frequencies b)) b :=
      rfl
    rw [hstep, ih]
    by_cases hl : b ∈ l
    · simp [hl]
    · by_cases hc : b = c
      · subst hc
        simp [hl]
      · simp [hl, hc]

/-- **The entries written give back the frequencies.** -/
theorem setEntries_tableEntries (frequencies : UInt8 → UInt64) :
    setEntries (fun _ => 0) (tableEntries frequencies) = frequencies := by
  funext b
  rw [tableEntries, setEntries_map]
  split
  · rfl
  · next hb =>
    rw [mem_symbols, UInt64.lt_iff_toNat_lt, UInt64.toNat_zero, Nat.not_lt, Nat.le_zero] at hb
    apply UInt64.toNat_inj.mp
    rw [hb]
    rfl

/-- The running sum is the sum modulo `2 ^ 64`. -/
theorem toNat_sumEntries (sum : UInt64) (entries : List (UInt8 × UInt64)) :
    (sumEntries sum entries).toNat =
      (sum.toNat + (entries.map fun entry => entry.2.toNat).sum) % 2 ^ 64 := by
  induction entries generalizing sum with
  | nil =>
    have hlt := sum.toNat_lt
    simp [sumEntries, Nat.mod_eq_of_lt hlt]
  | cons entry entries ih =>
    have hstep : sumEntries sum (entry :: entries) = sumEntries (sum + entry.2) entries := rfl
    rw [hstep, ih, UInt64.toNat_add, List.map_cons, List.sum_cons, Nat.mod_add_mod, Nat.add_assoc]

/-- The counts of the symbols of a byte string add up to its length. -/
theorem sum_count_symbols (chunks : List Bytes) (hlen : chunks.flatten.length < 2 ^ 64) :
    ((symbols (countFrequencies chunks)).map fun b => chunks.flatten.count b).sum =
      chunks.flatten.length := by
  have hperm : (symbols (countFrequencies chunks)).Perm chunks.flatten.dedup := by
    rw [List.perm_ext_iff_of_nodup (nodup_symbols _) (List.nodup_dedup _)]
    intro b
    rw [mem_symbols_countFrequencies chunks hlen, List.mem_dedup]
  rw [(hperm.map _).sum_eq]
  exact List.sum_map_count_dedup_eq_length _

/-- **The entries written sum up to the length.** -/
theorem sumEntries_tableEntries (chunks : List Bytes) (hlen : chunks.flatten.length < 2 ^ 64) :
    sumEntries 0 (tableEntries (countFrequencies chunks)) =
      UInt64.ofNat chunks.flatten.length := by
  apply UInt64.toNat_inj.mp
  rw [toNat_sumEntries, tableEntries, List.map_map, UInt64.toNat_ofNat_of_lt' hlen]
  have hsum := sum_count_symbols chunks hlen
  have hcounts : (fun entry : UInt8 × UInt64 => entry.2.toNat) ∘
      (fun b => (b, countFrequencies chunks b)) = fun b => chunks.flatten.count b := by
    funext b
    exact toNat_countFrequencies chunks hlen b
  rw [hcounts, hsum, UInt64.toNat_zero, Nat.zero_add, Nat.mod_eq_of_lt hlen]

end Lacuna.Model.HuffmanCompressor
