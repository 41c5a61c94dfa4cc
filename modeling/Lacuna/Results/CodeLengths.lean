import Lacuna.Library.GreedyDepth
import Lacuna.Library.Entropy
import Lacuna.Results.AutoSelection
import Lacuna.Results.Optimality

/-!
# How long codes and archives get

While the frequencies add up below `2 ^ 64`, the loop of `build_tree` is greedy merging by true
weights. So a code of `n` bits needs a table whose sum is at least the `n + 2`nd Fibonacci number,
and none is longer than 91 bits (`short_codes`). The packed codewords of a file take its entropy
and less than one bit more for each byte (`huffmanArchive_entropy`). No archive is longer than the
data by more than its header and table, and the run-length codec doubles exactly the data without
runs (`archive_expansion`).
-/

set_option autoImplicit false

namespace Lacuna.Results

open Model Library

/-! ## The loop as greedy merging -/

/-- While nothing wraps around, the comparator of `build_tree` merges lightest trees. -/
theorem mergeRun_heavier (frequencies : UInt8 → UInt64)
    (htotal : totalFrequency frequencies < 2 ^ 64) (t : CodeTree UInt8)
    (h : MergeRun (treeComparator frequencies) CodeTree.node (leafForest frequencies) {t}) :
    MergeRun (heavier (weightOf frequencies)) CodeTree.node (leafForest frequencies) {t} := by
  refine h.mono
    (P := fun s => forestLeaves s = (symbols frequencies : Multiset UInt8)) ?_ ?_ (by simp)
  · intro s s' hstep hs
    rw [hstep.forestLeaves, hs]
  · exact heavier_of_treeComparator frequencies htotal

/-- The symbols have positive weights. -/
theorem weightOf_pos (frequencies : UInt8 → UInt64) (b : UInt8) (hb : b ∈ symbols frequencies) :
    0 < weightOf frequencies b := by
  rw [mem_symbols, UInt64.lt_iff_toNat_lt] at hb
  exact hb

/-- The tree over the whole table weighs its sum. -/
theorem weight_eq_totalFrequency (frequencies : UInt8 → UInt64) (t : CodeTree UInt8)
    (hperm : t.leaves.Perm (symbols frequencies)) :
    t.weight (weightOf frequencies) = totalFrequency frequencies :=
  (hperm.map _).sum_eq

/-! ## The longest code -/

/-- What bounds the codes of a table: a code of `n` bits for a symbol of frequency `f` needs the
sum `f * fib (n + 1) + fib n`, so no code is longer than 91 bits, and the tree is as deep as its
longest code. -/
structure ShortCodes (frequencies : UInt8 → UInt64) (root : HuffmanNode) : Prop where
  frequency : ∀ b, 0 < frequencies b →
    weightOf frequencies b * Nat.fib ((codeTable root b).length + 1) +
      Nat.fib (codeTable root b).length ≤ totalFrequency frequencies
  length : ∀ b, (codeTable root b).length ≤ 91
  depth : root.depth ≤ 91

/-- From the 94th on, the Fibonacci numbers do not fit into 64 bits. -/
theorem le_91_of_fib (n total : ℕ) (htotal : total < 2 ^ 64) (h : Nat.fib (n + 2) ≤ total) :
    n ≤ 91 := by
  by_contra hn
  have hmono : Nat.fib 94 ≤ Nat.fib (n + 2) := Nat.fib_mono (by omega)
  have h94 : (2 : ℕ) ^ 64 ≤ Nat.fib 94 := by decide +kernel
  omega

/-- **Codes are short.** For every table whose frequencies add up below `2 ^ 64`. -/
theorem short_codes (T : Target) (frequencies : UInt8 → UInt64)
    (htotal : totalFrequency frequencies < 2 ^ 64) :
    ShortCodes frequencies (buildTree T frequencies) := by
  rcases buildTree_spec T frequencies with ⟨hnil, hnull⟩ | ⟨t, ht, hrun⟩
  · rw [hnull]
    refine ⟨fun b hb => ?_, fun b => Nat.zero_le _, Nat.zero_le _⟩
    rw [← mem_symbols, hnil] at hb
    cases hb
  · have hperm := leaves_perm_symbols frequencies t hrun
    have hnd : t.leaves.Nodup := hperm.nodup_iff.mpr (nodup_symbols frequencies)
    have hpos : ∀ b ∈ t.leaves, 0 < weightOf frequencies b := fun b hb =>
      weightOf_pos frequencies b (hperm.mem_iff.mp hb)
    have hgraded : t.Graded (weightOf frequencies) := by
      apply (mergeRun_heavier frequencies htotal t hrun).graded
      intro u hu
      obtain ⟨b, -, rfl⟩ := List.mem_map.mp (Multiset.mem_coe.mp hu)
      exact ⟨b, rfl⟩
    have hfib : ∀ b ∈ t.leaves, weightOf frequencies b * Nat.fib ((t.code b).length + 1) +
        Nat.fib (t.code b).length ≤ totalFrequency frequencies := by
      intro b hb
      rw [← weight_eq_totalFrequency frequencies t hperm]
      exact hgraded.le_weight (weightOf frequencies) t hnd hpos b hb
    have hlength : ∀ b ∈ t.leaves, (t.code b).length ≤ 91 := by
      intro b hb
      apply le_91_of_fib _ _ htotal
      have hone : Nat.fib ((t.code b).length + 1) ≤
          weightOf frequencies b * Nat.fib ((t.code b).length + 1) :=
        Nat.le_mul_of_pos_left _ (hpos b hb)
      have hadd : Nat.fib ((t.code b).length + 2) =
          Nat.fib (t.code b).length + Nat.fib ((t.code b).length + 1) := Nat.fib_add_two
      have hsum := hfib b hb
      omega
    rw [ht]
    constructor
    · intro b hb
      have hmem : b ∈ t.leaves := hperm.mem_iff.mpr ((mem_symbols frequencies b).mpr hb)
      rw [codeTable_ofTree frequencies t hnd]
      simpa only [hmem, if_true] using hfib b hmem
    · intro b
      rw [codeTable_ofTree frequencies t hnd]
      by_cases hb : b ∈ t.leaves
      · simpa only [hb, if_true] using hlength b hb
      · simp only [hb, if_false, List.length_nil, Nat.zero_le]
    · obtain ⟨b, hb, hdeep⟩ := t.exists_length_code_eq_depth hnd
      rw [HuffmanNode.depth_ofTree, ← hdeep]
      exact hlength b hb

/-- A table whose frequencies are Fibonacci numbers, with the smallest one once more. -/
def fibonacciTable (b : UInt8) : UInt64 :=
  if b ≤ 2 then 1 else if b ≤ 91 then UInt64.ofNat (Nat.fib b.toNat) else 0

/-- The codes of this table, of which one has 91 bits. -/
theorem short_codes_fibonacciTable :
    ShortCodes fibonacciTable (buildTree Target.scan fibonacciTable) ∧
      (buildTree Target.scan fibonacciTable).depth = 91 :=
  ⟨short_codes Target.scan fibonacciTable (by decide +kernel), by decide +kernel⟩

/-! ## Frequent bytes -/

/-- **Frequent bytes have short codes.** For every table whose frequencies add up below `2 ^ 64`, of
two bytes that occur the more frequent one has no longer code. -/
theorem codeLength_antitone (T : Target) (frequencies : UInt8 → UInt64)
    (htotal : totalFrequency frequencies < 2 ^ 64) (a b : UInt8) (hb : 0 < frequencies b)
    (hab : frequencies b < frequencies a) :
    (codeTable (buildTree T frequencies) a).length ≤
      (codeTable (buildTree T frequencies) b).length := by
  have hmemb : b ∈ symbols frequencies := (mem_symbols frequencies b).mpr hb
  have hmema : a ∈ symbols frequencies :=
    (mem_symbols frequencies a).mpr (UInt64.lt_trans hb hab)
  rcases buildTree_spec T frequencies with ⟨hnil, -⟩ | ⟨t, ht, hrun⟩
  · rw [hnil] at hmemb
    cases hmemb
  · have hperm := leaves_perm_symbols frequencies t hrun
    have hnd : t.leaves.Nodup := hperm.nodup_iff.mpr (nodup_symbols frequencies)
    have hle := (mergeRun_heavier frequencies htotal t hrun).length_code_le
      (nodup_symbols frequencies) hperm a b hmema hmemb (UInt64.lt_iff_toNat_lt.mp hab)
    rw [ht, codeTable_ofTree frequencies t hnd]
    simpa only [hperm.mem_iff.mpr hmema, hperm.mem_iff.mpr hmemb, if_true] using hle

/-- In the Fibonacci table the byte 91 has a code no longer than the byte 0. -/
theorem codeLength_antitone_fibonacciTable :
    (codeTable (buildTree Target.scan fibonacciTable) 91).length ≤
      (codeTable (buildTree Target.scan fibonacciTable) 0).length :=
  codeLength_antitone Target.scan fibonacciTable (by decide +kernel) 91 0 (by decide)
    (by decide +kernel)

/-! ## Entropy -/

/-- The weights of a file's table are the counts of its bytes. -/
theorem weightOf_frequenciesOf (data : Bytes) (hlen : data.length < 2 ^ 64) (b : UInt8) :
    weightOf (HuffmanCompressor.frequenciesOf data) b = data.count b := by
  have hcount := HuffmanCompressor.toNat_countFrequencies [data] (by simpa using hlen) b
  rw [List.flatten_singleton] at hcount
  exact hcount

/-- A sum over the symbols of a file's table goes through its distinct bytes. -/
theorem sum_map_symbols {M : Type} [AddCommMonoid M] (data : Bytes)
    (hlen : data.length < 2 ^ 64) (f : UInt8 → M) :
    ((symbols (HuffmanCompressor.frequenciesOf data)).map f).sum = data.toFinset.sum f := by
  have hset : (symbols (HuffmanCompressor.frequenciesOf data)).toFinset = data.toFinset := by
    ext b
    rw [List.mem_toFinset, List.mem_toFinset]
    exact HuffmanCompressor.mem_symbols_frequenciesOf data hlen b
  rw [← hset, List.sum_toFinset f (nodup_symbols _)]

/-- The frequencies of a file add up to its length. -/
theorem totalFrequency_frequenciesOf (data : Bytes) (hlen : data.length < 2 ^ 64) :
    totalFrequency (HuffmanCompressor.frequenciesOf data) = data.length := by
  rw [totalFrequency, sum_map_symbols data hlen]
  simp only [weightOf_frequenciesOf data hlen]
  exact List.sum_toFinset_count_eq_length data

/-- The entropy of a file in bits, by how often its bytes occur. -/
noncomputable def dataEntropy (data : Bytes) : ℝ :=
  data.toFinset.sum fun b => (data.count b : ℝ) * surprise data.length (data.count b)

/-- It is the entropy of the table's weights. -/
theorem entropy_symbols (data : Bytes) (hlen : data.length < 2 ^ 64) :
    entropy (weightOf (HuffmanCompressor.frequenciesOf data))
        (symbols (HuffmanCompressor.frequenciesOf data)) = dataEntropy data := by
  have htotal := totalFrequency_frequenciesOf data hlen
  rw [totalFrequency] at htotal
  rw [entropy, htotal, sum_map_symbols data hlen, dataEntropy]
  simp only [weightOf_frequenciesOf data hlen]

/-- The bits of the codewords are the path cost of the tree. -/
theorem length_payloadBits_eq_pathCost (T : Target) (data : Bytes) (hlen : data.length < 2 ^ 64)
    (t : CodeTree UInt8)
    (ht : buildTree T (HuffmanCompressor.frequenciesOf data) =
      HuffmanNode.ofTree (HuffmanCompressor.frequenciesOf data) t)
    (hperm : t.leaves.Perm (symbols (HuffmanCompressor.frequenciesOf data))) :
    (data.toFinset.sum fun b => data.count b *
      (codeTable (buildTree T (HuffmanCompressor.frequenciesOf data)) b).length) =
      t.pathCost (weightOf (HuffmanCompressor.frequenciesOf data)) := by
  rw [← totalLength_codeTable _ t hperm, ← ht, totalLength, sum_map_symbols data hlen]
  simp only [weightOf_frequenciesOf data hlen]

/-- **The bits of a file's codewords**: at least its entropy, and less than that and one bit for
each byte; no more than eight for each byte. -/
theorem payloadBits_bounds (T : Target) (data : Bytes) (hlen : data.length < 2 ^ 64)
    (hne : data ≠ []) :
    ∃ bits : ℕ, (data.toFinset.sum fun b => data.count b *
        (codeTable (buildTree T (HuffmanCompressor.frequenciesOf data)) b).length) = bits ∧
      dataEntropy data ≤ bits ∧ bits < dataEntropy data + data.length ∧
      bits ≤ 8 * data.length := by
  set frequencies := HuffmanCompressor.frequenciesOf data with hfreq
  have htotal : totalFrequency frequencies = data.length :=
    totalFrequency_frequenciesOf data hlen
  have hsum : ((symbols frequencies).map (weightOf frequencies)).sum = data.length := htotal
  rcases buildTree_spec T frequencies with ⟨hnil, -⟩ | ⟨t, ht, hrun⟩
  · obtain ⟨b, hb⟩ := List.exists_mem_of_ne_nil data hne
    rw [← HuffmanCompressor.mem_symbols_frequenciesOf data hlen, ← hfreq, hnil] at hb
    cases hb
  · have hperm := leaves_perm_symbols frequencies t hrun
    have hnd : t.leaves.Nodup := hperm.nodup_iff.mpr (nodup_symbols frequencies)
    have hgreedy := mergeRun_heavier frequencies (htotal.trans_lt hlen) t hrun
    have hnonempty : symbols frequencies ≠ [] := by
      intro hnil
      rw [hnil] at hperm
      exact t.leaves_ne_nil hperm.eq_nil
    refine ⟨t.pathCost (weightOf frequencies),
      length_payloadBits_eq_pathCost T data hlen t ht hperm, ?_, ?_, ?_⟩
    · have hlower := entropy_le_pathCost (weightOf frequencies) t hnd fun b hb =>
        weightOf_pos frequencies b (hperm.mem_iff.mp hb)
      rw [entropy_perm _ hperm, hfreq, entropy_symbols data hlen] at hlower
      exact hlower
    · have hupper := pathCost_lt_entropy (weightOf frequencies) (symbols frequencies) hnonempty
        (weightOf_pos frequencies) hgreedy
      rw [hsum, hfreq, entropy_symbols data hlen] at hupper
      exact hupper
    · have hfixed := pathCost_le_fixed (weightOf frequencies) (symbols frequencies) hgreedy 8
        (length_symbols_le frequencies)
      rw [hsum] at hfixed
      exact hfixed

/-- What the entropy of a file says about the length of its Huffman archive: behind the header
and the table of nine bytes for each distinct byte, the packed codewords take the entropy at
least, and less than one bit for each byte and one byte more. -/
structure NearEntropy (T : Target) (data : Bytes) (packed : ℕ) : Prop where
  length : (archive T 0x02 data).length = 16 + 9 * data.toFinset.card + packed
  lower : dataEntropy data ≤ 8 * packed
  upper : 8 * packed < dataEntropy data + data.length + 8

/-- A file of at most one byte value has no entropy. -/
theorem dataEntropy_eq_zero (data : Bytes) (h : data.toFinset.card ≤ 1) :
    dataEntropy data = 0 := by
  rw [dataEntropy]
  apply Finset.sum_eq_zero
  intro b hb
  have hall : ∀ a ∈ data, b = a := fun a ha =>
    Finset.card_le_one.mp h b hb a (List.mem_toFinset.mpr ha)
  have hcount : data.count b = data.length := List.count_eq_length.mpr hall
  have hpos : 0 < data.length := List.length_pos_of_mem (List.mem_toFinset.mp hb)
  have hne : (data.length : ℝ) ≠ 0 := by exact_mod_cast hpos.ne'
  rw [hcount, surprise, div_self hne, Real.logb_one, mul_zero]

/-- **A Huffman archive is as long as the entropy of its file**, up to one bit for each byte. -/
theorem huffmanArchive_entropy (T : Target) (data : Bytes) (hlen : data.length < 2 ^ 64) :
    ∃ packed, NearEntropy T data packed := by
  by_cases htwo : 2 ≤ data.toFinset.card
  · have hne : data ≠ [] := by
      intro hnil
      rw [hnil] at htwo
      simp at htwo
    obtain ⟨bits, hbits, hlower, hupper, -⟩ := payloadBits_bounds T data hlen hne
    refine ⟨bits ⌈/⌉ 8, ?_, ?_, ?_⟩
    · rw [length_huffmanArchive T data hlen, if_pos htwo, hbits]
    · have hceil : bits ≤ 8 * (bits ⌈/⌉ 8) := by
        rw [Nat.ceilDiv_eq_add_pred_div]
        omega
      have hreal : (bits : ℝ) ≤ 8 * (bits ⌈/⌉ 8 : ℕ) := by exact_mod_cast hceil
      exact hlower.trans hreal
    · have hceil : 8 * (bits ⌈/⌉ 8) < bits + 8 := by
        rw [Nat.ceilDiv_eq_add_pred_div]
        omega
      have hreal : 8 * ((bits ⌈/⌉ 8 : ℕ) : ℝ) < bits + 8 := by exact_mod_cast hceil
      linarith
  · have hzero := dataEntropy_eq_zero data (by omega)
    refine ⟨0, ?_, ?_, ?_⟩
    · rw [length_huffmanArchive T data hlen, if_neg htwo]
    · rw [hzero]
      simp
    · rw [hzero]
      have hnonneg := Nat.cast_nonneg (α := ℝ) data.length
      push_cast
      linarith

/-- The bounds for a file of three letters. -/
theorem huffmanArchive_entropy_banana :
    ∃ packed, NearEntropy Target.scan (text "banana") packed :=
  huffmanArchive_entropy Target.scan (text "banana") (by decide)

/-! ## Expansion -/

/-- How much longer than its data an archive can be: two bytes for each byte in the run-length
codec, which is the case exactly for data without equal neighbours; in the Huffman codec its
table. The smaller of the two, which a run of the compressing command without an explicit algorithm
emits, is within both bounds, and so never more than 2320 bytes longer than the data. -/
structure Expansion (host : Host) (data : Bytes) : Prop where
  rle_le : (archive host.target 0x01 data).length ≤ 14 + 2 * data.length
  rle_eq_iff : (archive host.target 0x01 data).length = 14 + 2 * data.length ↔
    data.IsChain (· ≠ ·)
  huff_le : (archive host.target 0x02 data).length ≤
    16 + 9 * data.toFinset.card + data.length
  smaller_le : (smallerSelection host.target data).serializedData.length ≤
    min (14 + 2 * data.length) (16 + 9 * data.toFinset.card + data.length)
  smaller_le_add : (smallerSelection host.target data).serializedData.length ≤ 2320 + data.length
  emitted : ∀ opt files, AutoRun host opt files data → ∃ ok w,
    handleCompress host opt (World.start host files) = .ok (ok, w) ∧
      (ok, w) = emitArchive host opt (World.start host files) data
        (smallerSelection host.target data) ∧
      Emits host opt files data (smallerSelection host.target data) ok w

/-- Packed codewords are no longer than the data. -/
theorem length_huffmanArchive_le (T : Target) (data : Bytes) (hlen : data.length < 2 ^ 64) :
    (archive T 0x02 data).length ≤ 16 + 9 * data.toFinset.card + data.length := by
  rw [length_huffmanArchive T data hlen]
  by_cases htwo : 2 ≤ data.toFinset.card
  · have hne : data ≠ [] := by
      intro hnil
      rw [hnil] at htwo
      simp at htwo
    obtain ⟨bits, hbits, -, -, hle⟩ := payloadBits_bounds T data hlen hne
    rw [if_pos htwo, hbits, Nat.ceilDiv_eq_add_pred_div]
    omega
  · rw [if_neg htwo]
    omega

/-- There are at most 256 distinct bytes. -/
theorem card_toFinset_le (data : Bytes) (hlen : data.length < 2 ^ 64) :
    data.toFinset.card ≤ 256 := by
  rw [← length_symbols_eq data hlen]
  exact length_symbols_le _

/-- **No archive is much longer than its data.** -/
theorem archive_expansion (host : Host) (data : Bytes) (hlen : data.length < 2 ^ 64) :
    Expansion host data := by
  have hrle : (archive host.target 0x01 data).length =
      14 + 2 * (cappedRuns 255 data).length := by
    rw [length_rleArchive, length_cappedRuns 255 (by decide) data]
  have hruns := length_cappedRuns_le_length 255 (by decide) data
  have hhuff := length_huffmanArchive_le host.target data hlen
  constructor
  · omega
  · rw [hrle, ← length_cappedRuns_eq_length_iff 255 (by decide) data]
    omega
  · exact hhuff
  · rw [length_smallerSelection]
    omega
  · have hcard := card_toFinset_le data hlen
    rw [length_smallerSelection]
    omega
  · exact fun opt files hrun => emits_of_autoRun host opt files data hrun

/-- The bounds for a file in which every byte occurs once. -/
theorem archive_expansion_allBytes : Expansion (plainHost [] none .atWrite) allBytes :=
  archive_expansion (plainHost [] none .atWrite) allBytes (by simp [allBytes])

end Lacuna.Results
