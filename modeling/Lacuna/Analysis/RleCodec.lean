import Mathlib.Data.List.Induction
import Lacuna.Library.RunLength
import Lacuna.Analysis.OutputBuffer
import Lacuna.Model.Rle

/-!
# The run-length codec

`compress` writes the greedy runs of its input (`compress_eq`); this holds on every device,
since what a failed stream is told is lost anyway. `decompress` is followed on a payload
that is a sequence of runs (`decompress_runs`), and an invariant over arbitrary input says what
it has read whenever it has not given up (`decompressBytes_ends`). The guard against too much
output adds modulo `2 ^ 64`, and which runs it lets pass is kept apart from what they add up to
(`Admitted`); as long as its sum does not wrap, the two agree (`runsTotal_of_admitted`).
-/

set_option autoImplicit false

namespace Lacuna.Model.RleCompressor

open Lacuna.Library

/-- The bytes of a sequence of runs: for each run a count and a value. -/
def pairBytes (runs : List (ℕ × UInt8)) : Bytes :=
  runs.flatMap fun r => [UInt8.ofNat r.1, r.2]

@[simp] theorem pairBytes_nil : pairBytes [] = [] := rfl

@[simp] theorem pairBytes_cons (r : ℕ × UInt8) (runs : List (ℕ × UInt8)) :
    pairBytes (r :: runs) = UInt8.ofNat r.1 :: r.2 :: pairBytes runs := rfl

@[simp] theorem pairBytes_append (runs more : List (ℕ × UInt8)) :
    pairBytes (runs ++ more) = pairBytes runs ++ pairBytes more := by
  simp [pairBytes]

/-- A run takes two bytes. -/
@[simp] theorem length_pairBytes (runs : List (ℕ × UInt8)) :
    (pairBytes runs).length = 2 * runs.length := by
  induction runs with
  | nil => rfl
  | cons r runs ih => simp [ih]; omega

/-- What `compress` writes for `data`. -/
def payload (data : Bytes) : Bytes := pairBytes (cappedRuns 255 data)

/-- Counts a byte can hold and the decoder accepts. -/
def ValidRuns (runs : List (ℕ × UInt8)) : Prop := ∀ r ∈ runs, 1 ≤ r.1 ∧ r.1 ≤ 255

/-- A valid count survives its byte. -/
theorem toNat_ofNat_count {n : ℕ} (h : n ≤ 255) : (UInt8.ofNat n).toNat = n := by
  rw [UInt8.toNat_ofNat']
  exact Nat.mod_eq_of_lt (by omega)

/-- The bytes of valid runs determine them, also where they go on differently: if one
payload begins with the other, so do the runs. -/
theorem runs_prefix_of_pairBytes_prefix {runs more : List (ℕ × UInt8)} (hruns : ValidRuns runs)
    (hmore : ValidRuns more) (h : pairBytes runs <+: pairBytes more) : runs <+: more := by
  induction runs generalizing more with
  | nil => exact List.nil_prefix
  | cons r runs ih =>
    cases more with
    | nil => simp at h
    | cons q more =>
      rw [pairBytes_cons, pairBytes_cons, List.cons_prefix_cons, List.cons_prefix_cons] at h
      obtain ⟨hcount, hval, htail⟩ := h
      have hr := hruns r List.mem_cons_self
      have hq := hmore q List.mem_cons_self
      have hfst : r.1 = q.1 := by
        rw [← toNat_ofNat_count hr.2, ← toNat_ofNat_count hq.2, hcount]
      have hrq : r = q := Prod.ext hfst hval
      have htail' := ih (fun x hx => hruns x (List.mem_cons_of_mem r hx))
        (fun x hx => hmore x (List.mem_cons_of_mem q hx)) htail
      rw [hrq]
      exact List.cons_prefix_cons.mpr ⟨rfl, htail'⟩

/-- The bytes of valid runs determine them. -/
theorem runs_eq_of_pairBytes_eq {runs more : List (ℕ × UInt8)} (hruns : ValidRuns runs)
    (hmore : ValidRuns more) (h : pairBytes runs = pairBytes more) : runs = more := by
  have hpre : runs <+: more :=
    runs_prefix_of_pairBytes_prefix hruns hmore (h ▸ List.prefix_rfl)
  have hlen := congrArg List.length h
  rw [length_pairBytes, length_pairBytes] at hlen
  apply hpre.eq_of_length
  omega

/-- If one payload begins with the other and both stand for as many bytes, they are one. -/
theorem runs_eq_of_pairBytes_prefix {runs more : List (ℕ × UInt8)} (hruns : ValidRuns runs)
    (hmore : ValidRuns more) (h : pairBytes runs <+: pairBytes more)
    (htotal : runsTotal more = runsTotal runs) : runs = more := by
  obtain ⟨tail, rfl⟩ := runs_prefix_of_pairBytes_prefix hruns hmore h
  have hnil : tail = [] :=
    eq_nil_of_runsTotal_append runs tail (fun r hr => (hmore r hr).1) htotal
  rw [hnil, List.append_nil]

/-- The greedy runs with cap 255 are valid. -/
theorem validRuns_cappedRuns (data : Bytes) : ValidRuns (cappedRuns 255 data) :=
  cappedRuns_bounds 255 (by decide) data

/-! ## Compression -/

/-- A run written by `write_block`, and whether the stream survived it. -/
theorem writeBlock_eq (out : OStream) (len val : UInt8) :
    writeBlock out len val = ((out.write [len, val]).good, out.write [len, val]) := rfl

/-- The encoder's state after `seen`: no run is open and nothing was read, or a run is open
and the runs written so far, followed by those of the open run and whatever comes next, are
the greedy runs. -/
def Encoding (out₀ : OStream) (seen : Bytes) (s : RunState) : Prop :=
  s.out.good = true ∧
    (s.hasRun = false ∧ seen = [] ∧ s.out = out₀ ∨
      s.hasRun = true ∧ 1 ≤ s.runLen.toNat ∧ ∃ runs, s.out = out₀.write (pairBytes runs) ∧
        ∀ more, cappedRuns 255 (seen ++ more) =
          runs ++ cappedRunsFrom 255 s.runVal s.runLen.toNat more)

/-- `compress` left early: a block failed, and the stream is the one that a prefix of the
payload leaves behind. -/
def BlockFailed (out₀ : OStream) (seen : Bytes) (r : Bool × OStream) : Prop :=
  r.1 = false ∧ r.2.good = false ∧ ∃ runs, r.2 = out₀.write (pairBytes runs) ∧
    ∀ more, runs <+: cappedRuns 255 (seen ++ more)

/-- A block written while a run is open closes that run. -/
theorem write_openRun {out₀ : OStream} {s : RunState} {runs : List (ℕ × UInt8)}
    (hout : s.out = out₀.write (pairBytes runs)) :
    s.out.write [s.runLen, s.runVal] =
      out₀.write (pairBytes (runs ++ [(s.runLen.toNat, s.runVal)])) := by
  rw [hout, ← OStream.write_append, pairBytes_append]
  simp

/-- Closing the open run and opening one of length `1`, in the two places where the encoder
does it. -/
theorem closeRun_ends {out₀ : OStream} {seen : Bytes} {s : RunState}
    {runs : List (ℕ × UInt8)} (hout : s.out = out₀.write (pairBytes runs)) (val : UInt8)
    (hnext : ∀ more, cappedRuns 255 (seen ++ more) =
      (runs ++ [(s.runLen.toNat, s.runVal)]) ++ cappedRunsFrom 255 val 1 more) :
    Ends (Encoding out₀ seen) (BlockFailed out₀ seen)
      (match writeBlock s.out s.runLen s.runVal with
        | (false, out) => .error (false, out)
        | (true, out) => .ok { runVal := val, runLen := 1, hasRun := true, out := out }) := by
  rw [writeBlock_eq, write_openRun hout]
  cases hg : (out₀.write (pairBytes (runs ++ [(s.runLen.toNat, s.runVal)]))).good with
  | false =>
    refine ⟨rfl, hg, _, rfl, fun more => ?_⟩
    rw [hnext more]
    exact List.prefix_append _ _
  | true => exact ⟨hg, Or.inr ⟨rfl, Nat.le_refl 1, _, rfl, hnext⟩⟩

/-- **One byte of input keeps the encoder's state.** -/
theorem compressByte_ends {out₀ : OStream} {seen : Bytes} {s : RunState}
    (h : Encoding out₀ seen s) (byte : UInt8) :
    Ends (Encoding out₀ (seen ++ [byte])) (BlockFailed out₀ (seen ++ [byte]))
      (compressByte s byte) := by
  obtain ⟨hgood, ⟨hrun, hseen, hout⟩ | ⟨hrun, hpos, runs, hout, hruns⟩⟩ := h
  · -- the first byte opens a run
    subst hseen
    simp only [compressByte, hrun, Bool.not_false, if_true, ends_ok]
    exact ⟨hgood, Or.inr ⟨rfl, Nat.le_refl 1, [], hout, fun more => rfl⟩⟩
  · simp only [compressByte, hrun, Bool.not_true, Bool.false_eq_true, if_false]
    by_cases hval : byte = s.runVal
    · by_cases hfull : s.runLen = 255
      · -- the run is full: its block is written and a run of the same value opened
        have hnext : ∀ more, cappedRuns 255 (seen ++ [byte] ++ more) =
            (runs ++ [(s.runLen.toNat, s.runVal)]) ++ cappedRunsFrom 255 s.runVal 1 more := by
          intro more
          rw [List.append_assoc, hruns]
          simp [cappedRunsFrom, hval, hfull]
        rw [if_pos hval, if_pos hfull]
        exact closeRun_ends hout s.runVal hnext
      · -- the run grows
        have hne : s.runLen.toNat ≠ 255 := fun h => hfull (UInt8.toNat_inj.mp h)
        have hlt := s.runLen.toNat_lt
        have hadd : (s.runLen + 1).toNat = s.runLen.toNat + 1 := by
          rw [UInt8.toNat_add, UInt8.toNat_one, Nat.mod_eq_of_lt (by omega)]
        rw [if_pos hval, if_neg hfull, ends_ok]
        refine ⟨hgood, Or.inr ⟨rfl, ?_, runs, hout, fun more => ?_⟩⟩
        · simp only [hadd]
          omega
        · rw [List.append_assoc, hruns]
          simp [cappedRunsFrom, hne, hadd, hval]
    · -- another value: the open run is closed
      have hnext : ∀ more, cappedRuns 255 (seen ++ [byte] ++ more) =
          (runs ++ [(s.runLen.toNat, s.runVal)]) ++ cappedRunsFrom 255 byte 1 more := by
        intro more
        rw [List.append_assoc, hruns]
        simp [cappedRunsFrom, hval]
      rw [if_neg hval]
      exact closeRun_ends hout byte hnext

/-- A stream failed by a prefix of the payload is the one all of the payload leaves. -/
theorem write_payload_of_failed {out₀ : OStream} {data : Bytes} {runs : List (ℕ × UInt8)}
    (hpre : runs <+: cappedRuns 255 data)
    (hbad : (out₀.write (pairBytes runs)).good = false) :
    out₀.write (payload data) = out₀.write (pairBytes runs) := by
  obtain ⟨more, hmore⟩ := hpre
  rw [payload, ← hmore, pairBytes_append, OStream.write_append,
    OStream.write_of_not_good _ _ hbad]

/-- **What `compress` does**, on any device: it writes the payload, and reports whether the
stream survived. -/
theorem compress_eq (input : IStream) (out : OStream) (hin : input.good = true)
    (hout : out.good = true) :
    compress input out =
      ((out.write (payload input.rest)).good, out.write (payload input.rest)) := by
  have hloop := foldlM_ends compressByte (Encoding out) (BlockFailed out) input.rest
    { runVal := 0, runLen := 0, hasRun := false, out := out }
    ⟨hout, Or.inl ⟨rfl, rfl, rfl⟩⟩ (fun seen byte s _ hs => compressByte_ends hs byte)
  have hchunks := foldlM_flatten compressByte input.readChunks.1
    { runVal := 0, runLen := 0, hasRun := false, out := out }
  rw [IStream.readChunks_flatten input hin] at hchunks
  unfold compress
  rw [IStream.failbit_of_good input hin, hout]
  simp only [Bool.not_true, Bool.or_self, Bool.false_eq_true, if_false, compressChunks, hchunks]
  cases hrun : input.rest.foldlM compressByte
      { runVal := 0, runLen := 0, hasRun := false, out := out } with
  | error r =>
    rw [hrun] at hloop
    obtain ⟨seen, ⟨more, hmore⟩, hfalse, hbad, runs, hr, hpre⟩ := hloop
    have hp := hpre more
    rw [hmore] at hp
    rw [hr] at hbad
    rw [write_payload_of_failed hp hbad, hbad, ← hr, ← hfalse]
  | ok s =>
    rw [hrun] at hloop
    obtain ⟨hgood, ⟨hno, hnil, hsame⟩ | ⟨hyes, hpos, runs, hs, hruns⟩⟩ := hloop
    · simp only [hno, Bool.false_and, Bool.false_eq_true, if_false, hnil, hsame]
      rfl
    · have hall := hruns []
      rw [List.append_nil, cappedRunsFrom] at hall
      have hpos' : (0 < s.runLen) := by
        rw [UInt8.lt_iff_toNat_lt]
        exact hpos
      have hlast : s.out.write [s.runLen, s.runVal] = out.write (payload input.rest) := by
        rw [write_openRun hs, ← hall]
        rfl
      simp only [hyes, Bool.true_and, decide_eq_true hpos', if_true, writeBlock_eq, hlast]
      cases hg : (out.write (payload input.rest)).good with
      | false => rfl
      | true => simp only [hg]

/-- `compress` into memory. -/
theorem compress_memory (data : Bytes) :
    compress (IStream.ofBytes data) OStream.memory =
      (true, OStream.memory.write (payload data)) := by
  rw [compress_eq _ _ rfl rfl, IStream.rest_ofBytes, OStream.write_memory_good]

/-- A stream that is at its end but has not failed is taken for an empty one. -/
theorem compress_atEnd (input : IStream) (out : OStream) (hin : input.good = false)
    (hfail : input.failbit = false) (hout : out.good = true) :
    compress input out = ((out.write (payload [])).good, out.write (payload [])) := by
  have hchunks : input.readChunks.1 = [] := IStream.readRounds_of_not_good _ _ input hin
  unfold compress
  rw [hfail, hout, hchunks]
  rfl

/-- A stream that has failed is refused. -/
theorem compress_failed (input : IStream) (out : OStream) (hfail : input.failbit = true) :
    compress input out = (false, out) := by
  simp only [compress, hfail, Bool.true_or, if_true]

/-- **What `compress` does** on any stream that has not failed. -/
theorem compress_unread (input : IStream) (out : OStream) (hfail : input.failbit = false)
    (hout : out.good = true) :
    compress input out =
      ((out.write (payload input.unread)).good, out.write (payload input.unread)) := by
  cases hin : input.good with
  | true =>
    rw [input.unread_of_good hin]
    exact compress_eq input out hin hout
  | false =>
    rw [input.unread_of_not_good hin]
    exact compress_atEnd input out hin hfail hout

/-! ## The guard -/

/-- The total after a sequence of runs, modulo `2 ^ 64`. -/
def totalAfter (total : UInt64) (runs : List (ℕ × UInt8)) : UInt64 :=
  runs.foldl (fun total r => total + (UInt8.ofNat r.1).toUInt64) total

/-- The guard lets a sequence of runs pass. -/
def Admitted (expectedSize : UInt64) : UInt64 → List (ℕ × UInt8) → Prop
  | _, [] => True
  | total, r :: runs =>
    ¬ total + (UInt8.ofNat r.1).toUInt64 > expectedSize ∧
      Admitted expectedSize (total + (UInt8.ofNat r.1).toUInt64) runs

@[simp] theorem totalAfter_nil (total : UInt64) : totalAfter total [] = total := rfl

@[simp] theorem totalAfter_cons (total : UInt64) (r : ℕ × UInt8) (runs : List (ℕ × UInt8)) :
    totalAfter total (r :: runs) = totalAfter (total + (UInt8.ofNat r.1).toUInt64) runs := rfl

@[simp] theorem totalAfter_append (total : UInt64) (runs more : List (ℕ × UInt8)) :
    totalAfter total (runs ++ more) = totalAfter (totalAfter total runs) more :=
  List.foldl_append

/-- Runs pass one after the other. -/
theorem admitted_append (expectedSize total : UInt64) (runs more : List (ℕ × UInt8)) :
    Admitted expectedSize total (runs ++ more) ↔
      Admitted expectedSize total runs ∧ Admitted expectedSize (totalAfter total runs) more := by
  induction runs generalizing total with
  | nil => simp [Admitted]
  | cons r runs ih => simp [Admitted, ih, and_assoc]

/-- The guard, where its sum does not wrap, compares the true sum. -/
theorem guard_iff (total : UInt64) (count : UInt8) (expectedSize : UInt64)
    (hwrap : total.toNat + count.toNat < 2 ^ 64) :
    total + count.toUInt64 > expectedSize ↔ expectedSize.toNat < total.toNat + count.toNat := by
  rw [gt_iff_lt, UInt64.lt_iff_toNat_lt, UInt64.toNat_add, UInt8.toNat_toUInt64,
    Nat.mod_eq_of_lt hwrap]

/-- Valid runs that stand for no more than what is still expected pass, and their total is the
true one. -/
theorem admitted_of_fits (expectedSize total : UInt64) (runs : List (ℕ × UInt8))
    (hvalid : ValidRuns runs) (hfits : total.toNat + runsTotal runs ≤ expectedSize.toNat) :
    Admitted expectedSize total runs ∧
      (totalAfter total runs).toNat = total.toNat + runsTotal runs := by
  induction runs generalizing total with
  | nil => exact ⟨trivial, rfl⟩
  | cons r runs ih =>
    have hcount := toNat_ofNat_count (hvalid r List.mem_cons_self).2
    have hsize := expectedSize.toNat_lt
    rw [runsTotal_cons] at hfits
    have hadd : (total + (UInt8.ofNat r.1).toUInt64).toNat = total.toNat + r.1 := by
      rw [UInt64.toNat_add, UInt8.toNat_toUInt64, hcount, Nat.mod_eq_of_lt (by omega)]
    obtain ⟨hadm, htotal⟩ := ih (total + (UInt8.ofNat r.1).toUInt64)
      (fun x hx => hvalid x (List.mem_cons_of_mem r hx)) (by rw [hadd]; omega)
    refine ⟨⟨?_, hadm⟩, ?_⟩
    · rw [guard_iff _ _ _ (by omega)]
      omega
    · rw [totalAfter_cons, htotal, hadd, runsTotal_cons]
      omega

/-- The sum in the decoder's guard never wraps: wherever it is taken, the runs read so far
and the next count add up below `2 ^ 64`. -/
def NoWrap (expectedSize : UInt64) (payload : Bytes) : Prop :=
  ∀ (runs : List (ℕ × UInt8)) (count : UInt8), ValidRuns runs →
    runsTotal runs ≤ expectedSize.toNat → pairBytes runs ++ [count] <+: payload →
    runsTotal runs + count.toNat < 2 ^ 64

/-- A payload shorter than `2 ^ 57` bytes is too short to make the sum wrap. -/
theorem noWrap_of_length (expectedSize : UInt64) (payload : Bytes)
    (h : payload.length < 2 ^ 57) : NoWrap expectedSize payload := by
  intro runs count hvalid _ hpre
  have hlen := hpre.length_le
  rw [List.length_append, length_pairBytes, List.length_singleton] at hlen
  have htotal := runsTotal_le runs 255 fun r hr => (hvalid r hr).2
  have hcount := count.toNat_lt
  omega

/-- An expected size with a count to spare keeps the sum from wrapping. -/
theorem noWrap_of_size (expectedSize : UInt64) (payload : Bytes)
    (h : expectedSize.toNat + 255 < 2 ^ 64) : NoWrap expectedSize payload := by
  intro runs count _ hle _
  have hcount := count.toNat_lt
  omega

/-- A prefix of the payload of valid runs that stand for the expected number of bytes: the
sum never exceeds that number. -/
theorem noWrap_of_prefix (expectedSize : UInt64) (all : List (ℕ × UInt8)) (part : Bytes)
    (hall : ValidRuns all) (htotal : runsTotal all = expectedSize.toNat)
    (hpart : part <+: pairBytes all) : NoWrap expectedSize part := by
  intro runs count hvalid _ hpre
  have hbytes := hpre.trans hpart
  have hruns := runs_prefix_of_pairBytes_prefix hvalid hall
    ((List.prefix_append _ [count]).trans hbytes)
  obtain ⟨tail, rfl⟩ := hruns
  rw [pairBytes_append, List.prefix_append_right_inj] at hbytes
  cases tail with
  | nil => simp at hbytes
  | cons r tail =>
    rw [pairBytes_cons, List.cons_prefix_cons] at hbytes
    have hr := hall r (by simp)
    have hcount : count.toNat = r.1 := by rw [hbytes.1, toNat_ofNat_count hr.2]
    have hlt := expectedSize.toNat_lt
    rw [runsTotal_append, runsTotal_cons] at htotal
    omega

/-- **Where the sum does not wrap, the guard bounds the output.** -/
theorem runsTotal_of_admitted (expectedSize : UInt64) (payload : Bytes)
    (runs : List (ℕ × UInt8)) (hwrap : NoWrap expectedSize payload) (hvalid : ValidRuns runs)
    (hadm : Admitted expectedSize 0 runs) (hpre : pairBytes runs <+: payload) :
    (totalAfter 0 runs).toNat = runsTotal runs ∧ runsTotal runs ≤ expectedSize.toNat := by
  induction runs using List.reverseRecOn with
  | nil => simp
  | append_singleton runs r ih =>
    have hruns : ValidRuns runs := fun x hx => hvalid x (List.mem_append_left _ hx)
    have hcount := toNat_ofNat_count (hvalid r (by simp)).2
    rw [admitted_append] at hadm
    rw [pairBytes_append] at hpre
    obtain ⟨htotal, hle⟩ := ih hruns hadm.1 ((List.prefix_append _ _).trans hpre)
    have hnext : pairBytes runs ++ [UInt8.ofNat r.1] <+: payload :=
      ((List.prefix_append_right_inj _).mpr ⟨[r.2], rfl⟩).trans hpre
    have hsum := hwrap runs _ hruns hle hnext
    have hguard := hadm.2.1
    rw [guard_iff _ _ _ (by rw [htotal]; exact hsum), htotal, hcount] at hguard
    rw [hcount] at hsum
    refine ⟨?_, by simpa using Nat.le_of_not_lt hguard⟩
    rw [totalAfter_append, totalAfter_cons, totalAfter_nil, UInt64.toNat_add, htotal,
      UInt8.toNat_toUInt64, hcount, Nat.mod_eq_of_lt hsum]
    simp

/-! ## Decompression -/

/-- The decoder's state after `seen`: it has read some valid runs that the guard let pass,
produced what they stand for, and may hold a count whose value is still to come. -/
def Decoding (out₀ : OStream) (expectedSize : UInt64) (seen : Bytes) (s : PairState) : Prop :=
  ∃ runs, ValidRuns runs ∧ Admitted expectedSize 0 runs ∧
    s.totalDecompressed = totalAfter 0 runs ∧ s.buffer.Holds out₀ (expandRuns runs) ∧
    seen = pairBytes runs ++ (if s.hasCount then [s.count] else []) ∧
    (s.hasCount = true → s.count ≠ 0)

/-- A part of what valid runs at the start of the payload stand for, which the guard let
pass. -/
def Produced (expectedSize : UInt64) (payload written : Bytes) : Prop :=
  ∃ runs, ValidRuns runs ∧ Admitted expectedSize 0 runs ∧ pairBytes runs <+: payload ∧
    written <+: expandRuns runs

/-- `decompress` left early: with `nullopt`, and nothing written that was not produced. -/
def Rejected (out₀ : OStream) (expectedSize : UInt64) (seen : Bytes) (e : Exit Decompressed) :
    Prop :=
  ∃ written : Bytes, e = .ret (none, out₀.write written) ∧ Produced expectedSize seen written

/-- **One byte of input keeps the decoder's state**, or makes it give up. -/
theorem decompressByte_ends {out₀ : OStream} {expectedSize : UInt64} {seen : Bytes}
    {s : PairState} (h : Decoding out₀ expectedSize seen s) (byte : UInt8) :
    Ends (Decoding out₀ expectedSize (seen ++ [byte]))
      (Rejected out₀ expectedSize (seen ++ [byte])) (decompressByte expectedSize s byte) := by
  obtain ⟨runs, hvalid, hadm, htotal, hholds, hseen, hcount⟩ := h
  have hgiveUp : Rejected out₀ expectedSize (seen ++ [byte]) (.ret (none, s.buffer.out)) := by
    obtain ⟨written, hpre, hout⟩ := hholds.written
    refine ⟨written, by rw [hout], runs, hvalid, hadm, ?_, hpre⟩
    rw [hseen, List.append_assoc]
    exact List.prefix_append _ _
  cases hhas : s.hasCount with
  | false =>
    rw [hhas] at hseen
    simp only [decompressByte, hhas, Bool.not_false, if_true]
    by_cases hzero : byte = 0
    · rw [if_pos hzero]
      exact hgiveUp
    · rw [if_neg hzero]
      refine ⟨runs, hvalid, hadm, htotal, hholds, ?_, fun _ => hzero⟩
      simp [hseen]
  | true =>
    rw [hhas] at hseen
    simp only [decompressByte, hhas, Bool.not_true, Bool.false_eq_true, if_false]
    by_cases hbig : s.totalDecompressed + s.count.toUInt64 > expectedSize
    · rw [if_pos hbig]
      exact hgiveUp
    · rw [if_neg hbig]
      have hpos : s.count.toNat ≠ 0 := by
        intro h0
        exact hcount hhas (UInt8.toNat_inj.mp h0)
      have hlt := s.count.toNat_lt
      have hvalid' : ValidRuns (runs ++ [(s.count.toNat, byte)]) := by
        intro r hr
        rcases List.mem_append.mp hr with hr | hr
        · exact hvalid r hr
        · rw [List.mem_singleton] at hr
          rw [hr]
          simp only
          omega
      have hadm' : Admitted expectedSize 0 (runs ++ [(s.count.toNat, byte)]) := by
        rw [admitted_append, ← htotal]
        simp only [Admitted, UInt8.ofNat_toNat]
        exact ⟨hadm, hbig, trivial⟩
      have hseen' : seen ++ [byte] = pairBytes (runs ++ [(s.count.toNat, byte)]) := by
        simp [hseen]
      have hpush := hholds.pushAll_ends (List.replicate s.count.toNat byte)
      refine Ends.bind (I := OutBuffer.Holds out₀
        (expandRuns runs ++ List.replicate s.count.toNat byte)) ?_ ?_
      · refine hpush.mono (fun _ hb => hb) ?_
        rintro e ⟨pushed, hpre, rfl, -⟩
        refine ⟨_, rfl, _, hvalid', hadm', hseen' ▸ List.prefix_rfl, ?_⟩
        simpa using hpre
      · intro buffer hbuffer
        refine ⟨runs ++ [(s.count.toNat, byte)], hvalid', hadm', ?_, by simpa using hbuffer,
          by simp [hseen'], by simp⟩
        simp [htotal]

/-- The state before the first byte. -/
theorem decoding_start (out : OStream) (expectedSize : UInt64) (hout : out.good = true) :
    Decoding out expectedSize [] (startPairs out) :=
  ⟨[], by simp [ValidRuns], trivial, rfl, OutBuffer.holds_start out hout, rfl,
    by simp [startPairs]⟩

/-- The whole loop keeps the decoder's state, over any chunks. -/
theorem decompressBytes_ends (chunks : List Bytes) (out : OStream) (expectedSize : UInt64)
    (hout : out.good = true) :
    Ends (Decoding out expectedSize chunks.flatten) (Rejected out expectedSize chunks.flatten)
      (chunks.foldlM (fun s chunk => chunk.foldlM (decompressByte expectedSize) s)
        (startPairs out)) := by
  rw [foldlM_flatten]
  have hloop := foldlM_ends (decompressByte expectedSize) (Decoding out expectedSize)
    (fun seen => Rejected out expectedSize seen) chunks.flatten (startPairs out)
    (decoding_start out expectedSize hout)
    (fun seen byte s _ hs => decompressByte_ends hs byte)
  refine hloop.mono (fun _ h => h) ?_
  rintro e ⟨seen, hseen, written, he, runs, hvalid, hadm, hpre, hwritten⟩
  exact ⟨written, he, runs, hvalid, hadm, hpre.trans hseen, hwritten⟩

/-- The checks after the loops, with a count that waits for its value. -/
theorem finish_of_hasCount (expectedSize : UInt64) (s : PairState) (h : s.hasCount = true) :
    finish expectedSize s = (none, s.buffer.out) := by
  simp only [finish, h, if_true]

/-- The checks after the loops, at the end of a pair: everything produced is handed on, and
a value is returned if the stream survived and the total is right. -/
theorem finish_of_holds {out₀ : OStream} {data : Bytes} (expectedSize : UInt64)
    (s : PairState) (h : s.hasCount = false) (hholds : s.buffer.Holds out₀ data) :
    finish expectedSize s =
      (if (out₀.write data).good = true ∧ s.totalDecompressed = expectedSize then
        some expectedSize else none, out₀.write data) := by
  simp only [finish, h, Bool.false_eq_true, if_false, hholds.flushOutBuf_eq]
  cases hg : (out₀.write data).good with
  | false => simp
  | true =>
    by_cases htotal : s.totalDecompressed = expectedSize
    · simp [htotal]
    · simp [htotal]

/-- **What the decoding loops do on any input**, in any chunks: they end, nothing is written
that was not produced, and a value returned is the expected size, of an input that is the bytes
of valid runs standing for what was written. -/
theorem decompressChunks_sound (chunks : List Bytes) (out : OStream) (expectedSize : UInt64)
    (hout : out.good = true) :
    ∃ r written, runBody (decompressChunks chunks out expectedSize) =
        .ok (r, out.write written) ∧ Produced expectedSize chunks.flatten written ∧
      (∀ v, r = some v → v = expectedSize ∧ ∃ runs, ValidRuns runs ∧
        Admitted expectedSize 0 runs ∧ totalAfter 0 runs = expectedSize ∧
        chunks.flatten = pairBytes runs ∧ written = expandRuns runs) := by
  have hloop := decompressBytes_ends chunks out expectedSize hout
  unfold decompressChunks
  cases hrun : chunks.foldlM (fun s chunk => chunk.foldlM (decompressByte expectedSize) s)
      (startPairs out) with
  | error e =>
    rw [hrun] at hloop
    obtain ⟨written, rfl, hproduced⟩ := hloop
    exact ⟨none, written, rfl, hproduced, by simp⟩
  | ok s =>
    rw [hrun] at hloop
    obtain ⟨runs, hvalid, hadm, htotal, hholds, hseen, -⟩ := hloop
    cases hhas : s.hasCount with
    | true =>
      obtain ⟨written, hpre, hs⟩ := hholds.written
      refine ⟨none, written, ?_, ⟨runs, hvalid, hadm, ?_, hpre⟩, by simp⟩
      · rw [← hs, ← finish_of_hasCount expectedSize s hhas]
        rfl
      · rw [hseen]
        exact List.prefix_append _ _
    | false =>
      rw [hhas] at hseen
      simp only [Bool.false_eq_true, if_false, List.append_nil] at hseen
      have hfinish := finish_of_holds expectedSize s hhas hholds
      refine ⟨_, expandRuns runs, congrArg Except.ok hfinish,
        ⟨runs, hvalid, hadm, hseen ▸ List.prefix_rfl, List.prefix_rfl⟩, ?_⟩
      intro v hv
      obtain ⟨⟨-, hs⟩, hsome⟩ := Option.ite_none_right_eq_some.mp hv
      exact ⟨(Option.some.inj hsome).symm, runs, hvalid, hadm, htotal ▸ hs, hseen, rfl⟩

/-- **What `decompress` does on any input.** -/
theorem decompress_sound (input : IStream) (out : OStream) (expectedSize : UInt64)
    (hin : input.good = true) (hout : out.good = true) :
    ∃ r written, decompress input out expectedSize = .ok (r, out.write written) ∧
      Produced expectedSize input.rest written ∧
      (∀ v, r = some v → v = expectedSize ∧ ∃ runs, ValidRuns runs ∧
        Admitted expectedSize 0 runs ∧ totalAfter 0 runs = expectedSize ∧
        input.rest = pairBytes runs ∧ written = expandRuns runs) := by
  have hnothing : Produced expectedSize input.rest [] :=
    ⟨[], by simp [ValidRuns], trivial, List.nil_prefix, List.nil_prefix⟩
  unfold decompress
  rw [IStream.failbit_of_good input hin, hout]
  simp only [Bool.not_true, Bool.or_self, Bool.false_eq_true, if_false]
  by_cases hzero : expectedSize = 0
  · rw [if_pos hzero, IStream.peek_eq_head? input hin]
    cases hrest : input.rest with
    | nil =>
      refine ⟨some 0, [], rfl, hrest ▸ hnothing, ?_⟩
      intro v hv
      exact ⟨by rw [hzero]; exact (Option.some.inj hv).symm, [], by simp [ValidRuns], trivial,
        hzero.symm, rfl, rfl⟩
    | cons c rest => exact ⟨none, [], rfl, hrest ▸ hnothing, by simp⟩
  · rw [if_neg hzero]
    have h := decompressChunks_sound input.readChunks.1 out expectedSize hout
    rw [IStream.readChunks_flatten input hin] at h
    exact h

/-- **What `decompress` does where its guard does not wrap**: no more than the expected number
of bytes is written, and a value returned means that the runs stand for exactly that many. -/
theorem decompress_bounded (input : IStream) (out : OStream) (expectedSize : UInt64)
    (hin : input.good = true) (hout : out.good = true) (hwrap : NoWrap expectedSize input.rest) :
    ∃ r written, decompress input out expectedSize = .ok (r, out.write written) ∧
      written.length ≤ expectedSize.toNat ∧
      (∀ v, r = some v → v = expectedSize ∧ ∃ runs, ValidRuns runs ∧
        runsTotal runs = expectedSize.toNat ∧ input.rest = pairBytes runs ∧
        written = expandRuns runs) := by
  obtain ⟨r, written, heq, ⟨runs, hvalid, hadm, hpre, hwritten⟩, hsome⟩ :=
    decompress_sound input out expectedSize hin hout
  refine ⟨r, written, heq, ?_, ?_⟩
  · have hle := (runsTotal_of_admitted expectedSize _ runs hwrap hvalid hadm hpre).2
    have hlen := hwritten.length_le
    rw [length_expandRuns] at hlen
    omega
  · intro v hv
    obtain ⟨hv, runs', hvalid', hadm', htotal, hrest, hout'⟩ := hsome v hv
    have hexact := (runsTotal_of_admitted expectedSize _ runs' hwrap hvalid' hadm'
      (hrest ▸ List.prefix_rfl)).1
    rw [htotal] at hexact
    exact ⟨hv, runs', hvalid', hexact.symm, hrest, hout'⟩

/-! ## Decompression of a payload -/

/-- Reading one pair: the count is kept, then the run is pushed and counted. -/
theorem foldlM_pair (expectedSize : UInt64) (s : PairState) (count value : UInt8) (rest : Bytes)
    (hhas : s.hasCount = false) (hne : count ≠ 0)
    (hguard : ¬ s.totalDecompressed + count.toUInt64 > expectedSize) :
    (count :: value :: rest).foldlM (decompressByte expectedSize) s =
      (pushRun s.buffer count.toNat value >>= fun buffer =>
        rest.foldlM (decompressByte expectedSize)
          { totalDecompressed := s.totalDecompressed + count.toUInt64
            hasCount := false
            count := count
            buffer := buffer }) := by
  have hfirst : decompressByte expectedSize s count =
      .ok { s with count := count, hasCount := true } := by
    simp only [decompressByte, hhas, Bool.not_false, if_true, if_neg hne]
  have hsecond : decompressByte expectedSize { s with count := count, hasCount := true } value =
      (pushRun s.buffer count.toNat value >>= fun buffer => pure
        { totalDecompressed := s.totalDecompressed + count.toUInt64
          hasCount := false
          count := count
          buffer := buffer }) := by
    simp only [decompressByte, Bool.not_true, Bool.false_eq_true, if_false, if_neg hguard]
  rw [List.foldlM_cons, hfirst]
  show (value :: rest).foldlM (decompressByte expectedSize)
    { s with count := count, hasCount := true } = _
  rw [List.foldlM_cons, hsecond, bind_assoc]
  rfl

/-- **Reading valid runs.** From a state between two pairs, where the guard lets them pass, the
decoder reads them all and pushes what they stand for; only a flush can stop it. -/
theorem decompressRuns_ends {out₀ : OStream} {data : Bytes} (expectedSize : UInt64)
    (runs : List (ℕ × UInt8)) (s : PairState) (hvalid : ValidRuns runs)
    (hhas : s.hasCount = false) (hholds : s.buffer.Holds out₀ data)
    (hadm : Admitted expectedSize s.totalDecompressed runs) :
    Ends (fun s' => s'.hasCount = false ∧
        s'.totalDecompressed = totalAfter s.totalDecompressed runs ∧
        s'.buffer.Holds out₀ (data ++ expandRuns runs))
      (fun e => ∃ pushed, pushed <+: expandRuns runs ∧
        OutBuffer.FlushFailed out₀ (data ++ pushed) e)
      ((pairBytes runs).foldlM (decompressByte expectedSize) s) := by
  induction runs generalizing s data with
  | nil =>
    refine ⟨hhas, rfl, ?_⟩
    simpa using hholds
  | cons r runs ih =>
    have hr := hvalid r List.mem_cons_self
    have hcount := toNat_ofNat_count hr.2
    have hne : UInt8.ofNat r.1 ≠ 0 := by
      intro h0
      rw [h0] at hcount
      simp at hcount
      omega
    have hpush := hholds.pushAll_ends (List.replicate r.1 r.2)
    rw [pairBytes_cons, foldlM_pair expectedSize s _ _ _ hhas hne hadm.1, hcount, pushRun]
    cases hp : (List.replicate r.1 r.2).foldlM OutBuffer.pushBack s.buffer with
    | error e =>
      rw [hp] at hpush
      obtain ⟨pushed, hpre, hfailed⟩ := hpush
      refine ⟨pushed, ?_, hfailed⟩
      rw [expandRuns_cons]
      exact hpre.trans (List.prefix_append _ _)
    | ok buffer =>
      rw [hp] at hpush
      have htail := ih
        { totalDecompressed := s.totalDecompressed + (UInt8.ofNat r.1).toUInt64
          hasCount := false
          count := UInt8.ofNat r.1
          buffer := buffer }
        (fun x hx => hvalid x (List.mem_cons_of_mem r hx)) rfl hpush hadm.2
      refine htail.mono ?_ ?_
      · rintro s' ⟨h1, h2, h3⟩
        exact ⟨h1, h2, by simpa using h3⟩
      · rintro e ⟨pushed, hpre, hfailed⟩
        refine ⟨List.replicate r.1 r.2 ++ pushed, ?_, by simpa using hfailed⟩
        rw [expandRuns_cons, List.prefix_append_right_inj]
        exact hpre

/-- **`decompress` on the bytes of valid runs** that the guard lets pass and whose total is the
expected size, on any device: everything they stand for is written, and the size is returned if
the stream survived. -/
theorem decompress_runs (input : IStream) (out : OStream) (expectedSize : UInt64)
    (runs : List (ℕ × UInt8)) (hin : input.good = true) (hout : out.good = true)
    (hrest : input.rest = pairBytes runs) (hvalid : ValidRuns runs)
    (hadm : Admitted expectedSize 0 runs) (htotal : totalAfter 0 runs = expectedSize) :
    decompress input out expectedSize =
      .ok (if (out.write (expandRuns runs)).good = true then some expectedSize else none,
        out.write (expandRuns runs)) := by
  unfold decompress
  rw [IStream.failbit_of_good input hin, hout]
  simp only [Bool.not_true, Bool.or_self, Bool.false_eq_true, if_false]
  by_cases hzero : expectedSize = 0
  · -- the guard lets no run pass
    have hnil : runs = [] := by
      cases runs with
      | nil => rfl
      | cons r runs =>
        have hr := hvalid r List.mem_cons_self
        have hcount := toNat_ofNat_count hr.2
        have hguard := hadm.1
        rw [guard_iff _ _ _ (by rw [hcount]; simp; omega), hcount, hzero] at hguard
        simp at hguard
        omega
    subst hnil
    rw [if_pos hzero, IStream.peek_eq_head? input hin, hrest, hzero]
    simp [hout]
  · rw [if_neg hzero]
    have hloop := decompressRuns_ends expectedSize runs (startPairs out) hvalid rfl
      (OutBuffer.holds_start out hout) hadm
    rw [← hrest, ← IStream.readChunks_flatten input hin, ← foldlM_flatten] at hloop
    unfold decompressChunks
    cases hrun : input.readChunks.1.foldlM
        (fun s chunk => chunk.foldlM (decompressByte expectedSize) s) (startPairs out) with
    | error e =>
      rw [hrun] at hloop
      obtain ⟨pushed, ⟨more, hmore⟩, rfl, hbad⟩ := hloop
      rw [List.nil_append] at hbad
      have hall : out.write (expandRuns runs) = out.write pushed := by
        rw [← hmore, OStream.write_append, OStream.write_of_not_good _ _ hbad]
      rw [hall, hbad]
      rfl
    | ok s =>
      rw [hrun] at hloop
      obtain ⟨hhas, hsum, hholds⟩ := hloop
      rw [List.nil_append] at hholds
      have hs : s.totalDecompressed = expectedSize := hsum.trans htotal
      have hfinish := finish_of_holds expectedSize s hhas hholds
      simp only [hs, and_true] at hfinish
      exact congrArg Except.ok hfinish

/-- **`decompress` restores what valid runs stand for**, with the true size, on any device. -/
theorem decompress_payload (input : IStream) (out : OStream) (expectedSize : UInt64)
    (runs : List (ℕ × UInt8)) (hin : input.good = true) (hout : out.good = true)
    (hrest : input.rest = pairBytes runs) (hvalid : ValidRuns runs)
    (htotal : runsTotal runs = expectedSize.toNat) :
    decompress input out expectedSize =
      .ok (if (out.write (expandRuns runs)).good = true then some expectedSize else none,
        out.write (expandRuns runs)) := by
  obtain ⟨hadm, hafter⟩ := admitted_of_fits expectedSize 0 runs hvalid (by simp [htotal])
  apply decompress_runs input out expectedSize runs hin hout hrest hvalid hadm
  apply UInt64.toNat_inj.mp
  rw [hafter, htotal]
  simp

/-- The payload of some data restores them in memory. -/
theorem decompress_memory (data : Bytes) (expectedSize : UInt64)
    (hsize : expectedSize.toNat = data.length) :
    decompress (IStream.ofBytes (payload data)) OStream.memory expectedSize =
      .ok (some expectedSize, OStream.memory.write data) := by
  have h := decompress_payload (IStream.ofBytes (payload data)) OStream.memory expectedSize
    (cappedRuns 255 data) rfl rfl rfl (validRuns_cappedRuns data)
    (by rw [runsTotal_cappedRuns, hsize])
  rw [expandRuns_cappedRuns, OStream.write_memory_good, if_pos rfl] at h
  exact h

/-! ## Decompression of a payload cut short -/

/-- A run-length payload cut short is rejected. -/
theorem decompress_cut (data part missing : Bytes) (input : IStream) (out : OStream)
    (hin : input.good = true) (hout : out.good = true) (hlen : data.length < 2 ^ 64)
    (hcut : payload data = part ++ missing) (hne : missing ≠ [])
    (hr : input.rest = part) :
    ∃ out', decompress input out (UInt64.ofNat data.length) = .ok (none, out') := by
  have hsize : (UInt64.ofNat data.length).toNat = data.length := UInt64.toNat_ofNat_of_lt' hlen
  have hvalid := validRuns_cappedRuns data
  have htotal := runsTotal_cappedRuns 255 data
  have hpart : part <+: pairBytes (cappedRuns 255 data) := ⟨missing, hcut.symm⟩
  obtain ⟨r, written, heq, -, hsome⟩ := decompress_bounded input out
    (UInt64.ofNat data.length) hin hout
    (hr ▸ noWrap_of_prefix _ _ part hvalid (by rw [hsize]; exact htotal) hpart)
  cases r with
  | none => exact ⟨_, heq⟩
  | some v =>
    obtain ⟨-, runs, hruns, hsum, hbytes, -⟩ := hsome v rfl
    rw [hr] at hbytes
    rw [hbytes] at hpart
    -- the runs read stand for as many bytes as all runs, so none is missing
    have hall : runs = cappedRuns 255 data :=
      runs_eq_of_pairBytes_prefix hruns hvalid hpart (by rw [htotal, hsum, hsize])
    rw [payload, ← hall, hbytes] at hcut
    exact absurd (List.self_eq_append_right.mp hcut) hne

end Lacuna.Model.RleCompressor
