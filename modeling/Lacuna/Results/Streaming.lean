import Lacuna.Analysis.Archive
import Lacuna.Analysis.Program
import Lacuna.Results.HeaderFormat
import Lacuna.Results.Sessions

/-!
# What comes out of a pipe

The decoders write while they still read, and find out late that an input is damaged. But nothing
they have written has to be taken back: whatever follows, or does not follow, the bytes read so
far, the outputs agree as far as both go (`decompress_causal`). So who reads the output of
`lacuna decompress` sees a beginning of the data, even when the archive was cut or something was
appended to it (`main_pipe_prefix`).
-/

set_option autoImplicit false

namespace Lacuna.Results

open Model Library

variable {Dir : Type}

/-! ## The decoders -/

/-- A decoder returned, with no more than the expected number of bytes `written`, and with just as
many where it returned a value. -/
structure Decodes (expectedSize : UInt64) (out : OStream) (result : Except Fault Decompressed)
    (r : Option UInt64) (written : Bytes) : Prop where
  returns : result = .ok (r, out.write written)
  le : written.length ≤ expectedSize.toNat
  all : r ≠ none → written.length = expectedSize.toNat

/-- Two decodings, on whatever devices, return, and have written the same bytes as far as both
have written any. -/
def Agree (expectedSize : UInt64) (decoder decoder' : OStream → Except Fault Decompressed) : Prop :=
  ∀ out out' : OStream, out.good = true → out'.good = true →
    ∃ r written r' written', Decodes expectedSize out (decoder out) r written ∧
      Decodes expectedSize out' (decoder' out') r' written' ∧
      (written <+: written' ∨ written' <+: written)

/-- Which of the two comes first does not matter. -/
theorem Agree.symm {expectedSize : UInt64}
    {decoder decoder' : OStream → Except Fault Decompressed}
    (h : Agree expectedSize decoder decoder') : Agree expectedSize decoder' decoder := by
  intro out out' hout hout'
  obtain ⟨r, written, r', written', hdec, hdec', hboth⟩ := h out' out hout' hout
  exact ⟨r', written', r, written, hdec', hdec, hboth.symm⟩

/-- **What the run-length decoder writes** is a beginning of what some runs at the start of the
input stand for. -/
theorem rle_decodes (input : IStream) (out : OStream) (expectedSize : UInt64)
    (hin : input.good = true) (hout : out.good = true)
    (hwrap : RleCompressor.NoWrap expectedSize input.rest) :
    ∃ r written runs, Decodes expectedSize out (RleCompressor.decompress input out expectedSize) r
        written ∧
      RleCompressor.ValidRuns runs ∧ RleCompressor.pairBytes runs <+: input.rest ∧
      written <+: expandRuns runs := by
  obtain ⟨r, written, heq, ⟨runs, hvalid, hadm, hruns, hwritten⟩, hsome⟩ :=
    RleCompressor.decompress_sound input out expectedSize hin hout
  refine ⟨r, written, runs, ⟨heq, ?_, fun hr => ?_⟩, hvalid, hruns, hwritten⟩
  · have hle := (RleCompressor.runsTotal_of_admitted expectedSize _ runs hwrap hvalid hadm hruns).2
    have hlen := hwritten.length_le
    rw [length_expandRuns] at hlen
    omega
  · obtain ⟨v, rfl⟩ := Option.ne_none_iff_exists'.mp hr
    obtain ⟨-, runs', hvalid', hadm', htotal, hrest, rfl⟩ := hsome v rfl
    have hexact := (RleCompressor.runsTotal_of_admitted expectedSize _ runs' hwrap hvalid' hadm'
      (hrest ▸ List.prefix_rfl)).1
    rw [length_expandRuns, ← hexact, htotal]

/-- **The run-length decoder** on an input and on a longer one. -/
theorem rle_agree (input input' : IStream) (expectedSize : UInt64) (hin : input.good = true)
    (hin' : input'.good = true) (hwrap : RleCompressor.NoWrap expectedSize input'.rest)
    (hpre : input.rest <+: input'.rest) :
    Agree expectedSize (fun out => RleCompressor.decompress input out expectedSize)
      (fun out => RleCompressor.decompress input' out expectedSize) := by
  have hwrap' : RleCompressor.NoWrap expectedSize input.rest :=
    fun runs count hvalid hle hcount => hwrap runs count hvalid hle (hcount.trans hpre)
  intro out out' hout hout'
  obtain ⟨r, written, runs, hdec, hvalid, hruns, hwritten⟩ :=
    rle_decodes input out expectedSize hin hout hwrap'
  obtain ⟨r', written', runs', hdec', hvalid', hruns', hwritten'⟩ :=
    rle_decodes input' out' expectedSize hin' hout' hwrap
  refine ⟨r, written, r', written', hdec, hdec', ?_⟩
  -- the runs read from the one are where those read from the other begin, or the reverse
  rcases List.prefix_or_prefix_of_prefix (hruns.trans hpre) hruns' with hbytes | hbytes
  · obtain ⟨more, rfl⟩ := RleCompressor.runs_prefix_of_pairBytes_prefix hvalid hvalid' hbytes
    rw [expandRuns_append] at hwritten'
    exact List.prefix_or_prefix_of_prefix (hwritten.trans (List.prefix_append _ _)) hwritten'
  · obtain ⟨more, rfl⟩ := RleCompressor.runs_prefix_of_pairBytes_prefix hvalid' hvalid hbytes
    rw [expandRuns_append] at hwritten
    exact List.prefix_or_prefix_of_prefix hwritten (hwritten'.trans (List.prefix_append _ _))

/-- With the table of a single symbol the Huffman decoder writes it as often as expected. -/
theorem fillSingle_decodes (T : Target) (value : UInt8) (out : OStream) (expectedSize : UInt64)
    (hout : out.good = true) (hfits : expectedSize.toNat < 2 ^ T.sizeBits) :
    ∃ r, Decodes expectedSize out
      (runBody (HuffmanCompressor.fillSingle T.sizeBits value out expectedSize)) r
      (List.replicate expectedSize.toNat value) :=
  ⟨_, HuffmanCompressor.fillSingle_eq _ value out expectedSize hfits hout, by simp, by simp⟩

/-- **The Huffman decoder returns** on every input and device. -/
theorem huffman_decodes (T : Target) (input : IStream) (out : OStream) (expectedSize : UInt64)
    (hin : input.good = true) (hout : out.good = true)
    (hfits : expectedSize.toNat < 2 ^ T.sizeBits) :
    ∃ r written, Decodes expectedSize out
      (HuffmanCompressor.decompress T input out expectedSize) r written := by
  by_cases hzero : expectedSize = 0
  · subst hzero
    exact ⟨_, [], HuffmanCompressor.decompress_zero T input out hin hout, by simp, by simp⟩
  rcases HuffmanCompressor.decompress_cases T input expectedSize hin hzero with
    heq | ⟨value, -, heq⟩ | ⟨entries, t, more, input', -, hin', -, heq⟩
  · exact ⟨none, [], heq out hout, by simp, fun h => absurd rfl h⟩
  · rw [heq out hout]
    obtain ⟨r, hdec⟩ := fillSingle_decodes T value out expectedSize hout hfits
    exact ⟨r, _, hdec⟩
  · rw [heq out hout]
    obtain ⟨r, written, hrun, hpre, hall⟩ := HuffmanCompressor.decodeTree_written
      (HuffmanCompressor.setEntries (fun _ => 0) entries) t input' out expectedSize hin' hout
    exact ⟨r, written, hrun, hpre.length_le.trans (t.length_decodeSome_le _ _), hall⟩

/-- **The Huffman decoder** on an input and on a longer one. -/
theorem huffman_agree (T : Target) (input input' : IStream) (expectedSize : UInt64)
    (hin : input.good = true) (hin' : input'.good = true)
    (hfits : expectedSize.toNat < 2 ^ T.sizeBits) (hpre : input.rest <+: input'.rest) :
    Agree expectedSize (fun out => HuffmanCompressor.decompress T input out expectedSize)
      (fun out => HuffmanCompressor.decompress T input' out expectedSize) := by
  intro out out' hout hout'
  by_cases hzero : expectedSize = 0
  · subst hzero
    exact ⟨_, [], _, [],
      ⟨HuffmanCompressor.decompress_zero T input out hin hout, by simp, by simp⟩,
      ⟨HuffmanCompressor.decompress_zero T input' out' hin' hout', by simp, by simp⟩,
      Or.inl List.prefix_rfl⟩
  obtain ⟨tail, htail⟩ := hpre
  rcases HuffmanCompressor.decompress_cases T input expectedSize hin hzero with
    heq | ⟨value, ⟨more, hmore⟩, heq⟩ | ⟨entries, t, more, behind, htree, -, -, -⟩
  · obtain ⟨r', written', hdec'⟩ := huffman_decodes T input' out' expectedSize hin' hout' hfits
    exact ⟨none, [], r', written', ⟨heq out hout, by simp, fun h => absurd rfl h⟩, hdec',
      Or.inl List.nil_prefix⟩
  · -- the table is complete, and so it is in the longer input
    have hsingle : HuffmanCompressor.SingleInput input'.rest expectedSize value :=
      ⟨more ++ tail, by rw [← htail, hmore]; simp only [List.append_assoc]⟩
    have heq' := HuffmanCompressor.decompress_single T input' out' expectedSize value hin' hout'
      hzero hsingle
    obtain ⟨r, hdec⟩ := fillSingle_decodes T value out expectedSize hout hfits
    obtain ⟨r', hdec'⟩ := fillSingle_decodes T value out' expectedSize hout' hfits
    rw [← heq out hout] at hdec
    rw [← heq'] at hdec'
    exact ⟨r, _, r', _, hdec, hdec', Or.inl List.prefix_rfl⟩
  · have htree' : HuffmanCompressor.TreeInput T input'.rest expectedSize entries t (more ++ tail) :=
      { two_le := htree.two_le
        le := htree.le
        split := by rw [← htail, htree.split]; simp only [List.append_assoc]
        sum_eq := htree.sum_eq
        tree_eq := htree.tree_eq
        leaves_perm := htree.leaves_perm }
    obtain ⟨heq, hrest⟩ := HuffmanCompressor.decompress_tree T input out expectedSize entries t
      more hin hout hzero htree
    obtain ⟨heq', hrest'⟩ := HuffmanCompressor.decompress_tree T input' out' expectedSize entries
      t _ hin' hout' hzero htree'
    obtain ⟨r, written, hrun, hwritten, hall⟩ := HuffmanCompressor.decodeTree_written
      (HuffmanCompressor.setEntries (fun _ => 0) entries) t
      (HuffmanCompressor.behindTable input entries.length) out expectedSize (by simpa using hin)
      hout
    obtain ⟨r', written', hrun', hwritten', hall'⟩ := HuffmanCompressor.decodeTree_written
      (HuffmanCompressor.setEntries (fun _ => 0) entries) t
      (HuffmanCompressor.behindTable input' entries.length) out' expectedSize (by simpa using hin')
      hout'
    refine ⟨r, written, r', written',
      ⟨heq.trans hrun, hwritten.length_le.trans (t.length_decodeSome_le _ _), hall⟩,
      ⟨heq'.trans hrun', hwritten'.length_le.trans (t.length_decodeSome_le _ _), hall'⟩, ?_⟩
    rw [hrest] at hwritten
    rw [hrest', unpackBits_append] at hwritten'
    exact List.prefix_or_prefix_of_prefix (hwritten.trans (t.decodeSome_prefix _ _ _)) hwritten'

/-- The selected decompressor on an input and on a longer one. -/
theorem decompress_agree (T : Target) (algorithmId : UInt8) (c : Compressor)
    (hc : selectCompressor T algorithmId = some c) (input input' : IStream)
    (expectedSize : UInt64) (hin : input.good = true) (hin' : input'.good = true)
    (hwrap : RleCompressor.NoWrap expectedSize input'.rest)
    (hfits : expectedSize.toNat < 2 ^ T.sizeBits) (hpre : input.rest <+: input'.rest) :
    Agree expectedSize (fun out => c.decompress input out expectedSize)
      (fun out => c.decompress input' out expectedSize) := by
  unfold selectCompressor at hc
  split at hc
  · cases hc
    exact rle_agree input input' expectedSize hin hin' hwrap hpre
  · split at hc
    · cases hc
      exact huffman_agree T input input' expectedSize hin hin' hfits hpre
    · cases hc

/-- **The decoders take nothing back.** Whatever the payload, hostile or not, and whatever comes
behind it, in less than `2 ^ 57` bytes together and with an expected size that `size_t` can hold:
each decoder returns on both, on any devices, with no more bytes written than were expected and just
as many where it returned a value; and what it wrote of the one is a beginning of what it wrote of
the other, or the reverse. -/
theorem decompress_causal (T : Target) (algorithmId : UInt8) (c : Compressor)
    (hc : selectCompressor T algorithmId = some c) (payload more : Bytes) (expectedSize : UInt64)
    (hlen : (payload ++ more).length < 2 ^ 57) (hfits : expectedSize.toNat < 2 ^ T.sizeBits) :
    Agree expectedSize (fun out => c.decompress (IStream.ofBytes payload) out expectedSize)
      (fun out => c.decompress (IStream.ofBytes (payload ++ more)) out expectedSize) :=
  decompress_agree T algorithmId c hc (IStream.ofBytes payload) (IStream.ofBytes (payload ++ more))
    expectedSize rfl rfl (RleCompressor.noWrap_of_length expectedSize _ hlen) hfits
    (List.prefix_append payload more)

/-- A payload of runs, and the same with a run too many. -/
theorem decompress_causal_runs :
    Agree 3 (fun out => RleCompressor.decompress (IStream.ofBytes [2, 65, 1]) out 3)
      (fun out => RleCompressor.decompress (IStream.ofBytes ([2, 65, 1] ++ [66, 9, 9])) out 3) :=
  decompress_causal Target.scan 0x01 RleCompressor rfl [2, 65, 1] [66, 9, 9] 3 (by decide)
    (by decide)

/-! ## The program -/

/-- A file that is damaged behind at most: it was cut, or something was appended to it, or
neither. -/
def DamagedBehind (file whole : Bytes) : Prop := file <+: whole ∨ whole <+: file

/-- **A payload damaged behind** is decoded to a beginning of the data, and to all of them where a
value is returned. -/
theorem decompress_damaged (T T' : Target) (algorithmId : UInt8) (ha : IsCodec algorithmId)
    (data : Bytes) (hlen : data.length + 255 < 2 ^ 64) (hfits : data.length < 2 ^ T'.sizeBits)
    (input : IStream) (hin : input.good = true)
    (hdamage : DamagedBehind input.rest (archivePayload T algorithmId data)) (out : OStream)
    (hout : out.good = true) :
    ∃ c r written, selectCompressor T' algorithmId = some c ∧
      c.decompress input out (UInt64.ofNat data.length) = .ok (r, out.write written) ∧
      written <+: data ∧ (r ≠ none → written = data) := by
  have hsize : (UInt64.ofNat data.length).toNat = data.length :=
    UInt64.toNat_ofNat_of_lt' (T'.lt_two_pow_64 hfits)
  obtain ⟨c, hc, hrestores⟩ := restores_archivePayload T T' algorithmId ha data hfits
    (IStream.ofBytes (archivePayload T algorithmId data)) rfl rfl
  have hwrap : ∀ payload, RleCompressor.NoWrap (UInt64.ofNat data.length) payload :=
    fun payload => RleCompressor.noWrap_of_size _ payload (by rw [hsize]; exact hlen)
  have hagree : Agree (UInt64.ofNat data.length)
      (fun out => c.decompress input out (UInt64.ofNat data.length))
      (fun out => c.decompress (IStream.ofBytes (archivePayload T algorithmId data)) out
        (UInt64.ofNat data.length)) := by
    rcases hdamage with hpre | hpre
    · exact decompress_agree T' algorithmId c hc _ _ _ hin rfl (hwrap _) (hsize.symm ▸ hfits) hpre
    · exact (decompress_agree T' algorithmId c hc _ _ _ rfl hin (hwrap _) (hsize.symm ▸ hfits)
        hpre).symm
  obtain ⟨r, written, r', written', hdec, hdec', hboth⟩ :=
    hagree out OStream.memory hout rfl
  -- the undamaged payload is decoded to the data
  have hwhole : data = written' := by
    have hreturns := (hrestores OStream.memory rfl).symm.trans hdec'.returns
    rw [Except.ok.injEq, Prod.mk.injEq] at hreturns
    have haccepted := congrArg OStream.accepted hreturns.2
    rwa [OStream.write_memory_accepted, OStream.write_memory_accepted] at haccepted
  rw [← hwhole] at hboth
  have hle := hdec.le
  rw [hsize] at hle
  have hprefix : written <+: data := by
    rcases hboth with hpre | hpre
    · exact hpre
    · rw [hpre.eq_of_length_le hle]
  exact ⟨c, r, written, hc, hdec.returns, hprefix, fun hr =>
    hprefix.eq_of_length ((hdec.all hr).trans hsize)⟩

/-- The header of a file damaged behind is that of the archive, and its payload is damaged
behind. -/
theorem damagedBehind_body (T : Target) (algorithmId : UInt8) (data file : Bytes)
    (hdamage : DamagedBehind file (archive T algorithmId data)) (header : Header)
    (input : IStream) (hread : readHeader (IStream.ofBytes file) = (some header, input)) :
    header = archiveHeader algorithmId data ∧ input.good = true ∧
      DamagedBehind input.rest (archivePayload T algorithmId data) := by
  obtain ⟨-, hgood, hfile⟩ := readHeader_some (IStream.ofBytes file) header input rfl hread
  rw [IStream.rest_ofBytes] at hfile
  rw [archive] at hdamage
  have hheader : headerBytes header = headerBytes (archiveHeader algorithmId data) := by
    -- both are where the longer one of file and archive begins
    have hboth : headerBytes header <+: headerBytes (archiveHeader algorithmId data) ∨
        headerBytes (archiveHeader algorithmId data) <+: headerBytes header := by
      have hstart : headerBytes header <+: file := ⟨_, hfile.symm⟩
      rcases hdamage with hpre | hpre
      · exact List.prefix_or_prefix_of_prefix (hstart.trans hpre) (List.prefix_append _ _)
      · exact List.prefix_or_prefix_of_prefix hstart ((List.prefix_append _ _).trans hpre)
    rcases hboth with hpre | hpre
    · exact hpre.eq_of_length (by simp)
    · exact (hpre.eq_of_length (by simp)).symm
  have heq := headerBytes_injective hheader
  subst heq
  refine ⟨rfl, hgood, ?_⟩
  rw [hfile] at hdamage
  rcases hdamage with hpre | hpre
  · exact Or.inl ((List.prefix_append_right_inj _).mp hpre)
  · exact Or.inr ((List.prefix_append_right_inj _).mp hpre)

/-- What a decompression to standard output leaves: a beginning of the data, all of them and the
report where it succeeds, and the files as they were. -/
structure PipesPrefix (host : Host) (files : FileSystem) (data : Bytes) (ok : Bool) (w : World)
    (written report : Bytes) : Prop where
  beginning : written <+: data
  all : ok = true → written = data
  quiet : ok = false → report = []
  stdout_eq : w.stdout = (host.device dash).write (written ++ report)
  files_eq : w.files = files

/-- **A damaged package, decompressed to standard output.** -/
theorem handleDecompress_damaged (host : Host) (opt : CliOptions) (files : FileSystem)
    (T : Target) (algorithmId : UInt8) (ha : IsCodec algorithmId) (data file : Bytes)
    (hlen : data.length + 255 < 2 ^ 64) (hfits : data.length < 2 ^ host.target.sizeBits)
    (hdest : decompressDest opt = dash)
    (hopen : openArchive host (World.start host files) opt.positionalTarget =
      some (IStream.ofBytes file))
    (hdamage : DamagedBehind file (archive T algorithmId data)) :
    ∃ ok w written report, handleDecompress host opt (World.start host files) = .ok (ok, w) ∧
      PipesPrefix host files data ok w written report := by
  have hnothing : ∀ line : Bytes,
      PipesPrefix host files data false ((World.start host files).complain line) [] [] :=
    fun line => ⟨List.nil_prefix, fun h => absurd h Bool.false_ne_true, fun _ => rfl, rfl, rfl⟩
  by_cases htarget : opt.positionalTarget = []
  · simp only [handleDecompress, htarget, List.isEmpty_nil, if_true]
    exact ⟨false, _, [], [], rfl, hnothing _⟩
  cases hread : readHeader (IStream.ofBytes file) with
  | mk found input =>
    cases found with
    | none =>
      simp only [handleDecompress, List.isEmpty_eq_false_iff.mpr htarget, Bool.false_eq_true,
        if_false, hopen, hread]
      exact ⟨false, _, [], [], rfl, hnothing _⟩
    | some header =>
      obtain ⟨rfl, hgood, hbody⟩ :=
        damagedBehind_body T algorithmId data file hdamage header input hread
      obtain ⟨c, r, written, hc, hdec, hprefix, hall⟩ := decompress_damaged T host.target
        algorithmId ha data hlen hfits input hgood hbody (host.device dash) (host.good_device dash)
      have hopened : openedWorld host opt files = World.start host files := if_pos hdest
      have hstream : payloadStream host opt input = input := if_neg fun h => h.1 hdest
      have hcodec : selectCompressor host.target (archiveHeader algorithmId data).algorithmId =
        some c := hc
      have hdecode : c.decompress input (host.device dash)
        (archiveHeader algorithmId data).originalSize = _ := hdec
      rw [handleDecompress_of_extracts host opt files _ input
        ⟨htarget, ⟨_, hopen, hread⟩, Or.inl hdest⟩, hopened, hstream, hdest]
      simp only [restorePayload, hcodec, hdecode, hdest]
      cases r with
      | none =>
        refine ⟨false, _, written, [], if_neg fun h => h rfl, hprefix, ?_, fun _ => rfl, ?_, rfl⟩
        · exact fun h => absurd h Bool.false_ne_true
        · rw [List.append_nil]
          rfl
      | some v =>
        have hwritten := hall (Option.some_ne_none v)
        refine ⟨true, _, written, decompressReport host opt dash v, rfl, hprefix,
          fun _ => hwritten, fun h => absurd h.symm Bool.false_ne_true, ?_, rfl⟩
        rw [OStream.write_append]
        rfl

/-- **What comes out of the pipe is a beginning of the data.** A package that any build made of
some data, whose length the `size_t` of this one can hold, is cut anywhere or followed by anything
and decompressed to standard output: the run returns and leaves the files as they were; the device
has taken what it takes of a beginning of the data, and a report behind it only if the status is
zero and the beginning is all of the data. -/
theorem main_pipe_prefix (machine : Machine Dir) (args : List Bytes) (opt : CliOptions)
    (files : FileSystem) (T : Target) (algorithmId : UInt8) (ha : IsCodec algorithmId)
    (data file : Bytes) (hlen : data.length + 255 < 2 ^ 64)
    (hfits : data.length < 2 ^ machine.host.target.sizeBits)
    (hparse : parseCliArgs machine.host.console args = .ok opt) (htask : opt.task = .decompress)
    (hdest : decompressDest opt = dash)
    (hopen : openArchive machine.host (World.start machine.host files) opt.positionalTarget =
      some (IStream.ofBytes file))
    (hdamage : DamagedBehind file (archive T algorithmId data)) :
    ∃ ok w written report,
      main machine args (World.start machine.host files) = .ok (exitStatus ok, w) ∧
        PipesPrefix machine.host files data ok w written report := by
  obtain ⟨ok, w, written, report, hrun, hpipes⟩ := handleDecompress_damaged machine.host opt files
    T algorithmId ha data file hlen hfits hdest hopen hdamage
  rw [← runOptions_of_decompress machine opt _ htask] at hrun
  exact ⟨ok, w, written, report, main_of_parsed machine args _ w opt ok hparse hrun, hpipes⟩

/-- A package that lost its last byte, in a pipe. -/
theorem main_pipe_prefix_cut :
    ∃ ok w written report,
      main (plainMachine (plainHost (archive Target.scan 0x02 [65, 66, 66]).dropLast none .atWrite))
          [text "decompress", text "-"]
          (World.start (plainHost (archive Target.scan 0x02 [65, 66, 66]).dropLast none .atWrite)
            noFiles) = .ok (exitStatus ok, w) ∧
        PipesPrefix (plainHost (archive Target.scan 0x02 [65, 66, 66]).dropLast none .atWrite)
          noFiles [65, 66, 66] ok w written report :=
  main_pipe_prefix (plainMachine
      (plainHost (archive Target.scan 0x02 [65, 66, 66]).dropLast none .atWrite))
    [text "decompress", text "-"]
    { command := text "decompress", positionalTarget := dash } noFiles Target.scan 0x02
    (Or.inr rfl) [65, 66, 66] (archive Target.scan 0x02 [65, 66, 66]).dropLast (by decide)
    (by decide) rfl (by decide) (by decide) (if_pos rfl) (Or.inl (List.dropLast_prefix _))

end Lacuna.Results
