import Lacuna.Results.PayloadForms
import Lacuna.Results.Streaming

/-!
# What an inspection says

`lacuna info` reads the header of a file and nothing behind it. What it says is still true of the
data: of a package, whatever was run since it was made (`session_informs`), and of every file that
can be decompressed at all (`info_agrees`).
-/

set_option autoImplicit false

namespace Lacuna.Results

open Model Library

variable {Dir : Type}

/-! ## Inspections -/

/-- The options ask for an inspection of `q`. -/
structure Inspects (opt : CliOptions) (q : Bytes) : Prop where
  version : opt.showVersion = false
  help : opt.showHelp = false
  command : opt.command = text "info" ∨ opt.command = text "i"
  target : opt.positionalTarget = q
  target_ne : q ≠ []

/-- **An inspection is run by `handle_info`.** -/
theorem runOptions_of_inspects (machine : Machine Dir) (opt : CliOptions) (w : World) (q : Bytes)
    (h : Inspects opt q) : runOptions machine opt w = .ok (handleInfo machine.host opt w) := by
  have htests : opt.command.isEmpty = false ∧
      (opt.command = text "compress" || opt.command = text "c") = false ∧
      (opt.command = text "decompress" || opt.command = text "d") = false ∧
      (opt.command = text "info" || opt.command = text "i") = true := by
    rcases h.command with hcommand | hcommand
    · rw [hcommand]
      decide
    · rw [hcommand]
      decide
  obtain ⟨hne, hcompress, hdecompress, hinfo⟩ := htests
  simp only [runOptions, dispatch, h.version, h.help, hne, hcompress, hdecompress, hinfo,
    Bool.false_eq_true, if_false, if_true]

/-- How an inspection of `q` ends, if there is a file with a header: it succeeds if and only if the
file can be opened, and then says what the header says, and how long the file is. -/
structure Describes (host : Host) (opt : CliOptions) (q : Bytes) (header : Header) (size : ℕ)
    (status : ℕ) (w : World) : Prop where
  succeeds : status = 0 ↔ host.readable q = true
  printed : status = 0 → w.stdout = (host.device dash).write (infoReport host opt header size)

/-- What `handle_info` does with a file that has a header and can be opened. -/
theorem handleInfo_of_header (host : Host) (opt : CliOptions) (files : FileSystem)
    (q contents : Bytes) (header : Header) (hinspects : Inspects opt q)
    (hfile : files q = some contents)
    (hread : (readHeader (IStream.ofBytes contents)).1 = some header)
    (hreadable : host.readable q = true) :
    handleInfo host opt (World.start host files) =
      (true, (World.start host files).print (infoReport host opt header contents.length)) := by
  have hne : q.isEmpty = false := List.isEmpty_eq_false_iff.mpr hinspects.target_ne
  have hsize : (World.start host files).getFileSize host q = .ok contents.length := by
    unfold Host.readable at hreadable
    unfold World.getFileSize
    cases haccess : host.access q with
    | unresolved what =>
      rw [haccess] at hreadable
      cases hreadable
    | resolved readable writable => simp only [World.start, hfile]
  have hopen : (World.start host files).openFile host q = some (IStream.ofBytes contents) := by
    simp only [World.openFile, World.start, hfile, Option.map_some, hreadable, if_true]
  unfold handleInfo
  rw [hinspects.target]
  simp only [hne, hsize, hopen, hread, Bool.false_eq_true, if_false]

/-- A file that cannot be opened is not inspected. -/
theorem handleInfo_of_unreadable (host : Host) (opt : CliOptions) (files : FileSystem)
    (q : Bytes) (hinspects : Inspects opt q) (hunreadable : host.readable q = false) :
    (handleInfo host opt (World.start host files)).1 = false := by
  have hne : q.isEmpty = false := List.isEmpty_eq_false_iff.mpr hinspects.target_ne
  have hopen : (World.start host files).openFile host q = none := by
    rw [World.openFile, hunreadable, if_neg Bool.false_ne_true]
  unfold handleInfo
  rw [hinspects.target]
  simp only [hne, hopen, Bool.false_eq_true, if_false]
  split <;> rfl

/-- **An inspection of a file with a header.** -/
theorem main_inspects (machine : Machine Dir) (args : List Bytes) (opt : CliOptions)
    (files : FileSystem) (q contents : Bytes) (header : Header)
    (hparse : parseCliArgs machine.host.console args = .ok opt) (hinspects : Inspects opt q)
    (hfile : files q = some contents)
    (hread : (readHeader (IStream.ofBytes contents)).1 = some header) :
    ∃ status w, main machine args (World.start machine.host files) = .ok (status, w) ∧
      Describes machine.host opt q header contents.length status w := by
  have hrun := runOptions_of_inspects machine opt (World.start machine.host files) q hinspects
  cases hreadable : machine.host.readable q with
  | false =>
    have hfalse := handleInfo_of_unreadable machine.host opt files q hinspects hreadable
    generalize handleInfo machine.host opt (World.start machine.host files) = result at hrun hfalse
    obtain ⟨ok, w⟩ := result
    obtain rfl : ok = false := hfalse
    refine ⟨_, _, main_of_parsed machine args _ _ opt _ hparse hrun, ?_, fun h => ?_⟩
    · exact iff_of_false (by decide) (by simp [hreadable])
    · exact absurd h (by decide)
  | true =>
    rw [handleInfo_of_header machine.host opt files q contents header hinspects hfile hread
      hreadable] at hrun
    refine ⟨_, _, main_of_parsed machine args _ _ opt _ hparse hrun, ?_, fun _ => rfl⟩
    exact iff_of_true rfl hreadable

/-! ## Packages -/

/-- The codec a compression uses: the one that is named, or the one with the smaller archive. -/
def usedId (T : Target) (opt : CliOptions) (data : Bytes) : UInt8 :=
  match opt.algorithm.bind algorithmNamed with
  | some (selectedAlgo, _) => selectedAlgo
  | none => smallerId T data

/-- **The archive that is selected** is made by that codec. -/
theorem selectArchive_usedId (host : Host) (opt : CliOptions) (inputPath data : Bytes)
    (chosen : Selection) (h : selectArchive host opt inputPath data = .ok (.ok chosen)) :
    chosen.serializedData = archive host.target (usedId host.target opt data) data ∧
      IsCodec (usedId host.target opt data) := by
  have hauto : selectAutomatically host inputPath data = .ok chosen →
      chosen.serializedData = archive host.target (smallerId host.target data) data ∧
        IsCodec (smallerId host.target data) := by
    intro hselect
    rw [selectAutomatically_eq, Except.ok.injEq] at hselect
    subst hselect
    refine ⟨rfl, ?_⟩
    unfold smallerId
    split
    · exact Or.inr rfl
    · exact Or.inl rfl
  unfold usedId
  unfold selectArchive at h
  cases halgo : opt.algorithm with
  | none =>
    rw [halgo] at h
    exact hauto (Except.ok.inj h)
  | some algoStr =>
    rw [halgo] at h
    simp only [Option.bind_some] at h ⊢
    by_cases hword : algoStr = text "auto"
    · rw [if_pos hword] at h
      rw [hword]
      exact hauto (Except.ok.inj h)
    · rw [if_neg hword] at h
      cases hnamed : algorithmNamed algoStr with
      | none =>
        rw [hnamed] at h
        dsimp only at h
        split at h <;> cases h
      | some named =>
        obtain ⟨selectedAlgo, algoName⟩ := named
        have ha := isCodec_of_algorithmNamed _ _ _ hnamed
        obtain ⟨hsuccess, hserialized⟩ :=
          runTrial_eq host.target host.elapsed data selectedAlgo ha
        rw [hnamed] at h
        simp only [hsuccess, Bool.not_true, Bool.false_eq_true, if_false, Except.ok.injEq] at h
        subst h
        exact ⟨hserialized, ha⟩

/-- **A package is described as it was made.** A run packs the data it reads into `q` and
succeeds, on a device that reports at the write. Then, after any session that does not write to
`q`, an inspection of `q` on any machine ends, and succeeds if and only if it can open `q`; what it
says then is the codec that was named, or the one with the smaller archive, the length of the data
and that of their archive. -/
theorem session_informs {files files₁ files₂ : FileSystem} {es : List (Event Dir)}
    (e : Event Dir) (opt : CliOptions) (q data : Bytes) (hpacks : e.PacksTo opt q)
    (hstatus : e.status = 0) (hreport : e.machine.host.report q = .atWrite)
    (hread : readTarget e.machine.host (World.start e.machine.host files) opt.positionalTarget =
      .ok data)
    (hstep : e.Step files files₁) (hsession : Session files₁ es files₂)
    (hkept : ∀ c ∈ es, c.destination ≠ some q) (machine : Machine Dir) (args : List Bytes)
    (opt' : CliOptions) (hparse : parseCliArgs machine.host.console args = .ok opt')
    (hinspects : Inspects opt' q) :
    ∃ status w, main machine args (World.start machine.host files₂) = .ok (status, w) ∧
      Describes machine.host opt' q
        (archiveHeader (usedId e.machine.host.target opt data) data)
        (archive e.machine.host.target (usedId e.machine.host.target opt data) data).length
        status w := by
  obtain ⟨chosen, hselect, hfile⟩ :=
    packed_kept e opt q data hpacks hstatus hreport hread hstep hsession hkept
  obtain ⟨harchive, ha⟩ := selectArchive_usedId _ opt _ data chosen hselect
  rw [harchive] at hfile
  have hheader := readHeader_file (archiveHeader (usedId e.machine.host.target opt data) data)
    (archivePayload e.machine.host.target (usedId e.machine.host.target opt data) data)
    (archiveHeader_valid _ data ha)
  exact main_inspects machine args opt' files₂ q _ _ hparse hinspects hfile
    (congrArg Prod.fst hheader)

/-- The package of one byte, inspected after it was packed once more. -/
theorem session_informs_twoPackages :
    ∃ status w, main (plainMachine (plainHost [] none .atWrite)) [text "info", text "a"]
        (World.start (plainHost [] none .atWrite) twoPackages) = .ok (status, w) ∧
      Describes (plainHost [] none .atWrite)
        { command := text "info", positionalTarget := text "a" } (text "a")
        (archiveHeader (usedId Target.scan { algorithm := some (text "rle") } [7]) [7])
        (archive Target.scan (usedId Target.scan { algorithm := some (text "rle") } [7]) [7]).length
        status w := by
  have hpacks : packOneByte.PacksTo
      { command := text "compress"
        positionalTarget := dash
        outputPath := some (text "a")
        algorithm := some (text "rle") } (text "a") := ⟨rfl, rfl, rfl, by decide⟩
  have hstep : packPackage.Step oneByteFiles twoPackages := ⟨_, rfl, rfl⟩
  refine session_informs packOneByte _ (text "a") [7] hpacks rfl rfl rfl
    step_packOneByte (.cons _ _ _ _ _ hstep (.nil _)) ?_ (plainMachine (plainHost [] none .atWrite))
    [text "info", text "a"] _ rfl ⟨rfl, rfl, Or.inl rfl, rfl, by decide⟩
  intro c hc
  obtain rfl := List.mem_singleton.mp hc
  decide

/-! ## Everything that can be decompressed -/

/-- What a decompressor restores has the expected length. -/
theorem length_of_carries (host : Host) (header : Header) (input : IStream) (data : Bytes)
    (hin : input.good = true) (hlen : input.rest.length < 2 ^ 57)
    (hcarries : Carries host header input data) :
    data.length = header.originalSize.toNat := by
  obtain ⟨c, hc, hrestores⟩ := hcarries
  unfold selectCompressor at hc
  split at hc
  · cases hc
    -- in so short a payload the sum of the counts does not wrap
    obtain ⟨r, written, heq, -, hsome⟩ := RleCompressor.decompress_bounded input OStream.memory
      header.originalSize hin rfl (RleCompressor.noWrap_of_length _ _ hlen)
    have hmemory := (hrestores OStream.memory rfl).symm.trans heq
    rw [OStream.write_memory_good, if_pos rfl, Except.ok.injEq, Prod.mk.injEq] at hmemory
    obtain ⟨-, runs, -, htotal, -, hwritten⟩ := hsome header.originalSize hmemory.1.symm
    have haccepted := congrArg OStream.accepted hmemory.2
    rw [OStream.write_memory_accepted, OStream.write_memory_accepted] at haccepted
    rw [haccepted, hwritten, length_expandRuns, htotal]
  split at hc
  · cases hc
    exact length_of_restores host.target input header.originalSize hin data hrestores
  · cases hc

/-- What a decompression delivered: the bytes its device took are at the destination, or on standard
output in front of the report. -/
def RestoredTo (host : Host) (opt : CliOptions) (header : Header) (data : Bytes) (w : World) :
    Prop :=
  if decompressDest opt = dash then
    w.stdout = ((host.device dash).write data).write
      (decompressReport host opt dash header.originalSize)
  else w.files (decompressDest opt) = some ((host.device (decompressDest opt)).write data).accepted

/-- **What a successful run of `handle_decompress` has found and done.** -/
theorem exists_restored (host : Host) (opt : CliOptions) (files : FileSystem) (q contents : Bytes)
    (w : World) (htarget : opt.positionalTarget = q)
    (hq : q ≠ dash) (hdest : decompressDest opt ≠ q) (hfile : files q = some contents)
    (hlen : contents.length < 2 ^ 57)
    (hrun : handleDecompress host opt (World.start host files) = .ok (true, w)) :
    ∃ header data, (readHeader (IStream.ofBytes contents)).1 = some header ∧
      data.length = header.originalSize.toNat ∧ RestoredTo host opt header data w ∧
      w.files q = some contents := by
  obtain ⟨header, input, data, hextracts, hcarries, hgood, hfiles⟩ :=
    exists_extracts_of_true host opt files w hrun
  obtain ⟨opened, hopen, hread⟩ := hextracts.opened
  rw [htarget] at hopen
  obtain rfl := openArchive_file host files q contents opened hq hfile hopen
  have hstream : payloadStream host opt input = input :=
    if_neg fun h => hdest (h.2.trans htarget)
  obtain ⟨-, hgoodInput, hrest⟩ := readHeader_some _ header input rfl hread
  have hshort : input.rest.length < 2 ^ 57 := by
    have hsplit := congrArg List.length hrest
    rw [IStream.rest_ofBytes, List.length_append] at hsplit
    omega
  have hlength := length_of_carries host header input data hgoodInput hshort
    (hstream ▸ hcarries)
  have hdone := handleDecompress_of_carries host opt files header input hextracts data hcarries
    hgood
  rw [hrun, Except.ok.injEq, Prod.mk.injEq] at hdone
  refine ⟨header, data, congrArg Prod.fst hread, hlength, ?_, ?_⟩
  · unfold RestoredTo
    split
    · rename_i hdash
      rw [hdone.2, hdash]
      rfl
    · rename_i hdash
      rw [hfiles, if_neg hdash, Function.update_self]
  · rw [hfiles]
    split
    · exact hfile
    · rw [Function.update_of_ne fun h => hdest h.symm]
      exact hfile

/-- **An inspection agrees with the decompression.** Whatever a file of less than `2 ^ 57` bytes is,
a package or not: if it is decompressed with success to another destination, by any build, then an
inspection of it on any machine ends, and succeeds if and only if it can open the file; and what it
says is a header whose original size is the number of bytes that were restored. -/
theorem info_agrees (machine : Machine Dir) (args : List Bytes) (opt : CliOptions)
    (files : FileSystem) (q contents : Bytes) (w : World)
    (hparse : parseCliArgs machine.host.console args = .ok opt) (htask : opt.task = .decompress)
    (htarget : opt.positionalTarget = q) (hq : q ≠ dash) (hdest : decompressDest opt ≠ q)
    (hfile : files q = some contents) (hlen : contents.length < 2 ^ 57)
    (hrun : main machine args (World.start machine.host files) = .ok (0, w))
    (machine' : Machine Dir) (args' : List Bytes) (opt' : CliOptions)
    (hparse' : parseCliArgs machine'.host.console args' = .ok opt') (hinspects : Inspects opt' q) :
    ∃ header data status w', RestoredTo machine.host opt header data w ∧
      data.length = header.originalSize.toNat ∧
      main machine' args' (World.start machine'.host w.files) = .ok (status, w') ∧
      Describes machine'.host opt' q header contents.length status w' := by
  have hhandle : handleDecompress machine.host opt (World.start machine.host files) =
      .ok (true, w) := by
    rcases main_cases machine args _ w 0 hrun with ⟨opt₁, line, -, hone, -⟩ |
      ⟨opt₁, ok, hparse₁, hoptions, hstatus⟩
    · cases hone
    · obtain rfl : opt = opt₁ := Except.ok.inj (hparse.symm.trans hparse₁)
      rw [eq_comm, exitStatus_eq_zero] at hstatus
      rwa [runOptions_of_decompress machine opt _ htask, hstatus] at hoptions
  obtain ⟨header, data, hread, hlength, hrestored, hkept⟩ := exists_restored machine.host opt files
    q contents w htarget hq hdest hfile hlen hhandle
  obtain ⟨status, w', hinfo, hdescribes⟩ := main_inspects machine' args' opt' w.files q contents
    header hparse' hinspects hkept hread
  exact ⟨header, data, status, w', hrestored, hlength, hinfo, hdescribes⟩

/-- The package of one byte, inspected after it was decompressed. -/
theorem info_agrees_oneByte :
    ∃ w header data status w',
      RestoredTo (plainHost [] none .atWrite)
        { command := text "d", positionalTarget := text "a", outputPath := some (text "c") } header
        data w ∧
      data.length = header.originalSize.toNat ∧
      main (plainMachine (plainHost [] none .atWrite)) [text "i", text "a"]
        (World.start (plainHost [] none .atWrite) w.files) = .ok (status, w') ∧
      Describes (plainHost [] none .atWrite)
        { command := text "i", positionalTarget := text "a" } (text "a") header
        (archive Target.scan 0x01 [7]).length status w' :=
  ⟨_, info_agrees (plainMachine (plainHost [] none .atWrite))
    [text "d", text "a", text "-o", text "c"] _ oneByteFiles (text "a") _ _ rfl rfl rfl
    (by decide) (by decide) rfl (by decide) rfl (plainMachine (plainHost [] none .atWrite))
    [text "i", text "a"] _ rfl ⟨rfl, rfl, Or.inr rfl, rfl, by decide⟩⟩

end Lacuna.Results
