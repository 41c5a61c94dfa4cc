import Lacuna.Analysis.Sessions

/-!
# The shelf

What the program is for, said without bytes: paths hold items, an item is plain or another item
packed, a compression packs what it reads and a decompression takes what it reads out of its
package (`Shelf.Step`). A shelf stands for the file system in which every package is an archive
(`Shelf.Represents`). Sessions of the program are sessions on the shelf (`exists_shelf_step`), if
its machines are regular: sizes have 64 bits and fit, and a device that is full says so at the
write.
-/

set_option autoImplicit false

namespace Lacuna.Model

open Library

variable {Dir : Type}

/-! ## Items -/

/-- What a path holds: plain bytes, or the package of an item, made by a codec on a target. -/
inductive Item where
  | plain (contents : Bytes)
  | packed (T : Target) (algorithmId : UInt8) (valid : IsCodec algorithmId) (item : Item)

namespace Item

/-- The bytes of an item: a package is an archive. -/
def bytes : Item → Bytes
  | plain contents => contents
  | packed T algorithmId _ item => archive T algorithmId item.bytes

/-- Whatever is packed has a length that fits in 64 bits. -/
def Fits : Item → Prop
  | plain _ => True
  | packed _ _ _ item => item.bytes.length < 2 ^ 64 ∧ item.Fits

/-- Opening an item: a package gives what was packed; of plain bytes, what they happen to
carry. -/
inductive Opens (host : Host) : Item → Item → Prop
  | packed (T : Target) (algorithmId : UInt8) (valid : IsCodec algorithmId) (item : Item) :
    Opens host (packed T algorithmId valid item) item
  | plain (contents : Bytes) (header : Header) (input : IStream) (data : Bytes) :
    readHeader (IStream.ofBytes contents) = (some header, input) →
    Carries host header input data → Opens host (plain contents) (plain data)

end Item

/-- What all paths hold. -/
abbrev Shelf := Bytes → Option Item

namespace Shelf

/-- The shelf of a file system in which nothing is known to be a package. -/
def ofFiles (files : FileSystem) : Shelf := fun p => (files p).map Item.plain

/-- The item a command reads: standard input is plain. -/
def source (shelf : Shelf) (host : Host) (opt : CliOptions) : Option Item :=
  if opt.positionalTarget = dash then some (.plain host.stdin) else shelf opt.positionalTarget

/-- What a run does on the shelf. -/
inductive Step (shelf : Shelf) (e : Event Dir) : Shelf → Prop
  /-- A run that failed, or writes to no file. -/
  | keep : e.status = 1 ∨ e.destination = none → Step shelf e shelf
  /-- A compression packs the item it reads. -/
  | pack (opt : CliOptions) (q : Bytes) (item : Item) (algorithmId : UInt8)
    (valid : IsCodec algorithmId) : e.PacksTo opt q → e.status = 0 →
    shelf.source e.machine.host opt = some item →
    Step shelf e (Function.update shelf q
      (some (.packed e.machine.host.target algorithmId valid item)))
  /-- A compression that fails at the write leaves a package cut short. -/
  | cut (opt : CliOptions) (q : Bytes) (item : Item) (algorithmId : UInt8)
    (part missing : Bytes) : e.PacksTo opt q → e.status = 1 →
    shelf.source e.machine.host opt = some item → IsCodec algorithmId →
    archive e.machine.host.target algorithmId item.bytes = part ++ missing → missing ≠ [] →
    Step shelf e (Function.update shelf q (some (.plain part)))
  /-- A decompression opens the item it reads. -/
  | unpack (opt : CliOptions) (q : Bytes) (item inside : Item) : e.UnpacksTo opt q →
    e.status = 0 → q ≠ opt.positionalTarget → shelf.source e.machine.host opt = some item →
    item.Opens e.machine.host inside → Step shelf e (Function.update shelf q (some inside))
  /-- A decompression over the archive it is reading leaves bytes nothing is known about. -/
  | overwrite (opt : CliOptions) (q data : Bytes) : e.UnpacksTo opt q → e.status = 0 →
    q = opt.positionalTarget → Step shelf e (Function.update shelf q (some (.plain data)))
  /-- A decompression that fails at the payload removes its destination. -/
  | discard (opt : CliOptions) (q : Bytes) : e.UnpacksTo opt q → e.status = 1 →
    Step shelf e (Function.update shelf q none)

/-- The shelf stands for the file system. -/
structure Represents (shelf : Shelf) (files : FileSystem) : Prop where
  bytes : ∀ p, files p = (shelf p).map Item.bytes
  fits : ∀ p item, shelf p = some item → item.Fits

/-- At the start everything is plain. -/
theorem represents_ofFiles (files : FileSystem) : (ofFiles files).Represents files := by
  constructor
  · intro p
    cases hp : files p <;> simp [ofFiles, hp, Item.bytes]
  · intro p item hitem
    obtain ⟨contents, -, rfl⟩ := Option.map_eq_some_iff.mp hitem
    trivial

/-- A path is given an item on both levels. -/
theorem Represents.update {shelf : Shelf} {files : FileSystem} (h : shelf.Represents files)
    (q : Bytes) (stored : Option Item) (hfits : ∀ item, stored = some item → item.Fits) :
    Represents (Function.update shelf q stored)
      (Function.update files q (stored.map Item.bytes)) := by
  constructor
  · intro p
    by_cases hp : p = q
    · subst hp
      rw [Function.update_self, Function.update_self]
    · rw [Function.update_of_ne hp, Function.update_of_ne hp, h.bytes]
  · intro p item hitem
    by_cases hp : p = q
    · subst hp
      rw [Function.update_self] at hitem
      exact hfits item hitem
    · rw [Function.update_of_ne hp] at hitem
      exact h.fits p item hitem

end Shelf

/-! ## Regular runs -/

/-- What is asked of the machine of a run and of the files it finds: a 64-bit `size_t` into which
every length fits, and a destination that reports a refusal at the write. -/
structure Event.Regular (e : Event Dir) (files : FileSystem) : Prop where
  bits : e.machine.host.target.sizeBits = 64
  report : ∀ q, e.destination = some q → e.machine.host.report q = .atWrite
  stdin_fits : e.machine.host.stdin.length < 2 ^ 64
  files_fit : ∀ p contents, files p = some contents → contents.length < 2 ^ 64

/-- What a device accepts of a write that leaves it good is everything, if it reports at the
write. -/
theorem Host.accepted_of_good (host : Host) (name data : Bytes)
    (hreport : host.report name = .atWrite)
    (hgood : ((host.device name).write data).good = true) :
    ((host.device name).write data).accepted = data := by
  have htakes : host.Takes name data.length := by
    refine ((host.good_write_iff name data).mp hgood).resolve_right ?_
    rw [hreport]
    decide
  exact (host.write_device_of_takes name data htakes).1

/-- What a device accepts of a write that fails is less than all of it. -/
theorem Host.exists_missing_of_bad (host : Host) (name data : Bytes)
    (hbad : ((host.device name).write data).good = false) :
    ∃ missing, data = ((host.device name).write data).accepted ++ missing ∧ missing ≠ [] := by
  obtain ⟨missing, hmissing⟩ := host.accepted_append_missing name data
  refine ⟨missing, hmissing, ?_⟩
  rintro rfl
  have htakes : ¬ host.Takes name data.length := by
    intro htakes
    rw [(host.write_device_of_takes name data htakes).2.1] at hbad
    cases hbad
  have hshort := host.length_accepted_lt name data [] htakes
  rw [List.append_nil] at hshort hmissing
  rw [← hmissing] at hshort
  exact lt_irrefl _ hshort

/-! ## The simulation -/

section

variable {shelf : Shelf} {files : FileSystem} {e : Event Dir} {opt : CliOptions}

/-- What a compression reads is an item of the shelf, and fits. -/
theorem exists_source_of_produces (hshelf : shelf.Represents files) (hregular : e.Regular files)
    {fileData : Bytes} {chosen : Selection}
    (h : Produces e.machine.host opt files fileData chosen) :
    ∃ item, shelf.source e.machine.host opt = some item ∧ item.bytes = fileData ∧ item.Fits ∧
      fileData.length < 2 ^ 64 := by
  have hread := h.read
  unfold Shelf.source
  by_cases hdash : opt.positionalTarget = dash
  · rw [readTarget, if_pos hdash, Except.ok.injEq] at hread
    rw [if_pos hdash]
    exact ⟨_, rfl, hread, trivial, hread ▸ hregular.stdin_fits⟩
  · rw [if_neg hdash]
    obtain ⟨-, hcontents⟩ := (readTarget_eq_ok_iff e.machine.host files _ fileData hdash).mp hread
    have hitem := hshelf.bytes opt.positionalTarget
    rw [hcontents] at hitem
    obtain ⟨item, hstored, hbytes⟩ := Option.map_eq_some_iff.mp hitem.symm
    exact ⟨item, hstored, hbytes, hshelf.fits _ item hstored,
      hregular.files_fit _ fileData hcontents⟩

/-- What a decompression reads is an item of the shelf. -/
theorem exists_source_of_extracts (hshelf : shelf.Represents files) {header : Header}
    {input : IStream} (h : Extracts e.machine.host opt files header input) :
    ∃ item, shelf.source e.machine.host opt = some item ∧ item.Fits ∧
      readHeader (IStream.ofBytes item.bytes) = (some header, input) := by
  obtain ⟨archive, hopen, hread⟩ := h.opened
  unfold Shelf.source
  by_cases hdash : opt.positionalTarget = dash
  · rw [openArchive, if_pos hdash, Option.some.injEq] at hopen
    rw [if_pos hdash]
    exact ⟨_, rfl, trivial, hopen ▸ hread⟩
  · rw [if_neg hdash]
    cases hcontents : files opt.positionalTarget with
    | none =>
      simp [openArchive, hdash, World.openFile, World.start, hcontents] at hopen
    | some contents =>
      have harchive := openArchive_file e.machine.host files _ contents archive hdash hcontents
        hopen
      have hitem := hshelf.bytes opt.positionalTarget
      rw [hcontents] at hitem
      obtain ⟨item, hstored, rfl⟩ := Option.map_eq_some_iff.mp hitem.symm
      exact ⟨item, hstored, hshelf.fits _ item hstored, harchive ▸ hread⟩

/-- **What an archive carries is what was packed.** -/
theorem data_of_carries_archive (host : Host) (hbits : host.target.sizeBits = 64) (T : Target)
    (algorithmId : UInt8) (ha : IsCodec algorithmId) (data : Bytes) (hlen : data.length < 2 ^ 64)
    (header : Header) (input : IStream)
    (hread : readHeader (IStream.ofBytes (archive T algorithmId data)) = (some header, input))
    (restored : Bytes) (hcarries : Carries host header input restored) : restored = data := by
  have hfile := readHeader_file (archiveHeader algorithmId data) (archivePayload T algorithmId data)
    (archiveHeader_valid algorithmId data ha)
  rw [archive, hfile, Prod.mk.injEq, Option.some.injEq] at hread
  obtain ⟨rfl, rfl⟩ := hread
  exact hcarries.unique (restores_archivePayload T host.target algorithmId ha data
    (by rw [hbits]; exact hlen)
    (behindHeader (archiveHeader algorithmId data) (archivePayload T algorithmId data)) rfl rfl)

/-- What a payload behind an item carries is the item that opening it gives. -/
theorem exists_opens (host : Host) (hbits : host.target.sizeBits = 64) (item : Item)
    (hfits : item.Fits) (header : Header) (input : IStream)
    (hread : readHeader (IStream.ofBytes item.bytes) = (some header, input)) (data : Bytes)
    (hcarries : Carries host header input data) :
    ∃ inside, item.Opens host inside ∧ inside.bytes = data ∧ inside.Fits := by
  cases item with
  | plain contents => exact ⟨_, .plain contents header input data hread hcarries, rfl, trivial⟩
  | packed T algorithmId valid inside =>
    have hdata := data_of_carries_archive host hbits T algorithmId valid inside.bytes hfits.1
      header input hread data hcarries
    exact ⟨inside, .packed T algorithmId valid inside, hdata.symm, hfits.2⟩

/-- **A regular run is a step on the shelf.** -/
theorem exists_shelf_step {files' : FileSystem} (hshelf : shelf.Represents files)
    (hregular : e.Regular files) (hstep : e.Step files files') :
    ∃ shelf', shelf.Step e shelf' ∧ shelf'.Represents files' := by
  cases hstep.effect with
  | none hidle => exact ⟨shelf, .keep hidle, hshelf⟩
  | packed opt q fileData chosen hpacks hproduces hstatus =>
    have hreport := hregular.report q hpacks.destination
    obtain ⟨item, hsource, hbytes, hfits, hlen⟩ :=
      exists_source_of_produces hshelf hregular hproduces
    obtain ⟨ha, harchive⟩ := selectArchive_archive e.machine.host opt _ _ _ hproduces.select
    cases hgood : ((e.machine.host.device q).write chosen.serializedData).good with
    | true =>
      rw [hgood] at hstatus
      rw [e.machine.host.accepted_of_good q _ hreport hgood]
      refine ⟨_, .pack opt q item chosen.selectedAlgo ha hpacks hstatus hsource, ?_⟩
      have hrep := hshelf.update q
        (some (.packed e.machine.host.target chosen.selectedAlgo ha item)) (by
          rintro _ rfl'
          cases rfl'
          exact ⟨hbytes ▸ hlen, hfits⟩)
      rw [Option.map_some, Item.bytes, hbytes, ← harchive] at hrep
      exact hrep
    | false =>
      rw [hgood] at hstatus
      obtain ⟨missing, hmissing, hne⟩ := e.machine.host.exists_missing_of_bad q _ hgood
      refine ⟨_, .cut opt q item chosen.selectedAlgo _ missing hpacks hstatus hsource ha ?_ hne,
        hshelf.update q (some (.plain _)) ?_⟩
      · rw [hbytes, ← harchive]
        exact hmissing
      · rintro _ rfl'
        cases rfl'
        trivial
  | restored opt q header input data hunpacks hextracts hcarries hgood hstatus =>
    have hreport := hregular.report q hunpacks.destination
    rw [e.machine.host.accepted_of_good q data hreport hgood]
    by_cases hsame : q = opt.positionalTarget
    · refine ⟨_, .overwrite opt q data hunpacks hstatus hsame, hshelf.update q _ ?_⟩
      rintro _ rfl'
      cases rfl'
      trivial
    · have hstream : payloadStream e.machine.host opt input = input := by
        apply if_neg
        rintro ⟨-, hdest⟩
        exact hsame (hunpacks.dest ▸ hdest)
      rw [hstream] at hcarries
      obtain ⟨item, hsource, hfits, hread⟩ := exists_source_of_extracts hshelf hextracts
      obtain ⟨inside, hopens, rfl, hinside⟩ :=
        exists_opens e.machine.host hregular.bits item hfits header input hread data hcarries
      refine ⟨_, .unpack opt q item inside hunpacks hstatus hsame hsource hopens,
        hshelf.update q (some inside) ?_⟩
      rintro _ rfl'
      cases rfl'
      exact hinside
  | removed opt q hunpacks hstatus =>
    refine ⟨_, .discard opt q hunpacks hstatus, hshelf.update q none ?_⟩
    rintro _ hnone
    cases hnone

end

end Lacuna.Model
