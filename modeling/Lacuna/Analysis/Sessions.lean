import Lacuna.Analysis.Program
import Lacuna.Library.Transitions

/-!
# Sessions

The program is run again and again over one file system, each time on a machine and with
arguments of its own. A session is a run whose labels are such events. What one run does to the
files is listed by `Event.Effect`, from which everything about sessions is read off: it leaves
them alone, packs data into its destination, restores data there, or removes it.
-/

set_option autoImplicit false

namespace Lacuna.Model

open Library

variable {Dir : Type}

/-! ## Events -/

/-- A run of the program: the machine it found, its arguments and its exit status. -/
structure Event (Dir : Type) where
  machine : Machine Dir
  args : List Bytes
  status : ℕ

namespace Event

/-- The options of an accepted command line. -/
def options (e : Event Dir) : Option CliOptions :=
  match parseCliArgs e.machine.host.console e.args with
  | .error _ => none
  | .ok opt => some opt

/-- The path that a run may write to. -/
def destination (e : Event Dir) : Option Bytes := e.options.bind CliOptions.destination

/-- The run leads from one file system to another. -/
def Step (files : FileSystem) (e : Event Dir) (files' : FileSystem) : Prop :=
  ∃ w, main e.machine e.args (World.start e.machine.host files) = .ok (e.status, w) ∧
    w.files = files'

/-- The arguments ask for a compression into a file. -/
structure PacksTo (e : Event Dir) (opt : CliOptions) (q : Bytes) : Prop where
  options : e.options = some opt
  task : opt.task = .compress
  dest : compressDest opt = q
  file : q ≠ dash

/-- The arguments ask for a decompression into a file. -/
structure UnpacksTo (e : Event Dir) (opt : CliOptions) (q : Bytes) : Prop where
  options : e.options = some opt
  task : opt.task = .decompress
  dest : decompressDest opt = q
  file : q ≠ dash

/-- What a run does to the files. -/
inductive Effect (e : Event Dir) (files : FileSystem) : FileSystem → Prop
  | none : e.status = 1 ∨ e.destination = Option.none → Effect e files files
  | packed (opt : CliOptions) (q fileData : Bytes) (chosen : Selection) : e.PacksTo opt q →
    Produces e.machine.host opt files fileData chosen →
    (e.status = exitStatus ((e.machine.host.device q).write chosen.serializedData).good) →
    Effect e files (Function.update files q
      (some ((e.machine.host.device q).write chosen.serializedData).accepted))
  | restored (opt : CliOptions) (q : Bytes) (header : Header) (input : IStream) (data : Bytes) :
    e.UnpacksTo opt q → Extracts e.machine.host opt files header input →
    Carries e.machine.host header (payloadStream e.machine.host opt input) data →
    ((e.machine.host.device q).write data).good = true → e.status = 0 →
    Effect e files (Function.update files q
      (some ((e.machine.host.device q).write data).accepted))
  | removed (opt : CliOptions) (q : Bytes) : e.UnpacksTo opt q → e.status = 1 →
    Effect e files (Function.update files q Option.none)

/-- The destination of a compression into a file. -/
theorem PacksTo.destination {e : Event Dir} {opt : CliOptions} {q : Bytes}
    (h : e.PacksTo opt q) : e.destination = some q := by
  rw [Event.destination, h.options, Option.bind_some, CliOptions.destination, h.task]
  simp only [h.dest, h.file, if_false]

/-- The destination of a decompression into a file. -/
theorem UnpacksTo.destination {e : Event Dir} {opt : CliOptions} {q : Bytes}
    (h : e.UnpacksTo opt q) : e.destination = some q := by
  rw [Event.destination, h.options, Option.bind_some, CliOptions.destination, h.task]
  simp only [h.dest, h.file, if_false]

/-- **Every run has one of these effects.** -/
theorem Step.effect {e : Event Dir} {files files' : FileSystem} (h : e.Step files files') :
    e.Effect files files' := by
  obtain ⟨w, hrun, rfl⟩ := h
  rcases main_cases e.machine e.args _ w e.status hrun with
    ⟨-, line, -, hstatus, rfl⟩ | ⟨opt, ok, hparse, hresult, hstatus⟩
  · exact .none (Or.inl hstatus)
  have hoptions : e.options = some opt := by rw [options, hparse]
  have hnone : ∀ {files' : FileSystem}, ok = false ∧ files' = files → e.Effect files files' := by
    rintro files' ⟨rfl, rfl⟩
    exact .none (Or.inl hstatus)
  have hstdout : opt.destination = Option.none → e.destination = Option.none := by
    intro hdest
    rw [destination, hoptions, Option.bind_some, hdest]
  cases htask : opt.task with
  | other =>
    rw [files_of_other e.machine opt _ w ok htask hresult]
    exact .none (Or.inr (hstdout (by rw [CliOptions.destination, htask])))
  | compress =>
    rw [runOptions_of_compress e.machine opt _ htask] at hresult
    rcases handleCompress_cases e.machine.host opt files ok w hresult with
      hfailed | ⟨fileData, chosen, hproduces, ⟨hdest, -, hfiles⟩ | ⟨hdest, -, hok, hfiles⟩⟩
    · exact hnone hfailed
    · rw [hfiles]
      exact .none (Or.inr (hstdout (by rw [CliOptions.destination, htask]; exact if_pos hdest)))
    · rw [hfiles]
      exact .packed opt _ fileData chosen ⟨hoptions, htask, rfl, hdest⟩ hproduces (hok ▸ hstatus)
  | decompress =>
    rw [runOptions_of_decompress e.machine opt _ htask] at hresult
    rcases handleDecompress_ends e.machine.host opt files ok w hresult with
      hfailed | ⟨header, input, hextracts, hend⟩
    · exact hnone hfailed
    by_cases hdest : decompressDest opt = dash
    · simp only [hdest, if_true] at hend
      have hkeep : w.files = files := by
        rcases hend with ⟨data, -, -, -, hfiles⟩ | ⟨-, hfiles⟩
        · exact hfiles
        · exact hfiles
      rw [hkeep]
      exact .none (Or.inr (hstdout (by rw [CliOptions.destination, htask]; exact if_pos hdest)))
    · simp only [hdest, if_false] at hend
      rcases hend with ⟨data, rfl, hcarries, hgood, hfiles⟩ | ⟨rfl, hfiles⟩
      · rw [hfiles]
        exact .restored opt _ header input data ⟨hoptions, htask, rfl, hdest⟩ hextracts hcarries
          hgood hstatus
      · rw [hfiles]
        exact .removed opt _ ⟨hoptions, htask, rfl, hdest⟩ hstatus

/-- **What a successful compression into a file has done.** -/
theorem PacksTo.files {e : Event Dir} {opt : CliOptions} {q : Bytes} (h : e.PacksTo opt q)
    {files files' : FileSystem} (hstep : e.Step files files') (hstatus : e.status = 0) :
    ∃ fileData chosen, Produces e.machine.host opt files fileData chosen ∧
      ((e.machine.host.device q).write chosen.serializedData).good = true ∧
      files' = Function.update files q
        (some ((e.machine.host.device q).write chosen.serializedData).accepted) := by
  cases hstep.effect with
  | none hidle =>
    rcases hidle with hfailed | hnowhere
    · rw [hstatus] at hfailed
      cases hfailed
    · rw [h.destination] at hnowhere
      cases hnowhere
  | packed opt' q' fileData chosen hpacks hproduces hok =>
    obtain rfl : opt = opt' := Option.some.inj (h.options.symm.trans hpacks.options)
    obtain rfl : q = q' := h.dest.symm.trans hpacks.dest
    rw [hstatus, eq_comm, exitStatus_eq_zero] at hok
    exact ⟨fileData, chosen, hproduces, hok, rfl⟩
  | restored opt' q' header input data hunpacks =>
    obtain rfl : opt = opt' := Option.some.inj (h.options.symm.trans hunpacks.options)
    have htask := hunpacks.task
    rw [h.task] at htask
    cases htask
  | removed opt' q' hunpacks =>
    obtain rfl : opt = opt' := Option.some.inj (h.options.symm.trans hunpacks.options)
    have htask := hunpacks.task
    rw [h.task] at htask
    cases htask

/-- **What a successful decompression into a file has done.** -/
theorem UnpacksTo.files {e : Event Dir} {opt : CliOptions} {q : Bytes} (h : e.UnpacksTo opt q)
    {files files' : FileSystem} (hstep : e.Step files files') (hstatus : e.status = 0) :
    ∃ header input data, Extracts e.machine.host opt files header input ∧
      Carries e.machine.host header (payloadStream e.machine.host opt input) data ∧
      ((e.machine.host.device q).write data).good = true ∧
      files' = Function.update files q
        (some ((e.machine.host.device q).write data).accepted) := by
  cases hstep.effect with
  | none hidle =>
    rcases hidle with hfailed | hnowhere
    · rw [hstatus] at hfailed
      cases hfailed
    · rw [h.destination] at hnowhere
      cases hnowhere
  | packed opt' q' fileData chosen hpacks =>
    obtain rfl : opt = opt' := Option.some.inj (h.options.symm.trans hpacks.options)
    have htask := hpacks.task
    rw [h.task] at htask
    cases htask
  | restored opt' q' header input data hunpacks hextracts hcarries hgood =>
    obtain rfl : opt = opt' := Option.some.inj (h.options.symm.trans hunpacks.options)
    obtain rfl : q = q' := h.dest.symm.trans hunpacks.dest
    exact ⟨header, input, data, hextracts, hcarries, hgood, rfl⟩
  | removed opt' q' hunpacks hfailed =>
    rw [hstatus] at hfailed
    cases hfailed

/-- The effects change no path but the destination. -/
theorem Effect.frame {e : Event Dir} {files files' : FileSystem} (h : e.Effect files files')
    (q : Bytes) (hq : e.destination ≠ some q) : files' q = files q := by
  have hother : ∀ {p : Bytes} (stored : Option Bytes), e.destination = some p →
      Function.update files p stored q = files q := by
    intro p stored hp
    apply Function.update_of_ne
    rintro rfl
    exact hq hp
  cases h with
  | none => rfl
  | packed opt p fileData chosen hpacks => exact hother _ hpacks.destination
  | restored opt p header input data hunpacks => exact hother _ hunpacks.destination
  | removed opt p hunpacks => exact hother _ hunpacks.destination

/-- **A run changes no path but its destination.** -/
theorem changesOnly_step : ChangesOnly (@Step Dir) destination :=
  fun _ _ _ h q hq => h.effect.frame q hq

end Event

/-- A session: runs of the program, one after the other, over one file system. -/
abbrev Session (files : FileSystem) (es : List (Event Dir)) (files' : FileSystem) : Prop :=
  Run Event.Step files es files'

end Lacuna.Model
