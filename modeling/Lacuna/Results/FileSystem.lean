import Lacuna.Analysis.Commands

/-!
# What a failed decompression does to the files

Opening the destination truncates it, and a failure then removes it. A destination that was not
there before is gone again; one that was there, be it the archive itself, is lost.
-/

set_option autoImplicit false

namespace Lacuna.Results

open Model

/-- **When a failed decompression leaves the files as they were.** A run that returns false does
so if and only if, in case it got as far as a payload and opened a file for it, that file did not
exist before. -/
theorem failed_decompress_unchanged_iff (host : Host) (opt : CliOptions) (files : FileSystem) :
    ∀ w, handleDecompress host opt (World.start host files) = .ok (false, w) →
      (w.files = files ↔
        ∀ header input, Extracts host opt files header input → decompressDest opt ≠ dash →
          files (decompressDest opt) = none) := by
  intro w hrun
  by_cases hextracts : ∃ header input, Extracts host opt files header input
  · obtain ⟨header, input, hextracts⟩ := hextracts
    have hrefuses := (handleDecompress_cases host opt files header input hextracts false w
      hrun).resolve_left (by rintro ⟨hok, -⟩; cases hok)
    obtain ⟨w', hrun', hfiles⟩ :=
      handleDecompress_of_refuses host opt files header input hextracts hrefuses.2
    rw [hrun, Except.ok.injEq, Prod.mk.injEq] at hrun'
    rw [hrun'.2, hfiles]
    by_cases hdest : decompressDest opt = dash
    · rw [if_pos hdest]
      exact ⟨fun _ header' input' _ hfile => absurd hdest hfile, fun _ => rfl⟩
    · rw [if_neg hdest]
      -- the destination has been removed, and nothing else has changed
      constructor
      · intro hunchanged header' input' _ _
        rw [← hunchanged, Function.update_self]
      · intro habsent
        rw [← habsent header input hextracts hdest, Function.update_eq_self]
  · have hfiles := (handleDecompress_of_not_extracts host opt files hextracts false w hrun).2
    refine ⟨fun _ header input hextracts' => ?_, fun _ => hfiles⟩
    exact absurd ⟨header, input, hextracts'⟩ hextracts

/-- An archive without its payload, next to an older file of the name it would restore. -/
def cutArchiveFiles : FileSystem := fun path =>
  if path = text "a.lac" then some [76, 65, 67, 0, 1, 1, 1, 0, 0, 0, 0, 0, 0, 0]
  else if path = text "a" then some [1, 2, 3]
  else none

/-- The decompression of that archive fails, and the older file is what decides about the rest. -/
theorem failed_decompress_unchanged_iff_cut :
    ∃ w, handleDecompress (plainHost [] none .atWrite) { positionalTarget := text "a.lac" }
        (World.start (plainHost [] none .atWrite) cutArchiveFiles) = .ok (false, w) ∧
      (w.files = cutArchiveFiles ↔
        ∀ header input, Extracts (plainHost [] none .atWrite)
            { positionalTarget := text "a.lac" } cutArchiveFiles header input →
          decompressDest { positionalTarget := text "a.lac" } ≠ dash →
          cutArchiveFiles (decompressDest { positionalTarget := text "a.lac" }) = none) :=
  ⟨_, rfl, failed_decompress_unchanged_iff _ _ _ _ rfl⟩

/-- The failed decompression of that archive takes the older file with it. -/
theorem failed_decompress_destroys :
    ¬ ∀ w, handleDecompress (plainHost [] none .atWrite) { positionalTarget := text "a.lac" }
        (World.start (plainHost [] none .atWrite) cutArchiveFiles) = .ok (false, w) →
      w.files = cutArchiveFiles := by
  intro hunchanged
  have hfiles := congrFun (hunchanged _ rfl) (text "a")
  revert hfiles
  decide

end Lacuna.Results
