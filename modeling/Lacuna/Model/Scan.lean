import Mathlib.Data.List.Basic
import Lacuna.Model.Stream

/-!
# Directory scanning

`scan_recursive` and `scan_directory` of `utils/benchmark.cpp`. A directory is whatever
`directory_iterator` can be opened on: the directories form a graph, which need not be a tree. The
recursion is given a depth up to which it may go; it has none in the sources.

Symbolic links are what makes it a graph (`LinkedDirectories`). A system follows only so many of
them on one path, each time from its beginning, so what an entry is depends on how many there were
on the way: the vertices of the graph are then directories together with that number (`resolved`).
Paths of any length are resolved.
-/

set_option autoImplicit false

namespace Lacuna.Model

/-! ## The file system as the scan sees it -/

/-- What `is_regular_file` and `is_directory` say about an entry; both follow links. -/
inductive EntryType (Dir : Type) where
  | regularFile
  | directory (dir : Dir)
  | other

/-- The directories. `entries` is what a `directory_iterator` enumerates, in its order, and
`none` is a directory it cannot be opened on; no two entries of a directory have one name. -/
structure DirectoryGraph (Dir : Type) where
  entries : Dir → Option (List (Bytes × EntryType Dir))
  nodup : ∀ dir es, entries dir = some es → (es.map Prod.fst).Nodup

/-- `std::filesystem::path`, as the elements below the directory the scan starts from. -/
abbrev Path := List Bytes

/-! ## Links -/

/-- What an entry is on the disk. A directory is behind a number of links, which is zero where the
entry is that directory itself; links to anything but directories are left out. -/
inductive LinkedType (Dir : Type) where
  | regularFile
  | directory (dir : Dir) (links : ℕ)
  | other

/-- The directories on the disk; `none` is one that cannot be read. -/
structure LinkedDirectories (Dir : Type) where
  entries : Dir → Option (List (Bytes × LinkedType Dir))
  nodup : ∀ dir es, entries dir = some es → (es.map Prod.fst).Nodup

/-- What `is_regular_file` and `is_directory` say about an entry of a directory whose own path has
followed a number of links. Both fail where it takes more than `maxLinks` to resolve the entry. -/
def LinkedType.resolved {Dir : Type} (maxLinks : ℕ) (followed : Fin (maxLinks + 1)) :
    LinkedType Dir → EntryType (Dir × Fin (maxLinks + 1))
  | .regularFile => .regularFile
  | .directory dir links =>
    if h : followed + links < maxLinks + 1 then .directory (dir, ⟨followed + links, h⟩) else .other
  | .other => .other

/-- The directories as a scan sees them on a system that follows at most `maxLinks` links. -/
def LinkedDirectories.resolved {Dir : Type} (G : LinkedDirectories Dir) (maxLinks : ℕ) :
    DirectoryGraph (Dir × Fin (maxLinks + 1)) where
  entries place := (G.entries place.1).map fun es =>
    es.map fun entry => (entry.1, entry.2.resolved maxLinks place.2)
  nodup := by
    intro place es hes
    obtain ⟨es, hdir, rfl⟩ := Option.map_eq_some_iff.mp hes
    rw [List.map_map]
    exact G.nodup place.1 es hdir

/-! ## Extensions -/

/-- `std::tolower(c)` in the C locale. -/
def tolower (c : UInt8) : UInt8 := if 65 ≤ c && c ≤ 90 then c + 32 else c

/-- `path.extension()` of a file name: from its last dot on, unless the name begins there; `.`
and `..` have none. -/
def extension (name : Bytes) : Bytes :=
  -- the position right behind the last dot, or zero
  let behind := name.length - (name.reverse.takeWhile (fun c => c ≠ 46)).length
  if name = text "." || name = text ".." || behind ≤ 1 then [] else name.drop (behind - 1)

/-- The test for a file that takes part in the benchmark. -/
def hasListedExtension (name : Bytes) : Bool :=
  let ext := (extension name).map tolower
  ext = text ".json" || ext = text ".yaml" || ext = text ".yml" || ext = text ".toml" ||
    ext = text ".txt"

/-! ## The scan -/

/-- The body of the loop of `scan_recursive`, with the recursive call as `recurse`; `none` is a
recursion that goes too deep. -/
def scanEntry {Dir : Type} (recurse : Dir → Path → List Path → Option (List Path)) (path : Path)
    (files : List Path) (entry : Bytes × EntryType Dir) : Option (List Path) :=
  match entry.2 with
  | .regularFile =>
    some (if hasListedExtension entry.1 then files ++ [path ++ [entry.1]] else files)
  | .directory dir => recurse dir (path ++ [entry.1]) files
  | .other => some files

/-- `scan_recursive(dir, files)`, for a recursion of limited depth. -/
def scanRecursive {Dir : Type} (G : DirectoryGraph Dir) :
    ℕ → Dir → Path → List Path → Option (List Path)
  | 0, _, _, _ => none
  | depth + 1, dir, path, files =>
    match G.entries dir with
    | none => some files
    | some es => es.foldlM (scanEntry (scanRecursive G depth) path) files

/-- `scan_directory(dir_path)`. The paths are sorted by `operator<`, which compares them element
by element. -/
def scanDirectory {Dir : Type} (G : DirectoryGraph Dir) (depth : ℕ) (root : EntryType Dir) :
    Option (List Path) :=
  let files : Option (List Path) :=
    match root with
    | .directory dir => scanRecursive G depth dir [] []
    | _ => some []
  files.map fun files => files.mergeSort fun p q => decide (p ≤ q)

end Lacuna.Model
