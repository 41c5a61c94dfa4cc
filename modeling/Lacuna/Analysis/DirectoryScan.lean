import Mathlib.Data.List.Sort
import Lacuna.Library.EarlyExit
import Lacuna.Library.Walks
import Lacuna.Model.Scan

/-!
# What a directory scan lists

Below a directory lie the files that a walk through its subdirectories leads to (`Listed`). A
scan that ends has listed exactly these, each path once (`scanRecursive_spec`), and sorts them;
so the order in which directories are enumerated cannot be seen. It ends exactly where the
directories are accessible (`exists_depth_of_acc`, `acc_of_scanRecursive`), which in a finite
graph means that no cycle can be reached. Where a system follows only so many links on a path,
these make no cycle (`acyclic_resolved`).
-/

set_option autoImplicit false

namespace Lacuna.Model

open Library

/-! ## Names -/

/-- A file name with one of the extensions that are looked for, in any spelling of the letters,
behind a stem that is not empty. -/
def ListedName (name : Bytes) : Prop :=
  ∃ stem ext, name = stem ++ 46 :: ext ∧ stem ≠ [] ∧ 46 ∉ ext ∧
    ext.map tolower ∈ [text "json", text "yaml", text "yml", text "toml", text "txt"]

/-- The characters in front of the first dot, where none of a part is one. -/
theorem takeWhile_not_dot (part more : Bytes) (h : 46 ∉ part) :
    (part ++ more).takeWhile (fun c => decide (c ≠ 46)) =
      part ++ more.takeWhile fun c => decide (c ≠ 46) := by
  apply List.takeWhile_append_of_pos
  intro c hc
  simp only [decide_eq_true_eq]
  rintro rfl
  exact h hc

/-- A name without a dot has no extension. -/
theorem extension_of_not_mem (name : Bytes) (h : 46 ∉ name) : extension name = [] := by
  have hall := takeWhile_not_dot name.reverse [] (by simpa using h)
  rw [List.append_nil, List.takeWhile_nil, List.append_nil] at hall
  have hbehind : name.length - name.reverse.length ≤ 1 := by
    rw [List.length_reverse]
    omega
  simp only [extension, hall, hbehind, decide_true, Bool.or_true, if_true]

/-- The extension of a name, seen from its last dot. -/
theorem extension_append (stem ext : Bytes) (h : 46 ∉ ext) (hstem : stem ≠ [])
    (hdots : stem ++ 46 :: ext ≠ text "..") : extension (stem ++ 46 :: ext) = 46 :: ext := by
  have hwhile := takeWhile_not_dot ext.reverse (46 :: stem.reverse) (by simpa using h)
  rw [List.takeWhile_cons_of_neg (by decide), List.append_nil] at hwhile
  have hreverse : (stem ++ 46 :: ext).reverse = ext.reverse ++ 46 :: stem.reverse := by simp
  have hbehind : (stem ++ 46 :: ext).length - ext.reverse.length = stem.length + 1 := by
    simp only [List.length_append, List.length_cons, List.length_reverse]
    omega
  have hstem' := List.length_pos_iff.mpr hstem
  have hdot : stem ++ 46 :: ext ≠ text "." := by
    intro heq
    have hlen := congrArg List.length heq
    rw [List.length_append, List.length_cons, show (text ".").length = 1 from rfl] at hlen
    omega
  have hpos : ¬ stem.length + 1 ≤ 1 := by omega
  simp only [extension, hreverse, hwhile, hbehind, hdot, hdots, hpos, decide_false, Bool.or_self,
    Bool.false_eq_true, if_false, Nat.add_sub_cancel]
  exact List.drop_left

/-- A name that only begins with its last dot has no extension. -/
theorem extension_leading_dot (ext : Bytes) (h : 46 ∉ ext) : extension (46 :: ext) = [] := by
  have hwhile := takeWhile_not_dot ext.reverse [46] (by simpa using h)
  rw [List.takeWhile_cons_of_neg (by decide), List.append_nil] at hwhile
  have hreverse : (46 :: ext).reverse = ext.reverse ++ [46] := by simp
  have hbehind : (46 :: ext).length - ext.reverse.length ≤ 1 := by
    simp only [List.length_cons, List.length_reverse]
    omega
  simp only [extension, hreverse, hwhile, hbehind, decide_true, Bool.or_true, if_true]

/-- The test asks for letters behind a dot. -/
theorem hasListedExtension_iff_letters (name : Bytes) :
    hasListedExtension name = true ↔ ∃ letters, (extension name).map tolower = 46 :: letters ∧
      letters ∈ [text "json", text "yaml", text "yml", text "toml", text "txt"] := by
  have hlisted : ∀ ext : Bytes, ext = text ".json" ∨ ext = text ".yaml" ∨ ext = text ".yml" ∨
      ext = text ".toml" ∨ ext = text ".txt" ↔ ∃ letters, ext = 46 :: letters ∧
        letters ∈ [text "json", text "yaml", text "yml", text "toml", text "txt"] := by
    intro ext
    constructor
    · rintro (rfl | rfl | rfl | rfl | rfl) <;> exact ⟨_, rfl, by decide⟩
    · rintro ⟨letters, rfl, hmem⟩
      simp only [List.mem_cons, List.not_mem_nil, or_false] at hmem
      rcases hmem with rfl | rfl | rfl | rfl | rfl <;> decide
  rw [← hlisted]
  simp only [hasListedExtension, Bool.or_eq_true, decide_eq_true_eq, or_assoc]

/-- A name is cut at its last dot. -/
theorem exists_last_dot {name : Bytes} (hdot : 46 ∈ name) :
    ∃ stem ext, name = stem ++ 46 :: ext ∧ 46 ∉ ext := by
  obtain ⟨ext, stem, hsplit, hnot⟩ := List.eq_append_cons_of_mem (List.mem_reverse.mpr hdot)
  have hback := congrArg List.reverse hsplit
  exact ⟨stem.reverse, ext.reverse, by simpa using hback, by simpa using hnot⟩

/-- A name with letters behind a stem is not the parent directory. -/
theorem append_dot_ne_dots {stem ext : Bytes} (hstem : stem ≠ []) (hext : ext ≠ []) :
    stem ++ 46 :: ext ≠ text ".." := by
  intro heq
  have hlen := congrArg List.length heq
  have hstem' := List.length_pos_iff.mpr hstem
  have hext' := List.length_pos_iff.mpr hext
  rw [List.length_append, List.length_cons, show (text "..").length = 2 from rfl] at hlen
  omega

/-- **The names that are listed** are those with one of the extensions behind a stem. -/
theorem hasListedExtension_iff (name : Bytes) :
    hasListedExtension name = true ↔ ListedName name := by
  rw [hasListedExtension_iff_letters]
  constructor
  · rintro ⟨letters, hext, hmem⟩
    by_cases hdot : 46 ∈ name
    · obtain ⟨stem, ext, rfl, hnot⟩ := exists_last_dot hdot
      by_cases hstem : stem = []
      · rw [hstem, List.nil_append, extension_leading_dot _ hnot] at hext
        cases hext
      · by_cases hdots : stem ++ 46 :: ext = text ".."
        · rw [hdots] at hext
          cases hext
        · rw [extension_append _ _ hnot hstem hdots] at hext
          have hletters : ext.map tolower = letters := List.tail_eq_of_cons_eq hext
          exact ⟨stem, ext, rfl, hstem, hnot, hletters ▸ hmem⟩
    · rw [extension_of_not_mem name hdot] at hext
      cases hext
  · rintro ⟨stem, ext, rfl, hstem, hnot, hmem⟩
    have hext : ext ≠ [] := by
      rintro rfl
      exact absurd hmem (by decide)
    refine ⟨ext.map tolower, ?_, hmem⟩
    rw [extension_append stem ext hnot hstem (append_dot_ne_dots hstem hext)]
    rfl

/-! ## What lies below a directory -/

namespace DirectoryGraph

variable {Dir : Type} (G : DirectoryGraph Dir)

/-- A step into a subdirectory. -/
def Step (dir : Dir) (name : Bytes) (sub : Dir) : Prop :=
  ∃ es, G.entries dir = some es ∧ (name, .directory sub) ∈ es

/-- A file that takes part in the benchmark. -/
def HasFile (dir : Dir) (name : Bytes) : Prop :=
  ∃ es, G.entries dir = some es ∧ (name, .regularFile) ∈ es ∧ hasListedExtension name = true

/-- The path, seen from the directory, leads through subdirectories to such a file. -/
def Listed (dir : Dir) (rel : Path) : Prop :=
  ∃ ws sub name, rel = ws ++ [name] ∧ Walk G.Step dir ws sub ∧ G.HasFile sub name

/-- The part of it that one entry contributes. -/
def EntryLists (entry : Bytes × EntryType Dir) (rel : Path) : Prop :=
  match entry.2 with
  | .regularFile => hasListedExtension entry.1 = true ∧ rel = [entry.1]
  | .directory sub => ∃ below, rel = entry.1 :: below ∧ G.Listed sub below
  | .other => False

/-- What an entry contributes begins with its name. -/
theorem EntryLists.head? {G : DirectoryGraph Dir} {entry : Bytes × EntryType Dir} {rel : Path}
    (h : G.EntryLists entry rel) : rel.head? = some entry.1 := by
  obtain ⟨name, type⟩ := entry
  cases type with
  | regularFile => rw [h.2]; rfl
  | directory sub =>
    obtain ⟨below, rfl, -⟩ := h
    rfl
  | other => exact h.elim

/-- Nothing lies below a directory that cannot be read. -/
theorem not_listed_of_none (dir : Dir) (rel : Path) (h : G.entries dir = none) :
    ¬ G.Listed dir rel := by
  rintro ⟨ws, sub, name, -, hwalk, es, hes, -⟩
  cases hwalk with
  | nil =>
    rw [h] at hes
    cases hes
  | cons _ _ _ _ _ hstep _ =>
    obtain ⟨es', hes', -⟩ := hstep
    rw [h] at hes'
    cases hes'

/-- **What lies below a directory** is what its entries contribute. -/
theorem listed_iff (dir : Dir) (es : List (Bytes × EntryType Dir)) (h : G.entries dir = some es)
    (rel : Path) : G.Listed dir rel ↔ ∃ entry ∈ es, G.EntryLists entry rel := by
  constructor
  · rintro ⟨ws, sub, name, rfl, hwalk, hfile⟩
    cases hwalk with
    | nil =>
      obtain ⟨es', hes', hmem, hext⟩ := hfile
      rw [h, Option.some.injEq] at hes'
      subst hes'
      exact ⟨(name, .regularFile), hmem, hext, rfl⟩
    | cons _ next _ first more hstep hmore =>
      obtain ⟨es', hes', hmem⟩ := hstep
      rw [h, Option.some.injEq] at hes'
      subst hes'
      exact ⟨(first, .directory next), hmem, more ++ [name], rfl, more, sub, name, rfl, hmore,
        hfile⟩
  · rintro ⟨⟨name, type⟩, hmem, hlists⟩
    cases type with
    | regularFile =>
      obtain ⟨hext, rfl⟩ := hlists
      exact ⟨[], dir, name, rfl, .nil dir, es, h, hmem, hext⟩
    | directory sub =>
      obtain ⟨below, rfl, ws, last, file, rfl, hwalk, hfile⟩ := hlists
      exact ⟨name :: ws, last, file, rfl, .cons _ sub _ _ _ ⟨es, h, hmem⟩ hwalk, hfile⟩
    | other => exact hlists.elim

end DirectoryGraph

/-! ## Links -/

namespace LinkedDirectories

variable {Dir : Type} (G : LinkedDirectories Dir) (maxLinks : ℕ)

/-- A step into a directory, through any number of links. -/
def Step (dir : Dir) (name : Bytes) (sub : Dir) : Prop :=
  ∃ es links, G.entries dir = some es ∧ (name, .directory sub links) ∈ es

/-- A step into a subdirectory, through no link. -/
def Descends (dir : Dir) (name : Bytes) (sub : Dir) : Prop :=
  ∃ es, G.entries dir = some es ∧ (name, .directory sub 0) ∈ es

/-- A file that takes part in the benchmark. -/
def HasFile (dir : Dir) (name : Bytes) : Prop :=
  ∃ es, G.entries dir = some es ∧ (name, .regularFile) ∈ es ∧ hasListedExtension name = true

/-- **A step of the scan** follows an entry, and the links behind it are added to those that were
followed; where these become too many, there is no step. -/
theorem step_resolved_iff (place place' : Dir × Fin (maxLinks + 1)) (name : Bytes) :
    (G.resolved maxLinks).Step place name place' ↔ ∃ es links, G.entries place.1 = some es ∧
      (name, .directory place'.1 links) ∈ es ∧ (place'.2 : ℕ) = place.2 + links := by
  constructor
  · rintro ⟨es, hes, hmem⟩
    obtain ⟨es, hdir, rfl⟩ := Option.map_eq_some_iff.mp hes
    obtain ⟨⟨name, type⟩, hentry, heq⟩ := List.mem_map.mp hmem
    simp only [Prod.mk.injEq] at heq
    obtain ⟨rfl, htype⟩ := heq
    cases type with
    | regularFile => cases htype
    | other => cases htype
    | directory dir links =>
      simp only [LinkedType.resolved] at htype
      split at htype
      · cases htype
        exact ⟨es, links, hdir, hentry, rfl⟩
      · cases htype
  · rintro ⟨es, links, hdir, hentry, hlinks⟩
    refine ⟨_, Option.map_eq_some_iff.mpr ⟨es, hdir, rfl⟩, ?_⟩
    refine List.mem_map.mpr ⟨_, hentry, ?_⟩
    have hlt : place.2 + links < maxLinks + 1 := hlinks ▸ place'.2.isLt
    have hplace : place' = (place'.1, ⟨place.2 + links, hlt⟩) := Prod.ext rfl (Fin.ext hlinks)
    simp only [LinkedType.resolved, dif_pos hlt]
    rw [← hplace]

/-- The scan finds the same files, whatever was followed to their directory. -/
theorem hasFile_resolved_iff (place : Dir × Fin (maxLinks + 1)) (name : Bytes) :
    (G.resolved maxLinks).HasFile place name ↔ G.HasFile place.1 name := by
  constructor
  · rintro ⟨es, hes, hmem, hext⟩
    obtain ⟨es, hdir, rfl⟩ := Option.map_eq_some_iff.mp hes
    obtain ⟨⟨name, type⟩, hentry, heq⟩ := List.mem_map.mp hmem
    simp only [Prod.mk.injEq] at heq
    obtain ⟨rfl, htype⟩ := heq
    cases type with
    | regularFile => exact ⟨es, hdir, hentry, hext⟩
    | other => cases htype
    | directory dir links =>
      simp only [LinkedType.resolved] at htype
      split at htype <;> cases htype
  · rintro ⟨es, hdir, hentry, hext⟩
    exact ⟨_, Option.map_eq_some_iff.mpr ⟨es, hdir, rfl⟩, List.mem_map.mpr ⟨_, hentry, rfl⟩, hext⟩

/-- On its way the scan follows more and more links, or it only descends. -/
theorem walk_resolved {place place' : Dir × Fin (maxLinks + 1)} {ws : List Bytes}
    (h : Walk (G.resolved maxLinks).Step place ws place') :
    place.2 ≤ place'.2 ∧ (place.2 = place'.2 → Walk G.Descends place.1 ws place'.1) := by
  induction h with
  | nil place => exact ⟨le_rfl, fun _ => .nil place.1⟩
  | cons place next place' name ws hstep _ ih =>
    obtain ⟨es, links, hdir, hentry, hlinks⟩ := (G.step_resolved_iff maxLinks _ _ _).mp hstep
    have hle : place.2 ≤ next.2 := by
      rw [Fin.le_def, hlinks]
      exact Nat.le_add_right _ _
    refine ⟨hle.trans ih.1, fun heq => ?_⟩
    -- the numbers at both ends are the same, so that they are the same in between
    have hnext : place.2 = next.2 := le_antisymm hle (heq ▸ ih.1)
    have hnone : links = 0 := by
      rw [← hnext] at hlinks
      omega
    subst hnone
    exact .cons _ next.1 _ _ _ ⟨es, hdir, hentry⟩ (ih.2 (hnext ▸ heq))

/-- **A limit of links breaks every cycle but those of subdirectories.** -/
theorem acyclic_resolved (h : ∀ dir ws, Walk G.Descends dir ws dir → ws = [])
    (root : Dir × Fin (maxLinks + 1)) : Acyclic (G.resolved maxLinks).Step root :=
  fun place _ ws hcycle => h place.1 ws ((G.walk_resolved maxLinks hcycle).2 rfl)

end LinkedDirectories

/-! ## What the scan collects -/

/-- The files that were collected before, and behind them, each once, the paths of a set, seen
from the directory at `path`. -/
def Collects (files : List Path) (path : Path) (rels : Path → Prop) (result : List Path) : Prop :=
  ∃ new, result = files ++ new ∧ new.Nodup ∧ ∀ p, p ∈ new ↔ ∃ rel, p = path ++ rel ∧ rels rel

/-- Nothing is collected. -/
theorem collects_nothing (files : List Path) (path : Path) (rels : Path → Prop)
    (h : ∀ rel, ¬ rels rel) : Collects files path rels files := by
  refine ⟨[], (List.append_nil files).symm, List.nodup_nil, ?_⟩
  intro p
  simp [h]

/-- One set is collected after another that it has no path in common with. -/
theorem Collects.trans {files mid result : List Path} {path : Path} {rels rels' : Path → Prop}
    (h : Collects files path rels mid) (h' : Collects mid path rels' result)
    (hdisj : ∀ rel, rels rel → ¬ rels' rel) :
    Collects files path (fun rel => rels rel ∨ rels' rel) result := by
  obtain ⟨new, rfl, hnd, hmem⟩ := h
  obtain ⟨new', rfl, hnd', hmem'⟩ := h'
  refine ⟨new ++ new', List.append_assoc _ _ _, ?_, ?_⟩
  · rw [List.nodup_append']
    refine ⟨hnd, hnd', ?_⟩
    intro p hp hp'
    obtain ⟨rel, rfl, hrel⟩ := (hmem p).mp hp
    obtain ⟨rel', heq, hrel'⟩ := (hmem' _).mp hp'
    rw [List.append_cancel_left_eq] at heq
    subst heq
    exact hdisj rel hrel hrel'
  · intro p
    rw [List.mem_append, hmem, hmem']
    constructor
    · rintro (⟨rel, rfl, hrel⟩ | ⟨rel, rfl, hrel⟩)
      · exact ⟨rel, rfl, Or.inl hrel⟩
      · exact ⟨rel, rfl, Or.inr hrel⟩
    · rintro ⟨rel, rfl, hrel | hrel⟩
      · exact Or.inl ⟨rel, rfl, hrel⟩
      · exact Or.inr ⟨rel, rfl, hrel⟩

/-- The same set under another description. -/
theorem Collects.congr {files result : List Path} {path : Path} {rels rels' : Path → Prop}
    (h : Collects files path rels result) (hiff : ∀ rel, rels rel ↔ rels' rel) :
    Collects files path rels' result := by
  obtain ⟨new, rfl, hnd, hmem⟩ := h
  refine ⟨new, rfl, hnd, ?_⟩
  intro p
  simp only [hmem, hiff]

section Scan

variable {Dir : Type} (G : DirectoryGraph Dir)

/-- **One round of the loop** collects what its entry contributes. -/
theorem scanEntry_spec (recurse : Dir → Path → List Path → Option (List Path))
    (hrecurse : ∀ dir path files result, recurse dir path files = some result →
      Collects files path (G.Listed dir) result)
    (path : Path) (files result : List Path) (entry : Bytes × EntryType Dir)
    (h : scanEntry recurse path files entry = some result) :
    Collects files path (G.EntryLists entry) result := by
  obtain ⟨name, type⟩ := entry
  cases type with
  | regularFile =>
    have hresult := Option.some.inj h
    cases hext : hasListedExtension name with
    | false =>
      rw [hext, if_neg Bool.false_ne_true] at hresult
      subst hresult
      apply collects_nothing
      rintro rel ⟨hext', -⟩
      rw [hext] at hext'
      cases hext'
    | true =>
      rw [hext, if_pos rfl] at hresult
      subst hresult
      refine ⟨[path ++ [name]], rfl, List.nodup_singleton _, ?_⟩
      intro p
      rw [List.mem_singleton]
      constructor
      · rintro rfl
        exact ⟨[name], rfl, hext, rfl⟩
      · rintro ⟨rel, rfl, -, rfl⟩
        rfl
  | directory sub =>
    obtain ⟨new, rfl, hnd, hmem⟩ := hrecurse sub (path ++ [name]) files result h
    refine ⟨new, rfl, hnd, ?_⟩
    intro p
    rw [hmem]
    constructor
    · rintro ⟨below, rfl, hbelow⟩
      exact ⟨name :: below, by simp, below, rfl, hbelow⟩
    · rintro ⟨rel, rfl, below, rfl, hbelow⟩
      exact ⟨below, by simp, hbelow⟩
  | other =>
    have hresult := Option.some.inj h
    subst hresult
    exact collects_nothing files path _ fun _ hlists => hlists

/-- The loop collects what its entries contribute: their names differ, so no path occurs twice. -/
theorem scanEntries_spec (recurse : Dir → Path → List Path → Option (List Path))
    (hrecurse : ∀ dir path files result, recurse dir path files = some result →
      Collects files path (G.Listed dir) result)
    (path : Path) (es : List (Bytes × EntryType Dir)) (hnd : (es.map Prod.fst).Nodup)
    (files result : List Path) (h : es.foldlM (scanEntry recurse path) files = some result) :
    Collects files path (fun rel => ∃ entry ∈ es, G.EntryLists entry rel) result := by
  induction es generalizing files with
  | nil =>
    have hresult := Option.some.inj h
    subst hresult
    apply collects_nothing
    rintro rel ⟨entry, hentry, -⟩
    cases hentry
  | cons entry es ih =>
    rw [List.map_cons, List.nodup_cons] at hnd
    rw [List.foldlM_cons] at h
    cases hentry : scanEntry recurse path files entry with
    | none => rw [hentry] at h; cases h
    | some mid =>
      rw [hentry] at h
      have hfirst := scanEntry_spec G recurse hrecurse path files mid entry hentry
      have hboth := hfirst.trans (ih hnd.2 mid h) (by
        rintro rel hrel ⟨entry', hentry', hrel'⟩
        have hname := hrel.head?.symm.trans hrel'.head?
        rw [Option.some.injEq] at hname
        exact hnd.1 (hname ▸ List.mem_map_of_mem hentry'))
      apply hboth.congr
      intro rel
      simp

/-- **A scan that ends has collected what lies below the directory.** -/
theorem scanRecursive_spec (depth : ℕ) (dir : Dir) (path : Path) (files result : List Path)
    (h : scanRecursive G depth dir path files = some result) :
    Collects files path (G.Listed dir) result := by
  induction depth generalizing dir path files result with
  | zero => cases h
  | succ depth ih =>
    rw [scanRecursive] at h
    cases hes : G.entries dir with
    | none =>
      rw [hes] at h
      have hresult := Option.some.inj h
      subst hresult
      exact collects_nothing files path _ fun rel => G.not_listed_of_none dir rel hes
    | some es =>
      rw [hes] at h
      have hloop := scanEntries_spec G (scanRecursive G depth) ih path es (G.nodup dir es hes)
        files result h
      exact hloop.congr fun rel => (G.listed_iff dir es hes rel).symm

/-! ## Where the scan ends -/

/-- A scan that ends has only come to accessible directories. -/
theorem acc_of_scanRecursive (depth : ℕ) (dir : Dir) (path : Path) (files result : List Path)
    (h : scanRecursive G depth dir path files = some result) :
    Acc (Behind G.Step) dir := by
  induction depth generalizing dir path files result with
  | zero => cases h
  | succ depth ih =>
    refine Acc.intro _ fun sub hsub => ?_
    obtain ⟨name, es, hes, hmem⟩ := hsub
    rw [scanRecursive, hes] at h
    obtain ⟨files', result', hsub⟩ := exists_of_foldlM_eq_some h (name, .directory sub) hmem
    exact ih sub _ _ _ hsub

/-- Finitely many depths have a common bound. -/
theorem exists_depth {α : Type} (l : List α) (ends : α → ℕ → Prop)
    (h : ∀ a ∈ l, ∃ depth, ∀ depth' ≥ depth, ends a depth') :
    ∃ depth, ∀ depth' ≥ depth, ∀ a ∈ l, ends a depth' := by
  induction l with
  | nil => exact ⟨0, fun _ _ a ha => by cases ha⟩
  | cons a l ih =>
    rw [List.forall_mem_cons] at h
    obtain ⟨depth, hdepth⟩ := h.1
    obtain ⟨depths, hdepths⟩ := ih h.2
    refine ⟨max depth depths, ?_⟩
    intro depth' hge
    rw [List.forall_mem_cons]
    exact ⟨hdepth depth' (le_trans (le_max_left _ _) hge),
      hdepths depth' (le_trans (le_max_right _ _) hge)⟩

/-- **The scan of an accessible directory ends**, at every depth that is large enough. -/
theorem exists_depth_of_acc (dir : Dir) (hacc : Acc (Behind G.Step) dir) :
    ∃ depth, ∀ depth' ≥ depth, ∀ path files,
      (scanRecursive G depth' dir path files).isSome = true := by
  induction hacc with
  | intro dir _ ih =>
    cases hes : G.entries dir with
    | none =>
      refine ⟨1, ?_⟩
      intro depth' hge path files
      obtain ⟨depth, rfl⟩ : ∃ k, depth' = k + 1 := ⟨depth' - 1, by omega⟩
      rw [scanRecursive, hes]
      rfl
    | some es =>
      have hends : ∀ entry ∈ es, ∃ depth, ∀ depth' ≥ depth, ∀ path files,
          (scanEntry (scanRecursive G depth') path files entry).isSome = true := by
        rintro ⟨name, type⟩ hmem
        cases type with
        | regularFile => exact ⟨0, fun _ _ _ _ => rfl⟩
        | other => exact ⟨0, fun _ _ _ _ => rfl⟩
        | directory sub =>
          obtain ⟨depth, hdepth⟩ := ih sub ⟨name, es, hes, hmem⟩
          exact ⟨depth, fun depth' hge path files => hdepth depth' hge _ files⟩
      obtain ⟨depth, hdepth⟩ := exists_depth es _ hends
      refine ⟨depth + 1, ?_⟩
      intro depth' hge path files
      obtain ⟨depth', rfl⟩ : ∃ k, depth' = k + 1 := ⟨depth' - 1, by omega⟩
      rw [scanRecursive, hes]
      exact isSome_foldlM (fun entry hentry files => hdepth depth' (by omega) entry hentry _ _) _

end Scan

/-! ## The sorted list -/

/-- Sorting a list without repetitions makes it strictly increasing. -/
theorem pairwise_lt_mergeSort (files : List Path) (hnd : files.Nodup) :
    (files.mergeSort fun p q => decide (p ≤ q)).Pairwise (· < ·) := by
  have htrans : ∀ a b c : Path, decide (a ≤ b) = true → decide (b ≤ c) = true →
      decide (a ≤ c) = true := fun a b c hab hbc =>
    decide_eq_true (Std.le_trans (of_decide_eq_true hab) (of_decide_eq_true hbc))
  have htotal : ∀ a b : Path, (decide (a ≤ b) || decide (b ≤ a)) = true := fun a b => by
    rw [Bool.or_eq_true, decide_eq_true_eq, decide_eq_true_eq]
    exact Std.le_total
  have hsorted := List.pairwise_mergeSort htrans htotal files
  have hnd' := (List.mergeSort_perm files fun p q => decide (p ≤ q)).nodup_iff.mpr hnd
  refine (hsorted.and hnd').imp ?_
  rintro p q ⟨hle, hne⟩
  exact Std.lt_of_le_of_ne (of_decide_eq_true hle) hne

/-- **What `scan_directory` returns**: a strictly increasing list of what lies below the
directory. -/
theorem scanDirectory_spec {Dir : Type} (G : DirectoryGraph Dir) (depth : ℕ) (root : Dir)
    (files : List Path) (h : scanDirectory G depth (.directory root) = some files) :
    files.Pairwise (· < ·) ∧ ∀ p, p ∈ files ↔ G.Listed root p := by
  obtain ⟨collected, hscan, rfl⟩ := Option.map_eq_some_iff.mp h
  obtain ⟨new, hnew, hnd, hmem⟩ := scanRecursive_spec G depth root [] [] collected hscan
  rw [List.nil_append] at hnew
  subst hnew
  refine ⟨pairwise_lt_mergeSort collected hnd, ?_⟩
  intro p
  rw [(List.mergeSort_perm collected _).mem_iff, hmem]
  simp

end Lacuna.Model
