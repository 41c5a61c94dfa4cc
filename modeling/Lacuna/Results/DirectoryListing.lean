import Mathlib.Data.Finite.Prod
import Lacuna.Analysis.DirectoryScan

/-!
# Which files a directory scan lists

On a tree of directories `scan_directory` is complete and exact, and returns one strictly
increasing list whatever the order in which directories are enumerated (`scanDirectory_tree`).

Links turn the tree into a graph, and the recursion follows them, as far as the system does, without
remembering where it has been. It still lists each file once exactly where a single way leads to
every directory with a file, and it ends unless the subdirectories themselves go round in a circle
(`visitsOnce_iff`); a second way to such a directory makes its files count twice, and a link back
makes them count as often as the system follows it.
-/

set_option autoImplicit false

namespace Lacuna.Results

open Model Library

variable {Dir : Type}

/-! ## Scans that end -/

/-- A scan that ends has come to accessible directories only. -/
theorem acc_of_scanDirectory (G : DirectoryGraph Dir) (root : Dir) (depth : ℕ)
    (files : List Path) (h : scanDirectory G depth (.directory root) = some files) :
    Acc (Behind G.Step) root := by
  obtain ⟨collected, hscan, -⟩ := Option.map_eq_some_iff.mp h
  exact acc_of_scanRecursive G depth root [] [] collected hscan

/-- The scan of an accessible directory ends, and with every greater depth in the same way. -/
theorem exists_scanDirectory (G : DirectoryGraph Dir) (root : Dir)
    (hacc : Acc (Behind G.Step) root) :
    ∃ depth, ∀ depth' ≥ depth, ∃ files,
      scanDirectory G depth' (.directory root) = some files := by
  obtain ⟨depth, hdepth⟩ := exists_depth_of_acc G root hacc
  refine ⟨depth, ?_⟩
  intro depth' hge
  obtain ⟨collected, hscan⟩ := Option.isSome_iff_exists.mp (hdepth depth' hge [] [])
  exact ⟨_, Option.map_eq_some_iff.mpr ⟨collected, hscan, rfl⟩⟩

/-! ## Links -/

section Links

variable (G : LinkedDirectories Dir) (maxLinks : ℕ) (root : Dir × Fin (maxLinks + 1))

/-- The path leads from the root, through no more links than are followed, to the file of that name
in the directory. -/
def Denotes (p : Path) (dir : Dir) (name : Bytes) : Prop :=
  ∃ ws followed, p = ws ++ [name] ∧ Walk (G.resolved maxLinks).Step root ws (dir, followed)

/-- What is asked of a scan: it ends, and lists each file that lies below the root, through however
many links, under exactly one path. -/
structure VisitsOnce : Prop where
  terminates : ∃ depth files,
    scanDirectory (G.resolved maxLinks) depth (.directory root) = some files
  once : ∀ depth files,
    scanDirectory (G.resolved maxLinks) depth (.directory root) = some files →
    ∀ dir name, Reaches G.Step root.1 dir → G.HasFile dir name →
      ∃ p, files.count p = 1 ∧ Denotes G maxLinks root p dir name ∧
        ∀ q ∈ files, Denotes G maxLinks root q dir name → q = p

/-- No cycle can be reached, which could only be one of subdirectories; and to every directory with
a file a single way leads that follows no more links than are allowed. -/
structure SingleWays : Prop where
  acyclic : Acyclic (G.resolved maxLinks).Step root
  single : ∀ dir name, Reaches G.Step root.1 dir → G.HasFile dir name →
    ∃! ws, ∃ followed, Walk (G.resolved maxLinks).Step root ws (dir, followed)

/-- **Where subdirectories do not go round in a circle, every scan ends**, whatever the links do. -/
theorem exists_scanDirectory_links [Finite Dir]
    (h : ∀ dir ws, Walk G.Descends dir ws dir → ws = []) :
    ∃ depth, ∀ depth' ≥ depth, ∃ files,
      scanDirectory (G.resolved maxLinks) depth' (.directory root) = some files :=
  exists_scanDirectory (G.resolved maxLinks) root
    ((acc_iff_acyclic root).mpr (G.acyclic_resolved maxLinks h root))

/-- A path to a file is listed. -/
theorem mem_of_walk (depth : ℕ) (files : List Path)
    (hscan : scanDirectory (G.resolved maxLinks) depth (.directory root) = some files)
    (dir : Dir) (name : Bytes) (hfile : G.HasFile dir name) (ws : List Bytes)
    (followed : Fin (maxLinks + 1))
    (hwalk : Walk (G.resolved maxLinks).Step root ws (dir, followed)) : ws ++ [name] ∈ files := by
  obtain ⟨-, hmem⟩ := scanDirectory_spec _ depth root files hscan
  exact (hmem _).mpr
    ⟨ws, _, name, rfl, hwalk, (G.hasFile_resolved_iff maxLinks _ name).mpr hfile⟩

/-- If a file is listed once, a single way leads to it. -/
theorem single_of_once (h : VisitsOnce G maxLinks root) (dir : Dir) (name : Bytes)
    (hreach : Reaches G.Step root.1 dir) (hfile : G.HasFile dir name) :
    ∃! ws, ∃ followed, Walk (G.resolved maxLinks).Step root ws (dir, followed) := by
  obtain ⟨depth, files, hscan⟩ := h.terminates
  obtain ⟨p, -, ⟨ws, followed, rfl, hwalk⟩, honly⟩ := h.once depth files hscan dir name hreach hfile
  refine ⟨ws, ⟨followed, hwalk⟩, ?_⟩
  rintro ws' ⟨followed', hwalk'⟩
  have hmem := mem_of_walk G maxLinks root depth files hscan dir name hfile ws' followed' hwalk'
  exact List.append_cancel_right (honly _ hmem ⟨ws', followed', rfl, hwalk'⟩)

/-- **When a scan visits every file once.** On all finitely many directories, whatever their links
lead to, and with every limit of links, the scan ends and lists each file below the root under
exactly one path if and only if no cycle can be reached and a single way leads to every directory
with such a file. -/
theorem visitsOnce_iff [Finite Dir] (G : LinkedDirectories Dir) (maxLinks : ℕ)
    (root : Dir × Fin (maxLinks + 1)) :
    VisitsOnce G maxLinks root ↔ SingleWays G maxLinks root := by
  constructor
  · intro h
    obtain ⟨depth, files, hscan⟩ := h.terminates
    exact ⟨(acc_iff_acyclic root).mp (acc_of_scanDirectory _ root depth files hscan),
      single_of_once G maxLinks root h⟩
  · intro h
    obtain ⟨depth, hdepth⟩ :=
      exists_scanDirectory (G.resolved maxLinks) root ((acc_iff_acyclic root).mpr h.acyclic)
    refine ⟨⟨depth, hdepth depth le_rfl⟩, ?_⟩
    intro depth' files hscan dir name hreach hfile
    obtain ⟨hsorted, -⟩ := scanDirectory_spec _ depth' root files hscan
    obtain ⟨ws, ⟨followed, hwalk⟩, honly⟩ := h.single dir name hreach hfile
    have hlisted := mem_of_walk G maxLinks root depth' files hscan dir name hfile ws followed hwalk
    refine ⟨ws ++ [name], ?_, ⟨ws, followed, rfl, hwalk⟩, ?_⟩
    · exact List.count_eq_one_of_mem (hsorted.imp Std.ne_of_lt) hlisted
    · rintro q - ⟨ws', followed', rfl, hwalk'⟩
      rw [honly ws' ⟨followed', hwalk'⟩]

end Links

/-- A directory with a file, and with a subdirectory that holds nothing but a link to itself. -/
def loopBelow : LinkedDirectories Bool where
  entries
    | true => some [(text "x.json", .regularFile), (text "c", .directory false 0)]
    | false => some [(text "self", .directory false 1)]
  nodup := by
    intro dir es hes
    cases dir <;> cases hes <;> decide

/-- No step leads to the directory above. -/
theorem loopBelow_step {maxLinks : ℕ} {place place' : Bool × Fin (maxLinks + 1)} {name : Bytes}
    (h : (loopBelow.resolved maxLinks).Step place name place') : place'.1 = false := by
  obtain ⟨es, links, hes, hmem, -⟩ := (loopBelow.step_resolved_iff maxLinks _ _ _).mp h
  obtain ⟨dir, followed⟩ := place
  cases dir with
  | true =>
    cases hes
    simp at hmem
    exact hmem.2.1
  | false =>
    cases hes
    simp at hmem
    exact hmem.2.1

/-- So only the empty walk ends there. -/
theorem loopBelow_walk {maxLinks : ℕ} {place place' : Bool × Fin (maxLinks + 1)}
    {ws : List Bytes} (h : Walk (loopBelow.resolved maxLinks).Step place ws place')
    (habove : place'.1 = true) : ws = [] := by
  induction h with
  | nil => rfl
  | cons place next place' name ws hstep hwalk ih =>
    obtain rfl := ih habove
    cases hwalk
    rw [loopBelow_step hstep] at habove
    cases habove

/-- The only step that descends. -/
theorem loopBelow_descends {dir sub : Bool} {name : Bytes} (h : loopBelow.Descends dir name sub) :
    dir = true ∧ sub = false := by
  obtain ⟨es, hes, hmem⟩ := h
  cases dir with
  | true =>
    cases hes
    simp at hmem
    exact ⟨rfl, hmem.2⟩
  | false =>
    cases hes
    simp at hmem

/-- Its file is listed once: the scan follows the link below until there are too many. -/
theorem visitsOnce_loopBelow : VisitsOnce loopBelow 40 (true, 0) := by
  refine (visitsOnce_iff loopBelow 40 (true, 0)).mpr ⟨loopBelow.acyclic_resolved 40 ?_ _, ?_⟩
  · intro dir ws hcycle
    cases hcycle with
    | nil => rfl
    | cons _ next _ name ws hstep hwalk =>
      obtain ⟨rfl, rfl⟩ := loopBelow_descends hstep
      cases hwalk with
      | cons _ _ _ _ _ hstep' _ => exact absurd (loopBelow_descends hstep').1 (by decide)
  · rintro dir name - ⟨es, hes, hmem, -⟩
    cases dir with
    | true => exact ⟨[], ⟨0, .nil _⟩, fun ws hws => loopBelow_walk hws.choose_spec rfl⟩
    | false =>
      cases hes
      simp at hmem

/-- A directory whose subdirectory `a` holds a file, and a link `b` to it. -/
def linkedTwice : LinkedDirectories Bool where
  entries
    | true => some [(text "a", .directory false 0), (text "b", .directory false 1)]
    | false => some [(text "x.json", .regularFile)]
  nodup := by
    intro dir es hes
    cases dir <;> cases hes <;> decide

/-- A directory with a file and a link to itself. -/
def linkedBack : LinkedDirectories Unit where
  entries _ := some [(text "x.json", .regularFile), (text "self", .directory () 1)]
  nodup := by
    intro dir es hes
    cases hes
    decide

/-- On a system that follows 40 links the file is listed under 41 paths. -/
example : (scanRecursive (linkedBack.resolved 40) 42 ((), 0) [] []).map List.length = some 41 := by
  decide +kernel

/-- Two ways to a directory list its file twice, and so does a link to the directory it is in. -/
theorem not_visitsOnce_links :
    ¬ VisitsOnce linkedTwice 40 (true, 0) ∧ ¬ VisitsOnce linkedBack 40 ((), 0) := by
  constructor
  · intro h
    have hfile : linkedTwice.HasFile false (text "x.json") :=
      ⟨_, rfl, List.mem_cons_self, by decide⟩
    have hreach : Reaches linkedTwice.Step true false :=
      ⟨[text "a"], .cons _ _ _ _ _ ⟨_, 0, rfl, by simp⟩ (.nil false)⟩
    have ha : (linkedTwice.resolved 40).Step (true, 0) (text "a") (false, 0) :=
      (linkedTwice.step_resolved_iff 40 _ _ _).mpr ⟨_, 0, rfl, by simp, rfl⟩
    have hb : (linkedTwice.resolved 40).Step (true, 0) (text "b") (false, 1) :=
      (linkedTwice.step_resolved_iff 40 _ _ _).mpr ⟨_, 1, rfl, by simp, rfl⟩
    have heq := (single_of_once linkedTwice 40 _ h false (text "x.json") hreach hfile).unique
      ⟨0, .cons _ _ _ _ _ ha (.nil _)⟩ ⟨1, .cons _ _ _ _ _ hb (.nil _)⟩
    exact absurd heq (by decide)
  · intro h
    have hfile : linkedBack.HasFile () (text "x.json") := ⟨_, rfl, List.mem_cons_self, by decide⟩
    have hself : (linkedBack.resolved 40).Step ((), 0) (text "self") ((), 1) :=
      (linkedBack.step_resolved_iff 40 _ _ _).mpr ⟨_, 1, rfl, by simp, rfl⟩
    have heq := (single_of_once linkedBack 40 _ h () (text "x.json") (.refl ()) hfile).unique
      ⟨0, .nil _⟩ ⟨1, .cons _ _ _ _ _ hself (.nil _)⟩
    exact absurd heq (by decide)

/-! ## Trees -/

/-- The same entries, in whatever order they are enumerated. -/
def SameEntries (G G' : DirectoryGraph Dir) : Prop :=
  ∀ dir, Option.Rel List.Perm (G.entries dir) (G'.entries dir)

/-- An entry is found in both orders. -/
theorem SameEntries.mem_iff {G G' : DirectoryGraph Dir} (h : SameEntries G G') (dir : Dir)
    (entry : Bytes × EntryType Dir) :
    (∃ es, G.entries dir = some es ∧ entry ∈ es) ↔
      ∃ es, G'.entries dir = some es ∧ entry ∈ es := by
  have hdir := h dir
  generalize G.entries dir = es at hdir ⊢
  generalize G'.entries dir = es' at hdir ⊢
  cases hdir with
  | none => simp
  | some hperm => simp [hperm.mem_iff]

/-- The same steps lead into subdirectories. -/
theorem SameEntries.step_eq {G G' : DirectoryGraph Dir} (h : SameEntries G G') :
    G.Step = G'.Step := by
  funext dir name sub
  exact propext (h.mem_iff dir (name, .directory sub))

/-- The same files are there. -/
theorem SameEntries.hasFile_iff {G G' : DirectoryGraph Dir} (h : SameEntries G G') (dir : Dir)
    (name : Bytes) : G.HasFile dir name ↔ G'.HasFile dir name := by
  have hiff := h.mem_iff dir (name, .regularFile)
  simp only [DirectoryGraph.HasFile, ← and_assoc, exists_and_right, hiff]

/-- The same files lie below a directory. -/
theorem SameEntries.listed_iff {G G' : DirectoryGraph Dir} (h : SameEntries G G') (root : Dir)
    (p : Path) : G.Listed root p ↔ G'.Listed root p := by
  simp only [DirectoryGraph.Listed, h.step_eq, h.hasFile_iff]

/-- Two strictly increasing lists of the same paths are equal. -/
theorem eq_of_same_paths (files files' : List Path) (h : files.Pairwise (· < ·))
    (h' : files'.Pairwise (· < ·)) (hmem : ∀ p, p ∈ files ↔ p ∈ files') : files = files' := by
  have hperm : files.Perm files' := by
    rw [List.perm_ext_iff_of_nodup (h.imp Std.ne_of_lt) (h'.imp Std.ne_of_lt)]
    exact hmem
  apply List.Perm.eq_of_pairwise _ h h' hperm
  intro p q _ _ hpq hqp
  exact absurd hqp (List.lt_asymm hpq)

/-- **Directory scanning on a tree.** For every finite directory graph in which each directory is
reached in a single way, with arbitrary unreadable directories, and two orders of enumeration,
the scans return the same strictly increasing list. It contains exactly the files in readable
directories whose last extension is one of the five, in any spelling of the letters; a name
whose only dot is in front has no extension. -/
theorem scanDirectory_tree [Finite Dir] (G G' : DirectoryGraph Dir) (root : Dir)
    (htree : ∀ dir ws ws', Walk G.Step root ws dir → Walk G.Step root ws' dir → ws = ws')
    (hsame : SameEntries G G') :
    ∃ files : List Path,
      (∃ depth, ∀ depth' ≥ depth, scanDirectory G depth' (.directory root) = some files ∧
        scanDirectory G' depth' (.directory root) = some files) ∧
      files.Pairwise (· < ·) ∧
      (∀ p, p ∈ files ↔ ∃ ws dir name es, p = ws ++ [name] ∧ Walk G.Step root ws dir ∧
        G.entries dir = some es ∧ (name, .regularFile) ∈ es ∧ ListedName name) ∧
      ∀ letters : Bytes, 46 ∉ letters → extension (46 :: letters) = [] := by
  have hacc : Acc (Behind G.Step) root := (acc_iff_acyclic root).mpr (acyclic_of_unique htree)
  obtain ⟨depth, hdepth⟩ := exists_scanDirectory G root hacc
  obtain ⟨depth', hdepth'⟩ := exists_scanDirectory G' root (hsame.step_eq ▸ hacc)
  obtain ⟨files, hscan⟩ := hdepth depth le_rfl
  obtain ⟨hsorted, hmem⟩ := scanDirectory_spec G depth root files hscan
  refine ⟨files, ⟨max depth depth', ?_⟩, hsorted, ?_, extension_leading_dot⟩
  · intro deeper hge
    obtain ⟨files₁, hscan₁⟩ := hdepth deeper (le_trans (le_max_left _ _) hge)
    obtain ⟨files₂, hscan₂⟩ := hdepth' deeper (le_trans (le_max_right _ _) hge)
    obtain ⟨hsorted₁, hmem₁⟩ := scanDirectory_spec G deeper root files₁ hscan₁
    obtain ⟨hsorted₂, hmem₂⟩ := scanDirectory_spec G' deeper root files₂ hscan₂
    have heq₁ : files₁ = files :=
      eq_of_same_paths files₁ files hsorted₁ hsorted fun p => (hmem₁ p).trans (hmem p).symm
    have heq₂ : files₂ = files :=
      eq_of_same_paths files₂ files hsorted₂ hsorted fun p =>
        (hmem₂ p).trans ((hsame.listed_iff root p).symm.trans (hmem p).symm)
    rw [hscan₁, hscan₂, heq₁, heq₂]
    exact ⟨rfl, rfl⟩
  · intro p
    rw [hmem]
    constructor
    · rintro ⟨ws, dir, name, hp, hwalk, es, hes, hfile, hext⟩
      exact ⟨ws, dir, name, es, hp, hwalk, hes, hfile, (hasListedExtension_iff name).mp hext⟩
    · rintro ⟨ws, dir, name, es, hp, hwalk, hes, hfile, hname⟩
      exact ⟨ws, dir, name, hp, hwalk, es, hes, hfile, (hasListedExtension_iff name).mpr hname⟩

/-- A directory with a subdirectory that holds a file. -/
def oneWay : DirectoryGraph Bool where
  entries
    | true => some [(text "a", .directory false)]
    | false => some [(text "x.json", .regularFile), (text "y.md", .regularFile)]
  nodup := by
    intro dir es hes
    cases dir <;> cases hes <;> decide

/-- Nothing leads on from the subdirectory. -/
theorem oneWay_walk_false (ws : List Bytes) (dir : Bool) (h : Walk oneWay.Step false ws dir) :
    ws = [] ∧ dir = false := by
  cases h with
  | nil => exact ⟨rfl, rfl⟩
  | cons _ _ _ _ _ hstep _ =>
    obtain ⟨es, hes, hmem⟩ := hstep
    cases hes
    simp at hmem

/-- The walks from the root. -/
theorem oneWay_walk_true (ws : List Bytes) (dir : Bool) (h : Walk oneWay.Step true ws dir) :
    (ws = [] ∧ dir = true) ∨ (ws = [text "a"] ∧ dir = false) := by
  cases h with
  | nil => exact Or.inl ⟨rfl, rfl⟩
  | cons _ _ _ _ _ hstep hwalk =>
    obtain ⟨es, hes, hmem⟩ := hstep
    cases hes
    simp only [List.mem_singleton, Prod.mk.injEq, EntryType.directory.injEq] at hmem
    obtain ⟨rfl, rfl⟩ := hmem
    obtain ⟨rfl, rfl⟩ := oneWay_walk_false _ _ hwalk
    exact Or.inr ⟨rfl, rfl⟩

/-- Its directories are reached in a single way. -/
theorem oneWay_unique (dir : Bool) (ws ws' : List Bytes) (h : Walk oneWay.Step true ws dir)
    (h' : Walk oneWay.Step true ws' dir) : ws = ws' := by
  rcases oneWay_walk_true ws dir h with ⟨rfl, rfl⟩ | ⟨rfl, rfl⟩
  · rcases oneWay_walk_true ws' true h' with ⟨rfl, -⟩ | ⟨-, hdir⟩
    · rfl
    · cases hdir
  · rcases oneWay_walk_true ws' false h' with ⟨-, hdir⟩ | ⟨rfl, -⟩
    · cases hdir
    · rfl

/-- The same directories, enumerated the other way round. -/
def oneWayReversed : DirectoryGraph Bool where
  entries
    | true => some [(text "a", .directory false)]
    | false => some [(text "y.md", .regularFile), (text "x.json", .regularFile)]
  nodup := by
    intro dir es hes
    cases dir <;> cases hes <;> decide

/-- Both enumerations give the list that contains the file of the subdirectory. -/
theorem scanDirectory_tree_oneWay :
    ∃ files depth, scanDirectory oneWay depth (.directory true) = some files ∧
      scanDirectory oneWayReversed depth (.directory true) = some files ∧
      [text "a", text "x.json"] ∈ files := by
  have hsame : SameEntries oneWay oneWayReversed := by
    intro dir
    cases dir
    · exact .some (List.Perm.swap _ _ _)
    · exact .some (List.Perm.refl _)
  obtain ⟨files, ⟨depth, hdepth⟩, -, hmem, -⟩ :=
    scanDirectory_tree oneWay oneWayReversed true oneWay_unique hsame
  refine ⟨files, depth, (hdepth depth le_rfl).1, (hdepth depth le_rfl).2, ?_⟩
  apply (hmem _).mpr
  exact ⟨[text "a"], false, text "x.json", _, rfl,
    .cons _ _ _ _ _ ⟨_, rfl, by simp⟩ (.nil false), rfl, by simp,
    [120], text "json", rfl, by decide, by decide, by decide⟩

end Lacuna.Results
