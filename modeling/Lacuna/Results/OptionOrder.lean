import Lacuna.Analysis.CommandLine

/-!
# The order of options

A command line may give its option groups in any order, and anywhere between its positional
arguments. The outcome is the same for every arrangement, with one exception: an algorithm option
together with a legacy positional algorithm. The guard of the latter rejects it behind the
option, while the option behind it overrides it (`optionOrder_iff`).
-/

set_option autoImplicit false

namespace Lacuna.Results

open Model

/-- The arguments of a sequence of items. -/
def commandLine (items : List CliItem) : List Bytes := items.flatMap CliItem.tokens

/-- The items are the option groups, in any order, between the positional arguments, in theirs. -/
structure Arranges (items : List CliItem) (ps : List Bytes) (gs : List OptionGroup) : Prop where
  positionals : CliItem.positionals items = ps
  groups : (CliItem.groups items).Perm gs

/-- There is an algorithm option, and behind command and target a single positional argument
names an algorithm, too. -/
def LegacyClash (ps : List Bytes) (gs : List OptionGroup) : Prop :=
  (∃ g ∈ gs, g.kind = .algo) ∧ ∃ x, unplaced {} ps = [x] ∧ isLegacyAlgo x = true

/-! ## Two arrangements -/

/-- All positional arguments come first. -/
def optionsLast (ps : List Bytes) (gs : List OptionGroup) : List CliItem :=
  ps.map CliItem.positional ++ gs.map CliItem.group

/-- All options come first. -/
def optionsFirst (ps : List Bytes) (gs : List OptionGroup) : List CliItem :=
  gs.map CliItem.group ++ ps.map CliItem.positional

theorem arranges_optionsLast (ps : List Bytes) (gs : List OptionGroup) :
    Arranges (optionsLast ps gs) ps gs :=
  ⟨by simp [optionsLast, CliItem.positionals], by simp [optionsLast, CliItem.groups]⟩

theorem arranges_optionsFirst (ps : List Bytes) (gs : List OptionGroup) :
    Arranges (optionsFirst ps gs) ps gs :=
  ⟨by simp [optionsFirst, CliItem.positionals], by simp [optionsFirst, CliItem.groups]⟩

/-- Positional arguments in front stand behind no option. -/
theorem positionalsFirst_optionsLast (ps : List Bytes) (gs : List OptionGroup) :
    CliItem.positionalsFirst (optionsLast ps gs) = true := by
  induction ps with
  | nil => exact CliItem.positionalsFirst_of_nil _ (by simp [optionsLast, CliItem.positionals])
  | cons p ps ih => exact ih

/-- Positional arguments behind an algorithm option do not come first. -/
theorem positionalsFirst_optionsFirst (ps : List Bytes) (gs : List OptionGroup)
    (halgo : ∃ g ∈ gs, g.kind = .algo) (hne : ps ≠ []) :
    CliItem.positionalsFirst (optionsFirst ps gs) = false := by
  induction gs with
  | nil =>
    obtain ⟨g, hg, -⟩ := halgo
    cases hg
  | cons g gs ih =>
    have hcons : optionsFirst ps (g :: gs) = .group g :: optionsFirst ps gs := rfl
    rw [hcons, CliItem.positionalsFirst, (arranges_optionsFirst ps gs).positionals]
    split
    · exact List.isEmpty_eq_false_iff.mpr hne
    · next hkind =>
      obtain ⟨g', hg', halgo'⟩ := halgo
      rcases List.mem_cons.mp hg' with rfl | hg'
      · exact absurd halgo' hkind
      · exact ih ⟨g', hg', halgo'⟩

/-! ## The outcome of an arrangement -/

/-- An algorithm option overrides what the algorithm was. -/
theorem foldl_apply_algorithm (gs : List OptionGroup) (halgo : ∃ g ∈ gs, g.kind = .algo)
    (opt : CliOptions) (x : Option Bytes) :
    gs.foldl OptionGroup.apply { opt with algorithm := x } = gs.foldl OptionGroup.apply opt := by
  induction gs generalizing opt with
  | nil =>
    obtain ⟨g, hg, -⟩ := halgo
    cases hg
  | cons g gs ih =>
    rw [List.foldl_cons, List.foldl_cons]
    by_cases hkind : g.kind = .algo
    · have happly : g.apply { opt with algorithm := x } = g.apply opt := by
        cases g <;> first | rfl | cases hkind
      rw [happly]
    · have happly : g.apply { opt with algorithm := x } =
          { g.apply opt with algorithm := x } := by
        cases g <;> first | rfl | exact absurd rfl hkind
      obtain ⟨g', hg', halgo'⟩ := halgo
      rcases List.mem_cons.mp hg' with rfl | hg'
      · exact absurd halgo' hkind
      · rw [happly]
        exact ih ⟨g', hg', halgo'⟩ (g.apply opt)

variable {ps : List Bytes} {gs : List OptionGroup} {items : List CliItem}

/-- The outcome depends on the arrangement only in what comes first. -/
theorem cliOutcome_of_arranges (console : Console) (hps : ∀ p ∈ ps, IsPositional p)
    (hgs : (gs.map OptionGroup.kind).Nodup) (h : Arranges items ps gs) :
    cliOutcome console (commandLine items) =
      outcomeOf {} ps gs (CliItem.positionalsFirst items) := by
  have hnd : ((CliItem.groups items).map OptionGroup.kind).Nodup :=
    (h.groups.map OptionGroup.kind).nodup_iff.mpr hgs
  have hfold := OptionGroup.foldl_apply_perm h.groups hnd
  rw [cliOutcome, parseCliArgs, commandLine,
    toOption_parseArgs console items (by rw [h.positionals]; exact hps), h.positionals]
  simp only [outcomeOf, hfold]

/-- Without a clash it does not matter what comes first. -/
theorem outcomeOf_of_not_clash (hclash : ¬ LegacyClash ps gs) (h : Arranges items ps gs) :
    outcomeOf {} ps gs (CliItem.positionalsFirst items) = outcomeOf {} ps gs true := by
  unfold outcomeOf
  cases hleft : unplaced {} ps with
  | nil => rfl
  | cons x more =>
    cases more with
    | cons y more => rfl
    | nil =>
      cases hlegacy : isLegacyAlgo x with
      | false => simp [hlegacy]
      | true =>
        have hnone : ∀ g ∈ CliItem.groups items, g.kind ≠ .algo := by
          intro g hg hkind
          exact hclash ⟨⟨g, h.groups.mem_iff.mp hg, hkind⟩, x, hleft, hlegacy⟩
        simp [hlegacy, CliItem.positionalsFirst_of_groups items hnone]

/-- With a clash, the positional algorithm has to come first and is overridden. -/
theorem outcomeOf_of_clash (hclash : LegacyClash ps gs) (first : Bool) :
    outcomeOf {} ps gs first =
      if first then some (gs.foldl OptionGroup.apply (fill {} ps)) else none := by
  obtain ⟨halgo, x, hleft, hlegacy⟩ := hclash
  unfold outcomeOf
  rw [hleft]
  simp only [hlegacy, Option.isNone_none, Bool.true_and,
    foldl_apply_algorithm gs halgo (fill {} ps) (some x)]

/-- **The order of options.** For positional arguments that are no keywords, and option groups
of different kinds, every arrangement has the same outcome if and only if no algorithm option
meets a legacy positional algorithm. If they meet, an arrangement is accepted exactly when no
positional argument stands behind the option, with the options the groups give without the
positional algorithm. -/
theorem optionOrder_iff (console : Console) (ps : List Bytes) (gs : List OptionGroup)
    (hps : ∀ p ∈ ps, IsPositional p) (hgs : (gs.map OptionGroup.kind).Nodup) :
    ((∀ items items', Arranges items ps gs → Arranges items' ps gs →
        cliOutcome console (commandLine items) = cliOutcome console (commandLine items')) ↔
      ¬ LegacyClash ps gs) ∧
    (LegacyClash ps gs → ∀ items, Arranges items ps gs →
      cliOutcome console (commandLine items) =
        if CliItem.positionalsFirst items then
          some (gs.foldl OptionGroup.apply (fill {} ps))
        else none) := by
  refine ⟨⟨?_, ?_⟩, ?_⟩
  · intro hsame hclash
    have hne : ps ≠ [] := by
      obtain ⟨-, x, hleft, -⟩ := hclash
      exact unplaced_ne_nil {} (by rw [hleft]; simp)
    have heq := hsame _ _ (arranges_optionsLast ps gs) (arranges_optionsFirst ps gs)
    rw [cliOutcome_of_arranges console hps hgs (arranges_optionsLast ps gs),
      cliOutcome_of_arranges console hps hgs (arranges_optionsFirst ps gs),
      outcomeOf_of_clash hclash, outcomeOf_of_clash hclash, positionalsFirst_optionsLast,
      positionalsFirst_optionsFirst ps gs hclash.1 hne] at heq
    cases heq
  · intro hclash items items' h h'
    rw [cliOutcome_of_arranges console hps hgs h, cliOutcome_of_arranges console hps hgs h',
      outcomeOf_of_not_clash hclash h, outcomeOf_of_not_clash hclash h']
  · intro hclash items h
    rw [cliOutcome_of_arranges console hps hgs h, outcomeOf_of_clash hclash]

/-- `-q` and `-o -x`. -/
def quietOutput : List OptionGroup :=
  [.quiet ⟨text "-q", rfl⟩, .output ⟨text "-o", rfl⟩ (text "-x")]

/-- The order of two options around the arguments of a compression. -/
theorem optionOrder_iff_quietOutput :
    cliOutcome plainConsole (commandLine
        (optionsLast [text "compress", text "f", text "rle"] quietOutput)) =
      cliOutcome plainConsole (commandLine
        (optionsFirst [text "compress", text "f", text "rle"] quietOutput)) := by
  have hclash : ¬ LegacyClash [text "compress", text "f", text "rle"] quietOutput := by
    rintro ⟨⟨g, hg, hkind⟩, -⟩
    simp only [quietOutput, List.mem_cons, List.not_mem_nil, or_false] at hg
    rcases hg with rfl | rfl <;> cases hkind
  exact (optionOrder_iff plainConsole _ quietOutput (by decide) (by decide)).1.mpr hclash _ _
    (arranges_optionsLast _ _) (arranges_optionsFirst _ _)

/-- `-a huffman`. -/
def algoHuffman : OptionGroup := .algo ⟨text "-a", rfl⟩ (text "huffman")

/-- `compress f -a huffman rle` is rejected, while `compress f rle -a huffman` is accepted: not
every arrangement has the same outcome. -/
theorem not_optionOrder :
    ¬ ∀ (ps : List Bytes) (gs : List OptionGroup), (∀ p ∈ ps, IsPositional p) →
      (gs.map OptionGroup.kind).Nodup → ∀ items items', Arranges items ps gs →
      Arranges items' ps gs → cliOutcome plainConsole (commandLine items) =
        cliOutcome plainConsole (commandLine items') := by
  intro h
  have heq := h [text "compress", text "f", text "rle"] [algoHuffman] (by decide) (by decide)
    [.positional (text "compress"), .positional (text "f"), .group algoHuffman,
      .positional (text "rle")]
    [.positional (text "compress"), .positional (text "f"), .positional (text "rle"),
      .group algoHuffman]
    ⟨rfl, List.Perm.refl _⟩ ⟨rfl, List.Perm.refl _⟩
  have hsome := congrArg Option.isSome heq
  revert hsome
  decide

end Lacuna.Results
