import Mathlib.Data.List.Perm.Basic
import Lacuna.Model.Cli

/-!
# What a command line means

A command line without keywords is a sequence of option groups and positional arguments
(`CliItem`). A group acts on the options by itself (`parseArgs_group`); a positional argument
fills the command, then the target, and then at most the algorithm (`fill`, `unplaced`). Put
together these give the outcome of any such command line in closed form (`toOption_parseArgs`). The
only thing in it that depends on the order is whether an algorithm option comes before the last
positional argument.
-/

set_option autoImplicit false

namespace Lacuna.Model

/-! ## Option groups -/

/-- The options that can be given. -/
inductive OptionKind where
  | quiet
  | verbose
  | json
  | output
  | algo
deriving DecidableEq

/-- An option as it is given: under one of its names, with its value if it takes one. -/
inductive OptionGroup where
  | quiet (name : { a : Bytes // isQuiet a = true })
  | verbose (name : { a : Bytes // isVerbose a = true })
  | json (name : { a : Bytes // isJson a = true })
  | output (name : { a : Bytes // isOutput a = true }) (value : Bytes)
  | algo (name : { a : Bytes // isAlgo a = true }) (value : Bytes)

namespace OptionGroup

/-- Which option it is. -/
def kind : OptionGroup → OptionKind
  | quiet _ => .quiet
  | verbose _ => .verbose
  | json _ => .json
  | output _ _ => .output
  | algo _ _ => .algo

/-- The arguments it consists of. -/
def tokens : OptionGroup → List Bytes
  | quiet name => [name.1]
  | verbose name => [name.1]
  | json name => [name.1]
  | output name value => [name.1, value]
  | algo name value => [name.1, value]

/-- What it sets. -/
def apply (opt : CliOptions) : OptionGroup → CliOptions
  | quiet _ => { opt with quiet := true }
  | verbose _ => { opt with verbose := true }
  | json _ => { opt with jsonOutput := true }
  | output _ value => { opt with outputPath := some value }
  | algo _ value => { opt with algorithm := some value }

/-- Options of different kinds set different fields. -/
theorem apply_comm (g g' : OptionGroup) (h : g.kind ≠ g'.kind) (opt : CliOptions) :
    apply (apply opt g) g' = apply (apply opt g') g := by
  cases g <;> cases g' <;> first | rfl | exact absurd rfl h

/-- **The order of options of different kinds does not matter.** -/
theorem foldl_apply_perm {gs gs' : List OptionGroup} (h : gs.Perm gs')
    (hnd : (gs.map kind).Nodup) (opt : CliOptions) :
    gs.foldl apply opt = gs'.foldl apply opt := by
  apply h.foldl_eq'
  intro g hg g' hg' opt
  by_cases hkind : g.kind = g'.kind
  · rw [List.inj_on_of_nodup_map hnd hg hg' hkind]
  · exact apply_comm g g' hkind opt

/-- No option sets the command. -/
@[simp] theorem command_apply (opt : CliOptions) (g : OptionGroup) :
    (apply opt g).command = opt.command := by
  cases g <;> rfl

/-- No option sets the target. -/
@[simp] theorem positionalTarget_apply (opt : CliOptions) (g : OptionGroup) :
    (apply opt g).positionalTarget = opt.positionalTarget := by
  cases g <;> rfl

/-- Only the algorithm option sets the algorithm. -/
theorem algorithm_apply (opt : CliOptions) (g : OptionGroup) (h : g.kind ≠ .algo) :
    (apply opt g).algorithm = opt.algorithm := by
  cases g <;> first | rfl | exact absurd rfl h

/-- The algorithm option sets it, whatever it was. -/
theorem isNone_algorithm_apply (opt : CliOptions) (g : OptionGroup) (h : g.kind = .algo) :
    (apply opt g).algorithm.isNone = false := by
  cases g <;> first | rfl | cases h

end OptionGroup

/-- An argument that is none of the names tested for. -/
def IsPositional (a : Bytes) : Prop :=
  isHelp a = false ∧ isVersion a = false ∧ isQuiet a = false ∧ isVerbose a = false ∧
    isJson a = false ∧ isOutput a = false ∧ isAlgo a = false

instance (a : Bytes) : Decidable (IsPositional a) := inferInstanceAs (Decidable (_ ∧ _))

/-- **An option group is read as such**, whatever follows it. -/
theorem parseArgs_group (console : Console) (g : OptionGroup) (rest : List Bytes)
    (opt : CliOptions) :
    parseArgs console (g.tokens ++ rest) opt = parseArgs console rest (g.apply opt) := by
  cases g with
  | quiet name =>
    obtain ⟨a, ha⟩ := name
    simp only [isQuiet, Bool.or_eq_true, decide_eq_true_eq] at ha
    show parseArgs console (a :: rest) opt = _
    conv_lhs => unfold parseArgs
    rcases ha with rfl | rfl <;> rfl
  | verbose name =>
    obtain ⟨a, ha⟩ := name
    simp only [isVerbose, Bool.or_eq_true, decide_eq_true_eq] at ha
    show parseArgs console (a :: rest) opt = _
    conv_lhs => unfold parseArgs
    rcases ha with rfl | rfl <;> rfl
  | json name =>
    obtain ⟨a, ha⟩ := name
    simp only [isJson, decide_eq_true_eq] at ha
    show parseArgs console (a :: rest) opt = _
    conv_lhs => unfold parseArgs
    subst ha
    rfl
  | output name value =>
    obtain ⟨a, ha⟩ := name
    simp only [isOutput, Bool.or_eq_true, decide_eq_true_eq] at ha
    show parseArgs console (a :: value :: rest) opt = _
    conv_lhs => unfold parseArgs
    rcases ha with rfl | rfl <;> rfl
  | algo name value =>
    obtain ⟨a, ha⟩ := name
    simp only [isAlgo, Bool.or_eq_true, decide_eq_true_eq] at ha
    show parseArgs console (a :: value :: rest) opt = _
    conv_lhs => unfold parseArgs
    rcases ha with (rfl | rfl) | rfl <;> rfl

/-- A positional argument is read as such. -/
theorem parseArgs_positional (console : Console) (p : Bytes) (hp : IsPositional p)
    (rest : List Bytes) (opt : CliOptions) :
    parseArgs console (p :: rest) opt =
      parsePositional console opt p >>= parseArgs console rest := by
  obtain ⟨h1, h2, h3, h4, h5, h6, h7⟩ := hp
  conv_lhs => unfold parseArgs
  simp only [h1, h2, h3, h4, h5, h6, h7, Bool.false_eq_true, if_false]
  cases parsePositional console opt p <;> rfl

/-! ## Command lines without keywords -/

/-- An option group or a positional argument. -/
inductive CliItem where
  | group (g : OptionGroup)
  | positional (p : Bytes)

namespace CliItem

/-- The arguments an item consists of. -/
def tokens : CliItem → List Bytes
  | group g => g.tokens
  | positional p => [p]

/-- The positional arguments among the items. -/
def positionals (items : List CliItem) : List Bytes :=
  items.filterMap fun
    | group _ => none
    | positional p => some p

/-- The option groups among the items. -/
def groups (items : List CliItem) : List OptionGroup :=
  items.filterMap fun
    | group g => some g
    | positional _ => none

@[simp] theorem positionals_group (g : OptionGroup) (items : List CliItem) :
    positionals (group g :: items) = positionals items := rfl

@[simp] theorem positionals_positional (p : Bytes) (items : List CliItem) :
    positionals (positional p :: items) = p :: positionals items := rfl

@[simp] theorem groups_group (g : OptionGroup) (items : List CliItem) :
    groups (group g :: items) = g :: groups items := rfl

@[simp] theorem groups_positional (p : Bytes) (items : List CliItem) :
    groups (positional p :: items) = groups items := rfl

/-- No positional argument stands behind an algorithm option. -/
def positionalsFirst : List CliItem → Bool
  | [] => true
  | group g :: items =>
    if g.kind = .algo then (positionals items).isEmpty else positionalsFirst items
  | positional _ :: items => positionalsFirst items

/-- Without positional arguments there is none behind an option. -/
theorem positionalsFirst_of_nil (items : List CliItem) (h : positionals items = []) :
    positionalsFirst items = true := by
  induction items with
  | nil => rfl
  | cons item items ih =>
    cases item with
    | group g =>
      rw [positionals_group] at h
      rw [positionalsFirst, h, ih h]
      simp
    | positional p => cases h

/-- Without an algorithm option there is nothing behind it. -/
theorem positionalsFirst_of_groups (items : List CliItem)
    (h : ∀ g ∈ groups items, g.kind ≠ .algo) : positionalsFirst items = true := by
  induction items with
  | nil => rfl
  | cons item items ih =>
    cases item with
    | group g =>
      rw [groups_group, List.forall_mem_cons] at h
      rw [positionalsFirst, if_neg h.1]
      exact ih h.2
    | positional p => exact ih h

end CliItem

/-- The options once the positional arguments have filled the command and the target; an empty
argument leaves the field it goes to empty. -/
def fill (opt : CliOptions) : List Bytes → CliOptions
  | [] => opt
  | p :: ps =>
    if opt.command.isEmpty then fill { opt with command := p } ps
    else if opt.positionalTarget.isEmpty then fill { opt with positionalTarget := p } ps
    else opt

/-- The positional arguments that are left then. -/
def unplaced (opt : CliOptions) : List Bytes → List Bytes
  | [] => []
  | p :: ps =>
    if opt.command.isEmpty then unplaced { opt with command := p } ps
    else if opt.positionalTarget.isEmpty then unplaced { opt with positionalTarget := p } ps
    else p :: ps

/-- What is left depends on the two fields only. -/
theorem unplaced_congr {opt opt' : CliOptions} (hcommand : opt.command = opt'.command)
    (htarget : opt.positionalTarget = opt'.positionalTarget) (ps : List Bytes) :
    unplaced opt ps = unplaced opt' ps := by
  induction ps generalizing opt opt' with
  | nil => rfl
  | cons p ps ih =>
    rw [unplaced, unplaced, hcommand, htarget]
    split
    · exact ih rfl rfl
    · split
      · exact ih rfl rfl
      · rfl

/-- An option may as well be set after the fields are filled. -/
theorem fill_apply (opt : CliOptions) (g : OptionGroup) (ps : List Bytes) :
    fill (g.apply opt) ps = g.apply (fill opt ps) := by
  induction ps generalizing opt with
  | nil => rfl
  | cons p ps ih =>
    rw [fill, fill, OptionGroup.command_apply, OptionGroup.positionalTarget_apply]
    split
    · rw [← ih]
      cases g <;> rfl
    · split
      · rw [← ih]
        cases g <;> rfl
      · rfl

/-- Only where an argument is there can one be left. -/
theorem unplaced_ne_nil (opt : CliOptions) {ps : List Bytes} (h : unplaced opt ps ≠ []) :
    ps ≠ [] := by
  rintro rfl
  exact h rfl

/-! ## The outcome -/

/-- The outcome of a command line: the options, if it is accepted. -/
def cliOutcome (console : Console) (args : List Bytes) : Option CliOptions :=
  (parseCliArgs console args).toOption

/-- The outcome in closed form: of positional arguments, option groups, and whether the former
come first where it matters. -/
def outcomeOf (opt : CliOptions) (ps : List Bytes) (gs : List OptionGroup) (first : Bool) :
    Option CliOptions :=
  match unplaced opt ps with
  | [] => some (gs.foldl OptionGroup.apply (fill opt ps))
  | [x] =>
    if isLegacyAlgo x && opt.algorithm.isNone && first then
      some (gs.foldl OptionGroup.apply { fill opt ps with algorithm := some x })
    else none
  | _ :: _ :: _ => none

/-- An option in front is set before the others. -/
theorem outcomeOf_group (opt : CliOptions) (g : OptionGroup) (ps : List Bytes)
    (gs : List OptionGroup) (first first' : Bool)
    (hfirst : first' = if g.kind = .algo then ps.isEmpty else first) :
    outcomeOf (g.apply opt) ps gs first = outcomeOf opt ps (g :: gs) first' := by
  have hunplaced : unplaced (g.apply opt) ps = unplaced opt ps :=
    unplaced_congr (by simp) (by simp) ps
  subst hfirst
  rw [outcomeOf, outcomeOf, hunplaced, fill_apply]
  cases hleft : unplaced opt ps with
  | nil => rfl
  | cons x more =>
    cases more with
    | cons y more => rfl
    | nil =>
      have hne : ps ≠ [] := unplaced_ne_nil opt (by rw [hleft]; simp)
      by_cases hkind : g.kind = .algo
      · simp [hkind, hne, OptionGroup.isNone_algorithm_apply opt g hkind]
      · have hcomm : ({ g.apply (fill opt ps) with algorithm := some x } : CliOptions) =
            g.apply { fill opt ps with algorithm := some x } := by
          cases g <;> first | rfl | exact absurd rfl hkind
        simp only [hkind, if_false, OptionGroup.algorithm_apply opt g hkind, hcomm,
          List.foldl_cons]

/-- Where both fields are filled, every argument is left. -/
theorem unplaced_of_filled (opt : CliOptions) (ps : List Bytes)
    (hcommand : opt.command.isEmpty = false) (htarget : opt.positionalTarget.isEmpty = false) :
    unplaced opt ps = ps := by
  cases ps with
  | nil => rfl
  | cons p ps => simp [unplaced, hcommand, htarget]

/-- Where both fields are filled, nothing is filled any more. -/
theorem fill_of_filled (opt : CliOptions) (ps : List Bytes)
    (hcommand : opt.command.isEmpty = false) (htarget : opt.positionalTarget.isEmpty = false) :
    fill opt ps = opt := by
  cases ps with
  | nil => rfl
  | cons p ps => simp [fill, hcommand, htarget]

/-- A positional argument in front is placed first. -/
theorem outcomeOf_positional (console : Console) (opt : CliOptions) (p : Bytes)
    (ps : List Bytes) (gs : List OptionGroup) (first : Bool) (hfirst : ps = [] → first = true) :
    (parsePositional console opt p).toOption.bind (fun opt' => outcomeOf opt' ps gs first) =
      outcomeOf opt (p :: ps) gs first := by
  cases hcommand : opt.command.isEmpty with
  | true =>
    simp only [parsePositional, outcomeOf, unplaced, fill, hcommand, if_true]
    rfl
  | false =>
    cases htarget : opt.positionalTarget.isEmpty with
    | true =>
      simp only [parsePositional, outcomeOf, unplaced, fill, hcommand, htarget, if_true,
        Bool.false_eq_true, if_false]
      rfl
    | false =>
      -- both fields are filled: what is left must be a single algorithm
      have hleft := unplaced_of_filled opt (p :: ps) hcommand htarget
      have hfill := fill_of_filled opt (p :: ps) hcommand htarget
      simp only [parsePositional, hcommand, htarget, Bool.false_eq_true, if_false]
      rw [outcomeOf, hleft, hfill]
      cases hlegacy : opt.algorithm.isNone && isLegacyAlgo p with
      | false =>
        rw [Bool.and_comm] at hlegacy
        cases ps with
        | nil => simp [hlegacy, Except.toOption]
        | cons q ps => rfl
      | true =>
        have hleft' := unplaced_of_filled { opt with algorithm := some p } ps hcommand htarget
        have hfill' := fill_of_filled { opt with algorithm := some p } ps hcommand htarget
        simp only [if_true, Except.toOption, Option.bind_some, outcomeOf, hleft', hfill']
        rw [Bool.and_comm] at hlegacy
        cases ps with
        | nil => simp [hlegacy, hfirst rfl]
        | cons q ps =>
          cases ps with
          | nil => simp
          | cons r ps => rfl

/-- **The outcome of items** is their positional arguments and groups put together. -/
theorem toOption_parseArgs (console : Console) (items : List CliItem)
    (hps : ∀ p ∈ CliItem.positionals items, IsPositional p) (opt : CliOptions) :
    (parseArgs console (items.flatMap CliItem.tokens) opt).toOption =
      outcomeOf opt (CliItem.positionals items) (CliItem.groups items)
        (CliItem.positionalsFirst items) := by
  induction items generalizing opt with
  | nil => rfl
  | cons item items ih =>
    cases item with
    | group g =>
      rw [List.flatMap_cons, CliItem.tokens, parseArgs_group, ih hps]
      exact outcomeOf_group opt g _ _ _ _ rfl
    | positional p =>
      rw [CliItem.positionals_positional, List.forall_mem_cons] at hps
      rw [List.flatMap_cons, CliItem.tokens, List.singleton_append,
        parseArgs_positional console p hps.1, CliItem.positionals_positional,
        CliItem.groups_positional, CliItem.positionalsFirst,
        ← outcomeOf_positional console opt p _ _ _ (CliItem.positionalsFirst_of_nil items)]
      cases parsePositional console opt p with
      | error rejection => rfl
      | ok opt' => exact ih hps.2 opt'

/-- A console without colours, to compute with. -/
def plainConsole : Console :=
  { noColor := some (text "1"), clicolorForce := none, term := none, stdoutIsTty := false }

end Lacuna.Model
