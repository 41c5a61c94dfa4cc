import Mathlib.Data.List.Basic
import Lacuna.Library.JsonSpelling

/-!
# JSON printed without escaping

A program that prints JSON by hand, and puts strings into it as they are, prints the value it
means if and only if no string needs an escape. A *raw text* (`RawJson`) carries both directions
as fields, the second for whoever reads the text and finds the strings he expects. Raw texts are
put together from strings, numbers, objects and arrays with any white space between them, and
the fields follow from those of the parts.
-/

set_option autoImplicit false

namespace Lacuna.Library

/-! ## Reading tokens off the front -/

/-- A byte between tokens. -/
theorem lexFrom_between_cons (c : UInt8) (rest : List UInt8) :
    lexFrom .between (c :: rest) =
      (lexFrom (beginToken c).1 rest).map fun more => (beginToken c).2 ++ more := by
  have hrun : runLexer .between [c] = some ((beginToken c).1, (beginToken c).2) := by
    rw [runLexer, LexState.step]
    simp [runLexer]
  exact lexFrom_append hrun rest

/-- White space is skipped. -/
theorem lexFrom_spaces {ws : List UInt8} (hws : IsSpaces ws) (rest : List UInt8) :
    lexFrom .between (ws ++ rest) = lexFrom .between rest := by
  induction ws with
  | nil => rfl
  | cons c ws ih =>
    rw [IsSpaces, List.forall_mem_cons] at hws
    have hbegin : beginToken c = (.between, []) := by
      rw [beginToken, if_pos hws.1]
    rw [List.cons_append, lexFrom_between_cons, hbegin, ih hws.2]
    cases lexFrom .between rest <;> rfl

/-- A string that spells itself is read off. -/
theorem lexFrom_quoted {p : List UInt8} (hp : IsUnescaped p) (rest : List UInt8) :
    lexFrom .between (34 :: (p ++ 34 :: rest)) =
      (lexFrom .between rest).map fun more => .string p :: more := by
  have h := lexFrom_append (runLexer_quoted p hp) rest
  rw [List.cons_append, List.append_assoc] at h
  exact h

/-- **The bytes spell the value**, in front of anything that ends a word. -/
def Spells (bytes : List UInt8) (value : Json) : Prop :=
  ∀ c rest, endsWord c = true →
    lexFrom .between (bytes ++ c :: rest) =
      (lexFrom .between (c :: rest)).map fun more => value.tokens ++ more

/-- A string that spells itself. -/
theorem spells_quoted {p : List UInt8} (hp : IsUnescaped p) :
    Spells (34 :: (p ++ [34])) (.string p) := by
  intro c rest _
  rw [List.cons_append, List.append_assoc, List.singleton_append, lexFrom_quoted hp]
  rfl

/-- A number. -/
theorem spells_number {w : List UInt8} (hw : isNumber w = true) : Spells w (.number w) := by
  intro c rest hc
  have h := lexFrom_append (runLexer_number w hw c hc) rest
  rw [List.append_assoc, List.singleton_append] at h
  rw [h, lexFrom_between_cons, Option.map_map]
  rfl

/-- What is read from a text whose beginning spells a value begins with that value. -/
theorem eq_of_spells {bytes : List UInt8} {value x : Json} (h : Spells bytes value)
    {tail : List UInt8} (htail : Follows tail) {more : List JsonToken}
    (hread : lexFrom .between (bytes ++ tail) = some (x.tokens ++ more)) :
    x = value ∧ lexFrom .between tail = some more := by
  obtain ⟨c, rest, rfl, hends, -, -⟩ := htail
  rw [h c rest hends, Option.map_eq_some_iff] at hread
  obtain ⟨more', hmore', heq⟩ := hread
  obtain ⟨hvalue, hrest⟩ := Json.tokens_append_inj _ _ _ _ heq
  exact ⟨hvalue.symm, hrest ▸ hmore'⟩

/-! ## Raw texts -/

/-- **A plain string**: UTF-8 that needs no escape. -/
def IsPlain (p : List UInt8) : Prop := IsUtf8 p ∧ IsUnescaped p

/-- **A raw text**: bytes printed for a value, the strings it shows as they are, and what a
reader who finds these strings in the right places says of the value. -/
structure RawJson where
  bytes : List UInt8
  value : Json
  shown : List (List UInt8)
  good : Json → Prop
  /-- Strings that need no escape are printed well. -/
  spells : (∀ p ∈ shown, IsUnescaped p) → Spells bytes value
  /-- Strings that are read as they are need no escape. -/
  tells : ∀ tail x more, Follows tail →
    lexFrom .between (bytes ++ tail) = some (x.tokens ++ more) → good x →
      ∀ p ∈ shown, IsUnescaped p
  isUtf8 : IsUtf8 bytes ↔ ∀ p ∈ shown, IsUtf8 p

/-- A string the program has chosen: it needs no escape. -/
abbrev JsonWord := { word : List UInt8 // IsUnescaped word ∧ IsAscii word }

namespace RawJson

/-- A text in which nothing is shown. -/
def known (bytes : List UInt8) (value : Json) (hspells : Spells bytes value)
    (hascii : IsAscii bytes) : RawJson where
  bytes := bytes
  value := value
  shown := []
  good _ := True
  spells _ := hspells
  tells := by simp
  isUtf8 := by simp [hascii.isUtf8]

/-- A number. -/
def number (w : List UInt8) (hw : isNumber w = true) : RawJson :=
  known w (.number w) (spells_number hw) (isAscii_of_isNumber hw)

/-- A string the program has chosen. -/
def word (w : JsonWord) : RawJson :=
  known (34 :: (w.1 ++ [34])) (.string w.1) (spells_quoted w.2.1) (by
    intro b hb
    rw [List.mem_cons, List.mem_append, List.mem_singleton] at hb
    rcases hb with rfl | hb | rfl
    · decide
    · exact w.2.2 b hb
    · decide)

/-- A string put between quotes as it is. -/
def quoted (p : List UInt8) : RawJson where
  bytes := 34 :: (p ++ [34])
  value := .string p
  shown := [p]
  good x := x = .string p
  spells h := spells_quoted (h p List.mem_cons_self)
  tells := by
    rintro tail x more htail hread rfl q hq
    rw [List.mem_singleton] at hq
    subst hq
    rw [List.cons_append, List.append_assoc, List.singleton_append, lexFrom_between_cons] at hread
    have hopen : beginToken 34 = (.string (.body []), []) := rfl
    rw [hopen, Option.map_eq_some_iff] at hread
    obtain ⟨all, hall, heq⟩ := hread
    rw [List.nil_append] at heq
    subst heq
    exact unescaped_of_lexFrom htail hall
  isUtf8 := by
    have hquote : (34 : UInt8) < 128 := by decide
    have hopen := isUtf8_append_cons (p := []) (q := p ++ [34]) hquote
    rw [List.nil_append] at hopen
    rw [hopen, isUtf8_append_cons hquote]
    simp [isUtf8_nil]

end RawJson

/-! ## Objects -/

/-- The white space of an object or an array: in front of what it holds, behind a colon, and in
front of the closing bracket. -/
structure JsonLayout where
  item : List UInt8
  colon : List UInt8
  close : List UInt8
  item_spaces : IsSpaces item
  colon_spaces : IsSpaces colon
  close_spaces : IsSpaces close

/-- A member of an object: its name and the text of its value. -/
abbrev RawMember := JsonWord × RawJson

namespace JsonLayout

variable (L : JsonLayout)

/-- White space is ASCII. -/
theorem isAscii_of_spaces {ws : List UInt8} (h : IsSpaces ws) : IsAscii ws := by
  intro c hc
  have hspace := h c hc
  rw [isSpace, Bool.or_eq_true, Bool.or_eq_true, Bool.or_eq_true] at hspace
  rcases hspace with ((h | h) | h) | h <;> rw [of_decide_eq_true h] <;> decide

/-- A name and the colon behind it. -/
def name (key : JsonWord) : List UInt8 := L.item ++ 34 :: (key.1 ++ 34 :: 58 :: L.colon)

/-- The rest of an object behind one of its members. -/
def moreMembers : List RawMember → List UInt8
  | [] => L.close ++ [125]
  | (key, P) :: ms => 44 :: (L.name key ++ (P.bytes ++ moreMembers ms))

/-- The text of an object. -/
def object : List RawMember → List UInt8
  | [] => 123 :: (L.close ++ [125])
  | (key, P) :: ms => 123 :: (L.name key ++ (P.bytes ++ L.moreMembers ms))

@[simp] theorem moreMembers_nil : L.moreMembers [] = L.close ++ [125] := rfl

@[simp] theorem moreMembers_cons (m : RawMember) (ms : List RawMember) :
    L.moreMembers (m :: ms) = 44 :: (L.name m.1 ++ (m.2.bytes ++ L.moreMembers ms)) := rfl

@[simp] theorem object_cons (m : RawMember) (ms : List RawMember) :
    L.object (m :: ms) = 123 :: (L.name m.1 ++ (m.2.bytes ++ L.moreMembers ms)) := rfl

/-- The name of a member is read off. -/
theorem lexFrom_name (key : JsonWord) (rest : List UInt8) :
    lexFrom .between (L.name key ++ rest) =
      (lexFrom .between rest).map fun more => .string key.1 :: .colon :: more := by
  rw [name, List.append_assoc, lexFrom_spaces L.item_spaces, List.cons_append, List.append_assoc,
    List.cons_append, lexFrom_quoted key.2.1, List.cons_append, lexFrom_between_cons]
  have hcolon : beginToken 58 = (.between, [.colon]) := rfl
  rw [hcolon, lexFrom_spaces L.colon_spaces, Option.map_map]
  rfl

/-- A bracket is read off. -/
theorem lexFrom_close (c : UInt8) (t : JsonToken) (hc : beginToken c = (.between, [t]))
    (rest : List UInt8) :
    lexFrom .between (L.close ++ c :: rest) =
      (lexFrom .between rest).map fun more => t :: more := by
  rw [lexFrom_spaces L.close_spaces, lexFrom_between_cons, hc]
  rfl

/-- What closes an object or an array begins with something that ends a word. -/
theorem exists_head_close (c : UInt8) (hc : endsWord c = true) :
    ∃ d t, L.close ++ [c] = d :: t ∧ endsWord d = true := by
  have hspaces := L.close_spaces
  cases hclose : L.close with
  | nil => exact ⟨c, [], rfl, hc⟩
  | cons d ws =>
    rw [hclose, IsSpaces, List.forall_mem_cons] at hspaces
    refine ⟨d, ws ++ [c], rfl, ?_⟩
    rw [endsWord, hspaces.1]
    rfl

/-- The rest of an object begins with something that ends a word. -/
theorem exists_head_moreMembers (ms : List RawMember) :
    ∃ d t, L.moreMembers ms = d :: t ∧ endsWord d = true := by
  cases ms with
  | nil => exact L.exists_head_close 125 rfl
  | cons m ms => exact ⟨44, _, rfl, rfl⟩

/-- What closes an object or an array may stand behind a string. -/
theorem follows_close (c : UInt8) (hends : endsWord c = true) (hquote : c ≠ 34)
    {tail : List UInt8} (htail : Follows tail) : Follows (L.close ++ c :: tail) := by
  have hreaches : ReachesEnd (c :: tail) := by
    refine htail.reaches.cons ?_
    rintro rfl
    exact absurd hends (by decide)
  have hspaces := L.close_spaces
  cases hclose : L.close with
  | nil => exact ⟨c, tail, rfl, hends, hquote, Or.inr htail.reaches⟩
  | cons s ws =>
    rw [hclose, IsSpaces, List.forall_mem_cons] at hspaces
    have hs : endsWord s = true := by
      rw [endsWord, hspaces.1]
      rfl
    refine ⟨s, ws ++ c :: tail, rfl, hs, ?_, Or.inr (hreaches.spaces hspaces.2)⟩
    rintro rfl
    exact absurd hspaces.1 (by decide)

/-- The rest of an object may stand behind a string. -/
theorem follows_moreMembers (ms : List RawMember) {tail : List UInt8} (htail : Follows tail) :
    Follows (L.moreMembers ms ++ tail) := by
  cases ms with
  | nil =>
    rw [moreMembers, List.append_assoc]
    exact L.follows_close 125 rfl (by decide) htail
  | cons m ms =>
    refine ⟨44, L.name m.1 ++ (m.2.bytes ++ L.moreMembers ms) ++ tail, rfl, rfl, by decide,
      Or.inr ?_⟩
    rw [name, List.append_assoc, List.append_assoc]
    exact ReachesEnd.spaces ⟨[], 34, _, rfl, by decide, Or.inl rfl⟩ L.item_spaces

/-- **The rest of an object is printed well** when no string in it needs an escape. -/
theorem lexFrom_moreMembers (ms : List RawMember)
    (h : ∀ m ∈ ms, ∀ p ∈ m.2.shown, IsUnescaped p) (tail : List UInt8) :
    lexFrom .between (L.moreMembers ms ++ tail) =
      (lexFrom .between tail).map fun more =>
        Library.moreMembers (ms.map fun m => (m.1.1, m.2.value)) ++ more := by
  induction ms with
  | nil =>
    rw [moreMembers, List.append_assoc, List.singleton_append, L.lexFrom_close 125 .rbrace rfl]
    rfl
  | cons m ms ih =>
    rw [List.forall_mem_cons] at h
    obtain ⟨c, rest, heq, hends⟩ := L.exists_head_moreMembers ms
    rw [heq] at ih
    have hcomma : beginToken 44 = (.between, [.comma]) := rfl
    rw [moreMembers, heq, List.cons_append, lexFrom_between_cons, hcomma, List.append_assoc,
      L.lexFrom_name, List.append_assoc, List.cons_append, m.2.spells h.1 c _ hends,
      ← List.cons_append, ih h.2]
    simp only [Option.map_map]
    congr 1
    funext more
    simp [Library.moreMembers]

/-- **Reading an object member by member.** Whoever finds the strings he expects in the values
he reads has read the values that were meant, so far, and no string needs an escape. -/
theorem unescaped_of_moreMembers (ms : List RawMember) (P : RawJson) {tail : List UInt8}
    (htail : Follows tail) {x : Json} {xs : List (List UInt8 × Json)} {more : List JsonToken}
    (hread : lexFrom .between (P.bytes ++ (L.moreMembers ms ++ tail)) =
      some (x.tokens ++ (Library.moreMembers xs ++ more)))
    (hx : P.good x) (hxs : ∀ m ∈ ms, ∀ y, (m.1.1, y) ∈ xs → m.2.good y) :
    (∀ p ∈ P.shown, IsUnescaped p) ∧ ∀ m ∈ ms, ∀ p ∈ m.2.shown, IsUnescaped p := by
  induction ms generalizing P x xs with
  | nil =>
    exact ⟨P.tells _ x _ (L.follows_moreMembers [] htail) hread hx, by simp⟩
  | cons m ms ih =>
    have hP := P.tells _ x _ (L.follows_moreMembers (m :: ms) htail) hread hx
    obtain ⟨-, hrest⟩ := eq_of_spells (P.spells hP) (L.follows_moreMembers (m :: ms) htail) hread
    have hcomma : beginToken 44 = (.between, [.comma]) := rfl
    rw [moreMembers, List.cons_append, lexFrom_between_cons, hcomma, List.append_assoc,
      L.lexFrom_name, List.append_assoc, Option.map_map, Option.map_eq_some_iff] at hrest
    obtain ⟨all, hall, heq⟩ := hrest
    rcases xs with _ | ⟨⟨key, y⟩, ys⟩
    · simp [Library.moreMembers] at heq
    · simp only [Function.comp_apply, Library.moreMembers, List.cons_append, List.append_assoc,
        List.cons.injEq, true_and] at heq
      obtain ⟨rfl, rfl⟩ := heq
      have hy : m.2.good y := hxs m List.mem_cons_self y List.mem_cons_self
      have hys : ∀ m' ∈ ms, ∀ z, (m'.1.1, z) ∈ ys → m'.2.good z := fun m' hm' z hz =>
        hxs m' (List.mem_cons_of_mem m hm') z (List.mem_cons_of_mem _ hz)
      obtain ⟨hm, hms⟩ := ih m.2 hall hy hys
      exact ⟨hP, List.forall_mem_cons.mpr ⟨hm, hms⟩⟩

end JsonLayout

/-! ## Arrays -/

namespace JsonLayout

variable (L : JsonLayout)

/-- The rest of an array behind one of its elements. -/
def moreElements : List RawJson → List UInt8
  | [] => L.close ++ [93]
  | P :: Ps => 44 :: (L.item ++ (P.bytes ++ moreElements Ps))

/-- The text of an array. -/
def array : List RawJson → List UInt8
  | [] => 91 :: (L.close ++ [93])
  | P :: Ps => 91 :: (L.item ++ (P.bytes ++ L.moreElements Ps))

/-- The rest of an array begins with something that ends a word. -/
theorem exists_head_moreElements (Ps : List RawJson) :
    ∃ d t, L.moreElements Ps = d :: t ∧ endsWord d = true := by
  cases Ps with
  | nil => exact L.exists_head_close 93 rfl
  | cons P Ps => exact ⟨44, _, rfl, rfl⟩

/-- The rest of an array may stand behind a string. -/
theorem follows_moreElements (Ps : List RawJson) {tail : List UInt8} (htail : Follows tail)
    (hitem : ∃ ws, L.item = 10 :: ws) : Follows (L.moreElements Ps ++ tail) := by
  cases Ps with
  | nil =>
    rw [moreElements, List.append_assoc]
    exact L.follows_close 93 rfl (by decide) htail
  | cons P Ps =>
    obtain ⟨ws, hws⟩ := hitem
    rw [moreElements, hws]
    exact ⟨44, _, rfl, rfl, by decide, Or.inr ⟨[], 10, _, rfl, by decide, Or.inr (by decide)⟩⟩

/-- **The rest of an array is printed well** when no string in it needs an escape. -/
theorem lexFrom_moreElements (Ps : List RawJson) (h : ∀ P ∈ Ps, ∀ p ∈ P.shown, IsUnescaped p)
    (tail : List UInt8) :
    lexFrom .between (L.moreElements Ps ++ tail) =
      (lexFrom .between tail).map fun more =>
        Library.moreElements (Ps.map RawJson.value) ++ more := by
  induction Ps with
  | nil =>
    rw [moreElements, List.append_assoc, List.singleton_append, L.lexFrom_close 93 .rbracket rfl]
    rfl
  | cons P Ps ih =>
    rw [List.forall_mem_cons] at h
    obtain ⟨c, rest, heq, hends⟩ := L.exists_head_moreElements Ps
    rw [heq] at ih
    have hcomma : beginToken 44 = (.between, [.comma]) := rfl
    rw [moreElements, heq, List.cons_append, lexFrom_between_cons, hcomma, List.append_assoc,
      lexFrom_spaces L.item_spaces, List.append_assoc, List.cons_append, P.spells h.1 c _ hends,
      ← List.cons_append, ih h.2]
    simp only [Option.map_map]
    congr 1
    funext more
    simp [Library.moreElements]

/-- **Reading an array element by element.** -/
theorem unescaped_of_moreElements (Ps : List RawJson) (P : RawJson) {tail : List UInt8}
    (htail : Follows tail) (hitem : ∃ ws, L.item = 10 :: ws) {x : Json} {xs : List Json}
    {more : List JsonToken}
    (hread : lexFrom .between (P.bytes ++ (L.moreElements Ps ++ tail)) =
      some (x.tokens ++ (Library.moreElements xs ++ more)))
    (hx : P.good x) (hxs : List.Forall₂ RawJson.good Ps xs) :
    (∀ p ∈ P.shown, IsUnescaped p) ∧ ∀ Q ∈ Ps, ∀ p ∈ Q.shown, IsUnescaped p := by
  induction hxs generalizing P x with
  | nil =>
    exact ⟨P.tells _ x _ (L.follows_moreElements [] htail hitem) hread hx, by simp⟩
  | @cons Q y Qs ys hy hys ih =>
    have hfollows := L.follows_moreElements (Q :: Qs) htail hitem
    have hP := P.tells _ x _ hfollows hread hx
    obtain ⟨-, hrest⟩ := eq_of_spells (P.spells hP) hfollows hread
    have hcomma : beginToken 44 = (.between, [.comma]) := rfl
    rw [moreElements, List.cons_append, lexFrom_between_cons, hcomma, List.append_assoc,
      lexFrom_spaces L.item_spaces, List.append_assoc, Option.map_eq_some_iff] at hrest
    obtain ⟨all, hall, heq⟩ := hrest
    rw [Library.moreElements, List.singleton_append, List.cons_append, List.append_assoc,
      List.cons.injEq] at heq
    rw [heq.2] at hall
    obtain ⟨hQ, hQs⟩ := ih Q hall hy
    exact ⟨hP, List.forall_mem_cons.mpr ⟨hQ, hQs⟩⟩

end JsonLayout

/-! ## The parts put together -/

namespace RawJson

variable (L : JsonLayout)

/-- What closes an object or an array is UTF-8. -/
theorem isUtf8_close (c : UInt8) (hc : c < 128) : IsUtf8 (L.close ++ [c]) :=
  (isUtf8_ascii_append (JsonLayout.isAscii_of_spaces L.close_spaces)).mpr (isUtf8_singleton c hc)

/-- A name and its colon are ASCII. -/
theorem isAscii_name (key : JsonWord) : IsAscii (L.name key) := by
  intro c hc
  rw [JsonLayout.name, List.mem_append, List.mem_cons, List.mem_append, List.mem_cons,
    List.mem_cons] at hc
  rcases hc with hc | rfl | hc | rfl | rfl | hc
  · exact JsonLayout.isAscii_of_spaces L.item_spaces c hc
  · decide
  · exact key.2.2 c hc
  · decide
  · decide
  · exact JsonLayout.isAscii_of_spaces L.colon_spaces c hc

/-- A text goes on with what ends a word: it is cut there. -/
theorem isUtf8_append_of_ends {p t : List UInt8} (ht : ∃ d t', t = d :: t' ∧ endsWord d = true) :
    IsUtf8 (p ++ t) ↔ IsUtf8 p ∧ IsUtf8 t := by
  obtain ⟨d, t', heq, hends⟩ := ht
  exact isUtf8_append_of_head ⟨d, t', heq, lt_of_endsWord hends⟩

/-- ASCII in front of a part and of the rest. -/
theorem isUtf8_cons_part {c : UInt8} (hc : c < 128) {a : List UInt8} (ha : IsAscii a) (P : RawJson)
    {t : List UInt8} (ht : ∃ d t', t = d :: t' ∧ endsWord d = true) :
    IsUtf8 (c :: (a ++ (P.bytes ++ t))) ↔ (∀ p ∈ P.shown, IsUtf8 p) ∧ IsUtf8 t := by
  have hfront : IsAscii (c :: a) := List.forall_mem_cons.mpr ⟨hc, ha⟩
  rw [← List.cons_append, isUtf8_ascii_append hfront, isUtf8_append_of_ends ht, P.isUtf8]

/-- The rest of an object is UTF-8 where all that it shows is. -/
theorem isUtf8_moreMembers (ms : List RawMember) :
    IsUtf8 (L.moreMembers ms) ↔ ∀ m ∈ ms, ∀ p ∈ m.2.shown, IsUtf8 p := by
  induction ms with
  | nil =>
    refine iff_of_true (isUtf8_close L 125 (by decide)) ?_
    simp
  | cons m ms ih =>
    rw [JsonLayout.moreMembers, isUtf8_cons_part (by decide) (isAscii_name L m.1) m.2
      (L.exists_head_moreMembers ms), ih, List.forall_mem_cons]

/-- The rest of an array is UTF-8 where all that it shows is. -/
theorem isUtf8_moreElements (Ps : List RawJson) :
    IsUtf8 (L.moreElements Ps) ↔ ∀ P ∈ Ps, ∀ p ∈ P.shown, IsUtf8 p := by
  induction Ps with
  | nil =>
    refine iff_of_true (isUtf8_close L 93 (by decide)) ?_
    simp
  | cons P Ps ih =>
    rw [JsonLayout.moreElements, isUtf8_cons_part (by decide)
      (JsonLayout.isAscii_of_spaces L.item_spaces) P (L.exists_head_moreElements Ps), ih,
      List.forall_mem_cons]

/-- The text of an object is printed well when no string in it needs an escape. -/
theorem spells_object (members : List RawMember)
    (h : ∀ m ∈ members, ∀ p ∈ m.2.shown, IsUnescaped p) :
    Spells (L.object members) (.object (members.map fun m => (m.1.1, m.2.value))) := by
  intro c rest _
  have hopen : beginToken 123 = (.between, [.lbrace]) := rfl
  cases members with
  | nil =>
    rw [JsonLayout.object, List.cons_append, List.append_assoc, lexFrom_between_cons, hopen,
      List.singleton_append, L.lexFrom_close 125 .rbrace rfl, Option.map_map]
    rfl
  | cons m ms =>
    rw [List.forall_mem_cons] at h
    obtain ⟨d, t, heq, hends⟩ := L.exists_head_moreMembers ms
    have hms := L.lexFrom_moreMembers ms h.2 (c :: rest)
    rw [heq] at hms
    rw [JsonLayout.object, heq, List.cons_append, lexFrom_between_cons, hopen, List.append_assoc,
      L.lexFrom_name, List.append_assoc, List.cons_append, m.2.spells h.1 d _ hends,
      ← List.cons_append, hms]
    simp only [Option.map_map]
    congr 1
    funext more
    simp [Json.tokens]

/-- The text of an array is printed well when no string in it needs an escape. -/
theorem spells_array (elements : List RawJson)
    (h : ∀ P ∈ elements, ∀ p ∈ P.shown, IsUnescaped p) :
    Spells (L.array elements) (.array (elements.map RawJson.value)) := by
  intro c rest _
  have hopen : beginToken 91 = (.between, [.lbracket]) := rfl
  cases elements with
  | nil =>
    rw [JsonLayout.array, List.cons_append, List.append_assoc, lexFrom_between_cons, hopen,
      List.singleton_append, L.lexFrom_close 93 .rbracket rfl, Option.map_map]
    rfl
  | cons P Ps =>
    rw [List.forall_mem_cons] at h
    obtain ⟨d, t, heq, hends⟩ := L.exists_head_moreElements Ps
    have hPs := L.lexFrom_moreElements Ps h.2 (c :: rest)
    rw [heq] at hPs
    rw [JsonLayout.array, heq, List.cons_append, lexFrom_between_cons, hopen, List.append_assoc,
      lexFrom_spaces L.item_spaces, List.append_assoc, List.cons_append, P.spells h.1 d _ hends,
      ← List.cons_append, hPs]
    simp only [Option.map_map]
    congr 1
    funext more
    simp [Json.tokens]

/-- The first member of an object is read off. -/
theorem exists_of_lexFrom_object (m : RawMember) (ms : List RawMember) {tail : List UInt8}
    {x : Json} {more : List JsonToken}
    (hread : lexFrom .between (L.object (m :: ms) ++ tail) = some (x.tokens ++ more)) :
    ∃ y ys, x = .object ((m.1.1, y) :: ys) ∧
      lexFrom .between (m.2.bytes ++ (L.moreMembers ms ++ tail)) =
        some (y.tokens ++ (Library.moreMembers ys ++ more)) := by
  have hopen : beginToken 123 = (.between, [.lbrace]) := rfl
  rw [JsonLayout.object, List.cons_append, lexFrom_between_cons, hopen, List.append_assoc,
    L.lexFrom_name, List.append_assoc, Option.map_map, Option.map_eq_some_iff] at hread
  obtain ⟨all, hall, heq⟩ := hread
  match x with
  | .scalar v => simp [Json.tokens] at heq
  | .array [] => simp [Json.tokens] at heq
  | .array (y :: ys) => simp [Json.tokens] at heq
  | .object [] => simp [Json.tokens] at heq
  | .object ((key, y) :: ys) =>
    simp only [Function.comp_apply, Json.tokens, List.cons_append, List.nil_append,
      List.append_assoc, List.cons.injEq, JsonToken.scalar.injEq, JsonScalar.string.injEq,
      true_and] at heq
    obtain ⟨rfl, rfl⟩ := heq
    exact ⟨y, ys, rfl, hall⟩

/-- **An object**, whatever the white space. -/
def object (members : List RawMember) : RawJson where
  bytes := L.object members
  value := .object (members.map fun m => (m.1.1, m.2.value))
  shown := members.flatMap fun m => m.2.shown
  good x := ∀ m ∈ members, ∀ y ∈ x.fields m.1.1, m.2.good y
  spells h := spells_object L members (List.forall_mem_flatMap.mp h)
  tells := by
    intro tail x more htail hread hgood
    rw [List.forall_mem_flatMap]
    cases members with
    | nil => simp
    | cons m₁ ms =>
      obtain ⟨y, ys, rfl, hrest⟩ := exists_of_lexFrom_object L m₁ ms hread
      have hy : m₁.2.good y :=
        hgood m₁ List.mem_cons_self y ((Json.mem_fields _ _ _).mpr List.mem_cons_self)
      have hys : ∀ m ∈ ms, ∀ z, (m.1.1, z) ∈ ys → m.2.good z := fun m hm z hz =>
        hgood m (List.mem_cons_of_mem m₁ hm) z
          ((Json.mem_fields _ _ _).mpr (List.mem_cons_of_mem _ hz))
      rw [List.forall_mem_cons]
      exact L.unescaped_of_moreMembers ms m₁.2 htail hrest hy hys
  isUtf8 := by
    rw [List.forall_mem_flatMap]
    cases members with
    | nil =>
      have hclose := isUtf8_close L 125 (by decide)
      exact iff_of_true ((isUtf8_singleton 123 (by decide)).append hclose) (by simp)
    | cons m ms =>
      rw [JsonLayout.object, isUtf8_cons_part (by decide) (isAscii_name L m.1) m.2
        (L.exists_head_moreMembers ms), isUtf8_moreMembers, List.forall_mem_cons]

/-- **An array** of elements that stand on lines of their own. -/
def array (hitem : ∃ ws, L.item = 10 :: ws) (elements : List RawJson) : RawJson where
  bytes := L.array elements
  value := .array (elements.map RawJson.value)
  shown := elements.flatMap RawJson.shown
  good x := ∃ ys, x = .array ys ∧ List.Forall₂ RawJson.good elements ys
  spells h := spells_array L elements (List.forall_mem_flatMap.mp h)
  tells := by
    rintro tail x more htail hread ⟨xs, rfl, hgood⟩
    rw [List.forall_mem_flatMap]
    cases hgood with
    | nil => simp
    | @cons Q y Qs ys hy hys =>
      have hopen : beginToken 91 = (.between, [.lbracket]) := rfl
      rw [JsonLayout.array, List.cons_append, lexFrom_between_cons, hopen, List.append_assoc,
        lexFrom_spaces L.item_spaces, List.append_assoc, Option.map_eq_some_iff] at hread
      obtain ⟨all, hall, heq⟩ := hread
      rw [Json.tokens, List.singleton_append, List.cons_append, List.append_assoc,
        List.cons.injEq] at heq
      rw [heq.2] at hall
      rw [List.forall_mem_cons]
      exact L.unescaped_of_moreElements Qs Q htail hitem hall hy hys
  isUtf8 := by
    rw [List.forall_mem_flatMap]
    cases elements with
    | nil =>
      have hclose := isUtf8_close L 93 (by decide)
      exact iff_of_true ((isUtf8_singleton 91 (by decide)).append hclose) (by simp)
    | cons P Ps =>
      rw [JsonLayout.array, isUtf8_cons_part (by decide)
        (JsonLayout.isAscii_of_spaces L.item_spaces) P (L.exists_head_moreElements Ps),
        isUtf8_moreElements, List.forall_mem_cons]

@[simp] theorem bytes_known (bytes : List UInt8) (value : Json) (hspells : Spells bytes value)
    (hascii : IsAscii bytes) : (known bytes value hspells hascii).bytes = bytes := rfl

@[simp] theorem bytes_number (w : List UInt8) (hw : isNumber w = true) :
    (number w hw).bytes = w := rfl

@[simp] theorem bytes_word (w : JsonWord) : (word w).bytes = 34 :: (w.1 ++ [34]) := rfl

@[simp] theorem bytes_quoted (p : List UInt8) : (quoted p).bytes = 34 :: (p ++ [34]) := rfl

@[simp] theorem bytes_object (members : List RawMember) :
    (object L members).bytes = L.object members := rfl

@[simp] theorem bytes_array (hitem : ∃ ws, L.item = 10 :: ws) (elements : List RawJson) :
    (array L hitem elements).bytes = L.array elements := rfl

/-- Nothing is asked of a reader where nothing is shown. -/
@[simp] theorem good_known (bytes : List UInt8) (value : Json) (hspells : Spells bytes value)
    (hascii : IsAscii bytes) (x : Json) : (known bytes value hspells hascii).good x ↔ True :=
  Iff.rfl

/-- Nothing is asked of a reader about a word. -/
@[simp] theorem good_word (w : JsonWord) (x : Json) : (word w).good x ↔ True := Iff.rfl

/-- Nothing is asked of a reader about a number. -/
@[simp] theorem good_number (w : List UInt8) (hw : isNumber w = true) (x : Json) :
    (number w hw).good x ↔ True := Iff.rfl

/-- A string put between quotes is to be read as it is. -/
@[simp] theorem good_quoted (p : List UInt8) (x : Json) : (quoted p).good x ↔ x = .string p :=
  Iff.rfl

/-- The members of an object are read well one by one. -/
theorem good_object (members : List RawMember) (x : Json) :
    (object L members).good x ↔ ∀ m ∈ members, ∀ y ∈ x.fields m.1.1, m.2.good y := Iff.rfl

/-- The elements of an array are read well one by one. -/
theorem good_array (hitem : ∃ ws, L.item = 10 :: ws) (elements : List RawJson) (x : Json) :
    (array L hitem elements).good x ↔
      ∃ ys, x = .array ys ∧ List.Forall₂ RawJson.good elements ys := Iff.rfl

/-- The text stands for its value when every string shown is plain. -/
theorem isJsonText (P : RawJson) (h : ∀ p ∈ P.shown, IsPlain p) :
    IsJsonText (P.bytes ++ [10]) P.value := by
  have hutf8 : IsUtf8 (P.bytes ++ [10]) := (isUtf8_append_cons (by decide)).mpr
    ⟨P.isUtf8.mpr fun p hp => (h p hp).1, isUtf8_nil⟩
  refine ⟨hutf8, ?_⟩
  have hlex := P.spells (fun p hp => (h p hp).2) 10 [] rfl
  have hend : lexFrom .between [10] = some [] := rfl
  rw [lex, hlex, hend, Option.map_some, List.append_nil]

/-- A reader who finds the strings as they are finds plain strings. -/
theorem isPlain_of_isJsonText (P : RawJson) {x : Json} (h : IsJsonText (P.bytes ++ [10]) x)
    (hgood : P.good x) : ∀ p ∈ P.shown, IsPlain p := by
  obtain ⟨hutf8, hlex⟩ := h
  have hbytes := ((isUtf8_append_cons (by decide)).mp hutf8).1
  have hfollows : Follows [10] := ⟨10, [], rfl, rfl, by decide, Or.inl (by decide)⟩
  rw [← List.append_nil x.tokens] at hlex
  intro p hp
  exact ⟨P.isUtf8.mp hbytes p hp, P.tells [10] x [] hfollows hlex hgood p hp⟩

/-- **A raw text says what it should if and only if every string shown is plain**, where what
it should say holds of the value meant, and implies that the strings shown are read as they
are. -/
theorem exists_isJsonText_iff (P : RawJson) (spec : Json → Prop) (hvalue : spec P.value)
    (hgood : ∀ x, spec x → P.good x) :
    (∃ x, IsJsonText (P.bytes ++ [10]) x ∧ spec x) ↔ ∀ p ∈ P.shown, IsPlain p := by
  constructor
  · rintro ⟨x, hx, hspec⟩
    exact P.isPlain_of_isJsonText hx (hgood x hspec)
  · intro h
    exact ⟨P.value, P.isJsonText h, hvalue⟩

end RawJson

end Lacuna.Library
