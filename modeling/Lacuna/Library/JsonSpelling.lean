import Mathlib.Data.List.Basic
import Mathlib.Tactic.FinCases
import Lacuna.Library.JsonLexer

/-!
# What a JSON text spells

A byte string without quotes, backslashes and control characters is spelt by itself: put
between quotes it is a string, and a number is a token up to whatever ends it
(`runLexer_quoted`, `runLexer_number`).

There is no other byte string that spells itself, wherever the string it is put into ends
(`unescaped_of_lexFrom`): from the first backslash on a string is shorter than its spelling
(`runLexer_lags`), and the quote behind can only be read as escaped when the last byte in front of
it is a backslash.
-/

set_option autoImplicit false

namespace Lacuna.Library

/-! ## Strings that spell themselves -/

/-- **No escape is needed**: there is no quote, no backslash and no control character. -/
def IsUnescaped (p : List UInt8) : Prop := ∀ b ∈ p, b ≠ 34 ∧ b ≠ 92 ∧ ¬ b < 32

instance (p : List UInt8) : Decidable (IsUnescaped p) :=
  List.decidableBAll (fun b => b ≠ 34 ∧ b ≠ 92 ∧ ¬ b < 32) p

/-- Bytes as they are spell themselves. -/
@[simp] theorem decodeString_bytes (p : List UInt8) : decodeString (p.map .byte) = p := by
  induction p with
  | nil => rfl
  | cons b p ih => rw [List.map_cons, decodeString, ih]

/-- The machine takes such bytes as they are. -/
theorem runLexer_unescaped (ps : List StringPiece) (p : List UInt8) (hp : IsUnescaped p) :
    runLexer (.string (.body ps)) p = some (.string (.body (ps ++ p.map .byte)), []) := by
  induction p generalizing ps with
  | nil => rw [runLexer, List.map_nil, List.append_nil]
  | cons b p ih =>
    rw [IsUnescaped, List.forall_mem_cons] at hp
    have hstep : LexState.step (.string (.body ps)) b =
        some (.string (.body (ps ++ [.byte b])), []) := by
      rw [LexState.step, StringState.step, if_neg hp.1.1, if_neg hp.1.2.1, if_neg hp.1.2.2]
      rfl
    rw [runLexer, hstep, Option.bind_some, ih _ hp.2]
    simp

/-- **Between quotes such bytes are a string.** -/
theorem runLexer_quoted (p : List UInt8) (hp : IsUnescaped p) :
    runLexer .between (34 :: (p ++ [34])) = some (.between, [.string p]) := by
  have hopen : runLexer .between [34] = some (.string (.body []), []) := rfl
  have hclose : runLexer (.string (.body (p.map .byte))) [34] = some (.between, [.string p]) := by
    rw [runLexer, LexState.step, StringState.step, if_pos rfl, decodeString_bytes]
    rfl
  have hbody := runLexer_unescaped [] p hp
  rw [List.nil_append] at hbody
  exact runLexer_trans hopen (runLexer_trans hbody hclose)

/-! ## Numbers -/

/-- The bytes that end a word. -/
theorem mem_of_endsWord {c : UInt8} (h : endsWord c = true) :
    c ∈ ([32, 9, 10, 13, 123, 125, 91, 93, 58, 44, 34] : List UInt8) := by
  unfold endsWord isSpace punctuation at h
  by_contra hnot
  simp only [List.mem_cons, List.not_mem_nil, or_false, not_or] at hnot
  simp [hnot] at h

/-- They are ASCII. -/
theorem lt_of_endsWord {c : UInt8} (h : endsWord c = true) : c < 128 := by
  have hc := mem_of_endsWord h
  fin_cases hc <;> decide

/-- No number is spelt with one of them. -/
theorem numberStep_ends (st : NumberState) (c : UInt8) (h : endsWord c = true) :
    st.step c = none := by
  have hc := mem_of_endsWord h
  fin_cases hc <;> cases st <;> rfl

/-- Numbers are spelt in ASCII. -/
theorem lt_of_numberStep {st st' : NumberState} {c : UInt8} (h : st.step c = some st') :
    c < 128 := by
  by_contra hhigh
  have hother : ∀ d : UInt8, d < 128 → c ≠ d := fun d hd hc => hhigh (hc ▸ hd)
  have hdigit : isDecimalDigit c = false := by
    rw [isDecimalDigit, Bool.and_eq_false_iff, decide_eq_false_iff_not, decide_eq_false_iff_not]
    have hnine : (57 : UInt8) < 128 := by decide
    exact Or.inr fun hle => hhigh (UInt8.lt_of_le_of_lt hle hnine)
  have hnone : st.step c = none := by
    cases st <;> simp [NumberState.step, hdigit, hother 43 (by decide), hother 45 (by decide),
      hother 46 (by decide), hother 48 (by decide), hother 69 (by decide), hother 101 (by decide)]
  rw [hnone] at h
  cases h

/-- The bytes of a number, one by one. -/
theorem forall_of_foldlM {w : List UInt8} {st st' : NumberState} (good : UInt8 → Prop)
    (hgood : ∀ st c st', NumberState.step st c = some st' → good c)
    (h : w.foldlM NumberState.step st = some st') : ∀ c ∈ w, good c := by
  induction w generalizing st with
  | nil => simp
  | cons c w ih =>
    rw [List.foldlM_cons, Option.bind_eq_bind, Option.bind_eq_some_iff] at h
    obtain ⟨next, hstep, hrest⟩ := h
    exact List.forall_mem_cons.mpr ⟨hgood st c next hstep, ih hrest⟩

/-- A number is spelt in bytes that do not end it. -/
theorem endsWord_of_foldlM {w : List UInt8} {st st' : NumberState}
    (h : w.foldlM NumberState.step st = some st') : ∀ c ∈ w, endsWord c = false := by
  refine forall_of_foldlM (fun c => endsWord c = false) ?_ h
  intro st c st' hstep
  by_contra hends
  rw [numberStep_ends st c (Bool.eq_true_of_not_eq_false hends)] at hstep
  cases hstep

/-- The last state of a number. -/
theorem exists_of_isNumber {w : List UInt8} (h : isNumber w = true) :
    ∃ st, w.foldlM NumberState.step .start = some st ∧ st.accepts = true := by
  rwa [isNumber, Option.any_eq_true] at h

/-- A number is ASCII. -/
theorem isAscii_of_isNumber {w : List UInt8} (h : isNumber w = true) : IsAscii w := by
  obtain ⟨st, hfold, -⟩ := exists_of_isNumber h
  exact forall_of_foldlM (fun c => c < 128) (fun _ _ _ => lt_of_numberStep) hfold

/-- The machine collects the bytes of a word. -/
theorem runLexer_word (w more : List UInt8) (h : ∀ c ∈ more, endsWord c = false) :
    runLexer (.word w) more = some (.word (w ++ more), []) := by
  induction more generalizing w with
  | nil => rw [runLexer, List.append_nil]
  | cons c more ih =>
    rw [List.forall_mem_cons] at h
    have hstep : LexState.step (.word w) c = some (.word (w ++ [c]), []) := by
      rw [LexState.step, if_neg (by rw [h.1]; decide)]
    rw [runLexer, hstep, Option.bind_some, ih _ h.2]
    simp

/-- A byte that begins a word. -/
theorem beginToken_word (c : UInt8) (h : endsWord c = false) : beginToken c = (.word [c], []) := by
  rw [endsWord, Bool.or_eq_false_iff, Bool.or_eq_false_iff] at h
  obtain ⟨⟨hspace, hpunctuation⟩, hquote⟩ := h
  rw [Option.isSome_eq_false_iff, Option.isNone_iff_eq_none] at hpunctuation
  rw [beginToken, hspace, hpunctuation]
  simp only [Bool.false_eq_true, if_false]
  rw [if_neg (of_decide_eq_false hquote)]

/-- **A number is a token up to the byte that ends it.** -/
theorem runLexer_number (w : List UInt8) (hw : isNumber w = true) (d : UInt8)
    (hd : endsWord d = true) :
    runLexer .between (w ++ [d]) = some ((beginToken d).1, .number w :: (beginToken d).2) := by
  obtain ⟨st, hfold, haccepts⟩ := exists_of_isNumber hw
  have hbytes := endsWord_of_foldlM hfold
  cases w with
  | nil =>
    cases hfold
    cases haccepts
  | cons c w =>
    rw [List.forall_mem_cons] at hbytes
    have hbegin : runLexer .between [c] = some (.word [c], []) := by
      rw [runLexer, LexState.step, beginToken_word c hbytes.1]
      rfl
    have hend : runLexer (.word (c :: w)) [d] =
        some ((beginToken d).1, .number (c :: w) :: (beginToken d).2) := by
      rw [runLexer, LexState.step, if_pos hd, wordToken, if_pos hw]
      simp [runLexer]
    exact runLexer_trans hbegin (runLexer_trans (runLexer_word [c] w hbytes.2) hend)

/-! ## How much a string spells -/

/-- A bound on what the pieces spell: a code unit takes three bytes. -/
def pieceWeight : List StringPiece → ℕ
  | [] => 0
  | .byte _ :: ps => pieceWeight ps + 1
  | .unit _ :: ps => pieceWeight ps + 3

/-- The weight of a list put together. -/
@[simp] theorem pieceWeight_append (ps qs : List StringPiece) :
    pieceWeight (ps ++ qs) = pieceWeight ps + pieceWeight qs := by
  induction ps with
  | nil => simp [pieceWeight]
  | cons p ps ih => cases p <;> simp [pieceWeight, ih] <;> omega

/-- Bytes as they are weigh one each. -/
@[simp] theorem pieceWeight_bytes (p : List UInt8) : pieceWeight (p.map .byte) = p.length := by
  induction p with
  | nil => rfl
  | cons b p ih => rw [List.map_cons, pieceWeight, ih, List.length_cons]

/-- A code point takes at most four bytes. -/
theorem length_encodePoint_le (code : ℕ) : (encodePoint code).length ≤ 4 := by
  rw [encodePoint, String.length_utf8EncodeChar]
  exact Char.utf8Size_le_four _

/-- A code unit takes at most three bytes. -/
theorem length_encodeUnit_le (u : UInt16) : (encodePoint u.toNat).length ≤ 3 := by
  have hunit : u.toNat < 65536 := u.toNat_lt
  rw [encodePoint, String.length_utf8EncodeChar]
  split
  next hvalid =>
    have hval : (Char.ofNat u.toNat).val.toNat = u.toNat := by
      rw [Char.ofNat, dif_pos hvalid]
      rfl
    have hsize := Char.utf8Size_eq (Char.ofNat u.toNat)
    have hfour : (Char.ofNat u.toNat).utf8Size ≠ 4 := by
      rw [Ne, Char.utf8Size_eq_four_iff, UInt32.lt_iff_toNat_lt, hval]
      change ¬ 65535 < u.toNat
      omega
    omega
  next => decide

/-- **A string is no longer than its pieces weigh.** -/
theorem length_decodeString_le (ps : List StringPiece) :
    (decodeString ps).length ≤ pieceWeight ps := by
  fun_induction decodeString ps with
  | case1 => exact Nat.le_refl 0
  | case2 b ps ih =>
    rw [List.length_cons, pieceWeight]
    omega
  | case3 u v ps _ ih =>
    rw [List.length_append, pieceWeight, pieceWeight]
    have hpoint := length_encodePoint_le
      (0x10000 + (u.toNat - 0xD800) * 0x400 + (v.toNat - 0xDC00))
    omega
  | case4 u v ps _ ih =>
    rw [List.length_append, pieceWeight]
    have hunit := length_encodeUnit_le u
    omega
  | case5 u ps _ ih =>
    rw [List.length_append, pieceWeight]
    have hunit := length_encodeUnit_le u
    omega

/-- A code unit in front of a byte stands alone. -/
theorem decodeString_unit_byte (u : UInt16) (b : UInt8) (ps : List StringPiece) :
    decodeString (.unit u :: .byte b :: ps) =
      encodePoint u.toNat ++ decodeString (.byte b :: ps) := by
  simp only [decodeString]

/-- A last byte that is spelt as it is, or by a short escape, is the last byte of the value. -/
theorem decodeString_concat (ps : List StringPiece) (b : UInt8) :
    decodeString (ps ++ [.byte b]) = decodeString ps ++ [b] := by
  fun_induction decodeString ps with
  | case1 => rfl
  | case2 b' ps ih => rw [List.cons_append, decodeString, ih, List.cons_append]
  | case3 u v ps hpair ih =>
    rw [List.cons_append, List.cons_append, decodeString, if_pos hpair, ih, List.append_assoc]
  | case4 u v ps hpair ih =>
    rw [List.cons_append] at ih
    rw [List.cons_append, List.cons_append, decodeString, if_neg hpair, ih, List.append_assoc]
  | case5 u ps hlast ih =>
    cases ps with
    | nil => simp [decodeString]
    | cons p ps =>
      cases p with
      | unit v => exact absurd rfl (hlast v ps)
      | byte b' =>
        rw [List.cons_append] at ih
        rw [List.cons_append, List.cons_append, decodeString_unit_byte, ih, List.append_assoc]

/-- The machine is in a string whose value has fallen behind the `n` bytes that spell it. -/
def Lags (n : ℕ) : StringState → Prop
  | .body ps => pieceWeight ps < n
  | .escape ps => pieceWeight ps + 1 ≤ n
  | .hex ps digits _ => pieceWeight ps + digits + 2 ≤ n

/-- **One byte more**: the value stays behind, or the string ends and its value is shorter. -/
theorem lags_step {n : ℕ} {st : StringState} (hst : Lags n st) (c : UInt8)
    {next : StringState ⊕ List UInt8} (h : st.step c = some next) :
    next.elim (Lags (n + 1)) fun value => value.length < n := by
  cases st with
  | body ps =>
    rw [Lags] at hst
    rw [StringState.step] at h
    split_ifs at h <;> cases h
    · exact lt_of_le_of_lt (length_decodeString_le ps) hst
    · change pieceWeight ps + 1 ≤ n + 1
      omega
    · change pieceWeight (ps ++ [.byte c]) < n + 1
      rw [pieceWeight_append]
      change pieceWeight ps + 1 < n + 1
      omega
  | escape ps =>
    rw [Lags] at hst
    rw [StringState.step] at h
    split_ifs at h with hu
    · cases h
      change pieceWeight ps + 0 + 2 ≤ n + 1
      omega
    · rw [Option.map_eq_some_iff] at h
      obtain ⟨b, -, rfl⟩ := h
      change pieceWeight (ps ++ [.byte b]) < n + 1
      rw [pieceWeight_append]
      change pieceWeight ps + 1 < n + 1
      omega
  | hex ps digits code =>
    rw [Lags] at hst
    rw [StringState.step, Option.map_eq_some_iff] at h
    obtain ⟨d, -, rfl⟩ := h
    split_ifs with hlast
    · change pieceWeight (ps ++ [.unit (16 * code + d)]) < n + 1
      rw [pieceWeight_append]
      change pieceWeight ps + 3 < n + 1
      omega
    · change pieceWeight ps + (digits + 1) + 2 ≤ n + 1
      omega

/-- **Several bytes more**: the value stays behind, or the string has ended and its value is
shorter. -/
theorem runLexer_lags {n : ℕ} {st : StringState} (hst : Lags n st) (r : List UInt8)
    {out : LexState} {ts : List JsonToken} (h : runLexer (.string st) r = some (out, ts)) :
    (∃ st', out = .string st' ∧ ts = [] ∧ Lags (n + r.length) st') ∨
      ∃ value more, ts = .string value :: more ∧ value.length < n + r.length := by
  induction r generalizing n st ts with
  | nil =>
    cases h
    exact Or.inl ⟨st, rfl, rfl, hst⟩
  | cons c r ih =>
    rw [runLexer, Option.bind_eq_some_iff] at h
    obtain ⟨first, hfirst, hrest⟩ := h
    rw [LexState.step, Option.map_eq_some_iff] at hfirst
    obtain ⟨next, hnext, rfl⟩ := hfirst
    rw [Option.map_eq_some_iff] at hrest
    obtain ⟨last, hlast, heq⟩ := hrest
    rw [Prod.mk.injEq] at heq
    obtain ⟨rfl, rfl⟩ := heq
    have hstep := lags_step hst c hnext
    rw [List.length_cons]
    cases next with
    | inl st' =>
      rcases ih hstep hlast with ⟨st'', hout, hts, hbehind⟩ | ⟨value, more, hts, hshort⟩
      · refine Or.inl ⟨st'', hout, hts, ?_⟩
        rwa [Nat.add_assoc, Nat.add_comm 1] at hbehind
      · refine Or.inr ⟨value, more, hts, ?_⟩
        omega
    | inr value =>
      refine Or.inr ⟨value, last.2, rfl, ?_⟩
      change value.length < n at hstep
      omega

/-! ## Only what needs no escape spells itself -/

/-- A backslash was the last byte of what leaves a string behind one. -/
theorem step_escape {st : LexState} {c : UInt8} {ps : List StringPiece} {ts : List JsonToken}
    (h : st.step c = some (.string (.escape ps), ts)) : c = 92 := by
  cases st with
  | between =>
    rw [LexState.step, beginToken] at h
    repeat' split at h
    all_goals cases h
  | word w =>
    rw [LexState.step, beginToken] at h
    split at h
    · rw [Option.map_eq_some_iff] at h
      obtain ⟨t, -, heq⟩ := h
      repeat' split at heq
      all_goals cases heq
    · cases h
  | string st =>
    rw [LexState.step, Option.map_eq_some_iff] at h
    obtain ⟨next, hnext, heq⟩ := h
    cases next with
    | inr value => cases heq
    | inl st' =>
      cases heq
      cases st with
      | body ps =>
        rw [StringState.step] at hnext
        split_ifs at hnext with hquote hbackslash hcontrol
        · cases hnext
        · exact hbackslash
        · cases hnext
      | escape ps =>
        rw [StringState.step] at hnext
        split_ifs at hnext
        · cases hnext
        · rw [Option.map_eq_some_iff] at hnext
          obtain ⟨b, -, heq⟩ := hnext
          cases heq
      | hex ps digits code =>
        rw [StringState.step, Option.map_eq_some_iff] at hnext
        obtain ⟨d, -, heq⟩ := hnext
        split_ifs at heq
        all_goals cases heq

/-- A run that ends behind a backslash. -/
theorem getLast?_of_run_escape {st : LexState} {r : List UInt8} {ps : List StringPiece}
    {ts : List JsonToken} (hr : r ≠ []) (h : runLexer st r = some (.string (.escape ps), ts)) :
    r.getLast? = some 92 := by
  obtain ⟨r, c, rfl⟩ := (List.eq_nil_or_concat r).resolve_left hr
  rw [List.concat_eq_append] at h ⊢
  rw [runLexer_append, Option.bind_eq_some_iff] at h
  obtain ⟨first, -, hlast⟩ := h
  rw [Option.map_eq_some_iff] at hlast
  obtain ⟨last, hrun, heq⟩ := hlast
  rw [runLexer, Option.bind_eq_some_iff] at hrun
  obtain ⟨next, hstep, hnil⟩ := hrun
  cases hnil
  rw [Prod.mk.injEq] at heq
  obtain ⟨st', ts'⟩ := next
  obtain ⟨rfl, -⟩ := heq
  rw [List.getLast?_concat, step_escape hstep]

/-- A byte string that needs an escape, cut at the first byte that does. -/
theorem exists_first_escaped {p : List UInt8} (hp : ¬ IsUnescaped p) :
    ∃ q b r, p = q ++ b :: r ∧ IsUnescaped q ∧ (b = 34 ∨ b = 92 ∨ b < 32) := by
  induction p with
  | nil => exact absurd (by decide) hp
  | cons c p ih =>
    by_cases hc : c ≠ 34 ∧ c ≠ 92 ∧ ¬ c < 32
    · have hrest : ¬ IsUnescaped p := fun h => hp (List.forall_mem_cons.mpr ⟨hc, h⟩)
      obtain ⟨q, b, r, rfl, hq, hb⟩ := ih hrest
      exact ⟨c :: q, b, r, rfl, List.forall_mem_cons.mpr ⟨hc, hq⟩, hb⟩
    · refine ⟨[], c, p, rfl, by decide, ?_⟩
      by_contra hnot
      rw [not_or, not_or] at hnot
      exact hc hnot

/-- A quote or a control character comes before any backslash. -/
def ReachesEnd (t : List UInt8) : Prop :=
  ∃ a d post, t = a ++ d :: post ∧ IsUnescaped a ∧ (d = 34 ∨ d < 32)

/-- **What may stand behind a string**: something that ends a word and is no quote, and then, or
at once, a control character or a quote in front of any backslash. -/
def Follows (t : List UInt8) : Prop :=
  ∃ c rest, t = c :: rest ∧ endsWord c = true ∧ c ≠ 34 ∧ (c < 32 ∨ ReachesEnd rest)

/-- One byte more in front. -/
theorem ReachesEnd.cons {t : List UInt8} (ht : ReachesEnd t) {c : UInt8} (hc : c ≠ 92) :
    ReachesEnd (c :: t) := by
  by_cases hfirst : c = 34 ∨ c < 32
  · exact ⟨[], c, t, rfl, by decide, hfirst⟩
  · rw [not_or] at hfirst
    obtain ⟨a, d, post, rfl, ha, hd⟩ := ht
    exact ⟨c :: a, d, post, rfl, List.forall_mem_cons.mpr ⟨⟨hfirst.1, hc, hfirst.2⟩, ha⟩, hd⟩

/-- White space in front. -/
theorem ReachesEnd.spaces {t : List UInt8} (ht : ReachesEnd t) {ws : List UInt8}
    (hws : IsSpaces ws) : ReachesEnd (ws ++ t) := by
  induction ws with
  | nil => exact ht
  | cons c ws ih =>
    rw [IsSpaces, List.forall_mem_cons] at hws
    refine (ih hws.2).cons ?_
    rintro rfl
    exact absurd hws.1 (by decide)

/-- What may stand behind a string does reach the end of another. -/
theorem Follows.reaches {t : List UInt8} (ht : Follows t) : ReachesEnd t := by
  obtain ⟨c, rest, rfl, hends, -, hrest⟩ := ht
  rcases hrest with hcontrol | hrest
  · exact ⟨[], c, rest, rfl, by decide, Or.inr hcontrol⟩
  · refine hrest.cons ?_
    rintro rfl
    exact absurd hends (by decide)

/-- What ends with bytes that need no escape has no backslash at its end. -/
theorem getLast?_decodeString_ne (ps : List StringPiece) {a : List UInt8} (ha : IsUnescaped a)
    (hne : a ≠ []) : (decodeString (ps ++ a.map .byte)).getLast? ≠ some 92 := by
  obtain ⟨front, last, rfl⟩ := (List.eq_nil_or_concat a).resolve_left hne
  rw [List.concat_eq_append] at ha ⊢
  rw [List.map_append, ← List.append_assoc, List.map_singleton, decodeString_concat,
    List.getLast?_concat]
  intro h92
  exact (ha last (List.mem_append_right _ List.mem_cons_self)).2.1 (Option.some.inj h92)

/-- Behind a backslash the quote is read as escaped, and the string that goes on does not end
with a backslash. -/
theorem lexFrom_escaped_quote {ps : List StringPiece} {tail value : List UInt8}
    {ts : List JsonToken} (htail : Follows tail)
    (h : lexFrom (.string (.escape ps)) (34 :: tail) = some (.string value :: ts)) :
    value.getLast? ≠ some 92 := by
  obtain ⟨st, ts', more, hstep, hmore, heq⟩ := exists_of_lexFrom_cons h
  rw [LexState.step, StringState.step] at hstep
  cases hstep
  rw [List.nil_append] at heq
  subst heq
  obtain ⟨c, rest, rfl, hends, hquote, hrest⟩ := htail
  have hbackslash : c ≠ 92 := by
    rintro rfl
    exact absurd hends (by decide)
  by_cases hcontrol : c < 32
  · -- a control character stops the machine
    obtain ⟨st, ts', more, hstep, -, -⟩ := exists_of_lexFrom_cons hmore
    rw [LexState.step, StringState.step, if_neg hquote, if_neg hbackslash, if_pos hcontrol]
      at hstep
    cases hstep
  · obtain ⟨a, d, post, rfl, ha, hd⟩ := hrest.resolve_left hcontrol
    have hbytes : IsUnescaped (c :: a) :=
      List.forall_mem_cons.mpr ⟨⟨hquote, hbackslash, hcontrol⟩, ha⟩
    have hrun := runLexer_unescaped (ps ++ [.byte 34]) (c :: a) hbytes
    obtain ⟨more, hmore, heq⟩ := exists_of_lexFrom_append (b := d :: post) hrun hmore
    rw [List.nil_append] at heq
    subst heq
    obtain ⟨st, ts', more, hstep, -, heq⟩ := exists_of_lexFrom_cons hmore
    rw [LexState.step, StringState.step] at hstep
    by_cases hclose : d = 34
    · -- the string ends behind a byte that is no backslash
      rw [if_pos hclose] at hstep
      cases hstep
      rw [List.singleton_append, List.cons.injEq, JsonToken.scalar.injEq,
        JsonScalar.string.injEq] at heq
      rw [heq.1]
      exact getLast?_decodeString_ne _ hbytes (List.cons_ne_nil c a)
    · have hlow : d < 32 := hd.resolve_left hclose
      have hother : d ≠ 92 := by
        rintro rfl
        exact absurd hlow (by decide)
      rw [if_neg hclose, if_neg hother, if_pos hlow] at hstep
      cases hstep

/-- A string with a backslash in it is not what spells it. -/
theorem ne_of_lexFrom_escape {q r tail value : List UInt8} {ts : List JsonToken}
    (htail : Follows tail)
    (h : lexFrom (.string (.escape (q.map .byte))) (r ++ 34 :: tail) = some (.string value :: ts)) :
    value ≠ q ++ 92 :: r := by
  rintro rfl
  have hlength : (q ++ 92 :: r).length = q.length + 1 + r.length := by
    rw [List.length_append, List.length_cons]
    omega
  have hbehind : Lags (q.length + 1) (.escape (q.map .byte)) := by
    rw [Lags, pieceWeight_bytes]
  cases hrun : runLexer (.string (.escape (q.map .byte))) r with
  | none =>
    rw [lexFrom, runLexer_append, hrun] at h
    cases h
  | some read =>
    obtain ⟨out, ts'⟩ := read
    obtain ⟨rest, hrest, heq⟩ := exists_of_lexFrom_append hrun h
    rcases runLexer_lags hbehind r hrun with ⟨st, rfl, rfl, hbehind'⟩ | ⟨value, more, rfl, hshort⟩
    · rw [List.nil_append] at heq
      subst heq
      cases st with
      | body ps =>
        -- the quote ends the string, which is too short
        obtain ⟨_, _, _, hstep, -, heq⟩ := exists_of_lexFrom_cons hrest
        rw [LexState.step, StringState.step, if_pos rfl] at hstep
        cases hstep
        rw [List.singleton_append, List.cons.injEq, JsonToken.scalar.injEq,
          JsonScalar.string.injEq] at heq
        have hle := length_decodeString_le ps
        rw [← heq.1] at hle
        rw [Lags] at hbehind'
        omega
      | escape ps =>
        -- the quote is escaped by the last byte
        refine lexFrom_escaped_quote htail hrest ?_
        by_cases hr : r = []
        · rw [hr, List.getLast?_append_cons]
          rfl
        · rw [List.getLast?_append_cons, List.getLast?_cons, getLast?_of_run_escape hr hrun]
          rfl
      | hex ps digits code =>
        -- a quote is no hexadecimal digit
        obtain ⟨_, _, _, hstep, -, -⟩ := exists_of_lexFrom_cons hrest
        cases hstep
    · rw [List.cons_append, List.cons.injEq, JsonToken.scalar.injEq,
        JsonScalar.string.injEq] at heq
      rw [heq.1] at hlength
      omega

/-- **Only what needs no escape spells itself.** A byte string is put between quotes: if the
string that begins there has it as its value, it needs no escape. -/
theorem unescaped_of_lexFrom {p tail : List UInt8} {ts : List JsonToken} (htail : Follows tail)
    (h : lexFrom (.string (.body [])) (p ++ 34 :: tail) = some (.string p :: ts)) :
    IsUnescaped p := by
  by_contra hp
  obtain ⟨q, b, r, rfl, hq, hb⟩ := exists_first_escaped hp
  rw [List.append_assoc, List.cons_append] at h
  have hbody := runLexer_unescaped [] q hq
  rw [List.nil_append] at hbody
  obtain ⟨more, hmore, heq⟩ := exists_of_lexFrom_append hbody h
  rw [List.nil_append] at heq
  subst heq
  obtain ⟨st, ts', more, hstep, hmore, heq⟩ := exists_of_lexFrom_cons hmore
  rw [LexState.step, StringState.step] at hstep
  by_cases hquote : b = 34
  · -- the string ends too early
    rw [if_pos hquote, decodeString_bytes] at hstep
    cases hstep
    rw [List.singleton_append, List.cons.injEq, JsonToken.scalar.injEq,
      JsonScalar.string.injEq] at heq
    have hlength := congrArg List.length heq.1
    rw [List.length_append, List.length_cons] at hlength
    omega
  · by_cases hbackslash : b = 92
    · rw [if_neg hquote, if_pos hbackslash] at hstep
      cases hstep
      rw [List.nil_append] at heq
      subst heq
      subst hbackslash
      exact ne_of_lexFrom_escape htail hmore rfl
    · -- a control character stops the machine
      rw [if_neg hquote, if_neg hbackslash,
        if_pos ((hb.resolve_left hquote).resolve_left hbackslash)] at hstep
      cases hstep

end Lacuna.Library
