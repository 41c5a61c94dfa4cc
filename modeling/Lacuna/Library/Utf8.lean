import Mathlib.Data.List.Basic
import Mathlib.Tactic.Linarith

/-!
# UTF-8 on byte lists

A list of bytes is well-formed UTF-8 when it encodes some list of characters (`IsUtf8`). An
ASCII byte is always a character of its own, so a text may be cut there: it is well formed if and
only if the parts on both sides are (`isUtf8_append_cons`).
-/

set_option autoImplicit false

namespace Lacuna.Library

/-- **Well-formed UTF-8**: the encoding of some characters. -/
def IsUtf8 (bytes : List UInt8) : Prop :=
  ∃ chars : List Char, chars.flatMap String.utf8EncodeChar = bytes

/-- All bytes are ASCII. -/
def IsAscii (bytes : List UInt8) : Prop := ∀ b ∈ bytes, b < 128

instance (bytes : List UInt8) : Decidable (IsAscii bytes) :=
  List.decidableBAll (fun b => b < 128) bytes

/-- A continuation or lead byte is not ASCII. -/
theorem not_ascii_ofNat (n : ℕ) (hlow : 128 ≤ n) (hhigh : n < 256) : ¬ UInt8.ofNat n < 128 := by
  rw [UInt8.lt_iff_toNat_lt, UInt8.toNat_ofNat']
  change ¬ n % 256 < 128
  omega

/-- A character is encoded as one ASCII byte, or without any. -/
theorem utf8EncodeChar_cases (c : Char) :
    (∃ b : UInt8, b < 128 ∧ String.utf8EncodeChar c = [b]) ∨
      ∀ b ∈ String.utf8EncodeChar c, ¬ b < 128 := by
  unfold String.utf8EncodeChar
  simp only
  split
  next hone =>
    refine Or.inl ⟨_, ?_, rfl⟩
    rw [UInt8.lt_iff_toNat_lt, UInt8.toNat_ofNat']
    change c.val.toNat % 256 < 128
    omega
  next =>
    refine Or.inr ?_
    split
    next htwo =>
      simp only [List.forall_mem_cons, List.not_mem_nil, false_imp_iff, implies_true, and_true]
      exact ⟨not_ascii_ofNat _ (by omega) (by omega), not_ascii_ofNat _ (by omega) (by omega)⟩
    next =>
      split
      next hthree =>
        simp only [List.forall_mem_cons, List.not_mem_nil, false_imp_iff, implies_true, and_true]
        exact ⟨not_ascii_ofNat _ (by omega) (by omega), not_ascii_ofNat _ (by omega) (by omega),
          not_ascii_ofNat _ (by omega) (by omega)⟩
      next =>
        simp only [List.forall_mem_cons, List.not_mem_nil, false_imp_iff, implies_true, and_true]
        exact ⟨not_ascii_ofNat _ (by omega) (by omega), not_ascii_ofNat _ (by omega) (by omega),
          not_ascii_ofNat _ (by omega) (by omega), not_ascii_ofNat _ (by omega) (by omega)⟩

/-- Nothing is well formed. -/
theorem isUtf8_nil : IsUtf8 [] := ⟨[], rfl⟩

/-- Two encodings make one. -/
theorem IsUtf8.append {p q : List UInt8} (hp : IsUtf8 p) (hq : IsUtf8 q) : IsUtf8 (p ++ q) := by
  obtain ⟨chars, rfl⟩ := hp
  obtain ⟨more, rfl⟩ := hq
  exact ⟨chars ++ more, List.flatMap_append⟩

/-- An ASCII byte is a character. -/
theorem isUtf8_singleton (b : UInt8) (hb : b < 128) : IsUtf8 [b] := by
  refine ⟨[Char.ofNat b.toNat], ?_⟩
  have hsmall : b.toNat < 128 := UInt8.lt_iff_toNat_lt.mp hb
  have hval : (Char.ofNat b.toNat).val.toNat = b.toNat := by
    have hvalid : b.toNat.isValidChar := Or.inl (by omega)
    rw [Char.ofNat, dif_pos hvalid]
    rfl
  simp only [List.flatMap_cons, List.flatMap_nil, List.append_nil, String.utf8EncodeChar, hval]
  rw [if_pos (by omega), UInt8.ofNat_toNat]

/-- ASCII is UTF-8. -/
theorem IsAscii.isUtf8 {bytes : List UInt8} (h : IsAscii bytes) : IsUtf8 bytes := by
  induction bytes with
  | nil => exact isUtf8_nil
  | cons b bytes ih =>
    rw [IsAscii, List.forall_mem_cons] at h
    exact (isUtf8_singleton b h.1).append (ih h.2)

/-- A text can be cut at an ASCII byte. -/
theorem IsUtf8.cut {p q : List UInt8} {c : UInt8} (hc : c < 128) (h : IsUtf8 (p ++ c :: q)) :
    IsUtf8 p ∧ IsUtf8 q := by
  obtain ⟨chars, hchars⟩ := h
  induction chars generalizing p with
  | nil => simp at hchars
  | cons x chars ih =>
    rw [List.flatMap_cons] at hchars
    cases p with
    | nil =>
      rcases utf8EncodeChar_cases x with ⟨b, -, hx⟩ | hx
      · -- the byte is the first character
        rw [hx, List.singleton_append, List.nil_append, List.cons.injEq] at hchars
        exact ⟨isUtf8_nil, chars, hchars.2⟩
      · -- no other character begins with an ASCII byte
        obtain ⟨b, bs, hbs⟩ := List.exists_cons_of_ne_nil (String.utf8EncodeChar_ne_nil (c := x))
        rw [hbs, List.cons_append, List.nil_append, List.cons.injEq] at hchars
        refine absurd hc (hchars.1 ▸ hx b ?_)
        rw [hbs]
        exact List.mem_cons_self
    | cons d p =>
      -- the first character lies in the first part
      have hfirst : ∃ p', d :: p = String.utf8EncodeChar x ++ p' ∧
          chars.flatMap String.utf8EncodeChar = p' ++ c :: q := by
        rcases List.append_eq_append_iff.mp hchars with ⟨p', hp, hrest⟩ | ⟨more, hp, hrest⟩
        · exact ⟨p', hp, hrest⟩
        · cases more with
          | nil =>
            rw [List.append_nil] at hp
            refine ⟨[], by rw [List.append_nil, hp], ?_⟩
            rw [List.nil_append] at hrest ⊢
            exact hrest.symm
          | cons c' more =>
            -- the byte would be inside a longer character
            rw [List.cons_append, List.cons.injEq] at hrest
            rcases utf8EncodeChar_cases x with ⟨b, -, hx⟩ | hx
            · rw [hx] at hp
              simp at hp
            · refine absurd hc (hx c ?_)
              rw [hp, hrest.1]
              exact List.mem_append_right _ List.mem_cons_self
      obtain ⟨p', hp, hrest⟩ := hfirst
      obtain ⟨hp', hq⟩ := ih hrest
      refine ⟨?_, hq⟩
      rw [hp]
      refine IsUtf8.append ⟨[x], ?_⟩ hp'
      rw [List.flatMap_cons, List.flatMap_nil, List.append_nil]

/-- **Cutting at an ASCII byte**: a text is well formed if and only if both parts are. -/
theorem isUtf8_append_cons {p q : List UInt8} {c : UInt8} (hc : c < 128) :
    IsUtf8 (p ++ c :: q) ↔ IsUtf8 p ∧ IsUtf8 q := by
  refine ⟨IsUtf8.cut hc, fun h => ?_⟩
  exact h.1.append ((isUtf8_singleton c hc).append h.2)

/-- ASCII in front changes nothing. -/
theorem isUtf8_ascii_append {a q : List UInt8} (ha : IsAscii a) : IsUtf8 (a ++ q) ↔ IsUtf8 q := by
  induction a with
  | nil => exact Iff.rfl
  | cons b a ih =>
    rw [IsAscii, List.forall_mem_cons] at ha
    have hcut := isUtf8_append_cons (p := []) (q := a ++ q) ha.1
    rw [List.nil_append] at hcut
    rw [List.cons_append, hcut, ih ha.2]
    exact and_iff_right isUtf8_nil

/-- A text is cut in front of an ASCII byte. -/
theorem isUtf8_append_of_head {p t : List UInt8} (ht : ∃ c t', t = c :: t' ∧ c < 128) :
    IsUtf8 (p ++ t) ↔ IsUtf8 p ∧ IsUtf8 t := by
  obtain ⟨c, t', rfl, hc⟩ := ht
  have hhead := isUtf8_append_cons (p := []) (q := t') hc
  rw [List.nil_append, and_iff_right isUtf8_nil] at hhead
  rw [isUtf8_append_cons hc, hhead]

end Lacuna.Library
