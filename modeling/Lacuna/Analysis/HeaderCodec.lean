import Lacuna.Library.LittleEndian
import Lacuna.Analysis.StreamLaws
import Lacuna.Model.FileIo

/-!
# The header codec

The fourteen bytes of a header (`headerBytes`), that `write_header` emits them, and that
`read_header` accepts exactly the streams that begin with the bytes of a valid header and
leaves the stream right behind them. The eight size bytes are the digits of the size in
base `256`, so taking it apart and putting it together are inverse in both directions.
-/

set_option autoImplicit false

namespace Lacuna.Model

open Lacuna.Library

/-! ## The size field -/

/-- One size byte is one digit of the size. -/
theorem toNat_sizeByte (size : UInt64) (i : ℕ) (hi : i < 8) :
    ((size >>> UInt64.ofNat (i * 8)) &&& 0xFF).toUInt8.toNat =
      (size.toNat >>> (i * 8)) % 2 ^ 8 := by
  rw [UInt64.toNat_toUInt8, UInt64.toNat_and, UInt64.toNat_shiftRight, UInt64.toNat_ofNat',
    Nat.mod_eq_of_lt (show i * 8 < 2 ^ 64 by omega), Nat.mod_eq_of_lt (show i * 8 < 64 by omega),
    show (0xFF : UInt64).toNat = 2 ^ 8 - 1 from rfl, Nat.and_two_pow_sub_one_eq_mod, Nat.mod_mod]

/-- The size bytes are the digits of the size. -/
theorem map_toNat_sizeBytes (size : UInt64) :
    (sizeBytes size).map UInt8.toNat = shiftDigits 8 8 size.toNat := by
  unfold sizeBytes shiftDigits
  rw [List.map_map]
  apply List.map_congr_left
  intro i hi
  exact toNat_sizeByte size i (List.mem_range.mp hi)

/-- There are eight size bytes. -/
@[simp] theorem length_sizeBytes (size : UInt64) : (sizeBytes size).length = 8 := by
  simp [sizeBytes]

/-- Or-ing a byte into place, seen on the numbers. -/
theorem toNat_orByte (size : UInt64) (c : UInt8) (i : ℕ) (hi : i < 8) :
    (size ||| (c.toUInt64 <<< UInt64.ofNat (i * 8))).toNat =
      size.toNat ||| (c.toNat <<< (i * 8)) := by
  have hfits : c.toNat <<< (i * 8) < 2 ^ 64 := by
    rw [Nat.shiftLeft_eq]
    calc c.toNat * 2 ^ (i * 8) < 2 ^ 8 * 2 ^ (i * 8) :=
          Nat.mul_lt_mul_of_pos_right c.toNat_lt (Nat.two_pow_pos _)
      _ = 2 ^ (8 + i * 8) := by rw [Nat.pow_add]
      _ ≤ 2 ^ 64 := Nat.pow_le_pow_right (by decide) (by omega)
  rw [UInt64.toNat_or, UInt64.toNat_shiftLeft, UInt8.toNat_toUInt64, UInt64.toNat_ofNat',
    Nat.mod_eq_of_lt (show i * 8 < 2 ^ 64 by omega), Nat.mod_eq_of_lt (show i * 8 < 64 by omega),
    Nat.mod_eq_of_lt hfits]

/-- The size put together from eight bytes is the number with these digits. -/
theorem toNat_sizeOfBytes (bytes : Bytes) (h : bytes.length = 8) :
    (sizeOfBytes bytes).toNat = Nat.ofDigits (2 ^ 8) (bytes.map UInt8.toNat) := by
  obtain ⟨b0, b1, b2, b3, b4, b5, b6, b7, rfl⟩ :
      ∃ b0 b1 b2 b3 b4 b5 b6 b7, bytes = [b0, b1, b2, b3, b4, b5, b6, b7] := by
    match bytes, h with
    | [b0, b1, b2, b3, b4, b5, b6, b7], _ => exact ⟨b0, b1, b2, b3, b4, b5, b6, b7, rfl⟩
  rw [← orDigits_zero 8 _ (by
    intro d hd
    obtain ⟨c, -, rfl⟩ := List.mem_map.mp hd
    exact c.toNat_lt)]
  show (((((((((0 : UInt64) ||| (b0.toUInt64 <<< UInt64.ofNat (0 * 8))) |||
    (b1.toUInt64 <<< UInt64.ofNat (1 * 8))) ||| (b2.toUInt64 <<< UInt64.ofNat (2 * 8))) |||
    (b3.toUInt64 <<< UInt64.ofNat (3 * 8))) ||| (b4.toUInt64 <<< UInt64.ofNat (4 * 8))) |||
    (b5.toUInt64 <<< UInt64.ofNat (5 * 8))) ||| (b6.toUInt64 <<< UInt64.ofNat (6 * 8))) |||
    (b7.toUInt64 <<< UInt64.ofNat (7 * 8))).toNat = _
  simp only [toNat_orByte _ _ 0 (by decide), toNat_orByte _ _ 1 (by decide),
    toNat_orByte _ _ 2 (by decide), toNat_orByte _ _ 3 (by decide), toNat_orByte _ _ 4 (by decide),
    toNat_orByte _ _ 5 (by decide), toNat_orByte _ _ 6 (by decide), toNat_orByte _ _ 7 (by decide)]
  rfl

/-- **Reading back the size bytes gives the size.** -/
@[simp] theorem sizeOfBytes_sizeBytes (size : UInt64) : sizeOfBytes (sizeBytes size) = size := by
  apply UInt64.toNat_inj.mp
  rw [toNat_sizeOfBytes _ (length_sizeBytes size), map_toNat_sizeBytes, ofDigits_shiftDigits]
  exact Nat.mod_eq_of_lt size.toNat_lt

/-- **Eight bytes are the size bytes of the size they give.** -/
theorem sizeBytes_sizeOfBytes (bytes : Bytes) (h : bytes.length = 8) :
    sizeBytes (sizeOfBytes bytes) = bytes := by
  have hsize := toNat_sizeOfBytes bytes h
  have hback := toNat_sizeOfBytes _ (length_sizeBytes (sizeOfBytes bytes))
  rw [sizeOfBytes_sizeBytes, hsize] at hback
  have hbyte : ∀ l : Bytes, ∀ d ∈ l.map UInt8.toNat, d < 2 ^ 8 := by
    intro l d hd
    obtain ⟨c, -, rfl⟩ := List.mem_map.mp hd
    exact c.toNat_lt
  have hmap := Nat.ofDigits_inj_of_len_eq (by decide : 1 < 2 ^ 8) (by simp [h])
    (hbyte _) (hbyte _) hback.symm
  exact List.map_injective_iff.mpr (fun a b => UInt8.toNat_inj.mp) hmap

/-! ## The header -/

/-- The fourteen bytes of a header. -/
def headerBytes (h : Header) : Bytes :=
  magic ++ [h.version] ++ [h.algorithmId] ++ sizeBytes h.originalSize

/-- A header the reader accepts: the current version, and a codec that exists. -/
def Header.Valid (h : Header) : Prop :=
  h.version = currentVersion ∧ (h.algorithmId = 0x01 ∨ h.algorithmId = 0x02)

/-- A header takes fourteen bytes. -/
@[simp] theorem length_headerBytes (h : Header) : (headerBytes h).length = 14 := by
  simp [headerBytes, magic]

/-- **`write_header` emits the bytes of the header**, on any device. -/
theorem writeHeader_eq (out : OStream) (h : Header) (hout : out.good = true) :
    writeHeader out h = ((out.write (headerBytes h)).good, out.write (headerBytes h)) := by
  simp only [writeHeader, hout, Bool.not_true, Bool.false_eq_true, if_false,
    ← OStream.write_append]
  rfl

namespace IStream

/-- A read of as many bytes as a known beginning of the input has. -/
theorem read_append (s : IStream) (first rest : Bytes) (n : ℕ) (hg : s.good = true)
    (hr : s.rest = first ++ rest) (hn : first.length = n) :
    s.read n =
      (first,
        { before := s.before ++ first, rest := rest, eofbit := false, failbit := false }) := by
  rw [read_full n s hg (by rw [hr, List.length_append]; omega), hr, List.take_left' hn,
    List.drop_left' hn]

/-- A read that delivers as many bytes as asked for took them from the front of the input. -/
theorem rest_of_read (s : IStream) (n : ℕ) (hg : s.good = true)
    (hn : (s.read n).1.length = n) :
    s.rest = (s.read n).1 ++ (s.read n).2.rest ∧ (s.read n).2.good = true := by
  by_cases hle : n ≤ s.rest.length
  · rw [read_full n s hg hle]
    exact ⟨(List.take_append_drop n s.rest).symm, rfl⟩
  · rw [read_short n s hg (by omega)] at hn
    simp only at hn
    omega

end IStream

/-- **`read_header` accepts the bytes of a valid header**, whatever follows them, and leaves
the stream right behind them. -/
theorem readHeader_append (input : IStream) (h : Header) (payload : Bytes)
    (hin : input.good = true) (hvalid : h.Valid) (hrest : input.rest = headerBytes h ++ payload) :
    readHeader input =
      (some h, { before := input.before ++ headerBytes h
                 rest := payload
                 eofbit := false
                 failbit := false }) := by
  obtain ⟨hversion, halgo⟩ := hvalid
  have hsplit : input.rest = magic ++ ([h.version] ++ ([h.algorithmId] ++
      (sizeBytes h.originalSize ++ payload))) := by
    rw [hrest]
    simp [headerBytes]
  have halgo' : ¬ ([h.algorithmId] ≠ [0x01] ∧ [h.algorithmId] ≠ [0x02]) := by
    rcases halgo with ha | ha <;> simp [ha]
  unfold readHeader
  rw [IStream.failbit_of_good input hin, IStream.read_append input _ _ 4 hin hsplit rfl]
  simp only [Bool.false_eq_true, if_false]
  rw [IStream.read_append _ [h.version] _ 1 rfl rfl rfl]
  simp only
  rw [IStream.read_append _ [h.algorithmId] _ 1 rfl rfl rfl]
  simp only
  rw [IStream.read_append _ (sizeBytes h.originalSize) _ 8 rfl rfl (length_sizeBytes _)]
  simp only [magic, List.length_cons, List.length_nil, length_sizeBytes, hversion,
    sizeOfBytes_sizeBytes, List.headD_cons, ne_eq, not_true_eq_false, decide_false,
    Bool.or_self, Bool.false_eq_true, if_false, Bool.false_or, Bool.and_eq_true,
    decide_eq_true_eq, halgo', headerBytes, List.append_assoc]
  cases h
  simp_all

/-- **`read_header` accepts nothing else.** -/
theorem readHeader_sound (input : IStream) (h : Header) (hin : input.good = true)
    (hread : (readHeader input).1 = some h) :
    h.Valid ∧ headerBytes h <+: input.rest := by
  unfold readHeader at hread
  rw [IStream.failbit_of_good input hin] at hread
  simp only [Bool.false_eq_true, if_false] at hread
  split at hread
  · cases hread
  rename_i hmagic
  split at hread
  · cases hread
  rename_i hversion
  split at hread
  · cases hread
  rename_i halgo
  split at hread
  · cases hread
  rename_i hsize
  simp only [ne_eq, Bool.or_eq_true, decide_eq_true_eq, not_or, not_not, Bool.and_eq_true,
    not_and] at hmagic hversion halgo hsize
  obtain ⟨h1, g1⟩ := IStream.rest_of_read input 4 hin hmagic.1
  obtain ⟨h2, g2⟩ := IStream.rest_of_read _ 1 g1 hversion.1
  obtain ⟨h3, g3⟩ := IStream.rest_of_read _ 1 g2 halgo.1
  obtain ⟨h4, -⟩ := IStream.rest_of_read _ 8 g3 hsize
  have hh := Option.some.inj hread
  generalize (input.read 4).1 = c1, (input.read 4).2 = s1 at *
  generalize (s1.read 1).1 = c2, (s1.read 1).2 = s2 at *
  generalize (s2.read 1).1 = c3, (s2.read 1).2 = s3 at *
  generalize (s3.read 8).1 = c4, (s3.read 8).2 = s4 at *
  have halgo' : c3 = [0x01] ∨ c3 = [0x02] := by
    by_cases hc : c3 = [0x01]
    · exact Or.inl hc
    · exact Or.inr (halgo.2 hc)
  rw [← hh, h1, h2, h3, h4, hmagic.2, hversion.2]
  constructor
  · refine ⟨rfl, ?_⟩
    rcases halgo' with rfl | rfl
    · exact Or.inl rfl
    · exact Or.inr rfl
  · refine ⟨s4.rest, ?_⟩
    rcases halgo' with rfl | rfl
    · simp [headerBytes, sizeBytes_sizeOfBytes c4 hsize]
    · simp [headerBytes, sizeBytes_sizeOfBytes c4 hsize]

/-- A header that was read is valid, and the stream behind it is good and holds the rest. -/
theorem readHeader_some (input : IStream) (h : Header) (input' : IStream)
    (hin : input.good = true) (hread : readHeader input = (some h, input')) :
    h.Valid ∧ input'.good = true ∧ input.rest = headerBytes h ++ input'.rest := by
  obtain ⟨hvalid, payload, hrest⟩ :=
    readHeader_sound input h hin (congrArg Prod.fst hread)
  have happend := readHeader_append input h payload hin hvalid hrest.symm
  rw [hread, Prod.mk.injEq] at happend
  rw [happend.2]
  exact ⟨hvalid, rfl, hrest.symm⟩

end Lacuna.Model
