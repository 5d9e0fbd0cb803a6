import Mathlib.Data.List.Basic
import Mathlib.Tactic.IntervalCases
import GameExport.Text.Utf8

/-! # The order of texts and of their bytes

A character takes up to four bytes. The first one tells how many there are, so a character with more
bytes comes behind one with fewer, and the bits of a character stand in its bytes from the highest to
the lowest. Hence texts are in the order of their bytes.
-/

namespace GameExport.Text.Utf8

/-! ## Numbers -/

/-- A number in a first byte with a mark and `more` bytes of six bits each behind it. -/
def spelled (mark : Nat) : Nat → Nat → List UInt8
  | 0, n => [UInt8.ofNat (n + mark)]
  | more + 1, n => spelled mark more (n / 64) ++ [UInt8.ofNat (n % 64 + 0x80)]

/-- Numbers that fit in a byte keep their order. -/
theorem ofNat_lt_ofNat {m n : Nat} (h : m < n) (hn : n < 256) : UInt8.ofNat m < UInt8.ofNat n := by
  rw [UInt8.lt_iff_toNat_lt, UInt8.toNat_ofNat', UInt8.toNat_ofNat', Nat.mod_eq_of_lt hn,
    Nat.mod_eq_of_lt (Nat.lt_trans h hn)]
  exact h

/-- The first byte has the highest bits of a number and the mark. -/
theorem exists_spelled_eq_cons (mark more n : Nat) :
    ∃ rest, spelled mark more n = UInt8.ofNat (n / 64 ^ more + mark) :: rest := by
  induction more generalizing n with
  | zero => exact ⟨[], by rw [spelled, Nat.pow_zero, Nat.div_one]⟩
  | succ more ih =>
      obtain ⟨rest, hrest⟩ := ih (n / 64)
      refine ⟨rest ++ [UInt8.ofNat (n % 64 + 0x80)], ?_⟩
      rw [spelled, hrest, List.cons_append, Nat.div_div_eq_div_mul, Nat.pow_succ']

/-- Of two numbers that take as many bytes the lower one comes first, whatever follows. -/
theorem spelled_append_lt {mark more m n : Nat} (h : m < n) (hfits : n / 64 ^ more + mark < 256)
    (bs cs : List UInt8) : spelled mark more m ++ bs < spelled mark more n ++ cs := by
  induction more generalizing m n bs cs with
  | zero =>
      rw [Nat.pow_zero, Nat.div_one] at hfits
      exact List.Lex.rel (ofNat_lt_ofNat (by omega) hfits)
  | succ more ih =>
      rw [spelled, spelled, List.append_assoc, List.append_assoc]
      -- either the numbers differ before their last six bits, or only there
      by_cases hfront : m / 64 < n / 64
      · apply ih hfront
        rwa [Nat.div_div_eq_div_mul, ← Nat.pow_succ']
      · have heq : m / 64 = n / 64 := by omega
        rw [heq]
        apply List.append_left_lt
        exact List.Lex.rel (ofNat_lt_ofNat (by omega) (by omega))

/-! ## Characters -/

/-- The mark of a first byte that has `more` bytes behind it. -/
def mark : Nat → Nat
  | 0 => 0
  | 1 => 0xC0
  | 2 => 0xE0
  | _ => 0xF0

/-- The first number that is too large for a first byte with `more` bytes behind it. -/
def limit : Nat → Nat
  | 0 => 0x80
  | 1 => 0x800
  | 2 => 0x10000
  | _ => 0x110000

theorem toNat_lt_limit (c : Char) : c.toNat < 0x110000 := by
  have hvalid : c.toNat < 0xD800 ∨ 0xDFFF < c.toNat ∧ c.toNat < 0x110000 := c.valid
  omega

/-- A character takes as many bytes as it needs. -/
theorem exists_utf8EncodeChar_eq (c : Char) :
    ∃ more ≤ 3, c.toNat < limit more ∧ (∀ less < more, limit less ≤ c.toNat) ∧
      String.utf8EncodeChar c = spelled (mark more) more c.toNat := by
  have hmax := toNat_lt_limit c
  have hval : c.val.toNat = c.toNat := rfl
  unfold String.utf8EncodeChar
  rw [hval]
  dsimp only
  split
  · next h => exact ⟨0, by omega, Nat.lt_succ_of_le h, nofun, rfl⟩
  split
  · next hlow h =>
      refine ⟨1, by omega, Nat.lt_succ_of_le h, ?_, ?_⟩
      · intro less hless
        interval_cases less
        exact Nat.lt_of_not_le hlow
      · rw [Nat.mod_eq_of_lt (show c.toNat / 64 < 0x20 by omega)]
        rfl
  split
  · next hlow hmid h =>
      refine ⟨2, by omega, Nat.lt_succ_of_le h, ?_, ?_⟩
      · intro less hless
        interval_cases less
        · exact Nat.lt_of_not_le hlow
        · exact Nat.lt_of_not_le hmid
      · rw [Nat.mod_eq_of_lt (show c.toNat / 4096 < 0x10 by omega)]
        simp only [spelled, mark, Nat.div_div_eq_div_mul, Nat.reduceMul, List.cons_append,
          List.nil_append]
  · next hlow hmid hhigh =>
      refine ⟨3, by omega, hmax, ?_, ?_⟩
      · intro less hless
        interval_cases less
        · exact Nat.lt_of_not_le hlow
        · exact Nat.lt_of_not_le hmid
        · exact Nat.lt_of_not_le hhigh
      · rw [Nat.mod_eq_of_lt (show c.toNat / 262144 < 0x08 by omega)]
        simp only [spelled, mark, Nat.div_div_eq_div_mul, Nat.reduceMul, List.cons_append,
          List.nil_append]

theorem firstByte_lt {more n : Nat} (hmore : more ≤ 3) (h : n < limit more) :
    n / 64 ^ more + mark more < 256 := by
  interval_cases more <;> simp only [limit, mark, Nat.reducePow] at * <;> omega

/-- A first byte with more bytes behind it is a greater one. -/
theorem firstByte_lt_mark {less more n : Nat} (h : less < more) (hmore : more ≤ 3)
    (hn : n < limit less) : n / 64 ^ less + mark less < mark more := by
  interval_cases more <;> interval_cases less <;> simp only [limit, mark, Nat.reducePow] at * <;>
    omega

/-- A smaller character has smaller bytes, whatever follows. -/
theorem utf8EncodeChar_append_lt {c d : Char} (h : c < d) (bs cs : List UInt8) :
    String.utf8EncodeChar c ++ bs < String.utf8EncodeChar d ++ cs := by
  have hlt : c.toNat < d.toNat := h
  obtain ⟨j, hj, hc, hneeds, heq⟩ := exists_utf8EncodeChar_eq c
  obtain ⟨k, hk, hd, -, heq'⟩ := exists_utf8EncodeChar_eq d
  rw [heq, heq']
  rcases Nat.lt_trichotomy j k with hless | rfl | hmore
  · obtain ⟨front, hfront⟩ := exists_spelled_eq_cons (mark j) j c.toNat
    obtain ⟨back, hback⟩ := exists_spelled_eq_cons (mark k) k d.toNat
    have hmark := firstByte_lt_mark hless hk hc
    rw [hfront, hback, List.cons_append, List.cons_append]
    apply List.Lex.rel
    apply ofNat_lt_ofNat _ (firstByte_lt hk hd)
    exact Nat.lt_of_lt_of_le hmark (Nat.le_add_left _ _)
  · exact spelled_append_lt hlt (firstByte_lt hk hd) bs cs
  · exact absurd (Nat.lt_of_le_of_lt (hneeds k hmore) hlt) (Nat.lt_asymm hd)

/-! ## Texts -/

theorem flatMap_utf8EncodeChar_lt {as bs : List Char} (h : as < bs) :
    as.flatMap String.utf8EncodeChar < bs.flatMap String.utf8EncodeChar := by
  induction h with
  | @nil b bs =>
      rw [List.flatMap_nil, List.flatMap_cons]
      obtain ⟨byte, rest, hbytes⟩ :=
        List.exists_cons_of_ne_nil (String.utf8EncodeChar_ne_nil (c := b))
      rw [hbytes]
      exact List.Lex.nil
  | rel h => exact utf8EncodeChar_append_lt h _ _
  | cons _ ih => exact List.append_left_lt ih

/-- The bytes of an array are collected from an index on, in front of those collected before. -/
theorem toList_loop_eq (b : ByteArray) (i : Nat) (collected : List UInt8) :
    ByteArray.toList.loop b i collected = collected.reverse ++ b.data.toList.drop i := by
  fun_induction ByteArray.toList.loop b i collected with
  | case1 i collected h ih =>
      have hi : i < b.data.toList.length := by simpa using h
      rw [ih, List.drop_eq_getElem_cons hi]
      simp [ByteArray.get!, h]
  | case2 i collected h =>
      rw [List.drop_eq_nil_of_le (by simpa using Nat.le_of_not_lt h), List.append_nil]

theorem toList_eq (b : ByteArray) : b.toList = b.data.toList := by
  rw [ByteArray.toList, toList_loop_eq, List.reverse_nil, List.nil_append, List.drop_zero]

theorem encode_eq (s : String) : encode s = s.toList.flatMap String.utf8EncodeChar := by
  have hbytes : s.toByteArray = (s.toList.flatMap String.utf8EncodeChar).toByteArray := by
    conv => lhs; rw [← String.ofList_toList (s := s)]
    rfl
  rw [encode, String.toUTF8_eq_toByteArray, toList_eq, hbytes, List.toList_data_toByteArray]

/-- Texts that are in order have bytes that are. -/
theorem encode_lt_encode {s t : String} (h : s < t) : encode s < encode t := by
  rw [encode_eq, encode_eq]
  exact flatMap_utf8EncodeChar_lt h

end GameExport.Text.Utf8
