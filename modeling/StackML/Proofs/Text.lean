import Std.Data.TreeMap.Lemmas
import StackML.Text.Basic

/-!
Texts are told apart by their bytes, and ordered by them as the keys of a map have to be. The text of a
string is shown as the string.
-/

namespace StackML

namespace Text

theorem ext_bytes {a b : Text} (h : a.bytes = b.bytes) : a = b := by
  cases a
  cases b
  exact congrArg Text.mk h

theorem ofString_injective {a b : String} (h : ofString a = ofString b) : a = b := by
  have data : a.toUTF8.data = b.toUTF8.data := Array.toList_inj.1 (congrArg bytes h)
  exact String.toByteArray_inj.1 (ByteArray.ext data)

theorem bytes_ofString_append (a b : String) :
    (ofString (a ++ b)).bytes = (ofString a).bytes ++ (ofString b).bytes := by
  simp [ofString, String.toUTF8]

theorem isEmpty_ofString {a : String} (h : a ≠ "") : (ofString a).isEmpty = false := by
  rw [Bool.eq_false_iff]
  intro empty
  have none : (ofString a).bytes = [] := List.isEmpty_iff.1 empty
  exact h (ofString_injective (ext_bytes none))

instance : Std.TransOrd Text :=
  inferInstanceAs (Std.TransCmp (compareOn bytes))

instance : Std.LawfulEqOrd Text where
  eq_of_compare h := ext_bytes (Std.LawfulEqOrd.eq_of_compare h)

/-! ### What a text shows -/

theorem toNat_byte {n : Nat} (small : n < 256) : (UInt8.ofNat n).toNat = n :=
  UInt8.toNat_ofNat_of_lt' small

theorem tail_ofNat (n : Nat) :
    isTail (UInt8.ofNat (n % 64 + 128)) = true ∧ tailBits (UInt8.ofNat (n % 64 + 128)) = n % 64 := by
  have value : (UInt8.ofNat (n % 64 + 128)).toNat = n % 64 + 128 := toNat_byte (by omega)
  constructor
  · simp only [isTail, Bool.and_eq_true, decide_eq_true_eq, UInt8.le_iff_toNat_le, value]
    exact ⟨by simp, by simp; omega⟩
  · rw [tailBits, value]
    omega

section

variable {n : Nat} (rest : List UInt8)

theorem charAt_one (high : n ≤ 0x7f) :
    charAt (UInt8.ofNat n :: rest) = some (Char.ofNat n, 0) := by
  have a := toNat_byte (n := n) (by omega)
  unfold charAt
  dsimp only
  rw [if_pos (by rw [UInt8.lt_iff_toNat_lt, a]; exact Nat.lt_succ_of_le high), a]

theorem charAt_two (low : 0x7f < n) (high : n ≤ 0x7ff) :
    charAt (UInt8.ofNat (n / 64 % 32 + 0xc0) :: UInt8.ofNat (n % 64 + 0x80) :: rest) =
      some (Char.ofNat n, 1) := by
  have a := toNat_byte (n := n / 64 % 32 + 0xc0) (by omega)
  obtain ⟨tail, bits⟩ := tail_ofNat n
  have value : (n / 64 % 32 + 0xc0) % 32 * 64 + n % 64 = n := by omega
  simp only [charAt, UInt8.lt_iff_toNat_lt, UInt8.le_iff_toNat_le, a, tail, bits, value]
  rw [if_neg (by simp), if_pos (by simp; omega)]

theorem charAt_three (low : 0x7ff < n) (high : n ≤ 0xffff) (valid : n < 0xD800 ∨ 0xDFFF < n) :
    charAt (UInt8.ofNat (n / 4096 % 16 + 0xe0) :: UInt8.ofNat (n / 64 % 64 + 0x80) ::
      UInt8.ofNat (n % 64 + 0x80) :: rest) = some (Char.ofNat n, 2) := by
  have a := toNat_byte (n := n / 4096 % 16 + 0xe0) (by omega)
  have b := toNat_byte (n := n / 64 % 64 + 0x80) (by omega)
  obtain ⟨tail, bits⟩ := tail_ofNat n
  obtain ⟨tail', bits'⟩ := tail_ofNat (n / 64)
  have value : ((n / 4096 % 16 + 0xe0) % 16 * 64 + n / 64 % 64) * 64 + n % 64 = n := by omega
  simp only [charAt, UInt8.lt_iff_toNat_lt, UInt8.le_iff_toNat_le, a, b, tail, bits, tail', bits', value]
  rw [if_neg (by simp), if_neg (by simp), if_pos]
  simp [← UInt8.toNat_inj]
  omega

theorem charAt_four (low : 0xffff < n) (high : n < 0x110000) :
    charAt (UInt8.ofNat (n / 262144 % 8 + 0xf0) :: UInt8.ofNat (n / 4096 % 64 + 0x80) ::
      UInt8.ofNat (n / 64 % 64 + 0x80) :: UInt8.ofNat (n % 64 + 0x80) :: rest) =
        some (Char.ofNat n, 3) := by
  have a := toNat_byte (n := n / 262144 % 8 + 0xf0) (by omega)
  have b := toNat_byte (n := n / 4096 % 64 + 0x80) (by omega)
  obtain ⟨tail, bits⟩ := tail_ofNat n
  obtain ⟨tail', bits'⟩ := tail_ofNat (n / 64)
  obtain ⟨tail'', bits''⟩ := tail_ofNat (n / 4096)
  have value : (((n / 262144 % 8 + 0xf0) % 8 * 64 + n / 4096 % 64) * 64 + n / 64 % 64) * 64 + n % 64 =
      n := by omega
  simp only [charAt, UInt8.lt_iff_toNat_lt, UInt8.le_iff_toNat_le, a, b, tail, bits, tail', bits', tail'',
    bits'', value]
  rw [if_neg (by simp), if_neg (by simp), if_neg (by simp), if_pos]
  simp [← UInt8.toNat_inj]
  omega

end

theorem charAt_utf8EncodeChar (c : Char) (rest : List UInt8) :
    charAt (String.utf8EncodeChar c ++ rest) = some (c, (String.utf8EncodeChar c).length - 1) := by
  have valid : c.val.toNat < 0xD800 ∨ 0xDFFF < c.val.toNat ∧ c.val.toNat < 0x110000 := c.valid
  have same : Char.ofNat c.val.toNat = c := Char.ofNat_toNat c
  unfold String.utf8EncodeChar
  dsimp only
  split
  · next high => exact (charAt_one rest high).trans (by rw [same]; rfl)
  · next low =>
    split
    · next high => exact (charAt_two rest (by omega) high).trans (by rw [same]; rfl)
    · next low =>
      split
      · next high => exact (charAt_three rest (by omega) high (by omega)).trans (by rw [same]; rfl)
      · next low => exact (charAt_four rest (by omega) (by omega)).trans (by rw [same]; rfl)

theorem glyphsFrom_skip (read : List Glyph) (skipped rest : List UInt8) :
    glyphsFrom read skipped.length (skipped ++ rest) = glyphsFrom read 0 rest := by
  induction skipped with
  | nil => rfl
  | cons b skipped ih => exact ih

theorem glyphsFrom_utf8 (read : List Glyph) (cs : List Char) :
    glyphsFrom read 0 (cs.flatMap String.utf8EncodeChar) = read.reverse ++ cs.map .char := by
  induction cs generalizing read with
  | nil => simp [glyphsFrom]
  | cons c cs ih =>
    have found := charAt_utf8EncodeChar c (cs.flatMap String.utf8EncodeChar)
    rw [List.flatMap_cons]
    cases bytes : String.utf8EncodeChar c with
    | nil => simp at bytes
    | cons b more =>
      rw [bytes, List.cons_append, List.length_cons, Nat.add_sub_cancel] at found
      rw [List.cons_append, glyphsFrom, found]
      dsimp only
      rw [glyphsFrom_skip, ih, List.reverse_cons, List.append_assoc, List.map_cons]
      rfl

theorem display_ofString (s : String) : (ofString s).display = s := by
  obtain ⟨cs, rfl⟩ : ∃ cs, s = String.ofList cs := ⟨s.toList, String.ofList_toList.symm⟩
  have bytes : (ofString (String.ofList cs)).bytes = cs.flatMap String.utf8EncodeChar := by
    simp [ofString, String.toUTF8, String.toByteArray_ofList, List.utf8Encode]
  rw [display, glyphs, bytes, glyphsFrom_utf8]
  simp [Glyph.shown, Function.comp_def]

end Text

end StackML
