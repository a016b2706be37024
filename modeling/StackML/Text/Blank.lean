import StackML.Text.Basic

/-!
White space: the six ASCII blanks, U+0085, U+00A0 and the other code points with the Unicode
property White_Space.
-/

namespace StackML.Text

def isBlank (c : Char) : Bool :=
  c == ' ' || (0x09 ≤ c.toNat && c.toNat ≤ 0x0D) || c.toNat == 0x85 || c.toNat == 0xA0 ||
  c.toNat == 0x1680 || (0x2000 ≤ c.toNat && c.toNat ≤ 0x200A) || c.toNat == 0x2028 ||
  c.toNat == 0x2029 || c.toNat == 0x202F || c.toNat == 0x205F || c.toNat == 0x3000

def trimChars (cs : List Char) : List Char :=
  ((cs.dropWhile isBlank).reverse.dropWhile isBlank).reverse

def trimString (s : String) : String := String.ofList (trimChars s.toList)

def Glyph.isBlank : Glyph → Bool
  | .char c => Text.isBlank c
  | .stray _ => false

def Glyph.bytes : Glyph → List UInt8
  | .char c => (ofString (String.singleton c)).bytes
  | .stray b => [b]

def trim (t : Text) : Text :=
  let kept := ((t.glyphs.dropWhile Glyph.isBlank).reverse.dropWhile Glyph.isBlank).reverse
  ⟨(kept.map Glyph.bytes).flatten⟩

end StackML.Text
