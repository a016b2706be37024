/-!
Byte texts. Compiled artifacts and running programs hold texts whose bytes need not be UTF-8, so a
text here is its bytes. `Text.glyphs` is the reading view: the characters it holds, with every byte
that belongs to none kept apart. `Text.display` writes U+FFFD for each of those.
-/

namespace StackML

structure Text where
  bytes : List UInt8
  deriving DecidableEq, Inhabited, Repr

namespace Text

def ofString (s : String) : Text := ⟨s.toUTF8.data.toList⟩

instance : Coe String Text := ⟨ofString⟩

def empty : Text := ⟨[]⟩

def isEmpty (t : Text) : Bool := t.bytes.isEmpty

def length (t : Text) : Nat := t.bytes.length

def append (a b : Text) : Text := ⟨a.bytes ++ b.bytes⟩

instance : Append Text := ⟨append⟩

@[simp] theorem bytes_append (a b : Text) : (a ++ b).bytes = a.bytes ++ b.bytes := rfl

def concat (parts : List Text) : Text := ⟨(parts.map bytes).flatten⟩

@[simp] theorem bytes_concat (parts : List Text) :
    (concat parts).bytes = (parts.map bytes).flatten := rfl

/-- The parts one after the other, with a separator between neighbours. -/
def join (separator : Text) (parts : List Text) : Text := concat (parts.intersperse separator)

/-- Texts are ordered by their bytes, a proper beginning before the whole. -/
instance : Ord Text := ⟨fun a b => compare a.bytes b.bytes⟩

inductive Glyph where
  | char (c : Char)
  | stray (b : UInt8)
  deriving DecidableEq, Repr

def isTail (b : UInt8) : Bool := 0x80 ≤ b && b ≤ 0xBF

def tailBits (b : UInt8) : Nat := b.toNat % 64

/-- The character that starts at the head of the bytes, with the number of bytes it takes beyond
the first. Overlong forms, surrogates and code points above U+10FFFF are no characters. -/
def charAt : List UInt8 → Option (Char × Nat)
  | [] => none
  | a :: rest =>
    if a < 0x80 then some (Char.ofNat a.toNat, 0)
    else match rest with
    | [] => none
    | b :: rest =>
      if 0xC2 ≤ a && a ≤ 0xDF && isTail b then
        some (Char.ofNat (a.toNat % 32 * 64 + tailBits b), 1)
      else match rest with
      | [] => none
      | c :: rest =>
        let second := isTail b && !(a == 0xE0 && b < 0xA0) && !(a == 0xED && b > 0x9F)
        if 0xE0 ≤ a && a ≤ 0xEF && second && isTail c then
          some (Char.ofNat ((a.toNat % 16 * 64 + tailBits b) * 64 + tailBits c), 2)
        else match rest with
        | [] => none
        | d :: _ =>
          let second := isTail b && !(a == 0xF0 && b < 0x90) && !(a == 0xF4 && b > 0x8F)
          if 0xF0 ≤ a && a ≤ 0xF4 && second && isTail c && isTail d then
            some (Char.ofNat
              (((a.toNat % 8 * 64 + tailBits b) * 64 + tailBits c) * 64 + tailBits d), 3)
          else none

/-- The glyphs of the bytes after `skip` of them, behind the glyphs already read. -/
def glyphsFrom (read : List Glyph) : (skip : Nat) → List UInt8 → List Glyph
  | _, [] => read.reverse
  | skip + 1, _ :: rest => glyphsFrom read skip rest
  | 0, b :: rest =>
    match charAt (b :: rest) with
    | some (c, more) => glyphsFrom (.char c :: read) more rest
    | none => glyphsFrom (.stray b :: read) 0 rest

def glyphs (t : Text) : List Glyph := glyphsFrom [] 0 t.bytes

def Glyph.shown : Glyph → Char
  | .char c => c
  | .stray _ => '\uFFFD'

def display (t : Text) : String := String.ofList (t.glyphs.map Glyph.shown)

/-- Replaces every character, a stray byte counting as the replacement character. -/
def mapChars (f : Char → Char) (t : Text) : Text :=
  ofString (String.ofList (t.glyphs.map fun g => f g.shown))

def isPrefixOf (p t : Text) : Bool := p.bytes.isPrefixOf t.bytes

def isSuffixOf (s t : Text) : Bool := s.bytes.isSuffixOf t.bytes

/-- The least offset, counted from `start`, at which the pattern stands in the bytes. -/
def findFrom (pattern : List UInt8) (start : Nat) : List UInt8 → Option Nat
  | [] => if pattern.isEmpty then some start else none
  | b :: rest =>
    if pattern.isPrefixOf (b :: rest) then some start else findFrom pattern (start + 1) rest

def find? (t pattern : Text) : Option Nat := findFrom pattern.bytes 0 t.bytes

def times (t : Text) (n : Nat) : Text := concat (List.replicate n t)

def ofNat (n : Nat) : Text := ofString (toString n)

def ofInt (i : Int) : Text := ofString (toString i)

end Text
end StackML
