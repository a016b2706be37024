import StackML.Text.Basic
import StackML.Text.Printable

/-!
Quoted texts, as messages and printed programs show them: printable characters stand for
themselves, the seven named controls take their letter, and everything else is written by its
number. A byte that is no character is written `\xNN`.
-/

namespace StackML.Text

def hexDigit (n : Nat) : Char :=
  if n < 10 then Char.ofNat (48 + n) else Char.ofNat (87 + n)

def hex : (width : Nat) → Nat → List Char
  | 0, _ => []
  | width + 1, n => hex width (n / 16) ++ [hexDigit (n % 16)]

def escape (quote : Char) (c : Char) : List Char :=
  if c == quote || c == '\\' then ['\\', c]
  else if isPrintable c then [c]
  else match c.toNat with
    | 0x07 => ['\\', 'a']
    | 0x08 => ['\\', 'b']
    | 0x0C => ['\\', 'f']
    | 0x0A => ['\\', 'n']
    | 0x0D => ['\\', 'r']
    | 0x09 => ['\\', 't']
    | 0x0B => ['\\', 'v']
    | n =>
      if n < 0x20 || n == 0x7F then '\\' :: 'x' :: hex 2 n
      else if n < 0x10000 then '\\' :: 'u' :: hex 4 n
      else '\\' :: 'U' :: hex 8 n

def escapeGlyph (quote : Char) : Glyph → List Char
  | .char c => escape quote c
  | .stray b => '\\' :: 'x' :: hex 2 b.toNat

def escaped (quote : Char) (t : Text) : String :=
  String.ofList ((t.glyphs.map (escapeGlyph quote)).flatten)

def quoted (t : Text) : String := "\"" ++ t.escaped '"' ++ "\""

def quotedChar (c : Char) : String := "'" ++ String.ofList (escape '\'' c) ++ "'"

end StackML.Text
