import StackML.Text.Basic

/-!
Tokens of signatures. The scan never fails: a byte that starts no token is a token of its own, which
no rule of the grammar accepts. Offsets count bytes.
-/

namespace StackML.Signature

inductive TokenKind where
  | ident (name : String)
  | typeVar (text : String)
  | host (name : String)
  | arrow
  | openParen
  | closeParen
  | comma
  | dot
  | invalid (byte : UInt8)
  deriving DecidableEq, Repr

structure Token where
  kind : TokenKind
  offset : Nat
  deriving DecidableEq, Repr

def TokenKind.text : TokenKind → String
  | ident name => name
  | typeVar text => text
  | host name => name
  | arrow => "->"
  | openParen => "("
  | closeParen => ")"
  | comma => ","
  | dot => "."
  | invalid byte => String.singleton (Char.ofNat byte.toNat)

def isBlankByte (b : UInt8) : Bool :=
  b == 0x20 || (0x09 ≤ b && b ≤ 0x0D) || b == 0x85 || b == 0xA0

def isWordByte (b : UInt8) : Bool :=
  b == 0x5F || b == 0x24 || (0x30 ≤ b && b ≤ 0x39) || (0x61 ≤ b && b ≤ 0x7A) ||
  (0x41 ≤ b && b ≤ 0x5A)

def isHostByte (b : UInt8) : Bool := isWordByte b || b == 0x2E || b == 0x2F

def asciiString (bs : List UInt8) : String := String.ofList (bs.map fun b => Char.ofNat b.toNat)

/-- The token at the head of the bytes, which start with no blank, and the number of bytes it
takes beyond the first. -/
def tokenAt (b : UInt8) (rest : List UInt8) : TokenKind × Nat :=
  if b == 0x28 then (.openParen, 0)
  else if b == 0x29 then (.closeParen, 0)
  else if b == 0x2C then (.comma, 0)
  else if b == 0x2E then (.dot, 0)
  else if b == 0x2D && rest.head? == some 0x3E then (.arrow, 1)
  else if b == 0x27 then
    let word := rest.takeWhile isWordByte
    (.typeVar (asciiString (b :: word)), word.length)
  else if b == 0x40 then
    let word := rest.takeWhile isHostByte
    (.host (asciiString word), word.length)
  else if isWordByte b then
    let word := rest.takeWhile isWordByte
    (.ident (asciiString (b :: word)), word.length)
  else (.invalid b, 0)

/-- The tokens of the bytes after `skip` of them, behind those already read; `offset` is where the
bytes start. -/
def scanFrom (read : List Token) : (offset skip : Nat) → List UInt8 → List Token
  | _, _, [] => read.reverse
  | offset, skip + 1, _ :: rest => scanFrom read (offset + 1) skip rest
  | offset, 0, b :: rest =>
    if isBlankByte b then scanFrom read (offset + 1) 0 rest
    else
      let (kind, more) := tokenAt b rest
      scanFrom (⟨kind, offset⟩ :: read) (offset + 1) more rest

def scan (source : Text) : List Token := scanFrom [] 0 0 source.bytes

end StackML.Signature
