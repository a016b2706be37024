import StackML.Machine.Value

/-!
Objects of the host. They live in a heap and are referred to by number; programs can only hold them
and call their methods. A builder gathers a text and reserves room ahead, in blocks of fixed sizes.
-/

namespace StackML.Host

structure Builder where
  content : Text := .empty
  room : Nat := 0
  deriving DecidableEq, Repr, Inhabited

namespace Builder

/-- The sizes of blocks up to four pages; larger ones are whole pages. -/
def blockSizes : List Nat :=
  [8, 16, 24, 32, 48, 64, 80, 96, 112, 128, 144, 160, 176, 192, 208, 224, 240, 256, 288, 320, 352,
    384, 416, 448, 480, 512, 576, 640, 704, 768, 896, 1024, 1152, 1280, 1408, 1536, 1792, 2048,
    2304, 2688, 3072, 3200, 3456, 4096, 4864, 5376, 6144, 6528, 6784, 6912, 8192, 9472, 9728,
    10240, 10880, 12288, 13568, 14336, 16384, 18432, 19072, 20480, 21760, 24576, 27264, 28672,
    32768]

def block (n : Nat) : Nat :=
  if n = 0 then 0
  else
    match blockSizes.find? (n ≤ ·) with
    | some size => size
    | none => (n + 8191) / 8192 * 8192

def maxBlock : Nat := Nat.pow 2 48

def stretched (need : Nat) : (steps room : Nat) → Nat
  | 0, _ => need
  | steps + 1, room => if need ≤ room then room else stretched need steps (room + (room + 768) / 4)

def enlarged (room need : Nat) : Nat :=
  block <|
    if 2 * room < need then need
    else if room < 256 then 2 * room
    else stretched need need room

def write (b : Builder) (t : Text) : Builder :=
  let content := b.content ++ t
  { content, room := if content.length ≤ b.room then b.room else enlarged b.room content.length }

/-- Makes room for `n` more bytes; nothing if memory cannot hold them. -/
def reserve? (b : Builder) (n : Nat) : Option Builder :=
  if b.content.length + n ≤ b.room then some b
  else if maxBlock < 2 * b.room + n then none
  else some { b with room := block (2 * b.room + n) }

end Builder

inductive Object where
  | builder (state : Builder)
  | row (elems : List Value)
  | plain (shown : Text)
  deriving Repr, Inhabited

/-- What a row shows of an element: numbers and texts as they are, nothing for an empty list, and no
content of what it holds by address only. -/
def elementText (objects : Nat → Text) : Value → Text
  | .null | .list [] => "<nil>"
  | .unit => "\x7b\x7d"
  | .double bits => Decimal.plainDouble bits
  | .list _ | .holder .. | .closure .. => "0x0"
  | v => v.text objects

/-- What printing an object shows, given the texts of other objects. -/
def Object.text (objects : Nat → Text) : Object → Text
  | builder b => b.content
  | row elems => .concat ["[", .join " " (elems.map (elementText objects)), "]"]
  | plain shown => shown

structure Heap where
  objects : Array Object := #[]
  deriving Inhabited

namespace Heap

def get? (h : Heap) (ref : Nat) : Option Object := h.objects[ref]?

def add (h : Heap) (o : Object) : Nat × Heap := (h.objects.size, ⟨h.objects.push o⟩)

def set (h : Heap) (ref : Nat) (o : Object) : Heap := ⟨h.objects.setIfInBounds ref o⟩

/-- The text of an object, rows being nested `depth` deep at most. -/
def textWithin (h : Heap) : (depth ref : Nat) → Text
  | 0, _ => .empty
  | depth + 1, ref => ((h.get? ref).map (Object.text (h.textWithin depth))).getD .empty

/-- The text of an object. A row only holds objects that were made before it. -/
def text (h : Heap) (ref : Nat) : Text := h.textWithin (ref + 1) ref

end Heap
end StackML.Host
