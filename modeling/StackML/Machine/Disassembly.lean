import StackML.Machine.Artifact
import StackML.Machine.Opcode

/-!
Listings of compiled code: one line for each instruction with its offset, its source line where it
changes, and its operands spelled out.
-/

namespace StackML.Disassembly

def padLeft (width : Nat) (pad : Char) (s : String) : String :=
  String.ofList (List.replicate (width - s.length) pad) ++ s

def padRight (width : Nat) (s : String) : String :=
  s ++ String.ofList (List.replicate (width - s.length) ' ')

/-- The source line of the instruction at an offset, or a bar when it has not changed. -/
def lineColumn (lines : Array Int64) (offset : Nat) : String :=
  match lines[offset]? with
  | none => ""
  | some line =>
    if 0 < offset ∧ lines[offset - 1]? = some line then "   | "
    else padLeft 4 ' ' (toString line.toInt) ++ " "

def constantText (a : Artifact) (index : Nat) : Text :=
  match a.constants[index]? with
  | some c => c.text
  | none => "<bad constant>"

/-- The byte at an offset of a code; what is missing counts as zero. -/
def byteAt (code : Array UInt8) (offset : Nat) : Nat := (code.getD offset 0).toNat

def wordAt (code : Array UInt8) (offset : Nat) : Nat :=
  byteAt code offset * 256 + byteAt code (offset + 1)

def operandText (a : Artifact) (code : Array UInt8) (offset : Nat) (op : Opcode) : Text :=
  let word := wordAt code (offset + 1)
  let head : Text := padRight 18 op.name ++ " "
  match op.operands with
  | .none => op.name
  | .byte => head ++ Text.ofNat (byteAt code (offset + 1))
  | .slot | .count => head ++ Text.ofNat word
  | .constant => .concat [head, "#", Text.ofNat word, " ", constantText a word]
  | .jump => .concat [head, "-> ", padLeft 4 '0' (toString (offset + 3 + word))]
  | .closure =>
    .concat [head, "#", Text.ofNat word, " ", constantText a word, " captures=",
      Text.ofNat (byteAt code (offset + 3))]

/-- The line of the instruction at an offset, and the offset of the next one. A byte that is no
opcode is listed by itself. -/
def instruction (a : Artifact) (m : Method) (offset : Nat) : Text × Nat :=
  let front : Text :=
    padLeft 4 '0' (toString offset) ++ " " ++ lineColumn m.lines offset
  match (m.code[offset]?).bind Opcode.ofCode? with
  | none => (front ++ "UNKNOWN", offset + 1)
  | some op =>
    if m.code.size < offset + op.width then
      (front ++ (op.name ++ " <truncated>" : String), m.code.size)
    else (front ++ operandText a m.code offset op, offset + op.width)

/-- The lines from an offset on; every instruction takes at least one byte. -/
def instructions (a : Artifact) (m : Method) (done : List Text) : (bytes offset : Nat) → List Text
  | 0, _ => done.reverse
  | bytes + 1, offset =>
    if offset < m.code.size then
      let (line, next) := instruction a m offset
      instructions a m (line :: done) bytes next
    else done.reverse

def method (a : Artifact) (m : Method) : List Text :=
  let type : Text := if m.signature = .empty then "" else .concat [" : ", m.signature]
  let head := Text.concat ["-- ", m.name, " ", m.descriptor, " locals=",
    Text.ofInt m.maxLocals.toInt, type, " --"]
  head :: instructions a m [] m.code.size 0

def artifact (a : Artifact) : List Text :=
  if a.kind = .holder then
    [.concat ["== holder ", a.name, " : ", a.sum, " tag=", Text.ofInt a.tag.toInt, " payload=",
      if a.payload then "true" else "false", " =="]]
  else
    .concat ["== module ", a.name, " =="] ::
      a.fields.map (fun f => .concat ["field ", f.name, " ", f.descriptor]) ++
      a.methods.flatMap (method a)

end StackML.Disassembly
