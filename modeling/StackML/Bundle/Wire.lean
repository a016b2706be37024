/-!
The wire format of bundles: a message is a list of numbered fields, each holding a number, eight
bytes or a run of bytes. Fields of other shapes are passed over, groups included, and read as
empty.
-/

namespace StackML.Wire

abbrev Bytes := List UInt8

inductive Error where
  | truncated
  | fieldNumber
  | overflow
  | reserved
  | endGroup
  | tooDeep
  deriving DecidableEq, Repr

def Error.message : Error → String
  | truncated => "unexpected EOF"
  | fieldNumber => "proto: invalid field number"
  | overflow => "proto: variable length integer overflow"
  | reserved => "proto: cannot parse reserved wire type"
  | endGroup => "proto: mismatching end group marker"
  | tooDeep => "proto: parse error"

/-! ### Writing -/

/-- A number in groups of seven bits, lowest first, all but the last marked; at most `groups`. -/
def groupsOf : (groups : Nat) → Nat → Bytes
  | 0, _ => []
  | groups + 1, n =>
    if n < 128 then [n.toUInt8] else (n % 128 + 128).toUInt8 :: groupsOf groups (n / 128)

/-- A word as a number of variable length; ten groups hold every word. -/
def varint (n : UInt64) : Bytes := groupsOf 10 n.toNat

def fixed64 (n : UInt64) : Bytes :=
  (List.range 8).map fun i => (n >>> (8 * i).toUInt64).toUInt8

inductive Shape where
  | number
  | eight
  | run
  deriving DecidableEq, Repr

def Shape.code : Shape → Nat
  | number => 0
  | eight => 1
  | run => 2

def tag (field : Nat) (shape : Shape) : Bytes := varint (field * 8 + shape.code).toUInt64

def numberField (field : Nat) (n : UInt64) : Bytes :=
  if n = 0 then [] else tag field .number ++ varint n

def eightField (field : Nat) (n : UInt64) : Bytes :=
  if n = 0 then [] else tag field .eight ++ fixed64 n

def runField (field : Nat) (bytes : Bytes) : Bytes :=
  tag field .run ++ varint bytes.length.toUInt64 ++ bytes

def textField (field : Nat) (bytes : Bytes) : Bytes :=
  if bytes.isEmpty then [] else runField field bytes

def zigzag (n : Int64) : UInt64 :=
  let u := n.toUInt64
  if n < 0 then ~~~(u <<< 1) else u <<< 1

def unzigzag (u : UInt64) : Int64 :=
  (if u % 2 = 0 then u >>> 1 else ~~~(u >>> 1)).toInt64

/-! ### Reading -/

/-- Reads the groups of a number from the given position on; the tenth may hold one bit only. -/
def readGroups : (left : Nat) → (value scale : Nat) → Bytes → Except Error (UInt64 × Bytes)
  | _, _, _, [] => .error .truncated
  | 0, value, scale, b :: rest =>
    if b < 2 then .ok ((value + b.toNat * scale).toUInt64, rest) else .error .overflow
  | left + 1, value, scale, b :: rest =>
    if b < 0x80 then .ok ((value + b.toNat * scale).toUInt64, rest)
    else readGroups left (value + (b.toNat - 128) * scale) (scale * 128) rest

def readVarint (bytes : Bytes) : Except Error (UInt64 × Bytes) := readGroups 9 0 1 bytes

def readRun (count : Nat) (bytes : Bytes) : Except Error (Bytes × Bytes) :=
  let taken := bytes.take count
  if taken.length < count then .error .truncated else .ok (taken, bytes.drop count)

def wordOf (bytes : Bytes) : Nat := bytes.foldr (fun b n => b.toNat + 256 * n) 0

def readTag (bytes : Bytes) : Except Error ((Nat × Nat) × Bytes) := do
  let (n, rest) ← readVarint bytes
  let field := n.toNat / 8
  if field = 0 ∨ Nat.pow 2 31 ≤ field then .error .fieldNumber
  else pure ((field, n.toNat % 8), rest)

structure Field where
  field : Nat
  number : UInt64 := 0
  bytes : Bytes := []
  deriving DecidableEq, Repr

def groupLimit : Nat := 10001

/-- Passes over the rest of the open groups, innermost first; every step takes a byte at least. -/
def skipGroups : (steps : Nat) → (opened : List Nat) → Bytes → Except Error Bytes
  | _, [], bytes => .ok bytes
  | 0, _ :: _, _ => .error .truncated
  | steps + 1, group :: outer, bytes => do
    let ((field, shape), rest) ← readTag bytes
    match shape with
    | 0 => do
      let (_, rest) ← readVarint rest
      skipGroups steps (group :: outer) rest
    | 1 => do
      let (_, rest) ← readRun 8 rest
      skipGroups steps (group :: outer) rest
    | 2 => do
      let (count, rest) ← readVarint rest
      let (_, rest) ← readRun count.toNat rest
      skipGroups steps (group :: outer) rest
    | 3 =>
      if outer.length + 1 < groupLimit then skipGroups steps (field :: group :: outer) rest
      else .error .tooDeep
    | 4 => if field = group then skipGroups steps outer rest else .error .endGroup
    | 5 => do
      let (_, rest) ← readRun 4 rest
      skipGroups steps (group :: outer) rest
    | _ => .error .reserved

def readField (bytes : Bytes) : Except Error (Field × Bytes) := do
  let ((field, shape), rest) ← readTag bytes
  match shape with
  | 0 => do
    let (n, rest) ← readVarint rest
    pure ({ field, number := n }, rest)
  | 1 => do
    let (run, rest) ← readRun 8 rest
    pure ({ field, number := (wordOf run).toUInt64 }, rest)
  | 2 => do
    let (count, rest) ← readVarint rest
    let (run, rest) ← readRun count.toNat rest
    pure ({ field, bytes := run }, rest)
  | 3 => do
    let rest ← skipGroups rest.length [field] rest
    pure ({ field }, rest)
  | 4 => .error .endGroup
  | 5 => do
    let (_, rest) ← readRun 4 rest
    pure ({ field }, rest)
  | _ => .error .reserved

/-- Folds the fields of a message; every field takes a byte at least. -/
def foldWithin {σ : Type} (f : σ → Field → Except Error σ) :
    (fields : Nat) → σ → Bytes → Except Error σ
  | _, s, [] => .ok s
  | 0, _, _ :: _ => .error .truncated
  | fields + 1, s, b :: rest =>
    match readField (b :: rest) with
    | .error e => .error e
    | .ok (field, rest) =>
      match f s field with
      | .error e => .error e
      | .ok s => foldWithin f fields s rest

def fold {σ : Type} (f : σ → Field → Except Error σ) (s : σ) (bytes : Bytes) : Except Error σ :=
  foldWithin f bytes.length s bytes

def readVarints : (count : Nat) → (done : List UInt64) → Bytes → Except Error (List UInt64)
  | _, done, [] => .ok done.reverse
  | 0, _, _ :: _ => .error .truncated
  | count + 1, done, b :: rest =>
    match readVarint (b :: rest) with
    | .error e => .error e
    | .ok (n, rest) => readVarints count (n :: done) rest

end StackML.Wire
