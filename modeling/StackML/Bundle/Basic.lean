import StackML.Bundle.Wire
import StackML.Machine.Artifact

/-!
Bundles: the stored form of a compiled module, its module artifact followed by its holders. A bundle
starts with four letters and a version byte; the rest is one message. Fields that hold nothing are
left out when writing, and when reading a field given twice counts the last time, unless it is one
of a list.
-/

namespace StackML

structure Bundle where
  module : Text := .empty
  artifacts : List Artifact := []
  deriving DecidableEq, Repr, Inhabited

namespace Bundle

inductive Error where
  | notABundle
  | version (found : UInt8)
  | malformed (cause : Wire.Error)
  deriving DecidableEq, Repr

def Error.message : Error → String
  | notABundle => "not a miniml bundle"
  | version found => "unsupported bundle version " ++ toString found.toNat
  | malformed cause => "bundle decoding failed: " ++ cause.message

def magic : List UInt8 := [0x4D, 0x4D, 0x4C, 0x42]

def version : UInt8 := 1

/-! ### Writing -/

def writeConstant (c : Constant) : Wire.Bytes :=
  Wire.numberField 1 c.kind.code.toUInt64 ++ Wire.numberField 2 (Wire.zigzag c.int) ++
    Wire.eightField 3 c.bits ++ Wire.textField 4 c.str.bytes ++ Wire.textField 5 c.owner.bytes ++
    Wire.textField 6 c.name.bytes ++ Wire.textField 7 c.descriptor.bytes

def writeMethod (m : Method) : Wire.Bytes :=
  Wire.textField 1 m.name.bytes ++ Wire.textField 2 m.descriptor.bytes ++
    Wire.numberField 3 m.maxLocals.toUInt64 ++ Wire.runField 4 m.code.toList ++
    Wire.runField 5 (m.lines.toList.map fun l => Wire.varint l.toUInt64).flatten ++
    Wire.textField 6 m.function.bytes ++ Wire.textField 7 m.signature.bytes

def writeField (f : Field) : Wire.Bytes :=
  Wire.textField 1 f.name.bytes ++ Wire.textField 2 f.descriptor.bytes

def writeArtifact (a : Artifact) : Wire.Bytes :=
  Wire.textField 1 a.name.bytes ++ Wire.numberField 2 a.kind.code.toUInt64 ++
    Wire.textField 3 a.sum.bytes ++ Wire.numberField 4 a.tag.toUInt64 ++
    Wire.numberField 5 (if a.payload then 1 else 0) ++
    (a.constants.toList.map fun c => Wire.runField 6 (writeConstant c)).flatten ++
    (a.methods.map fun m => Wire.runField 7 (writeMethod m)).flatten ++
    (a.fields.map fun f => Wire.runField 8 (writeField f)).flatten

def serialize (b : Bundle) : List UInt8 :=
  magic ++ version :: Wire.runField 1 b.module.bytes ++
    (b.artifacts.map fun a => Wire.runField 2 (writeArtifact a)).flatten

/-! ### Reading -/

def readConstant (bytes : Wire.Bytes) : Except Wire.Error Constant :=
  Wire.fold (fun c f => .ok <| match f.field with
    | 1 => { c with kind := ⟨f.number.toInt64⟩ }
    | 2 => { c with int := Wire.unzigzag f.number }
    | 3 => { c with bits := f.number }
    | 4 => { c with str := ⟨f.bytes⟩ }
    | 5 => { c with owner := ⟨f.bytes⟩ }
    | 6 => { c with name := ⟨f.bytes⟩ }
    | 7 => { c with descriptor := ⟨f.bytes⟩ }
    | _ => c) { kind := .int } bytes

def readMethod (bytes : Wire.Bytes) : Except Wire.Error Method :=
  Wire.fold (fun (m : Method) f => match f.field with
    | 1 => .ok { m with name := ⟨f.bytes⟩ }
    | 2 => .ok { m with descriptor := ⟨f.bytes⟩ }
    | 3 => .ok { m with maxLocals := f.number.toInt64 }
    | 4 => .ok { m with code := f.bytes.toArray }
    | 5 => do
      let lines ← Wire.readVarints f.bytes.length [] f.bytes
      pure { m with lines := m.lines ++ (lines.map UInt64.toInt64).toArray }
    | 6 => .ok { m with function := ⟨f.bytes⟩ }
    | 7 => .ok { m with signature := ⟨f.bytes⟩ }
    | _ => .ok m) {} bytes

def readField (bytes : Wire.Bytes) : Except Wire.Error Field :=
  Wire.fold (fun (d : Field) f => .ok <| match f.field with
    | 1 => { d with name := ⟨f.bytes⟩ }
    | 2 => { d with descriptor := ⟨f.bytes⟩ }
    | _ => d) {} bytes

def readArtifact (bytes : Wire.Bytes) : Except Wire.Error Artifact := do
  -- list entries are gathered in reverse
  let (a, methods, fields) ← Wire.fold (fun (s : Artifact × List Method × List Field) f =>
    let (a, methods, fields) := s
    match f.field with
    | 1 => .ok ({ a with name := ⟨f.bytes⟩ }, methods, fields)
    | 2 => .ok ({ a with kind := ⟨f.number.toInt64⟩ }, methods, fields)
    | 3 => .ok ({ a with sum := ⟨f.bytes⟩ }, methods, fields)
    | 4 => .ok ({ a with tag := f.number.toInt64 }, methods, fields)
    | 5 => .ok ({ a with payload := f.number != 0 }, methods, fields)
    | 6 => do
      let c ← readConstant f.bytes
      pure ({ a with constants := a.constants.push c }, methods, fields)
    | 7 => do
      let m ← readMethod f.bytes
      pure (a, m :: methods, fields)
    | 8 => do
      let d ← readField f.bytes
      pure (a, methods, d :: fields)
    | _ => .ok (a, methods, fields)) ({}, [], []) bytes
  pure { a with methods := methods.reverse, fields := fields.reverse }

def deserialize (data : List UInt8) : Except Error Bundle :=
  if data.length < 5 ∨ data.take 4 ≠ magic then .error .notABundle
  else
    match data.drop 4 with
    | [] => .error .notABundle
    | v :: body =>
      if v ≠ version then .error (.version v)
      else
        let read := Wire.fold (fun (s : Text × List Artifact) f => match f.field with
          | 1 => .ok (⟨f.bytes⟩, s.2)
          | 2 => do
            let a ← readArtifact f.bytes
            pure (s.1, a :: s.2)
          | _ => .ok s) (.empty, []) body
        match read with
        | .ok (module, artifacts) => .ok ⟨module, artifacts.reverse⟩
        | .error e => .error (.malformed e)

end Bundle
end StackML
