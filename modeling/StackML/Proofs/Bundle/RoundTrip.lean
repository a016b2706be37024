import StackML.Bundle.Basic
import StackML.Proofs.Bundle.Wire

/-!
Bundles are read back as they were written. Each kind of record has its own lemma: the reader starts
from the record whose fields hold nothing and has, after each field, the part that was written so
far. Lengths are written as words, so all of it holds for bundles of fewer than 2^64 bytes, which is
more than a memory holds.
-/

namespace StackML.Bundle

open Wire

theorem readConstant_write (c : Constant) (fits : (writeConstant c).length < 2 ^ 64) :
    readConstant (writeConstant c) = .ok c := by
  have parts : writeConstant c = numberField 1 c.kind.code.toUInt64 ++ (numberField 2 (zigzag c.int) ++
      (eightField 3 c.bits ++ (textField 4 c.str.bytes ++ (textField 5 c.owner.bytes ++
        (textField 6 c.name.bytes ++ (textField 7 c.descriptor.bytes ++ [])))))) := by
    simp [writeConstant]
  have str := length_textField_ge 4 c.str.bytes
  have owner := length_textField_ge 5 c.owner.bytes
  have name := length_textField_ge 6 c.name.bytes
  have descriptor := length_textField_ge 7 c.descriptor.bytes
  rw [parts] at fits ⊢
  simp only [List.length_append] at fits
  apply Folds.fold
  refine .number (by decide) rfl rfl ?_
  change Folds _ { kind := c.kind } _ c
  refine .number (by decide) rfl rfl ?_
  change Folds _ { kind := c.kind, int := unzigzag (zigzag c.int) } _ c
  rw [unzigzag_zigzag]
  refine .eight (by decide) rfl rfl ?_
  change Folds _ { kind := c.kind, int := c.int, bits := c.bits } _ c
  refine .text (by decide) (by omega) rfl rfl ?_
  change Folds _ { c with owner := .empty, name := .empty, descriptor := .empty } _ c
  refine .text (by decide) (by omega) rfl rfl ?_
  change Folds _ { c with name := .empty, descriptor := .empty } _ c
  refine .text (by decide) (by omega) rfl rfl ?_
  change Folds _ { c with descriptor := .empty } _ c
  exact .text (by decide) (by omega) rfl rfl (.nil c)

theorem readMethod_write (m : Method) (fits : (writeMethod m).length < 2 ^ 64) :
    readMethod (writeMethod m) = .ok m := by
  let lines := m.lines.toList.map Int64.toUInt64
  have parts : writeMethod m = textField 1 m.name.bytes ++ (textField 2 m.descriptor.bytes ++
      (numberField 3 m.maxLocals.toUInt64 ++ (runField 4 m.code.toList ++
        (runField 5 (lines.map varint).flatten ++ (textField 6 m.function.bytes ++
          (textField 7 m.signature.bytes ++ [])))))) := by
    simp [writeMethod, lines, Function.comp_def]
  have name := length_textField_ge 1 m.name.bytes
  have descriptor := length_textField_ge 2 m.descriptor.bytes
  have code := length_runField_ge 4 m.code.toList
  have packed := length_runField_ge 5 (lines.map varint).flatten
  have function := length_textField_ge 6 m.function.bytes
  have signature := length_textField_ge 7 m.signature.bytes
  have read : readVarints (lines.map varint).flatten.length [] (lines.map varint).flatten = .ok lines :=
    readVarints_varints lines [] (Nat.le_refl _)
  have back : (#[] ++ (lines.map UInt64.toInt64).toArray : Array Int64) = m.lines := by
    simp [lines, Function.comp_def]
  rw [parts] at fits ⊢
  simp only [List.length_append] at fits
  apply Folds.fold
  refine .text (by decide) (by omega) rfl rfl ?_
  change Folds _ { name := m.name } _ m
  refine .text (by decide) (by omega) rfl rfl ?_
  change Folds _ { name := m.name, descriptor := m.descriptor } _ m
  refine .number (by decide) rfl rfl ?_
  change Folds _ { name := m.name, descriptor := m.descriptor, maxLocals := m.maxLocals } _ m
  refine .run (by decide) (by omega) rfl ?_
  change Folds _ { m with lines := #[], function := .empty, signature := .empty } _ m
  refine .run (by decide) (by omega) (by dsimp only; rw [read]; rfl) ?_
  rw [back]
  refine .text (by decide) (by omega) rfl rfl ?_
  change Folds _ { m with signature := .empty } _ m
  exact .text (by decide) (by omega) rfl rfl (.nil m)

theorem readField_write (d : StackML.Field) (fits : (writeField d).length < 2 ^ 64) :
    readField (writeField d) = .ok d := by
  have parts : writeField d = textField 1 d.name.bytes ++ (textField 2 d.descriptor.bytes ++ []) := by
    simp [writeField]
  have name := length_textField_ge 1 d.name.bytes
  have descriptor := length_textField_ge 2 d.descriptor.bytes
  rw [parts] at fits ⊢
  simp only [List.length_append] at fits
  apply Folds.fold
  refine .text (by decide) (by omega) rfl rfl ?_
  change Folds _ { name := d.name } _ d
  exact .text (by decide) (by omega) rfl rfl (.nil d)

theorem readArtifact_write (a : Artifact) (fits : (writeArtifact a).length < 2 ^ 64) :
    readArtifact (writeArtifact a) = .ok a := by
  let payload : UInt64 := if a.payload then 1 else 0
  let only (r : Artifact) : Artifact × List Method × List StackML.Field := (r, [], [])
  have parts : writeArtifact a = textField 1 a.name.bytes ++ (numberField 2 a.kind.code.toUInt64 ++
      (textField 3 a.sum.bytes ++ (numberField 4 a.tag.toUInt64 ++ (numberField 5 payload ++
        (listField 6 writeConstant a.constants.toList ++ (listField 7 writeMethod a.methods ++
          (listField 8 writeField a.fields ++ []))))))) := by
    simp [writeArtifact, payload, listField]
  have name := length_textField_ge 1 a.name.bytes
  have sum := length_textField_ge 3 a.sum.bytes
  have given : (payload != 0) = a.payload := by
    cases flag : a.payload <;> simp [payload, flag]
  rw [parts] at fits ⊢
  simp only [List.length_append] at fits
  have constants : ∀ c ∈ a.constants.toList, (writeConstant c).length < 2 ^ 64 := by
    intro c inside
    have := length_entry_le 6 writeConstant inside
    omega
  have methods : ∀ m ∈ a.methods, (writeMethod m).length < 2 ^ 64 := by
    intro m inside
    have := length_entry_le 7 writeMethod inside
    omega
  have fields : ∀ d ∈ a.fields, (writeField d).length < 2 ^ 64 := by
    intro d inside
    have := length_entry_le 8 writeField inside
    omega
  let plain : Artifact := { a with methods := [], fields := [] }
  refine (Folds.bind (plain, a.methods.reverse, a.fields.reverse) ?_).trans ?_
  · refine .text (by decide) (by omega) rfl rfl ?_
    change Folds _ (only { name := a.name }) _ _
    refine .number (by decide) rfl rfl ?_
    change Folds _ (only { name := a.name, kind := a.kind }) _ _
    refine .text (by decide) (by omega) rfl rfl ?_
    change Folds _ (only { name := a.name, kind := a.kind, sum := a.sum }) _ _
    refine .number (by decide) rfl rfl ?_
    change Folds _ (only { name := a.name, kind := a.kind, sum := a.sum, tag := a.tag }) _ _
    refine .number (by decide) rfl rfl ?_
    change Folds _ (only { a with
      payload := payload != 0, constants := [].toArray, methods := [], fields := [] }) _ _
    rw [given]
    refine .all (by decide) (fun done =>
      only { a with constants := done.toArray, methods := [], fields := [] }) constants ?_ ?_
    · intro done c inside
      dsimp only
      rw [readConstant_write c (constants c inside)]
      simp [only, bind, Except.bind, pure, Except.pure]
    change Folds _ (plain, [].reverse, []) _ _
    refine .all (by decide) (fun done => (plain, done.reverse, [])) methods ?_ ?_
    · intro done m inside
      dsimp only
      rw [readMethod_write m (methods m inside)]
      simp [bind, Except.bind, pure, Except.pure]
    change Folds _ (plain, a.methods.reverse, [].reverse) _ _
    refine .all (by decide) (fun done => (plain, a.methods.reverse, done.reverse)) fields ?_ (.nil _)
    intro done d inside
    dsimp only
    rw [readField_write d (fields d inside)]
    simp [bind, Except.bind, pure, Except.pure]
  · simp only [List.reverse_reverse]
    rfl

/-- What is written for a bundle is read back as the same bundle, all texts, numbers, bits and lists
included. -/
theorem deserialize_serialize (b : Bundle) (fits : b.serialize.length < 2 ^ 64) :
    deserialize b.serialize = .ok b := by
  let body := runField 1 b.module.bytes ++ (listField 2 writeArtifact b.artifacts ++ [])
  have parts : b.serialize = magic ++ version :: body := by
    simp [serialize, body, listField]
  rw [parts] at fits ⊢
  simp only [List.length_append, List.length_cons, body] at fits
  have module := length_runField_ge 1 b.module.bytes
  have artifacts : ∀ a ∈ b.artifacts, (writeArtifact a).length < 2 ^ 64 := by
    intro a inside
    have := length_entry_le 2 writeArtifact inside
    omega
  have long : ¬((magic ++ version :: body).length < 5 ∨ (magic ++ version :: body).take 4 ≠ magic) := by
    simp [magic]
  have behind : (magic ++ version :: body).drop 4 = version :: body := rfl
  unfold deserialize
  rw [if_neg long, behind]
  dsimp only
  rw [if_neg (not_not_intro rfl), Folds.fold (b.module, b.artifacts.reverse)]
  · simp only [List.reverse_reverse]
  · refine .run (by decide) (by omega) rfl ?_
    change Folds _ (b.module, [].reverse) _ _
    refine .all (by decide) (fun done => (b.module, done.reverse)) artifacts ?_ (.nil _)
    intro done a inside
    dsimp only
    rw [readArtifact_write a (artifacts a inside)]
    simp [bind, Except.bind, pure, Except.pure]

/-- Bytes that are no characters, words below zero, the bits of -0.0 and of a NaN with a payload,
and entries that hold nothing at all. -/
def oddBundle : Bundle where
  module := ⟨[0xFF, 0x00]⟩
  artifacts := [
    { name := ⟨[0x4D, 0xC3]⟩, tag := -7, payload := true
      constants := #[{ kind := .double, bits := 0x8000000000000000 }, { kind := .int, int := -2 },
        { kind := ⟨-1⟩, bits := 0x7FF8000000000001, str := ⟨[0x80]⟩ }, { kind := .int }]
      methods := [{}, { maxLocals := -1, code := #[0, 255], lines := #[-3, 0, 300] }]
      fields := [{}] },
    {}]

theorem deserialize_serialize_odd : oddBundle.serialize.length < 2 ^ 64 ∧
    deserialize oddBundle.serialize = .ok oddBundle :=
  ⟨by decide +kernel, deserialize_serialize oddBundle (by decide +kernel)⟩

end StackML.Bundle
