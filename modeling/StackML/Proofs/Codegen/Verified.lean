import StackML.Host.WellKnown
import StackML.Proofs.Codegen.Describing
import StackML.Proofs.Codegen.Shapes.Lawful

/-!
Compiled methods pass the verifier. All paths to an instruction agree on the operand stack, nothing is
taken at the wrong kind, calls are as their descriptors say and a return finds the result of its method.
-/

namespace StackML

open Codegen Verify

theorem Verify.Shape.of_exchange {s t : Shape} {before after : List Kind} (h : s.exchange before after = some t) :
    ∃ rest, s.stack = before ++ rest ∧ t.stack = after ++ rest := by
  unfold Shape.exchange at h
  split at h
  · next found =>
    obtain ⟨rest, same⟩ := found
    cases h
    exact ⟨rest, same.symm, by rw [← same, List.drop_left]⟩
  · cases h

theorem Method.Verifies.verified {payload : Constant → Option Bool} {constants : Array Constant} {m : Method}
    (h : m.Verifies payload constants) (bounded : m.descriptor.length < Descriptor.limit)
    (room : m.maxLocals.toInt ≤ 65536) (short : m.code.size ≤ 65535) : m.Verified payload constants := by
  obtain ⟨n, locals, small, verified⟩ := h
  refine verified constants (.refl _) ?_ short
  rw [Descriptor.limit] at bounded
  rw [locals, Int64.toInt_ofNat_of_lt (by omega)] at room
  exact Int.ofNat_le.1 room

namespace Host

theorem hostPlain_ofTable {t : Table} (named : ∀ s ∈ t.values, Distinct s.member ∧ '(' ∉ s.owner.toList ∧
    (∀ p ∈ s.params, p.isLegible) ∧ s.result.isLegible) : HostPlain (.ofTable t) := by
  have listed {owner member : String} {kind : MemberKind} {s : Signature}
      (found : Resolver.ofTable t owner member kind = .ok s) : s.kind = kind ∧ s ∈ t.values := by
    unfold Resolver.ofTable Table.find at found
    dsimp only at found
    split at found
    · next s' here =>
      split at found
      · next same =>
        cases found
        exact ⟨same, NameMap.mem_values_of_get? here⟩
      · cases found
    · cases found
  exact ⟨fun found => (listed found).1, fun found => (named _ (listed found).2).1,
    fun found => (named _ (listed found).2).2.1, fun found => (named _ (listed found).2).2.2⟩

theorem hostClosed_ofTable {t : Table} (closed : ∀ s ∈ t.values, ∀ p ∈ s.result :: s.params,
    p.isMono ∧ p.occurrences = []) : Typing.HostClosed (.ofTable t) := by
  intro owner member kind s found
  unfold Resolver.ofTable Table.find at found
  dsimp only at found
  split at found
  · next s' here =>
    split at found
    · cases found
      exact closed _ (NameMap.mem_values_of_get? here)
    · cases found
  · cases found

end Host

namespace Codegen

open Verify
open Typing (Typed Checked)

variable {host : Host.Resolver} {importer : Option Typing.Importer} {m : Module Position} {c : Checked}

/-- A function that is used at a type of its own, with a function that captures. -/
def scaleModule : Module Position where
  note := default
  name := "M"
  imports := []
  decls := [.value ⟨default, "half", .float default 4602678819172646912⟩,
    .fn ⟨default, "map", [⟨"f", none⟩, ⟨"r", none⟩], none,
      .matchOn default (.var default "r")
        [.mk (.build default "Ok" (.var default "x"))
            (.build default "Ok" (.apply default (.var default "f") [.var default "x"])),
          .mk (.build default "Error" (.var default "e")) (.build default "Error" (.var default "e"))]⟩]
  main := some <|
    .letIn default "step" (.int default 3) <|
    .print default (.apply default (.var default "map")
      [.lambda default ["x"] (.binary default .mul
        (.hostCall default "math" "Sqrt" [.binary default .add (.var default "x") (.var default "half")])
        (.var default "step")),
        .cond default (.binary default .lt (.var default "half") (.float default 4611686018427387904))
          (.build default "Ok" (.var default "half")) (.build default "Error" (.str default "large"))])

/-- A function whose parameter has a type with a semicolon in its name. -/
def partedModule : Module Position where
  note := default
  name := "M"
  imports := []
  decls := [.type ⟨default, "a;Lb", [], [⟨"A", none⟩]⟩,
    .fn ⟨default, "f", [⟨"x", some (.named "a;Lb")⟩], none, .int default 1⟩]
  main := some (.apply default (.var default "f") [.tag default "A"])

end Codegen
end StackML
