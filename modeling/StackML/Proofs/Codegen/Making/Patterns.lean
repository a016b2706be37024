import StackML.Proofs.Codegen.Bindings
import StackML.Proofs.Codegen.Making.Names

/-!
The code of matches. A jump out of a row of tests lands behind the jump that ends the case; put behind
each other, the cases have no jump left that leaves them.
-/

namespace StackML

namespace Fragment

variable {a b : Fragment} {beyond : Nat}

theorem Lands.closed_append (first : Lands a beyond) (inside : Boundary b beyond) (second : Closed b) :
    Closed (a ++ b) := by
  induction a with
  | nil => exact second
  | cons i a ih =>
    refine ⟨fun d jump => .inl ?_, ih first.2⟩
    rcases first.1 d jump with within | rfl
    · exact within.append b
    · obtain ⟨front, back, rfl, rfl⟩ := inside
      exact ⟨a ++ front, back, (List.append_assoc _ _ _).symm, size_append _ _⟩

end Fragment

namespace Codegen

open Fragment (Closed Lands Boundary)
open Typing (Typed Checked)

variable {c : Checked} {ctx : Context} {room : Nat} {front : Fragment}

/-! ### Tests -/

def stretches (tests : List Test) : Fragment :=
  tests.flatMap fun
    | .code code => code
    | .orElse _ => []

theorem stretches_append (a b : List Test) : stretches (a ++ b) = stretches a ++ stretches b :=
  List.flatMap_append

inductive Test.Closed : Test → Prop where
  | code {code} : Fragment.Closed code → Closed (.code code)
  | orElse {op line} : op.operands = .jump → Closed (.orElse fun d => ⟨op, .jump d, line⟩)

def Product.tests : Product (List Test) := ⟨stretches, fun tests => ∀ t ∈ tests, t.Closed⟩

variable {tests : List Test} {after : Nat}

theorem testCode_lands (closed : ∀ t ∈ tests, t.Closed) : Lands (testCode after tests) after := by
  induction tests with
  | nil => trivial
  | cons t tests ih =>
    rw [List.forall_mem_cons] at closed
    have rest := ih closed.2
    cases closed.1 with
    | code inside => exact (Fragment.Closed.lands inside _).append rest
    | orElse =>
      rw [testCode_orElse]
      exact ⟨fun d jump => .inr (Operand.jump.inj jump).symm, rest⟩

theorem mem_testCode (closed : ∀ t ∈ tests, t.Closed) {i : Instr} (inside : i ∈ testCode after tests) :
    i ∈ stretches tests ∨ IsJump i := by
  induction tests with
  | nil => exact absurd inside List.not_mem_nil
  | cons t tests ih =>
    rw [List.forall_mem_cons] at closed
    cases closed.1 with
    | code _ =>
      rcases List.mem_append.1 inside with here | behind
      · exact .inl (List.mem_append_left _ here)
      · exact (ih closed.2 behind).imp_left (List.mem_append_right _)
    | orElse kind =>
      rw [testCode_orElse] at inside
      rcases List.mem_cons.1 inside with rfl | behind
      · exact .inr ⟨_, _, _, kind, rfl⟩
      · exact ih closed.2 behind

theorem size_stretches_le (after : Nat) (tests : List Test) :
    Fragment.size (stretches tests) ≤ (testCode after tests).size := by
  induction tests with
  | nil => exact Nat.le_refl 0
  | cons t tests ih =>
    cases t with
    | code code =>
      change Fragment.size (code ++ stretches tests) ≤ _
      rw [testCode_code, Fragment.size_append, Fragment.size_append]
      exact Nat.add_le_add_left ih _
    | orElse leave =>
      rw [testCode_orElse, size_cons]
      exact Nat.le_trans ih (Nat.le_add_left _ _)

/-! ### Patterns -/

theorem emits_orElse {op : Opcode} {code : Fragment} (kind : op.operands = .jump)
    (closed : Closed code) (same : front = code) :
    Emits c room front .tests (do pure [.code code, .orElse (← jump op)]) := by
  refine (silent_jump op).skip ?_
  rintro leave ⟨line, rfl⟩
  subst same
  refine .done (List.append_nil _).symm ?_
  simp only [Product.tests, List.forall_mem_cons, List.not_mem_nil, false_implies, implies_true,
    and_true]
  exact ⟨.code closed, .orElse kind⟩

theorem emits_testPart {source : Local} {op : Opcode} {p : Pattern Typed}
    {test : Local → Gen (List Test)} (placed : source.Placed room) (kind : op.operands = .none)
    (each : ∀ room l, l.Placed room → Emits ctx.checked room [] .tests (test l)) :
    Emits ctx.checked room [] .tests (testPart ctx source op p test) := by
  unfold testPart
  refine .ite (fun _ => .done rfl (List.forall_mem_nil _)) fun _ => (silent_repOf _).skip fun r held => ?_
  refine (emits_load placed).bind fun whole c₁ => (emits_emit kind).bind fun part c₂ =>
    (emits_coerce .ref r).bind fun code c₃ => .define held fun l keep room' _ placed' c₄ =>
      (each room' l placed').bind fun tests closed => .done rfl ?_
  exact List.forall_mem_cons.2 ⟨.code (((c₁.append c₂).append c₃).append c₄), closed⟩

theorem emits_testPattern (p : Pattern Typed) (room : Nat) (source : Local)
    (placed : source.Placed room) : Emits ctx.checked room [] .tests (testPattern ctx source p) := by
  induction p generalizing room source with
  | wild n => exact .done rfl (List.forall_mem_nil _)
  | var n name =>
    refine .of_run fun s tests s' sane fits ok => ?_
    cases ok
    refine ⟨.of_same (.refl _) rfl rfl ?_, List.forall_mem_nil _⟩
    have placed := placed.mono fits
    exact { sane with
      locals := sane.locals.push ⟨placed.plain, placed.positive, placed.held, placed.below⟩ }
  | int n v =>
    exact (emits_load placed).bind fun _ c₁ => (emits_constant rfl rfl (by decide)).bind fun _ c₂ =>
      emits_orElse rfl (c₁.append c₂) rfl
  | bool n v =>
    exact (emits_load placed).bind fun _ c₁ => (emits_byte rfl _).bind fun _ c₂ =>
      emits_orElse rfl (c₁.append c₂) rfl
  | str n v =>
    exact (emits_load placed).bind fun _ c₁ => (emits_constant rfl rfl (by decide)).bind fun _ c₂ =>
      (emits_emitConst rfl rfl fun _ => rfl).bind fun _ c₃ => emits_orElse rfl ((c₁.append c₂).append c₃) rfl
  | nil n =>
    exact (emits_load placed).bind fun _ c₁ => (emits_emit rfl).bind fun _ c₂ =>
      emits_orElse rfl (c₁.append c₂) rfl
  | cons n head tail ihHead ihTail =>
    refine (emits_load placed).bind fun l c₁ => (emits_emit rfl).bind fun e c₂ =>
      (silent_jump .ifNe).skip ?_
    rintro leave ⟨line, rfl⟩
    refine (emits_testPart placed rfl fun room l => ihHead room l).bind fun heads c₃ =>
      (emits_testPart placed rfl fun room l => ihTail room l).bind fun tails c₄ => .done ?_ ?_
    · change [] ++ l ++ e ++ stretches heads ++ stretches tails =
        (l ++ e) ++ ([] ++ stretches (heads ++ tails))
      simp only [stretches_append, List.nil_append, List.append_assoc]
    · refine List.forall_mem_cons.2 ⟨.code (c₁.append c₂), List.forall_mem_cons.2 ⟨.orElse rfl, ?_⟩⟩
      exact List.forall_mem_append.2 ⟨c₃, c₄⟩
  | tag n name =>
    refine (silent_holderRef name).skip fun holder kind => ?_
    have expected : Opcode.instanceof.constantKind? = some holder.kind := by rw [kind]; rfl
    exact (emits_load placed).bind fun _ c₁ => (emits_constant rfl expected (by decide)).bind fun _ c₂ =>
      emits_orElse rfl (c₁.append c₂) rfl
  | build n name arg ih =>
    refine (silent_holderRef name).skip fun holder kind => ?_
    have expected : Opcode.instanceof.constantKind? = some holder.kind := by rw [kind]; rfl
    refine (emits_load placed).bind fun l c₁ => (emits_constant rfl expected (by decide)).bind fun i c₂ =>
      (silent_jump .ifEq).skip ?_
    rintro leave ⟨line, rfl⟩
    refine (emits_testPart placed rfl fun room l => ih room l).bind fun args c₃ => .done ?_ ?_
    · change [] ++ l ++ i ++ stretches args = (l ++ i) ++ ([] ++ stretches args)
      simp only [List.nil_append, List.append_assoc]
    · exact List.forall_mem_cons.2 ⟨.code (c₁.append c₂), List.forall_mem_cons.2 ⟨.orElse rfl, c₃⟩⟩

/-! ### Cases -/

structure Case.Leaves (c : Case) : Prop where
  lands : Lands c.code 3
  done : ∃ line, c.done = fun d => ⟨.goto, .jump d, line⟩

def Product.case : Product Case := ⟨Case.code, Case.Leaves⟩

def caseCode (cases : List Case) : Fragment := cases.flatMap Case.code

def Product.cases : Product (List Case) := ⟨caseCode, fun cases => ∀ c ∈ cases, c.Leaves⟩

variable {otherwise : Fragment} {cases : List Case}

theorem emits_case {body : Fragment} (closed : ∀ t ∈ tests, t.Closed) (inner : Closed body) :
    Emits c room (stretches tests ++ body) .case (do pure (Case.of tests body (← jump .goto))) := by
  refine (silent_jump .goto).skip ?_
  rintro leave ⟨line, rfl⟩
  have lands : Lands (testCode (body.size + 3) tests) (body.size + 3) := testCode_lands closed
  refine .pure (fun i inside => ?_) ?_ ⟨lands.append (inner.lands 3), line, rfl⟩
  · rcases List.mem_append.1 inside with test | inside
    · exact (mem_testCode closed test).imp_left (List.mem_append_left _)
    · exact .inl (List.mem_append_right _ inside)
  · change Fragment.size (stretches tests ++ body) ≤ Fragment.size (_ ++ body)
    rw [Fragment.size_append, Fragment.size_append]
    exact Nat.add_le_add_right (size_stretches_le _ tests) _

theorem closed_joinCases (each : ∀ c ∈ cases, c.Leaves) (closed : Closed otherwise) :
    Closed (joinCases otherwise cases) := by
  induction cases with
  | nil => exact closed
  | cons c cases ih =>
    rw [List.forall_mem_cons] at each
    obtain ⟨lands, line, leave⟩ := each.1
    have rest := ih each.2
    rw [joinCases_cons, leave]
    exact lands.closed_append ⟨[_], _, rfl, rfl⟩
      (rest.jump .goto line (Fragment.boundary_size _))

theorem mem_joinCases (each : ∀ c ∈ cases, c.Leaves) {i : Instr}
    (inside : i ∈ joinCases otherwise cases) :
    i ∈ caseCode cases ++ otherwise ∨ IsJump i := by
  induction cases with
  | nil => exact .inl inside
  | cons c cases ih =>
    rw [List.forall_mem_cons] at each
    obtain ⟨_, line, leave⟩ := each.1
    rw [joinCases_cons, leave, List.mem_append, List.mem_cons] at inside
    change i ∈ (c.code ++ caseCode cases) ++ otherwise ∨ _
    rw [List.append_assoc]
    rcases inside with here | rfl | behind
    · exact .inl (List.mem_append_left _ here)
    · exact .inr ⟨.goto, _, line, rfl, rfl⟩
    · exact (ih each.2 behind).imp_left (List.mem_append_right _)

theorem size_le_joinCases (otherwise : Fragment) (cases : List Case) :
    Fragment.size (caseCode cases ++ otherwise) ≤ (joinCases otherwise cases).size := by
  induction cases with
  | nil => exact Nat.le_refl _
  | cons c cases ih =>
    change Fragment.size ((c.code ++ caseCode cases) ++ otherwise) ≤ _
    rw [joinCases_cons, List.append_assoc, Fragment.size_append c.code, Fragment.size_append c.code,
      size_cons]
    exact Nat.add_le_add_left (Nat.le_trans ih (Nat.le_add_left _ _)) _

theorem emits_joinCases {before : Fragment} (hb : Closed before) (hc : ∀ c ∈ cases, c.Leaves)
    (ho : Closed otherwise) :
    Emits c room (before ++ caseCode cases ++ otherwise) .fragment
      (pure (before ++ joinCases otherwise cases)) := by
  rw [List.append_assoc]
  refine .pure (fun i inside => ?_) ?_ (hb.append (closed_joinCases hc ho))
  · rcases List.mem_append.1 inside with first | behind
    · exact .inl (List.mem_append_left _ first)
    · exact (mem_joinCases hc behind).imp_left (List.mem_append_right _)
  · change Fragment.size _ ≤ Fragment.size (before ++ joinCases otherwise cases)
    rw [Fragment.size_append before, Fragment.size_append before]
    exact Nat.add_le_add_left (size_le_joinCases otherwise cases) _

end Codegen
end StackML
