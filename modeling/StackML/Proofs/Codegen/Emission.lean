import StackML.Codegen.Expr
import StackML.Proofs.Codegen.Pool
import StackML.Proofs.Computation
import StackML.Proofs.Machine.Instructions

/-!
What the generation of code leaves in its state. Code of an expression only adds constants and local
words: the names in scope and the next free slot are as before. Inside a scope names are added in
front of the others.
-/

namespace StackML.Codegen

variable {module : String} {ctx : Context} {s s' s'' : State}

structure Grows (module : String) (s s' : State) : Prop where
  same : s' = { s with locals := s'.locals, line := s'.line, pool := s'.pool }
  plain : s.pool.Plain module → s'.pool.Plain module
  pool : s.pool.Plain module → s.pool.entries.toList <+: s'.pool.entries.toList
  max : s.locals.max ≤ s'.locals.max

structure Opens (module : String) (s s' : State) : Prop extends Grows module s s' where
  inner : s.locals.entries <:+ s'.locals.entries
  next : s.locals.next ≤ s'.locals.next

structure Settles (module : String) (s s' : State) : Prop extends Grows module s s' where
  entries : s'.locals.entries = s.locals.entries
  next : s'.locals.next = s.locals.next

theorem Grows.refl (s : State) : Grows module s s :=
  ⟨rfl, id, fun _ => List.prefix_rfl, Nat.le_refl _⟩

theorem Grows.trans (first : Grows module s s') (second : Grows module s' s'') :
    Grows module s s'' := by
  refine ⟨?_, second.plain ∘ first.plain, fun plain => ?_, Nat.le_trans first.max second.max⟩
  · rw [second.same, first.same]
  · exact (first.pool plain).trans (second.pool (first.plain plain))

theorem Opens.trans (first : Opens module s s') (second : Opens module s' s'') :
    Opens module s s'' :=
  ⟨first.toGrows.trans second.toGrows, first.inner.trans second.inner, Nat.le_trans first.next second.next⟩

theorem Settles.refl (s : State) : Settles module s s := ⟨.refl s, rfl, rfl⟩

theorem Settles.trans (first : Settles module s s') (second : Settles module s' s'') :
    Settles module s s'' :=
  ⟨first.toGrows.trans second.toGrows, second.entries.trans first.entries,
    second.next.trans first.next⟩

theorem Settles.opens (h : Settles module s s') : Opens module s s' :=
  ⟨h.toGrows, h.entries ▸ List.suffix_rfl, Nat.le_of_eq h.next.symm⟩

/-! ### Instructions -/

theorem size_cons (i : Instr) (code : Fragment) :
    Fragment.size (i :: code) = i.size + Fragment.size code := rfl

@[simp] theorem size_nil : Fragment.size [] = 0 := rfl

theorem size_jump (op : Opcode) (d : Nat) (line : Int) : Instr.size ⟨op, .jump d, line⟩ = 3 := rfl

theorem size_single (i : Instr) : Fragment.size [i] = i.size := rfl

theorem settles_line (s : State) (line : Int) : Settles module s { s with line } :=
  ⟨⟨rfl, id, fun _ => List.prefix_rfl, Nat.le_refl _⟩, rfl, rfl⟩

theorem atLine_settles {n : Typing.Typed} {u : Unit} (run : atLine n s = .ok u s') :
    Settles module s s' := by
  unfold atLine at run
  split at run
  · cases run
    exact settles_line s _
  · cases run
    exact .refl s

theorem emitWith_ok {op : Opcode} {operand : Operand} {code : Fragment}
    (run : emitWith op operand s = .ok code s') : code = [⟨op, operand, s.line⟩] ∧ s = s' := by
  cases run
  exact ⟨rfl, rfl⟩

theorem emit_ok {op : Opcode} {code : Fragment} (run : emit op s = .ok code s') :
    code = [⟨op, .none, s.line⟩] ∧ s = s' := emitWith_ok run

theorem jump_ok {op : Opcode} {leave : Nat → Instr} (run : jump op s = .ok leave s') :
    (leave = fun distance => ⟨op, .jump distance, s.line⟩) ∧ s = s' := by
  cases run
  exact ⟨rfl, rfl⟩

theorem fail_ok {α : Type} {a : α} {d : Defect} (run : fail d s = .ok a s') : False := by
  cases run

theorem liftDefect_ok {α : Type} {x : Except Defect α} {a : α} (run : liftDefect x s = .ok a s') :
    x = .ok a ∧ s = s' := by
  cases x with
  | ok b =>
    cases run
    exact ⟨rfl, rfl⟩
  | error d => cases run

theorem repOf_ok {n : Typing.Typed} {r : Rep} (run : repOf ctx n s = .ok r s') :
    Rep.ofTy (ctx.typeOf n) = .ok r ∧ s = s' := liftDefect_ok run

theorem constant_ok {k : Constant} {i : Nat} (named : module ≠ "") (plain : k.Plain module)
    (run : constant ctx k s = .ok i s') :
    Settles module s s' ∧ (s.pool.Plain module → s'.pool.entries[i]? = some k) := by
  unfold constant at run
  obtain ⟨pool, s₁, runG, run⟩ := bind_ok run
  cases runG
  cases added : s.pool.add k with
  | none =>
    simp only [added] at run
    exact (fail_ok run).elim
  | some e =>
    obtain ⟨j, pool⟩ := e
    simp only [added] at run
    cases run
    exact ⟨⟨⟨rfl, fun old => (old.add named plain added).1, fun old => (old.add named plain added).2.2,
      Nat.le_refl _⟩, rfl, rfl⟩, fun old => (old.add named plain added).2.1⟩

theorem emitConst_ok {op : Opcode} {k : Constant} {code : Fragment} (named : module ≠ "")
    (plain : k.Plain module) (run : emitConst ctx op k s = .ok code s') :
    ∃ i, code = [⟨op, .word (i : Nat), s'.line⟩] ∧ Settles module s s' ∧
      (s.pool.Plain module → s'.pool.entries[i]? = some k) := by
  unfold emitConst at run
  obtain ⟨i, s₁, runC, run⟩ := bind_ok run
  obtain ⟨settles, found⟩ := constant_ok named plain runC
  obtain ⟨rfl, rfl⟩ := emitWith_ok run
  exact ⟨i, rfl, settles, found⟩

theorem drop_ok {r : Rep} {code : Fragment} (run : drop r s = .ok code s') : s = s' := by
  cases r <;> cases run <;> rfl

theorem coerce_ok {source target : Rep} {code : Fragment}
    (run : coerce source target s = .ok code s') : s = s' := by
  cases source <;> cases target <;> cases run <;> rfl

theorem boolFromJump_ok {op : Opcode} {code : Fragment} (run : boolFromJump op s = .ok code s') :
    s = s' := by
  cases run
  rfl

/-! ### Scopes -/

theorem define_ok {name : String} {r : Rep} {l : Local} (run : define name r s = .ok l s') :
    l = ⟨name, s.locals.next, r, none⟩ ∧
      s' = { s with locals := (s.locals.define name r).2 } := by
  cases run
  exact ⟨rfl, rfl⟩

theorem opens_define (s : State) (name : String) (r : Rep) :
    Opens module s { s with locals := (s.locals.define name r).2 } :=
  ⟨⟨rfl, id, fun _ => List.prefix_rfl, Nat.le_max_left _ _⟩, List.suffix_cons _ _,
    Nat.le_add_right _ _⟩

theorem opens_alias (s : State) (name : String) (l : Local) :
    Opens module s { s with locals := s.locals.addAlias name l } :=
  ⟨⟨rfl, id, fun _ => List.prefix_rfl, Nat.le_refl _⟩, List.suffix_cons _ _, Nat.le_refl _⟩

theorem inScope_ok {α : Type} {code : Gen α} {a : α} (run : inScope code s = .ok a s') :
    ∃ s₁, code s = .ok a s₁ ∧
      s' = { s₁ with locals := s₁.locals.rollback s.locals.checkpoint } := by
  unfold inScope at run
  obtain ⟨_, _, runG, run⟩ := bind_ok run
  cases runG
  obtain ⟨b, s₁, runC, run⟩ := bind_ok run
  cases run
  exact ⟨s₁, runC, rfl⟩

theorem Opens.rollback (h : Opens module s s') :
    Settles module s { s' with locals := s'.locals.rollback s.locals.checkpoint } := by
  obtain ⟨new, entries⟩ := h.inner
  have lengths := congrArg List.length entries
  rw [List.length_append] at lengths
  refine ⟨⟨?_, h.plain, h.pool, h.max⟩, ?_, rfl⟩
  · rw [h.same]
  · have left : s'.locals.entries.length - s.locals.entries.length = new.length := by omega
    have back : s.locals.entries.length - s'.locals.entries.length = 0 := by omega
    simp only [LocalTable.rollback, LocalTable.checkpoint, left, back, List.take_zero,
      List.reverse_nil, List.nil_append]
    rw [← entries, List.drop_left]

end StackML.Codegen
