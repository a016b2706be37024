import StackML.Proofs.Expr.Notes
import StackML.Proofs.Typing.Steps

/-!
Sum types and constructors are declared before inference comes to the first expression. Whatever is
inferred after that leaves them as they are.
-/

namespace StackML.Typing

variable {host : Host.Resolver} {env : Env} {α β : Type}

def DeclaresNone (x : Infer α) : Prop :=
  ∀ ⦃s a s'⦄, x s = .ok a s' → s'.sums = s.sums ∧ s'.ctors = s.ctors

namespace DeclaresNone

variable {x : Infer α} {f : α → Infer β}

theorem pure {a : α} : DeclaresNone (Pure.pure a : Infer α) := by
  intro s b s' run
  cases run
  exact ⟨rfl, rfl⟩

theorem bind (first : DeclaresNone x) (next : ∀ a, DeclaresNone (f a)) : DeclaresNone (x >>= f) := by
  intro s b s' run
  obtain ⟨a, s₁, runX, run⟩ := bind_ok run
  obtain ⟨sums, ctors⟩ := next a run
  exact ⟨sums.trans (first runX).1, ctors.trans (first runX).2⟩

theorem modify {g : State → State} (same : ∀ s, (g s).sums = s.sums ∧ (g s).ctors = s.ctors) :
    DeclaresNone (modify g : Infer PUnit) := by
  intro s a s' run
  cases run
  exact same s

/-! ### Steps -/

theorem refuse {place : Position} {issue : Issue} :
    DeclaresNone (Typing.refuse place issue : Infer α) :=
  fun _ _ _ run => (not_refuse_ok run).elim

theorem freshOf {numeric : Bool} : DeclaresNone (Typing.freshOf numeric) := by
  intro s a s' run
  cases run
  exact ⟨rfl, rfl⟩

theorem instantiate {t : Ty} : DeclaresNone (Typing.instantiate t) := by
  intro s a s' run
  cases run
  exact ⟨rfl, rfl⟩

theorem resolve {t : Ty} : DeclaresNone (Typing.resolve t) := by
  intro s a s' run
  cases run
  exact ⟨rfl, rfl⟩

theorem prune {t : Ty} : DeclaresNone (Typing.prune t) := by
  intro s a s' run
  cases run
  exact ⟨rfl, rfl⟩

theorem fixedVars : DeclaresNone (Typing.fixedVars env) := by
  intro s a s' run
  cases run
  exact ⟨rfl, rfl⟩

theorem generalize {t : Ty} : DeclaresNone (Typing.generalize env t) :=
  resolve.bind fun _ => fixedVars.bind fun _ => pure

theorem generalizeLocal {t : Ty} : DeclaresNone (Typing.generalizeLocal env t) :=
  resolve.bind fun _ => fixedVars.bind fun _ => pure

theorem freshen {t : Ty} {m : Mapping} : DeclaresNone (Typing.freshen t m) := by
  refine bind (fun s m' s' run => ?_) fun _ => pure
  refine foldlM_invariant (P := fun _ s₁ => s₁.sums = s.sums ∧ s₁.ctors = s.ctors) ?_ ⟨rfl, rfl⟩ run
  rintro m id - s₁ m₁ s₂ ⟨sums, ctors⟩ step
  split at step
  · cases step
    exact ⟨sums, ctors⟩
  · obtain ⟨v, s₃, runV, step⟩ := bind_ok step
    cases runV
    cases step
    exact ⟨sums, ctors⟩

theorem findCtor {place : Position} {name : String} : DeclaresNone (Typing.findCtor place name) := by
  intro s a s' run
  obtain ⟨_, _, runGet, run⟩ := bind_ok run
  cases runGet
  cases found : s.ctors.get? name with
  | some c =>
    simp only [found] at run
    cases run
    exact ⟨rfl, rfl⟩
  | none =>
    simp only [found] at run
    exact (not_refuse_ok run).elim

theorem lookup {place : Position} {name : String} : DeclaresNone (Typing.lookup env place name) := by
  unfold Typing.lookup
  split
  · exact instantiate
  · exact refuse

theorem unify {place : Position} {a b : Ty} : DeclaresNone (Typing.unify place a b) := by
  intro s u s' run
  obtain ⟨subst, -, rfl⟩ := unify_ok run
  exact ⟨rfl, rfl⟩

theorem binaryType {place : Position} {op : BinaryOp} {l r : Typed} :
    DeclaresNone (Typing.binaryType place op l r) := by
  unfold Typing.binaryType
  split
  · refine freshOf.bind fun _ => unify.bind fun _ => freshOf.bind fun _ => unify.bind fun _ =>
      prune.bind fun _ => prune.bind fun _ => ?_
    split
    · exact pure
    · exact unify.bind fun _ => pure
  · split
    · exact unify.bind fun _ => pure
    · exact unify.bind fun _ => unify.bind fun _ => pure

theorem bindParams {names : List String} : DeclaresNone (Typing.bindParams env names) := by
  induction names generalizing env with
  | nil => exact pure
  | cons name names ih => exact freshOf.bind fun _ => ih.bind fun _ => pure

theorem unifyArgs {args : List (Position × Ty)} {params : List Ty} :
    DeclaresNone (Typing.unifyArgs args params) := by
  induction args generalizing params with
  | nil => exact pure
  | cons arg args ih =>
    cases params with
    | nil => exact pure
    | cons p params => exact unify.bind fun _ => ih

theorem hostMember {place : Position} {owner member : String} {kind : Host.MemberKind}
    {args : List (Position × Ty)} : DeclaresNone (Typing.hostMember host place owner member kind args) := by
  unfold Typing.hostMember
  split
  · exact refuse
  · dsimp only
    split
    · exact refuse.bind fun _ => unifyArgs.bind fun _ => pure
    · exact unifyArgs.bind fun _ => pure

theorem recordUse {callee : Expr Position} {t : Ty} :
    DeclaresNone (Typing.recordUse env callee t) := by
  unfold Typing.recordUse
  split
  · refine bind (fun s a s' run => by cases run; exact ⟨rfl, rfl⟩) fun s => ?_
    split
    · split
      · refine resolve.bind fun _ => ?_
        split
        · exact modify fun _ => ⟨rfl, rfl⟩
        · exact pure
      · exact pure
    · exact pure
  · exact pure

/-! ### Patterns and expressions -/

theorem checkPattern {t : Ty} {p : Pattern Position} : DeclaresNone (Typing.checkPattern env t p) := by
  induction p generalizing env t with
  | wild | var => exact pure
  | int | bool | str => exact unify.bind fun _ => pure
  | nil => exact freshOf.bind fun _ => unify.bind fun _ => pure
  | cons _ _ _ ihHead ihTail =>
    exact freshOf.bind fun _ => unify.bind fun _ => ihHead.bind fun _ => ihTail.bind fun _ => pure
  | tag =>
    refine findCtor.bind fun _ => instantiate.bind fun _ => ?_
    dsimp only
    split
    · exact freshOf.bind fun _ => unify.bind fun _ => pure
    · exact unify.bind fun _ => pure
  | build _ _ _ ih =>
    refine findCtor.bind fun _ => instantiate.bind fun _ => ?_
    dsimp only
    split
    · exact refuse.bind fun _ => freshOf.bind fun _ => unify.bind fun _ => ih.bind fun _ => pure
    · exact freshOf.bind fun _ => unify.bind fun _ => ih.bind fun _ => pure

def All (host : Host.Resolver) (es : List (Expr Position)) : Prop :=
  ∀ e ∈ es, ∀ env, DeclaresNone (Typing.infer host env e)

theorem inferAll {es : List (Expr Position)} {done : List (Expr Typed)} (each : All host es) :
    DeclaresNone (Typing.inferAll host env done es) := by
  induction es generalizing done with
  | nil => exact pure
  | cons e es ih =>
    obtain ⟨first, rest⟩ := List.forall_mem_cons.1 each
    simp only [Typing.inferAll]
    exact (first env).bind fun _ => ih rest

theorem inferElems {es : List (Expr Position)} {elem : Ty} {done : List (Expr Typed)}
    (each : All host es) : DeclaresNone (Typing.inferElems host env elem done es) := by
  induction es generalizing done with
  | nil => exact pure
  | cons e es ih =>
    obtain ⟨first, rest⟩ := List.forall_mem_cons.1 each
    simp only [Typing.inferElems]
    exact (first env).bind fun _ => unify.bind fun _ => ih rest

theorem inferArgs {es : List (Expr Position)} {fn : Ty} {done : List (Expr Typed)}
    (each : All host es) : DeclaresNone (Typing.inferArgs host env fn done es) := by
  induction es generalizing done fn with
  | nil => exact pure
  | cons e es ih =>
    obtain ⟨first, rest⟩ := List.forall_mem_cons.1 each
    simp only [Typing.inferArgs]
    exact (first env).bind fun _ => freshOf.bind fun _ => unify.bind fun _ => ih rest

theorem inferParts {ps : List (Part Position)} {done : List (Part Typed)}
    (each : ∀ e, .hole e ∈ ps → ∀ env, DeclaresNone (Typing.infer host env e)) :
    DeclaresNone (Typing.inferParts host env done ps) := by
  induction ps generalizing done with
  | nil => exact pure
  | cons part ps ih =>
    have rest : ∀ done, DeclaresNone (Typing.inferParts host env done ps) :=
      fun done => ih fun e member => each e (List.mem_cons_of_mem _ member)
    cases part with
    | text t =>
      simp only [Typing.inferParts]
      exact rest _
    | hole e =>
      simp only [Typing.inferParts]
      exact (each e List.mem_cons_self env).bind fun _ => rest _

theorem inferArms {arms : List (Arm Position)} {scrutinee result : Ty} {done : List (Arm Typed)}
    (each : ∀ p b, .mk p b ∈ arms → ∀ env, DeclaresNone (Typing.infer host env b)) :
    DeclaresNone (Typing.inferArms host env scrutinee result done arms) := by
  induction arms generalizing done with
  | nil => exact pure
  | cons arm arms ih =>
    obtain ⟨p, b⟩ := arm
    simp only [Typing.inferArms]
    exact checkPattern.bind fun _ => (each p b List.mem_cons_self _).bind fun _ =>
      unify.bind fun _ => ih fun p b member => each p b (List.mem_cons_of_mem _ member)

theorem infer (e : Expr Position) (env : Env) : DeclaresNone (Typing.infer host env e) := by
  induction e using Expr.induct generalizing env with
  | int | float | bool | str | unit =>
    simp only [Typing.infer]
    exact pure
  | interp _ _ ih =>
    simp only [Typing.infer]
    exact (inferParts ih).bind fun _ => pure
  | var | qualified =>
    simp only [Typing.infer]
    exact lookup.bind fun _ => pure
  | unary _ op _ ih =>
    simp only [Typing.infer]
    refine (ih env).bind fun _ => ?_
    cases op with
    | not => exact unify.bind fun _ => pure
    | neg => exact freshOf.bind fun _ => unify.bind fun _ => pure
  | binary _ _ _ _ ihL ihR =>
    simp only [Typing.infer]
    exact (ihL env).bind fun _ => (ihR env).bind fun _ => binaryType.bind fun _ => pure
  | cond _ _ _ _ ihC ihT ihE =>
    simp only [Typing.infer]
    exact (ihC env).bind fun _ => unify.bind fun _ => (ihT env).bind fun _ =>
      (ihE env).bind fun _ => unify.bind fun _ => pure
  | letIn _ _ _ _ ihV ihB =>
    simp only [Typing.infer]
    exact (ihV env).bind fun _ => generalizeLocal.bind fun _ => (ihB _).bind fun _ => pure
  | letRec _ _ _ _ _ _ ihF ihB =>
    simp only [Typing.infer]
    exact freshOf.bind fun _ => bindParams.bind fun _ => (ihF _).bind fun _ => unify.bind fun _ =>
      generalizeLocal.bind fun _ => (ihB _).bind fun _ => pure
  | lambda _ _ _ ih =>
    simp only [Typing.infer]
    exact bindParams.bind fun _ => (ih _).bind fun _ => pure
  | apply _ _ _ ihC ih =>
    simp only [Typing.infer]
    exact (ihC env).bind fun _ => (inferArgs ih).bind fun _ => recordUse.bind fun _ => pure
  | sequence _ _ ih =>
    simp only [Typing.infer]
    exact (inferAll ih).bind fun _ => pure
  | print _ _ ih =>
    simp only [Typing.infer]
    exact (ih env).bind fun _ => pure
  | list _ _ ih =>
    simp only [Typing.infer]
    exact freshOf.bind fun _ => (inferElems ih).bind fun _ => pure
  | cons _ _ _ ihH ihT =>
    simp only [Typing.infer]
    exact (ihH env).bind fun _ => (ihT env).bind fun _ => unify.bind fun _ => pure
  | matchOn _ _ _ ihE ihArms =>
    simp only [Typing.infer]
    refine (ihE env).bind fun _ => ?_
    split
    · exact refuse.bind fun _ => freshOf.bind fun _ => (inferArms ihArms).bind fun _ => pure
    · exact freshOf.bind fun _ => (inferArms ihArms).bind fun _ => pure
  | tag =>
    simp only [Typing.infer]
    refine findCtor.bind fun _ => instantiate.bind fun _ => ?_
    split
    · exact refuse.bind fun _ => pure
    · exact pure
  | build _ _ _ ih =>
    simp only [Typing.infer]
    refine findCtor.bind fun _ => instantiate.bind fun _ => ?_
    split
    · exact refuse.bind fun _ => (ih env).bind fun _ => freshOf.bind fun _ => unify.bind fun _ => pure
    · exact (ih env).bind fun _ => freshOf.bind fun _ => unify.bind fun _ => pure
  | hostCall _ _ _ _ ih =>
    simp only [Typing.infer]
    exact (inferAll ih).bind fun _ => hostMember.bind fun _ => pure
  | hostMethod _ _ _ _ ihR ih =>
    simp only [Typing.infer]
    refine (ihR env).bind fun _ => resolve.bind fun _ => ?_
    split
    · exact refuse
    · exact (inferAll ih).bind fun _ => hostMember.bind fun _ => pure
  | hostField | hostNew =>
    simp only [Typing.infer]
    exact hostMember.bind fun _ => pure

/-! ### Functions and values -/

theorem bindTypedParams {m : Mapping} {params : List Param} :
    DeclaresNone (Typing.bindTypedParams env m params) := by
  induction params generalizing env m with
  | nil => exact pure
  | cons p params ih =>
    simp only [Typing.bindTypedParams]
    split
    · exact freshen.bind fun _ => ih.bind fun _ => pure
    · exact freshOf.bind fun _ => ih.bind fun _ => pure

theorem inferFunction {d : FnDecl Position} : DeclaresNone (Typing.inferFunction host env d) := by
  unfold Typing.inferFunction
  refine freshOf.bind fun _ => bindTypedParams.bind fun _ => (infer d.body _).bind fun _ => ?_
  dsimp only
  split
  · exact freshen.bind fun _ => unify.bind fun _ => unify.bind fun _ => generalize.bind fun _ => pure
  · exact unify.bind fun _ => generalize.bind fun _ => pure

theorem declare {p : Progress} {place : Position} {name : String} :
    DeclaresNone (p.declare place name) := by
  unfold Progress.declare
  split
  · exact refuse
  · exact pure

theorem inferDecl {p : Progress} {d : Decl Position} : DeclaresNone (Typing.inferDecl host p d) := by
  cases d with
  | type d => exact pure
  | value d => exact declare.bind fun _ => (infer d.value _).bind fun _ => pure
  | fn d =>
    refine declare.bind fun _ => inferFunction.bind fun _ => ?_
    dsimp only
    split
    · refine bind (modify fun _ => ?_) fun _ => pure
      split <;> exact ⟨rfl, rfl⟩
    · exact pure

theorem inferDecls {ds : List (Decl Position)} {p : Progress} :
    DeclaresNone (ds.foldlM (Typing.inferDecl host) p) := by
  induction ds generalizing p with
  | nil => exact pure
  | cons d ds ih =>
    rw [List.foldlM_cons]
    exact inferDecl.bind fun _ => ih

end DeclaresNone

end StackML.Typing
