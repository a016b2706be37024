import StackML.Proofs.Typing.Principal.Completeness

/-!
Inference finds every type of the expressions that bind names: patterns, functions, and locals that
are generalized.
-/

namespace StackML.Typing

open Assignment

variable {host : Host.Resolver} {ctors : NameMap Constructor} {env inner : Env}
  {x y z : Solution ctors} {O : Set Ty} {Γ Γ₁ : Context} {ρ : Assignment} {t u : Ty}

/-! ### Patterns -/

def PatternComplete (ctors : NameMap Constructor) (p : Pattern Position) : Prop :=
  ∀ {env scope : Env} {x y : Solution ctors} {O : Set Ty} {Γ Γ₁ : Context} {ρ : Assignment}
    {t u : Ty}, Trail env x O y → visible scope ctors ⊆ visible env ctors ∪ O →
    Covered Γ scope y.value ρ → u ∈ O → y.final u = t.assign ρ →
    PatternHasType ctors Γ p t Γ₁ →
    ∃ (p' : Pattern Typed) (inner : Env) (z : Solution ctors) (O₁ : Set Ty),
      checkPattern scope u p y.state = .ok (p', inner) z.state ∧ O ⊆ O₁ ∧ Trail env x O₁ z ∧
        y.Agree z ∧ visible inner ctors ⊆ visible env ctors ∪ O₁ ∧ Covered Γ₁ inner z.value ρ

theorem patternComplete_literal {p : Pattern Position} {place : Position} {c : Ty}
    (literal : Typed → Pattern Typed) (mono : c.isMono) (closed : c.occurrences = [])
    (shape : ∀ env t, checkPattern env t p = do
      unify place t c
      pure (literal ⟨place, t, none⟩, env))
    (inversion : ∀ {Γ t Γ₁}, PatternHasType ctors Γ p t Γ₁ → t = c ∧ Γ₁ = Γ) :
    PatternComplete ctors p := by
  intro env scope x y O Γ Γ₁ ρ t u trail cover covered member final typed
  obtain ⟨rfl, rfl⟩ := inversion typed
  rw [assign_of_closed closed] at final
  obtain ⟨z, run, trail', agree, -⟩ := trail.unifyClosed member mono closed final place
  refine ⟨literal ⟨place, u, none⟩, scope, z, O, ?_, subset_rfl, trail', agree, cover,
    covered.later (trail.opens cover) agree⟩
  simp only [shape, bind_of_ok run]
  rfl

theorem patternComplete_cons {p : Position} {head tail : Pattern Position}
    (completeH : PatternComplete ctors head) (completeT : PatternComplete ctors tail) :
    PatternComplete ctors (.cons p head tail) := by
  intro env scope x y O Γ Γ₁ ρ t u trail cover covered member final typed
  cases typed with
  | @cons _ Γ₂ _ _ _ _ a typedH typedT =>
    obtain ⟨elem, y₁, runV, trail₁, agree₁, finalV⟩ := trail.fresh (a.assign ρ)
    have final₁ := (trail.final agree₁ member).trans final
    have same : y₁.final u = y₁.final (.list elem) := by
      rw [final₁]
      exact congrArg Ty.list finalV.symm
    obtain ⟨y₂, runSame, trail₂, agree₂, -⟩ := trail₁.unify (trail₁.kinded (.inl member))
      (Ty.WellKinded.list_iff.2 (trail₁.kinded (.inr rfl))) (by simp [Covers.of_mem, member]) same p
    have agree := agree₁.trans agree₂
    have covered₂ := covered.later (trail.opens cover) agree
    obtain ⟨h', env₁, y₃, O₁, runH, sub₁, trail₃, agree₃, cover₁, covered₃⟩ := completeH trail₂
      (cover.trans (Set.union_subset_union_right _ Set.subset_union_left)) covered₂ (.inr rfl)
      ((trail₁.final agree₂ (.inr rfl)).trans finalV) typedH
    have final₃ := (agree.trans agree₃).final (trail.kinded member) |>.trans final
    obtain ⟨t', env₂, y₄, O₂, runT, sub₂, trail₄, agree₄, cover₂, covered₄⟩ :=
      completeT trail₃ cover₁ covered₃ (sub₁ (.inl member)) final₃ typedT
    refine ⟨.cons ⟨p, u, none⟩ h' t', env₂, y₄, O₂, ?_,
      (Set.subset_union_left.trans sub₁).trans sub₂, trail₄, (agree.trans agree₃).trans agree₄,
      cover₂, covered₄⟩
    simp only [checkPattern, bind_of_ok runV, bind_of_ok runSame, bind_of_ok runH, bind_of_ok runT]
    rfl

theorem patternComplete_nil {p : Position} : PatternComplete ctors (.nil p) := by
  intro env scope x y O Γ Γ₁ ρ t u trail cover covered member final typed
  cases typed with
  | @nil _ _ a =>
    obtain ⟨elem, y₁, runV, trail₁, agree₁, finalV⟩ := trail.fresh (a.assign ρ)
    have same : y₁.final u = y₁.final (.list elem) := by
      rw [(trail.final agree₁ member).trans final]
      exact congrArg Ty.list finalV.symm
    obtain ⟨y₂, runSame, trail₂, agree₂, -⟩ := trail₁.unify (trail₁.kinded (.inl member))
      (Ty.WellKinded.list_iff.2 (trail₁.kinded (.inr rfl))) (by simp [Covers.of_mem, member]) same p
    have agree := agree₁.trans agree₂
    refine ⟨.nil ⟨p, u, none⟩, scope, y₂, O, ?_, subset_rfl, trail₂.sub Set.subset_union_left, agree,
      cover, covered.later (trail.opens cover) agree⟩
    simp only [checkPattern, bind_of_ok runV, bind_of_ok runSame]
    rfl

theorem patternComplete_tag {p : Position} {name : String} (closed : CtorsClosed ctors) :
    PatternComplete ctors (.tag p name) := by
  intro env scope x y O Γ Γ₁ ρ t u trail cover covered member final typed
  cases typed with
  | tag found hasArg inst =>
    obtain ⟨ct, y₁, runC, trail₁, agree₁, finalC⟩ :=
      trail.instantiateCtor (ρ := ρ) closed found inst
    have same := ((trail.final agree₁ member).trans final).trans finalC.symm
    obtain ⟨y₂, runSame, trail₂, agree₂, -⟩ := trail₁.unify (trail₁.kinded (.inl member))
      (trail₁.kinded (.inr rfl)) (by simp [Covers.of_mem, member]) same p
    have agree := agree₁.trans agree₂
    refine ⟨.tag ⟨p, u, none⟩ name, scope, y₂, O, ?_, subset_rfl,
      trail₂.sub Set.subset_union_left, agree, cover, covered.later (trail.opens cover) agree⟩
    simp only [checkPattern, bind_of_ok (findCtor_run y found p), bind_of_ok runC, hasArg,
      Bool.false_eq_true, if_false, bind_of_ok runSame]
    rfl
  | @tagOfArg _ _ _ _ _ a found hasArg inst =>
    obtain ⟨ct, y₁, runC, trail₁, agree₁, finalC⟩ :=
      trail.instantiateCtor (ρ := ρ) closed found inst
    obtain ⟨payload, y₂, runV, trail₂, agree₂, finalV⟩ := trail₁.fresh (a.assign ρ)
    have same : y₂.final ct = y₂.final (.fn payload u) := by
      rw [trail₁.final agree₂ (.inr rfl), finalC]
      change Ty.fn (a.assign ρ) (t.assign ρ) = Ty.fn (y₂.final payload) (y₂.final u)
      rw [finalV, (agree₁.trans agree₂).final (trail.kinded member), final]
    obtain ⟨y₃, runSame, trail₃, agree₃, -⟩ := trail₂.unify (trail₂.kinded (.inl (.inr rfl)))
      (Ty.WellKinded.fn_iff.2 ⟨trail₂.kinded (.inr rfl), trail₂.kinded (.inl (.inl member))⟩)
      (by simp [Covers.of_mem, member]) same p
    have agree := (agree₁.trans agree₂).trans agree₃
    refine ⟨.tag ⟨p, u, none⟩ name, scope, y₃, O, ?_, subset_rfl,
      trail₃.sub fun v old => .inl (.inl old), agree, cover,
      covered.later (trail.opens cover) agree⟩
    simp only [checkPattern, bind_of_ok (findCtor_run y found p), bind_of_ok runC, hasArg,
      if_true, bind_of_ok runV, bind_of_ok runSame]
    rfl

theorem patternComplete_build {p : Position} {name : String} {arg : Pattern Position}
    (closed : CtorsClosed ctors) (complete : PatternComplete ctors arg) :
    PatternComplete ctors (.build p name arg) := by
  intro env scope x y O Γ Γ₁ ρ t u trail cover covered member final typed
  cases typed with
  | @build _ _ _ _ _ _ _ a found hasArg inst typed =>
    obtain ⟨ct, y₁, runC, trail₁, agree₁, finalC⟩ :=
      trail.instantiateCtor (ρ := ρ) closed found inst
    obtain ⟨payload, y₂, runV, trail₂, agree₂, finalV⟩ := trail₁.fresh (a.assign ρ)
    have same : y₂.final ct = y₂.final (.fn payload u) := by
      rw [trail₁.final agree₂ (.inr rfl), finalC]
      change Ty.fn (a.assign ρ) (t.assign ρ) = Ty.fn (y₂.final payload) (y₂.final u)
      rw [finalV, (agree₁.trans agree₂).final (trail.kinded member), final]
    obtain ⟨y₃, runSame, trail₃, agree₃, -⟩ := trail₂.unify (trail₂.kinded (.inl (.inr rfl)))
      (Ty.WellKinded.fn_iff.2 ⟨trail₂.kinded (.inr rfl), trail₂.kinded (.inl (.inl member))⟩)
      (by simp [Covers.of_mem, member]) same p
    have agree := (agree₁.trans agree₂).trans agree₃
    obtain ⟨arg', env₁, y₄, O₁, runA, sub₁, trail₄, agree₄, cover₁, covered₄⟩ := complete trail₃
      (cover.trans (Set.union_subset_union_right _ fun v old => .inl (.inl old)))
      (covered.later (trail.opens cover) agree) (.inr rfl)
      ((trail₂.final agree₃ (.inr rfl)).trans finalV) typed
    refine ⟨.build ⟨p, u, none⟩ name arg', env₁, y₄, O₁, ?_, fun v old => sub₁ (.inl (.inl old)),
      trail₄, agree.trans agree₄, cover₁, covered₄⟩
    simp only [checkPattern, bind_of_ok (findCtor_run y found p), bind_of_ok runC, hasArg,
      Bool.not_true, Bool.false_eq_true, if_false, bind_of_ok runV, bind_of_ok runSame,
      bind_of_ok runA]
    rfl

theorem patternComplete (closed : CtorsClosed ctors) (p : Pattern Position) :
    PatternComplete ctors p := by
  induction p with
  | wild p =>
    intro env scope x y O Γ Γ₁ ρ t u trail cover covered member final typed
    cases typed
    exact ⟨.wild ⟨p, u, none⟩, scope, y, O, rfl, subset_rfl, trail, .refl y, cover, covered⟩
  | var p name =>
    intro env scope x y O Γ Γ₁ ρ t u trail cover covered member final typed
    cases typed with
    | var mono =>
      refine ⟨.var ⟨p, u, none⟩ name, scope.extend name u, y, O, rfl, subset_rfl, trail, .refl y,
        fun v seen => ?_, covered.extend_mono name mono (trail.mono u member) final⟩
      rcases visible_insert scope ctors name { type := u } seen with old | rfl
      · exact cover old
      · exact .inr member
  | int p v =>
    exact patternComplete_literal (c := .int) (fun n => .int n v) rfl rfl (fun _ _ => rfl)
      fun typed => by cases typed; exact ⟨rfl, rfl⟩
  | bool p v =>
    exact patternComplete_literal (c := .bool) (fun n => .bool n v) rfl rfl (fun _ _ => rfl)
      fun typed => by cases typed; exact ⟨rfl, rfl⟩
  | str p v =>
    exact patternComplete_literal (c := .string) (fun n => .str n v) rfl rfl (fun _ _ => rfl)
      fun typed => by cases typed; exact ⟨rfl, rfl⟩
  | nil p => exact patternComplete_nil
  | cons p head tail ihHead ihTail => exact patternComplete_cons ihHead ihTail
  | tag p name => exact patternComplete_tag closed
  | build p name arg ih => exact patternComplete_build closed ih

/-! ### Matches -/

theorem Trail.inferArms {scrutinee result : Ty} {arms : List (Arm Position)}
    (closed : CtorsClosed ctors) (each : ∀ p b, .mk p b ∈ arms → Complete host ctors b)
    (trail : Trail env x O y) (covered : Covered Γ env x.value ρ) (memberS : scrutinee ∈ O)
    (memberR : result ∈ O) (finalS : y.final scrutinee = t.assign ρ)
    (finalR : y.final result = u.assign ρ) (typed : ArmsHaveType ctors Γ t u arms)
    (done : List (Arm Typed)) : ∃ (new : List (Arm Typed)) (z : Solution ctors),
      Typing.inferArms host env scrutinee result done arms y.state =
          .ok (done.reverse ++ new) z.state ∧ Trail env x O z ∧ y.Agree z := by
  induction arms generalizing y O done with
  | nil =>
    refine ⟨[], y, ?_, trail, .refl y⟩
    simp only [Typing.inferArms, List.append_nil]
    rfl
  | cons arm arms ih =>
    obtain ⟨p, b⟩ := arm
    cases typed with
    | cons typedP typedB typed =>
      obtain ⟨p', inner, y₁, O₁, runP, sub₁, trail₁, agree₁, cover₁, covered₁⟩ :=
        patternComplete closed p trail Set.subset_union_left (trail.covered covered) memberS finalS
          typedP
      obtain ⟨b', y₂, runB, trail₂, agree₂, finalB⟩ :=
        trail₁.inferInner cover₁ (each p b List.mem_cons_self) covered₁ typedB
      have agree := agree₁.trans agree₂
      have finalR₂ := (trail.final agree memberR).trans finalR
      obtain ⟨y₃, runSame, trail₃, agree₃, -⟩ := trail₂.unify (trail₂.kinded (.inl (sub₁ memberR)))
        (trail₂.kinded (.inr rfl)) (by simp [Covers.of_mem, sub₁ memberR])
        (finalR₂.trans finalB.symm) b'.note.position
      have agree := agree.trans agree₃
      obtain ⟨new, y₄, run, trail₄, agree₄⟩ := ih (fun q c m => each q c (List.mem_cons_of_mem _ m))
        (trail₃.sub (sub₁.trans Set.subset_union_left)) memberS memberR
        ((trail.final agree memberS).trans finalS) ((trail.final agree memberR).trans finalR) typed
        (.mk p' b' :: done)
      refine ⟨.mk p' b' :: new, y₄, ?_, trail₄, agree.trans agree₄⟩
      simp only [Typing.inferArms, bind_of_ok runP, bind_of_ok runB, bind_of_ok runSame, run,
        List.reverse_cons, List.append_assoc, List.singleton_append]

theorem complete_matchOn {p : Position} {e : Expr Position} {arms : List (Arm Position)}
    (closed : CtorsClosed ctors) (complete : Complete host ctors e)
    (each : ∀ p b, .mk p b ∈ arms → Complete host ctors b) :
    Complete host ctors (.matchOn p e arms) := by
  intro env x Γ ρ u opened covered typed
  cases typed with
  | matchOn typedE some typed =>
    obtain ⟨e', y₁, runE, trail₁, finalE⟩ := complete opened covered typedE
    obtain ⟨result, y₂, runR, trail₂, agree₂, finalR⟩ := trail₁.fresh (u.assign ρ)
    obtain ⟨arms', y₃, runA, trail₃, agree₃⟩ := trail₂.inferArms closed each covered (.inl rfl)
      (.inr rfl) ((trail₁.final agree₂ rfl).trans finalE) finalR typed []
    have filled : arms.isEmpty = false := by simpa using some
    refine ⟨.matchOn ⟨p, result, none⟩ e' arms', y₃, ?_, trail₃.sub (by simp [Expr.note]),
      (trail₂.final agree₃ (.inr rfl)).trans finalR⟩
    simp only [infer, bind_of_ok runE, filled, Bool.false_eq_true, if_false, bind_of_ok runR,
      bind_of_ok runA]
    rfl

/-! ### Functions -/

theorem Trail.bindParams {scope : Env} {names : List String} {ps : List Ty}
    (trail : Trail env x O y) (cover : visible scope ctors ⊆ visible env ctors ∪ O)
    (covered : Covered Γ scope y.value ρ) (lengths : ps.length = names.length)
    (mono : ∀ t ∈ ps, t.isMono) :
    ∃ (vs : List Ty) (inner : Env) (z : Solution ctors),
      Typing.bindParams scope names y.state = .ok (vs, inner) z.state ∧
        Trail env x (O ∪ {t | t ∈ vs}) z ∧ y.Agree z ∧
        visible inner ctors ⊆ visible env ctors ∪ (O ∪ {t | t ∈ vs}) ∧
        vs.map z.final = ps.map (Ty.assign ρ) ∧
        Covered (Γ.extendAll names ps) inner z.value ρ := by
  induction names generalizing scope ps y O Γ with
  | nil =>
    cases List.length_eq_zero_iff.1 lengths
    refine ⟨[], scope, y, rfl, by simpa using trail, .refl y, by simpa using cover, rfl, covered⟩
  | cons name names ih =>
    cases ps with
    | nil => simp at lengths
    | cons t ps =>
      rw [List.forall_mem_cons] at mono
      obtain ⟨v, y₁, runV, trail₁, agree₁, finalV⟩ := trail.fresh (t.assign ρ)
      have cover₁ : visible (scope.extend name v) ctors ⊆ visible env ctors ∪ (O ∪ {v}) := by
        intro u seen
        rcases visible_insert scope ctors name { type := v } seen with old | new
        · exact (cover old).imp_right .inl
        · exact .inr (.inr new)
      have covered₁ := (covered.later (trail.opens cover) agree₁).extend_mono name mono.1
        (trail₁.mono v (.inr rfl)) finalV
      obtain ⟨vs, inner, y₂, run, trail₂, agree₂, cover₂, finals, covered₂⟩ :=
        ih trail₁ cover₁ covered₁ (by simpa using lengths) mono.2
      have same : O ∪ {v} ∪ {t | t ∈ vs} = O ∪ {t | t ∈ v :: vs} := by
        ext u
        simp only [Set.mem_union, Set.mem_singleton_iff, Set.mem_ofPred_eq, List.mem_cons, or_assoc]
      rw [same] at trail₂ cover₂
      refine ⟨v :: vs, inner, y₂, ?_, trail₂, agree₁.trans agree₂, cover₂, ?_, covered₂⟩
      · simp only [Typing.bindParams, bind_of_ok runV, bind_of_ok run]
        rfl
      · rw [List.map_cons, List.map_cons, finals, trail₁.final agree₂ (.inr rfl), finalV]

theorem final_lambdaType {vs ps : List Ty} {result : Ty}
    (params : vs.map y.final = ps.map (Ty.assign ρ)) (same : y.final result = t.assign ρ) :
    y.final (lambdaType vs result) = (lambdaType ps t).assign ρ := by
  rw [Solution.final, assign_lambdaType, assign_lambdaType]
  exact congrArg₂ lambdaType params same

theorem Trail.kinded_lambdaType {vs : List Ty} {result : Ty}
    (trail : Trail env x (O ∪ {t | t ∈ vs} ∪ {result}) y) :
    (lambdaType vs result).WellKinded y.stage.supply ∧
      Covers (visible env ctors ∪ (O ∪ {t | t ∈ vs} ∪ {result})) {lambdaType vs result} := by
  refine ⟨wellKinded_lambdaType (fun t member => trail.kinded (.inl (.inr member)))
    (trail.kinded (.inr rfl)), covers_lambdaType (fun t member => .of_mem ?_) (.of_mem ?_)⟩
  · exact .inr (.inl (.inr member))
  · exact .inr (.inr rfl)

theorem complete_lambda {p : Position} {params : List String} {b : Expr Position}
    (complete : Complete host ctors b) : Complete host ctors (.lambda p params b) := by
  intro env x Γ ρ t opened covered typed
  cases typed with
  | lambda lengths mono typed =>
    obtain ⟨vs, inner, y₁, runP, trail₁, -, cover, finals, covered₁⟩ :=
      (Trail.here opened).bindParams Set.subset_union_left covered lengths mono
    obtain ⟨b', y₂, runB, trail₂, agree₂, finalB⟩ :=
      trail₁.inferInner cover complete covered₁ typed
    obtain ⟨kinded, made⟩ := trail₂.kinded_lambdaType
    refine ⟨.lambda ⟨p, lambdaType vs b'.note.type, none⟩ params b', y₂, ?_,
      (trail₂.adjoin kinded made).sub (by simp [Expr.note]), final_lambdaType ?_ finalB⟩
    · simp only [infer, bind_of_ok runP, bind_of_ok runB]
      rfl
    · rw [← finals]
      exact List.map_congr_left fun v member => trail₁.final agree₂ (.inr member)

/-! ### Generalized locals -/

section Generalize

variable {b : Ty} {dvars vars : List VarId}

/-- With the bindings at the second solution, the type `t` can stand for all that `b` stands for
when the given variables vary, and older variables stay as the first solution has them. -/
def Spans (x y : Solution ctors) (t : Ty) (ρ : Assignment) (dvars : List VarId) (b : Ty) : Prop :=
  ∀ ρ' : Assignment, ρ'.AgreesOff ρ dvars → ∃ value : Valuation,
    (∀ id ≤ x.stage.supply.last, value id = x.value id) ∧ y.state.subst.Holds value ∧
      t.assign value.assignment = b.assign ρ'

/-- A type found for a local at all types that it is to have: two solutions of it may differ only
where nothing in the environment leads. -/
theorem subsumes_quantify (trail : Trail env x O y) (member : t ∈ O)
    (general : Generalizable y.stage env t vars) (mono : b.isMono) (spans : Spans x y t ρ dvars b) :
    Subsumes y.value ((t.assign y.stage.meaning).quantify vars) ρ (b.quantify dvars) := by
  have kinded := trail.kinded member
  have resolved := y.stage.wellKinded_assign kinded
  intro ρ' agrees
  rw [Ty.quantified_quantify mono] at agrees
  rw [Ty.quantified_quantify resolved.mono, Ty.body_quantify resolved.mono, Ty.body_quantify mono]
  obtain ⟨value, old, holds, same⟩ := spans ρ' agrees
  have refines : value.assignment.Refines y.stage.meaning := by
    obtain ⟨dom, rank, size, walk⟩ := y.fits.denotes
    exact walk.holds_iff.1 holds
  have fixed : ∀ id ≤ x.stage.supply.last, y.value id = value id := fun id known =>
    (trail.agree.value id known).trans (old id known).symm
  refine ⟨fun id => if id ∈ vars then value id else y.value id, fun id outside => by
    simp [outside], ?_⟩
  rw [← same, ← refines.assign kinded.mono]
  refine Ty.assign_congr fun o occurs => ?_
  rw [Valuation.get_assignment, Valuation.get_assignment]
  split
  · rfl
  · next outside =>
    have known := resolved.kinds o occurs
    rcases numeric : o.2 with _ | _
    · obtain ⟨c, seen, v, free, o', inside, equal⟩ :=
        (general.full o occurs numeric).resolve_left outside
      have knownV := ((trail.start.scope.kinded c (.inl seen)).free v free).1.2
      have both : (y.stage.meaning.get v).assign y.value.assignment =
          (y.stage.meaning.get v).assign value.assignment := by
        rw [← get_comp, ← get_comp, y.refines, refines, Valuation.get_assignment,
          Valuation.get_assignment]
        exact fixed v.1 knownV
      have := Ty.get_eq_of_assign_eq (y.stage.mono v) both o' inside
      rwa [Valuation.get_assignment, Valuation.get_assignment, equal] at this
    · have old := known.2.1 numeric
      rw [trail.calm] at old
      exact fixed o.1 (x.stage.supply.known o.1 old)

/-- Generalizing the type of a local opens the scope in which it has all the types that it is to
have. -/
theorem Trail.generalize (closed : CtorsClosed ctors) (trail : Trail env x O y) (member : t ∈ O)
    (covered : Covered Γ env x.value ρ) (mono : b.isMono) (spans : Spans x y t ρ dvars b)
    (name : String) :
    ∃ (u : Ty) (z : Solution ctors), Typing.generalizeLocal env t y.state = .ok u z.state ∧
      Open (env.extend name u) z ∧
      Covered (Γ.extend name (b.quantify dvars)) (env.extend name u) z.value ρ ∧
      ∀ {O' : Set Ty} {z' : Solution ctors}, Trail (env.extend name u) z O' z' →
        Trail env x O' z' := by
  have kinded := trail.kinded member
  have resolved := y.stage.wellKinded_assign kinded
  obtain ⟨u, s, run, weighs⟩ := y.generalizeLocal env t
  have scope := trail.start.scope.after trail.way
  obtain ⟨fits, vars, rfl, general, plain⟩ :=
    generalizeLocal_spec y.fits (scope.mono Set.subset_union_left) kinded run
  obtain ⟨-, scope', _, way⟩ :=
    generalizeLocal_step closed trail.start.scope trail.way y.fits member kinded run
  have sub := visible_insert env ctors name { type := (t.assign y.stage.meaning).quantify vars }
  refine ⟨_, y.moved s fits weighs, run, ⟨scope'.mono sub, fun c seen => ?_⟩, ?_,
    fun {_ z'} next => ?_⟩
  · rcases sub seen with old | rfl
    · exact trail.start.plain c old
    · intro o occurs inside
      rw [Ty.body_quantify resolved.mono] at occurs
      rw [Ty.quantified_quantify resolved.mono] at inside
      cases numeric : o.2 with
      | false => rfl
      | true => exact absurd inside (plain o occurs numeric)
  · refine (trail.covered covered).extend name (by rwa [Ty.body_quantify mono]) ?_
    exact subsumes_quantify trail member general mono spans
  · have whole := way.andThen next.way (.of_subset sub)
    have agree : y.Agree z' := ⟨next.agree.last, next.agree.value⟩
    exact ⟨trail.start, whole.weaken trail.way.inView subset_rfl Set.subset_union_right
      fun _ _ _ => trivial, next.mono, next.calm.trans trail.calm, trail.agree.trans agree⟩

end Generalize

theorem complete_letIn {p : Position} {name : String} {v b : Expr Position}
    (closed : CtorsClosed ctors) (completeV : Complete host ctors v)
    (completeB : Complete host ctors b) : Complete host ctors (.letIn p name v b) := by
  intro env x Γ ρ u opened covered typed
  cases typed with
  | letIn mono typedV lacks typedB =>
    rename_i t vars
    obtain ⟨v', y, runV, trail, -⟩ := completeV opened covered typedV
    -- inference does not depend on the type that is asked for, so one run serves all of them
    have spans : Spans x y v'.note.type ρ vars t := by
      intro ρ' agrees
      obtain ⟨_, y', runV', trail', final⟩ := completeV opened (covered.vary agrees lacks) typedV
      rw [runV] at runV'
      obtain ⟨rfl, same⟩ := EStateM.Result.ok.inj runV'
      exact ⟨y'.value, trail'.agree.value, same ▸ y'.holds, final⟩
    obtain ⟨w, z, runW, opened', covered', whole⟩ :=
      trail.generalize closed rfl covered mono spans name
    obtain ⟨b', y₃, runB, trail₃, finalB⟩ := completeB opened' covered' typedB
    refine ⟨.letIn ⟨p, b'.note.type, none⟩ name v' b', y₃, ?_, whole trail₃, finalB⟩
    simp only [infer, bind_of_ok runV, bind_of_ok runW, bind_of_ok runB]
    rfl

/-- The function of a local binding, with the type that its name has in its own body. -/
def inferLocal (host : Host.Resolver) (env : Env) (p : Position) (name : String)
    (params : List String) (fb : Expr Position) : Infer (Ty × Expr Typed) := do
  let placeholder ← fresh
  let (ps, inner) ← bindParams (env.extend name placeholder) params
  let fb ← infer host inner fb
  unify p placeholder (lambdaType ps fb.note.type)
  pure (lambdaType ps fb.note.type, fb)

theorem infer_letRec {p fp : Position} {name : String} {params : List String}
    {fb b : Expr Position} {s : State} :
    infer host env (.letRec p name fp params fb b) s = (do
      let (ft, fb) ← inferLocal host env p name params fb
      let t ← generalizeLocal env ft
      let b ← infer host (env.extend name t) b
      pure (.letRec ⟨p, b.note.type, none⟩ name ⟨fp, ft, none⟩ params fb b) : Infer _) s := by
  simp only [infer, inferLocal, bind_assoc, pure_bind]

theorem Open.inferLocal {p : Position} {name : String} {params : List String}
    {fb : Expr Position} {ps : List Ty} (opened : Open env x) (covered : Covered Γ env x.value ρ)
    (complete : Complete host ctors fb) (lengths : ps.length = params.length)
    (mono : (lambdaType ps t).isMono)
    (typed : HasType ctors ((Γ.extend name (lambdaType ps t)).extendAll params ps) fb t) :
    ∃ (ft : Ty) (fb' : Expr Typed) (y : Solution ctors),
      Typing.inferLocal host env p name params fb x.state = .ok (ft, fb') y.state ∧
        Trail env x {ft} y ∧ y.final ft = (lambdaType ps t).assign ρ := by
  obtain ⟨self, y₁, runS, trail₁, agree₁, finalS⟩ :=
    (Trail.here opened).fresh ((lambdaType ps t).assign ρ)
  have cover₁ : visible (env.extend name self) ctors ⊆ visible env ctors ∪ (∅ ∪ {self}) := by
    rw [Set.empty_union]
    exact visible_insert env ctors name { type := self }
  have covered₁ := (covered.later opened agree₁).extend_mono name mono (trail₁.mono self (.inr rfl))
    finalS
  obtain ⟨vs, inner, y₂, runP, trail₂, agree₂, cover₂, finals, covered₂⟩ :=
    trail₁.bindParams cover₁ covered₁ lengths (isMono_lambdaType mono).1
  obtain ⟨fb', y₃, runF, trail₃, agree₃, finalF⟩ :=
    trail₂.inferInner cover₂ complete covered₂ typed
  obtain ⟨kinded, made⟩ := trail₃.kinded_lambdaType
  have finalFn : y₃.final (lambdaType vs fb'.note.type) = (lambdaType ps t).assign ρ := by
    refine final_lambdaType ?_ finalF
    rw [← finals]
    exact List.map_congr_left fun v member => trail₂.final agree₃ (.inr member)
  have finalS₃ := ((agree₂.trans agree₃).final (trail₁.kinded (.inr rfl))).trans finalS
  have memberS : self ∈ ∅ ∪ {self} ∪ {t | t ∈ vs} ∪ {fb'.note.type} := .inl (.inl (.inr rfl))
  obtain ⟨y₄, runSame, trail₄, agree₄, -⟩ := (trail₃.adjoin kinded made).unify
    (trail₃.kinded memberS) kinded (by simp [Covers.of_mem]) (finalS₃.trans finalFn.symm) p
  refine ⟨_, fb', y₄, ?_, trail₄.sub Set.subset_union_right, (agree₄.final kinded).trans finalFn⟩
  simp only [Typing.inferLocal, bind_of_ok runS, bind_of_ok runP, bind_of_ok runF,
    bind_of_ok runSame]
  rfl

theorem complete_letRec {p fp : Position} {name : String} {params : List String}
    {fb b : Expr Position} (closed : CtorsClosed ctors) (completeF : Complete host ctors fb)
    (completeB : Complete host ctors b) : Complete host ctors (.letRec p name fp params fb b) := by
  intro env x Γ ρ u opened covered typed
  cases typed with
  | letRec lengths mono typedF lacks typedB =>
    rename_i ps t vars
    obtain ⟨ft, fb', y, runF, trail, -⟩ :=
      opened.inferLocal (p := p) covered completeF lengths mono typedF
    have spans : Spans x y ft ρ vars (lambdaType ps t) := by
      intro ρ' agrees
      obtain ⟨_, _, y', runF', trail', final⟩ :=
        opened.inferLocal (p := p) (covered.vary agrees lacks) completeF lengths mono typedF
      rw [runF] at runF'
      obtain ⟨both, same⟩ := EStateM.Result.ok.inj runF'
      cases both
      exact ⟨y'.value, trail'.agree.value, same ▸ y'.holds, final⟩
    obtain ⟨w, z, runW, opened', covered', whole⟩ :=
      trail.generalize closed rfl covered mono spans name
    obtain ⟨b', y₃, runB, trail₃, finalB⟩ := completeB opened' covered' typedB
    refine ⟨.letRec ⟨p, b'.note.type, none⟩ name ⟨fp, ft, none⟩ params fb' b', y₃, ?_, whole trail₃,
      finalB⟩
    simp only [infer_letRec, bind_of_ok runF, bind_of_ok runW, bind_of_ok runB]
    rfl

/-! ### All expressions -/

theorem complete (closed : CtorsClosed ctors) {e : Expr Position} (core : e.Core) :
    Complete host ctors e := by
  induction e using Expr.induct with
  | int p v | float p v | bool p v | str p v | unit p =>
    intro env x Γ ρ t opened covered typed
    cases typed
    exact ⟨_, x, rfl, complete_of_pure opened rfl rfl⟩
  | interp p parts ih =>
    cases core with
    | interp core => exact complete_interp fun e member => ih e member (core e member)
  | var p name => exact complete_var
  | unary p op e ih =>
    cases core with
    | not core => exact complete_not (ih core)
  | binary p op l r ihl ihr =>
    cases core with
    | binary _ coreL coreR => exact complete_binary (ihl coreL) (ihr coreR)
  | cond p c t e ihc iht ihe =>
    cases core with
    | cond coreC coreT coreE => exact complete_cond (ihc coreC) (iht coreT) (ihe coreE)
  | letIn p name v b ihv ihb =>
    cases core with
    | letIn coreV coreB => exact complete_letIn closed (ihv coreV) (ihb coreB)
  | letRec p name fp params fb b ihf ihb =>
    cases core with
    | letRec coreF coreB => exact complete_letRec closed (ihf coreF) (ihb coreB)
  | lambda p params b ih =>
    cases core with
    | lambda core => exact complete_lambda (ih core)
  | apply p c args ihc ih =>
    cases core with
    | apply coreC core => exact complete_apply (ihc coreC) fun e member => ih e member (core e member)
  | sequence p es ih =>
    cases core with
    | sequence core => exact complete_sequence fun e member => ih e member (core e member)
  | print p e ih =>
    cases core with
    | print core => exact complete_print (ih core)
  | list p es ih =>
    cases core with
    | list core => exact complete_list fun e member => ih e member (core e member)
  | cons p h t ihh iht =>
    cases core with
    | cons coreH coreT => exact complete_cons (ihh coreH) (iht coreT)
  | matchOn p e arms ihe ih =>
    cases core with
    | matchOn coreE core =>
      exact complete_matchOn closed (ihe coreE) fun p b member => ih p b member (core p b member)
  | tag p name => exact complete_tag closed
  | build p name e ih =>
    cases core with
    | build core => exact complete_build closed (ih core)
  | qualified | hostCall | hostMethod | hostField | hostNew => cases core

end StackML.Typing
