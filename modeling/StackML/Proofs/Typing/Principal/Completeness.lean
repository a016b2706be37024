import StackML.Proofs.Typing.Principal.Trails

/-!
Inference finds every type. If a tree has a type in a context that an environment covers, inference
succeeds from any solution, and the solution goes on to one in which the type it found stands for
the given one. A generalized local is found at all its types at once: what inference leaves open in
it differs between them, what it has in common with the environment does not.
-/

namespace StackML.Typing

open Assignment

def Complete (host : Host.Resolver) (ctors : NameMap Constructor) (e : Expr Position) : Prop :=
  ∀ {env : Env} {x : Solution ctors} {Γ : Context} {ρ : Assignment} {t : Ty}, Open env x →
    Covered Γ env x.value ρ → HasType ctors Γ e t →
    ∃ (e' : Expr Typed) (y : Solution ctors), infer host env e x.state = .ok e' y.state ∧
      Trail env x {e'.note.type} y ∧ y.final e'.note.type = t.assign ρ

variable {host : Host.Resolver} {ctors : NameMap Constructor} {env inner : Env}
  {x y z : Solution ctors} {O : Set Ty} {Γ : Context} {ρ : Assignment} {t u : Ty}

theorem Trail.inferInner {e : Expr Position} (trail : Trail env x O y)
    (cover : visible inner ctors ⊆ visible env ctors ∪ O) (complete : Complete host ctors e)
    (covered : Covered Γ inner y.value ρ) (typed : HasType ctors Γ e t) :
    ∃ (e' : Expr Typed) (z : Solution ctors), Typing.infer host inner e y.state = .ok e' z.state ∧
      Trail env x (O ∪ {e'.note.type}) z ∧ y.Agree z ∧ z.final e'.note.type = t.assign ρ := by
  obtain ⟨e', z, run, next, final⟩ := complete (trail.opens cover) covered typed
  exact ⟨e', z, run, trail.andThen next cover, next.agree, final⟩

theorem Trail.infer {e : Expr Position} (trail : Trail env x O y)
    (complete : Complete host ctors e) (covered : Covered Γ env x.value ρ)
    (typed : HasType ctors Γ e t) :
    ∃ (e' : Expr Typed) (z : Solution ctors), Typing.infer host env e y.state = .ok e' z.state ∧
      Trail env x (O ∪ {e'.note.type}) z ∧ y.Agree z ∧ z.final e'.note.type = t.assign ρ :=
  trail.inferInner Set.subset_union_left complete (trail.covered covered) typed

theorem complete_of_pure {e' : Expr Typed} (opened : Open env x) (mono : e'.note.type.isMono)
    (closed : e'.note.type.occurrences = []) : Trail env x {e'.note.type} x ∧
      x.final e'.note.type = e'.note.type.assign ρ := by
  refine ⟨?_, ?_⟩
  · have trail := (Trail.here opened).adjoin (.of_closed mono closed)
      (.of_occurrences (by simp [closed]))
    simpa using trail
  · rw [Solution.final, assign_of_closed closed, assign_of_closed closed]

theorem complete_var {p : Position} {name : String} : Complete host ctors (.var p name) := by
  intro env x Γ ρ t opened covered typed
  cases typed with
  | var found inst =>
    obtain ⟨mono, c, known, sub⟩ := covered _ _ found
    obtain ⟨value, kept, used⟩ := sub.use mono inst
    obtain ⟨v, y, run, trail, -, final⟩ :=
      (Trail.here opened).instantiate (mem_visible known) kept
    have runLookup : lookup env p name x.state = .ok v y.state := by
      simp only [lookup, known]
      exact run
    refine ⟨.var ⟨p, v, none⟩ name, y, ?_, trail.sub (by simp [Expr.note]), final.trans used⟩
    simp only [infer, bind_of_ok runLookup]
    rfl

theorem complete_not {p : Position} {e : Expr Position} (complete : Complete host ctors e) :
    Complete host ctors (.unary p .not e) := by
  intro env x Γ ρ t opened covered typed
  cases typed with
  | not typed =>
    obtain ⟨e', y₁, runE, trail₁, final⟩ := complete opened covered typed
    obtain ⟨y₂, runTest, trail₂, -⟩ := trail₁.unifyClosed (c := .bool) rfl rfl rfl final
      e'.note.position
    refine ⟨.unary ⟨p, .bool, none⟩ .not e', y₂, ?_, ?_, rfl⟩
    · simp only [infer, bind_of_ok runE, bind_of_ok runTest]
      rfl
    · exact (trail₂.adjoin (t := .bool) (.of_closed rfl rfl) (by simp)).sub (by simp [Expr.note])

theorem complete_binary {p : Position} {op : BinaryOp} {l r : Expr Position}
    (completeL : Complete host ctors l) (completeR : Complete host ctors r) :
    Complete host ctors (.binary p op l r) := by
  intro env x Γ ρ t opened covered typed
  cases typed with
  | comparison comparison typedL typedR =>
    have plain : op.isArithmetic = false := by cases op <;> simp_all [BinaryOp.isArithmetic,
      BinaryOp.isComparison]
    obtain ⟨l', y₁, runL, trail₁, finalL⟩ := completeL opened covered typedL
    obtain ⟨r', y₂, runR, trail₂, agree₂, finalR⟩ := trail₁.infer completeR covered typedR
    have same : y₂.final l'.note.type = y₂.final r'.note.type := by
      rw [trail₁.final agree₂ rfl, finalL, finalR]
    obtain ⟨y₃, runSame, trail₃, -⟩ := trail₂.unify (trail₂.kinded (.inl rfl))
      (trail₂.kinded (.inr rfl)) (by simp [Covers.of_mem]) same p
    refine ⟨.binary ⟨p, .bool, none⟩ op l' r', y₃, ?_, ?_, rfl⟩
    · simp only [infer, bind_of_ok runL, bind_of_ok runR, binaryType, plain, comparison,
        Bool.false_eq_true, if_false, if_true, bind_assoc, bind_of_ok runSame]
      rfl
    · exact (trail₃.adjoin (t := .bool) (.of_closed rfl rfl) (by simp)).sub (by simp [Expr.note])
  | logical plain logical typedL typedR =>
    obtain ⟨l', y₁, runL, trail₁, finalL⟩ := completeL opened covered typedL
    obtain ⟨r', y₂, runR, trail₂, agree₂, finalR⟩ := trail₁.infer completeR covered typedR
    obtain ⟨y₃, runTestL, trail₃, agree₃, -⟩ := trail₂.unifyClosed (c := .bool) (.inl rfl) rfl rfl
      ((trail₁.final agree₂ rfl).trans finalL) l'.note.position
    obtain ⟨y₄, runTestR, trail₄, -⟩ := trail₃.unifyClosed (c := .bool) (.inr rfl) rfl rfl
      ((trail₂.final agree₃ (.inr rfl)).trans finalR) r'.note.position
    refine ⟨.binary ⟨p, .bool, none⟩ op l' r', y₄, ?_, ?_, rfl⟩
    · simp only [infer, bind_of_ok runL, bind_of_ok runR, binaryType, plain, logical,
        Bool.false_eq_true, if_false, bind_assoc, bind_of_ok runTestL, bind_of_ok runTestR]
      rfl
    · exact (trail₄.adjoin (t := .bool) (.of_closed rfl rfl) (by simp)).sub (by simp [Expr.note])

theorem complete_cond {p : Position} {c t e : Expr Position} (completeC : Complete host ctors c)
    (completeT : Complete host ctors t) (completeE : Complete host ctors e) :
    Complete host ctors (.cond p c t e) := by
  intro env x Γ ρ u opened covered typed
  cases typed with
  | cond typedC typedT typedE =>
    obtain ⟨c', y₁, runC, trail₁, finalC⟩ := completeC opened covered typedC
    obtain ⟨y₂, runTest, trail₂, -⟩ := trail₁.unifyClosed (c := .bool) rfl rfl rfl finalC
      c'.note.position
    obtain ⟨t', y₃, runT, trail₃, -, finalT⟩ := trail₂.infer completeT covered typedT
    obtain ⟨e', y₄, runE, trail₄, agree₄, finalE⟩ := trail₃.infer completeE covered typedE
    have finalT := (trail₃.final agree₄ (.inr rfl)).trans finalT
    obtain ⟨y₅, runSame, trail₅, agree₅, -⟩ := trail₄.unify (trail₄.kinded (.inl (.inr rfl)))
      (trail₄.kinded (.inr rfl)) (by simp [Covers.of_mem]) (finalT.trans finalE.symm)
      e'.note.position
    refine ⟨.cond ⟨p, t'.note.type, none⟩ c' t' e', y₅, ?_, trail₅.sub (by simp [Expr.note]),
      (trail₄.final agree₅ (.inl (.inr rfl))).trans finalT⟩
    simp only [infer, bind_of_ok runC, bind_of_ok runTest, bind_of_ok runT, bind_of_ok runE,
      bind_of_ok runSame]
    rfl

theorem complete_print {p : Position} {e : Expr Position} (complete : Complete host ctors e) :
    Complete host ctors (.print p e) := by
  intro env x Γ ρ t opened covered typed
  cases typed with
  | print typed =>
    obtain ⟨e', y, runE, trail, -⟩ := complete opened covered typed
    refine ⟨.print ⟨p, .unit, none⟩ e', y, ?_, ?_, rfl⟩
    · simp only [infer, bind_of_ok runE]
      rfl
    · exact (trail.adjoin (t := .unit) (.of_closed rfl rfl) (by simp)).sub (by simp [Expr.note])

theorem complete_cons {p : Position} {h l : Expr Position} (completeH : Complete host ctors h)
    (completeL : Complete host ctors l) : Complete host ctors (.cons p h l) := by
  intro env x Γ ρ t opened covered typed
  cases typed with
  | cons typedH typedL =>
    obtain ⟨h', y₁, runH, trail₁, finalH⟩ := completeH opened covered typedH
    obtain ⟨l', y₂, runL, trail₂, agree₂, finalL⟩ := trail₁.infer completeL covered typedL
    have same : y₂.final l'.note.type = y₂.final (.list h'.note.type) := by
      rw [finalL]
      exact congrArg Ty.list ((trail₁.final agree₂ rfl).trans finalH).symm
    obtain ⟨y₃, runSame, trail₃, agree₃, -⟩ := trail₂.unify (trail₂.kinded (.inr rfl))
      (Ty.WellKinded.list_iff.2 (trail₂.kinded (.inl rfl))) (by simp [Covers.of_mem]) same p
    refine ⟨.cons ⟨p, l'.note.type, none⟩ h' l', y₃, ?_, trail₃.sub (by simp [Expr.note]),
      (trail₂.final agree₃ (.inr rfl)).trans finalL⟩
    simp only [infer, bind_of_ok runH, bind_of_ok runL, bind_of_ok runSame]
    rfl

/-! ### Lists of children -/

section Lists

variable {es : List (Expr Position)} {ts : List Ty}

theorem Trail.inferAll (each : ∀ e ∈ es, Complete host ctors e) (trail : Trail env x O y)
    (covered : Covered Γ env x.value ρ) (typed : HaveTypes ctors Γ es ts)
    (done : List (Expr Typed)) : ∃ (new : List (Expr Typed)) (z : Solution ctors),
      Typing.inferAll host env done es y.state = .ok (done.reverse ++ new) z.state ∧
        Trail env x (O ∪ typesIn new) z ∧ y.Agree z ∧
        new.map (fun e => z.final e.note.type) = ts.map (Ty.assign ρ) := by
  induction es generalizing ts y O done with
  | nil =>
    cases typed
    refine ⟨[], y, ?_, trail.sub (by simp [typesIn]), .refl y, rfl⟩
    simp only [Typing.inferAll, List.append_nil]
    rfl
  | cons e es ih =>
    cases typed with
    | cons typedE typed =>
      rw [List.forall_mem_cons] at each
      obtain ⟨e', y₁, runE, trail₁, agree₁, finalE⟩ := trail.infer each.1 covered typedE
      obtain ⟨new, y₂, run, trail₂, agree₂, finals⟩ := ih each.2 trail₁ typed (e' :: done)
      refine ⟨e' :: new, y₂, ?_, ?_, agree₁.trans agree₂, ?_⟩
      · simp only [Typing.inferAll, bind_of_ok runE, run, List.reverse_cons, List.append_assoc,
          List.singleton_append]
      · rw [typesIn_cons, ← Set.union_assoc]
        exact trail₂
      · rw [List.map_cons, List.map_cons, finals, trail₁.final agree₂ (.inr rfl), finalE]

theorem Trail.inferElems {elem : Ty} (each : ∀ e ∈ es, Complete host ctors e)
    (trail : Trail env x O y) (covered : Covered Γ env x.value ρ)
    (typed : ∀ e ∈ es, HasType ctors Γ e t) (member : elem ∈ O)
    (final : y.final elem = t.assign ρ) (done : List (Expr Typed)) :
    ∃ (new : List (Expr Typed)) (z : Solution ctors),
      Typing.inferElems host env elem done es y.state = .ok (done.reverse ++ new) z.state ∧
        Trail env x O z ∧ y.Agree z := by
  induction es generalizing y O done with
  | nil =>
    refine ⟨[], y, ?_, trail, .refl y⟩
    simp only [Typing.inferElems, List.append_nil]
    rfl
  | cons e es ih =>
    rw [List.forall_mem_cons] at each typed
    obtain ⟨e', y₁, runE, trail₁, agree₁, finalE⟩ := trail.infer each.1 covered typed.1
    have final₁ := (trail.final agree₁ member).trans final
    obtain ⟨y₂, runSame, trail₂, agree₂, -⟩ := trail₁.unify (trail₁.kinded (.inl member))
      (trail₁.kinded (.inr rfl)) (by simp [Covers.of_mem, member]) (final₁.trans finalE.symm)
      e'.note.position
    have final₂ := (trail₁.final agree₂ (.inl member)).trans final₁
    obtain ⟨new, y₃, run, trail₃, agree₃⟩ :=
      ih each.2 trail₂ typed.2 (.inl member) final₂ (e' :: done)
    refine ⟨e' :: new, y₃, ?_, trail₃.sub Set.subset_union_left,
      (agree₁.trans agree₂).trans agree₃⟩
    simp only [Typing.inferElems, bind_of_ok runE, bind_of_ok runSame, run, List.reverse_cons,
      List.append_assoc, List.singleton_append]

theorem Trail.inferArgs {fn : Ty} (each : ∀ e ∈ es, Complete host ctors e)
    (trail : Trail env x O y) (covered : Covered Γ env x.value ρ)
    (typed : HaveTypes ctors Γ es ts) (member : fn ∈ O)
    (final : y.final fn = (Ty.fns ts t).assign ρ) (done : List (Expr Typed)) :
    ∃ (result : Ty) (new : List (Expr Typed)) (z : Solution ctors),
      Typing.inferArgs host env fn done es y.state = .ok (result, done.reverse ++ new) z.state ∧
        Trail env x (O ∪ {result}) z ∧ y.Agree z ∧ z.final result = t.assign ρ := by
  induction es generalizing y O ts fn done with
  | nil =>
    cases typed
    refine ⟨fn, [], y, ?_, trail.sub (by simp [member]), .refl y, final⟩
    simp only [Typing.inferArgs, List.append_nil]
    rfl
  | cons e es ih =>
    cases typed with
    | @cons _ _ _ t₁ ts typedE typed =>
      rw [List.forall_mem_cons] at each
      obtain ⟨e', y₁, runE, trail₁, agree₁, finalE⟩ := trail.infer each.1 covered typedE
      obtain ⟨rest, y₂, runR, trail₂, agree₂, finalR⟩ := trail₁.fresh ((Ty.fns ts t).assign ρ)
      have same : y₂.final fn = y₂.final (.fn e'.note.type rest) := by
        rw [(agree₁.trans agree₂).final (trail.kinded member), final]
        change Ty.fn (t₁.assign ρ) ((Ty.fns ts t).assign ρ) =
          Ty.fn (y₂.final e'.note.type) (y₂.final rest)
        rw [finalR, trail₁.final agree₂ (.inr rfl), finalE]
      obtain ⟨y₃, runSame, trail₃, agree₃, -⟩ := trail₂.unify (trail₂.kinded (.inl (.inl member)))
        (Ty.WellKinded.fn_iff.2 ⟨trail₂.kinded (.inl (.inr rfl)), trail₂.kinded (.inr rfl)⟩)
        (by simp [Covers.of_mem, member]) same e'.note.position
      obtain ⟨result, new, y₄, run, trail₄, agree₄, finalT⟩ := ih each.2 trail₃ typed (.inr rfl)
        ((trail₂.final agree₃ (.inr rfl)).trans finalR) (e' :: done)
      refine ⟨result, e' :: new, y₄, ?_, trail₄.sub ?_,
        ((agree₁.trans agree₂).trans agree₃).trans agree₄, finalT⟩
      · simp only [Typing.inferArgs, bind_of_ok runE, bind_of_ok runR, bind_of_ok runSame, run,
          List.reverse_cons, List.append_assoc, List.singleton_append]
      · exact Set.union_subset_union_left _ fun t old => .inl (.inl old)

theorem Trail.inferParts {parts : List (Part Position)}
    (each : ∀ e, .hole e ∈ parts → Complete host ctors e) (trail : Trail env x O y)
    (covered : Covered Γ env x.value ρ) (typed : PartsHaveTypes ctors Γ parts)
    (done : List (Part Typed)) : ∃ (new : List (Part Typed)) (z : Solution ctors),
      Typing.inferParts host env done parts y.state = .ok (done.reverse ++ new) z.state ∧
        Trail env x O z := by
  induction parts generalizing y O done with
  | nil =>
    refine ⟨[], y, ?_, trail⟩
    simp only [Typing.inferParts, List.append_nil]
    rfl
  | cons part parts ih =>
    have rest : ∀ e, .hole e ∈ parts → Complete host ctors e := fun e member =>
      each e (List.mem_cons_of_mem _ member)
    cases typed with
    | @text _ v _ typed =>
      obtain ⟨new, z, run, trail'⟩ := ih rest trail typed (.text v :: done)
      refine ⟨.text v :: new, z, ?_, trail'⟩
      simp only [Typing.inferParts, run, List.reverse_cons, List.append_assoc,
        List.singleton_append]
    | hole typedE typed =>
      obtain ⟨e', y₁, runE, trail₁, -⟩ := trail.infer (each _ List.mem_cons_self) covered typedE
      obtain ⟨new, z, run, trail'⟩ := ih rest trail₁ typed (.hole e' :: done)
      refine ⟨.hole e' :: new, z, ?_, trail'.sub Set.subset_union_left⟩
      simp only [Typing.inferParts, bind_of_ok runE, run, List.reverse_cons, List.append_assoc,
        List.singleton_append]

end Lists

theorem complete_interp {p : Position} {parts : List (Part Position)}
    (each : ∀ e, .hole e ∈ parts → Complete host ctors e) :
    Complete host ctors (.interp p parts) := by
  intro env x Γ ρ t opened covered typed
  cases typed with
  | interp typed =>
    obtain ⟨parts', y, run, trail⟩ := (Trail.here opened).inferParts each covered typed []
    refine ⟨.interp ⟨p, .string, none⟩ parts', y, ?_, ?_, rfl⟩
    · simp only [infer, bind_of_ok run]
      rfl
    · exact (trail.adjoin (t := .string) (.of_closed rfl rfl) (by simp)).sub (by simp [Expr.note])

theorem complete_sequence {p : Position} {es : List (Expr Position)}
    (each : ∀ e ∈ es, Complete host ctors e) : Complete host ctors (.sequence p es) := by
  intro env x Γ ρ t opened covered typed
  cases typed with
  | @sequence _ _ _ ts typed =>
    obtain ⟨es', y, run, trail, -, finals⟩ := (Trail.here opened).inferAll each covered typed []
    have last : (lastType es').WellKinded y.stage.supply ∧
        Covers (visible env ctors ∪ (∅ ∪ typesIn es')) {lastType es'} := by
      unfold lastType
      cases found : es'.getLast? with
      | none => exact ⟨.of_closed rfl rfl, by simp⟩
      | some e =>
        have member : e.note.type ∈ ∅ ∪ typesIn es' :=
          .inr ⟨e, List.mem_of_getLast? found, rfl⟩
        exact ⟨trail.kinded member, .of_mem (.inr member)⟩
    refine ⟨.sequence ⟨p, lastType es', none⟩ es', y, ?_,
      (trail.adjoin last.1 last.2).sub (by simp [Expr.note]), ?_⟩
    · simp only [infer, bind_of_ok run]
      rfl
    · have lasts := congrArg List.getLast? finals
      rw [List.getLast?_map, List.getLast?_map] at lasts
      unfold Expr.note lastType
      cases found : es'.getLast? <;> cases known : ts.getLast? <;> simp_all [Solution.final, Ty.assign]

theorem complete_list {p : Position} {es : List (Expr Position)}
    (each : ∀ e ∈ es, Complete host ctors e) : Complete host ctors (.list p es) := by
  intro env x Γ ρ t opened covered typed
  cases typed with
  | @list _ _ _ t mono typed =>
    obtain ⟨elem, y₁, runT, trail₁, -, finalT⟩ := (Trail.here opened).fresh (t.assign ρ)
    obtain ⟨es', y₂, run, trail₂, agree₂⟩ :=
      trail₁.inferElems each covered typed (.inr rfl) finalT []
    have kinded := Ty.WellKinded.list_iff.2 (trail₂.kinded (.inr rfl))
    refine ⟨.list ⟨p, .list elem, none⟩ es', y₂, ?_,
      (trail₂.adjoin kinded (by simp [Covers.of_mem])).sub (by simp [Expr.note]), ?_⟩
    · simp only [infer, bind_of_ok runT, bind_of_ok run]
      rfl
    · exact congrArg Ty.list ((trail₁.final agree₂ (.inr rfl)).trans finalT)

theorem complete_apply {p : Position} {callee : Expr Position} {args : List (Expr Position)}
    (completeC : Complete host ctors callee) (each : ∀ e ∈ args, Complete host ctors e) :
    Complete host ctors (.apply p callee args) := by
  intro env x Γ ρ t opened covered typed
  cases typed with
  | apply typedC typed =>
    obtain ⟨c', y₁, runC, trail₁, finalC⟩ := completeC opened covered typedC
    obtain ⟨result, args', y₂, runA, trail₂, agree₂, finalT⟩ :=
      trail₁.inferArgs each covered typed rfl finalC []
    obtain ⟨s, runUse, weighs⟩ := y₂.recordUse env callee c'.note.type
    have fits := recordUse_spec y₂.fits (trail₂.kinded (.inl rfl)) runUse
    refine ⟨.apply ⟨p, result, none⟩ c' args', y₂.moved s fits weighs, ?_, ?_, finalT⟩
    · simp only [infer, bind_of_ok runC, bind_of_ok runA, bind_of_ok runUse]
      rfl
    · have trail₃ : Trail env x {result} y₂ := trail₂.sub Set.subset_union_right
      exact ⟨trail₃.start, trail₃.way, trail₃.mono, trail₃.calm, trail₃.agree.last,
        trail₃.agree.value⟩

/-! ### Constructors -/

theorem findCtor_run (y : Solution ctors) {name : String} {c : Constructor}
    (found : ctors.get? name = some c) (p : Position) :
    findCtor p name y.state = .ok c y.state := by
  have got : (get : Infer State) y.state = .ok y.state y.state := rfl
  simp only [findCtor, bind_of_ok got, y.fits.ctors_eq, found]
  rfl

theorem Trail.instantiateCtor {name : String} {c : Constructor} (closed : CtorsClosed ctors)
    (trail : Trail env x O y) (found : ctors.get? name = some c)
    (inst : c.type.Instance {} t) : ∃ (v : Ty) (z : Solution ctors),
      Typing.instantiate c.type y.state = .ok v z.state ∧ Trail env x (O ∪ {v}) z ∧ y.Agree z ∧
        z.final v = t.assign ρ := by
  have member : c.type ∈ visible env ctors := ctor_mem_visible found
  have sub : Subsumes y.value c.type ρ c.type :=
    .of_closed (closed _ (mem_of_get? found)) (trail.start.plain _ member)
  obtain ⟨value, kept, used⟩ := sub.use (trail.start.scope.kinded _ member).mono inst
  obtain ⟨v, z, run, trail', agree, final⟩ := trail.instantiate member kept
  exact ⟨v, z, run, trail', agree, final.trans used⟩

theorem complete_tag {p : Position} {name : String} (closed : CtorsClosed ctors) :
    Complete host ctors (.tag p name) := by
  intro env x Γ ρ t opened covered typed
  cases typed with
  | tag found hasArg inst =>
    obtain ⟨v, y, run, trail, -, final⟩ :=
      (Trail.here opened).instantiateCtor (ρ := ρ) closed found inst
    refine ⟨.tag ⟨p, v, none⟩ name, y, ?_, trail.sub (by simp [Expr.note]), final⟩
    simp only [infer, bind_of_ok (findCtor_run x found p), bind_of_ok run, hasArg]
    rfl

theorem complete_build {p : Position} {name : String} {e : Expr Position}
    (closed : CtorsClosed ctors) (complete : Complete host ctors e) :
    Complete host ctors (.build p name e) := by
  intro env x Γ ρ t opened covered typed
  cases typed with
  | @build _ _ _ _ _ a _ found hasArg inst typed =>
    obtain ⟨ct, y₁, runC, trail₁, -, finalC⟩ :=
      (Trail.here opened).instantiateCtor (ρ := ρ) closed found inst
    obtain ⟨e', y₂, runE, trail₂, agree₂, finalE⟩ := trail₁.infer complete covered typed
    obtain ⟨result, y₃, runR, trail₃, agree₃, finalR⟩ := trail₂.fresh (t.assign ρ)
    have same : y₃.final ct = y₃.final (.fn e'.note.type result) := by
      rw [(agree₂.trans agree₃).final (trail₁.kinded (.inr rfl)), finalC]
      change Ty.fn (a.assign ρ) (t.assign ρ) = Ty.fn (y₃.final e'.note.type) (y₃.final result)
      rw [finalR, trail₂.final agree₃ (.inr rfl), finalE]
    obtain ⟨y₄, runSame, trail₄, agree₄, -⟩ := trail₃.unify
      (trail₃.kinded (.inl (.inl (.inr rfl))))
      (Ty.WellKinded.fn_iff.2 ⟨trail₃.kinded (.inl (.inr rfl)), trail₃.kinded (.inr rfl)⟩)
      (by simp [Covers.of_mem]) same e'.note.position
    refine ⟨.build ⟨p, result, none⟩ name e', y₄, ?_, trail₄.sub (by simp [Expr.note]),
      (trail₃.final agree₄ (.inr rfl)).trans finalR⟩
    simp only [infer, bind_of_ok (findCtor_run x found p), bind_of_ok runC, hasArg, Bool.not_true,
      Bool.false_eq_true, if_false, bind_of_ok runE, bind_of_ok runR, bind_of_ok runSame]
    rfl

end StackML.Typing
