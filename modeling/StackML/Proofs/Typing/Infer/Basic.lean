import StackML.Proofs.Expr.Notes
import StackML.Proofs.Typing.Steps

/-!
Inference of expressions follows the typing rules. What is claimed of an inferred tree is claimed at
every later stage that leaves the private variables of the run alone, so that it holds of the types
as they are in the end.
-/

namespace StackML.Typing

open Assignment

/-- The types in view: those of the names and those of the constructors. -/
def visible (env : Env) (ctors : NameMap Constructor) : Set Ty :=
  env.types ∪ {t | ∃ e ∈ ctors.entries, e.2.type = t}

/-- A note with its type as an assignment gives it. -/
def Typed.close (R : Assignment) (n : Typed) : Typed := { n with type := n.type.assign R }

structure Holds (host : Host.Resolver) (ctors : NameMap Constructor) (env : Env) (e : Expr Typed)
    (f : Stage) : Prop where
  kinded : ∀ n ∈ e.notes, n.type.WellKinded f.supply
  derives : (∀ t ∈ visible env ctors, t.Private f.meaning) → ∀ θ : Assignment, θ.Kinded →
    Derives host ctors θ (env.context f.meaning) (e.mapNotes (Typed.close f.meaning))

/-- Inference of an expression is sound wherever it succeeds. -/
def Sound (host : Host.Resolver) (ctors : NameMap Constructor) (e : Expr Position) : Prop :=
  ∀ {N : Set VarId} {env : Env} {w : Stage} {s s' : State} {e' : Expr Typed}, Fits ctors w s →
    Scope w (visible env ctors) → infer host env e s = .ok e' s' →
    ∃ w', Fits ctors w' s' ∧ e'.note.type.WellKinded w'.supply ∧
      Reaches N (visible env ctors) w w' {e'.note.type} (Holds host ctors env e')

/-- Host members have types without variables. -/
def HostClosed (host : Host.Resolver) : Prop :=
  ∀ owner member kind s, host owner member kind = .ok s →
    (∀ t ∈ s.result :: s.params, t.isMono ∧ t.occurrences = [])

variable {N : Set VarId} {host : Host.Resolver} {ctors : NameMap Constructor} {env : Env} {w : Stage}
  {s s' : State}

@[simp] theorem Typed.close_type (R : Assignment) (n : Typed) :
    (n.close R).type = n.type.assign R := rfl

theorem sound_of_pure {e' : Expr Typed} (fits : Fits ctors w s) (scope : Scope w (visible env ctors))
    (kinded : ∀ g, e'.note.type.WellKinded g) (closed : e'.note.type.occurrences = [])
    (notes : e'.notes = [e'.note])
    (derives : ∀ θ Γ R, Derives host ctors θ Γ (e'.mapNotes (Typed.close R))) :
    ∃ w', Fits ctors w' s ∧ e'.note.type.WellKinded w'.supply ∧
      Reaches N (visible env ctors) w w' {e'.note.type} (Holds host ctors env e') := by
  refine ⟨w, fits, kinded _, ?_⟩
  have stay := (Reaches.here (N := N) scope.kinded).adjoin (kinded w.supply)
    (.of_occurrences (by simp [closed]))
  refine stay.weaken scope.kinded subset_rfl (by simp) fun f _ _ => ⟨?_, fun _ θ _ => derives θ _ _⟩
  simpa [notes] using kinded f.supply

theorem Reaches.infer {e : Expr Position} {e' : Expr Typed} {O : Set Ty} {w₁ : Stage}
    {claim : Stage → Prop} (way : Reaches N (visible env ctors) w w₁ O claim)
    (scope : Scope w (visible env ctors)) (fits : Fits ctors w₁ s) (sound : Sound host ctors e)
    (run : Typing.infer host env e s = .ok e' s') : ∃ w₂, Fits ctors w₂ s' ∧ w₁.Before w₂ ∧
      e'.note.type.WellKinded w₂.supply ∧
      Reaches N (visible env ctors) w w₂ (O ∪ {e'.note.type}) fun f =>
        claim f ∧ Holds host ctors env e' f := by
  obtain ⟨w₂, fits₂, kinded, step⟩ := sound (N := N) fits (scope.after way) run
  exact ⟨w₂, fits₂, step.before, kinded, way.andThen step .left⟩

theorem sound_cond {p : Position} {c t e : Expr Position} (soundC : Sound host ctors c)
    (soundT : Sound host ctors t) (soundE : Sound host ctors e) :
    Sound host ctors (.cond p c t e) := by
  intro N env w s s' e' fits scope run
  simp only [infer] at run
  obtain ⟨c', s₁, runC, run⟩ := bind_ok run
  obtain ⟨w₁, fits₁, kindedC, way₁⟩ := soundC (N := N) fits scope runC
  obtain ⟨_, s₂, runTest, run⟩ := bind_ok run
  obtain ⟨w₂, fits₂, -, way₂⟩ :=
    way₁.unify fits₁ kindedC (.of_closed rfl rfl) (by simp [Covers.of_mem]) runTest
  obtain ⟨t', s₃, runT, run⟩ := bind_ok run
  obtain ⟨w₃, fits₃, -, kindedT, way₃⟩ := way₂.infer scope fits₂ soundT runT
  obtain ⟨e'', s₄, runE, run⟩ := bind_ok run
  obtain ⟨w₄, fits₄, later₄, kindedE, way₄⟩ := way₃.infer scope fits₃ soundE runE
  obtain ⟨_, s₅, runSame, run⟩ := bind_ok run
  obtain ⟨w₅, fits₅, later₅, way₅⟩ :=
    way₄.unify fits₄ (kindedT.grow later₄.grows) kindedE (by simp [Covers.of_mem]) runSame
  obtain ⟨rfl, rfl⟩ := pure_ok run
  have kinded := kindedT.grow (later₄.trans later₅).grows
  refine ⟨w₅, fits₅, kinded, way₅.weaken scope.kinded subset_rfl (by simp [Expr.note]) ?_⟩
  rintro f before ⟨⟨⟨⟨holdsC, test⟩, holdsT⟩, holdsE⟩, same⟩
  refine ⟨?_, fun own θ good => ?_⟩
  · simp only [Expr.notes, List.forall_mem_cons, List.forall_mem_append]
    exact ⟨kinded.grow before.grows, holdsC.kinded, holdsT.kinded, holdsE.kinded⟩
  · refine .cond (holdsC.derives own θ good) (holdsT.derives own θ good)
      (holdsE.derives own θ good) ?_ ?_ ?_
    · simp [test, Ty.assign]
    · simp
    · simp [same]

theorem mem_visible {name : String} {b : Binding} (found : env.get? name = some b) :
    b.type ∈ visible env ctors :=
  .inl (Env.type_mem found)

theorem ctor_mem_visible {name : String} {c : Constructor} (found : ctors.get? name = some c) :
    c.type ∈ visible env ctors :=
  .inr ⟨_, mem_of_get? found, rfl⟩

theorem lookup_spec {p : Position} {name : String} {t : Ty} (fits : Fits ctors w s)
    (scope : Scope w (visible env ctors)) (run : lookup env p name s = .ok t s') :
    ∃ w' b, env.get? name = some b ∧ Fits ctors w' s' ∧ t.WellKinded w'.supply ∧
      Reaches N (visible env ctors) w w' {t} fun f => b.type.Private f.meaning →
        ∀ θ : Assignment, θ.Kinded → (b.type.assign f.meaning).Instance θ (t.assign f.meaning) := by
  cases found : env.get? name with
  | none =>
    simp only [lookup, found] at run
    exact (not_refuse_ok run).elim
  | some b =>
    simp only [lookup, found] at run
    obtain ⟨w', fits', kinded, way⟩ := instantiate_spec (N := N) fits scope (mem_visible found) run
    exact ⟨w', b, rfl, fits', kinded, way⟩

theorem sound_var {p : Position} {name : String} : Sound host ctors (.var p name) := by
  intro N env w s s' e' fits scope run
  simp only [infer] at run
  obtain ⟨t, s₁, runT, run⟩ := bind_ok run
  obtain ⟨w₁, b, found, fits₁, kinded, way⟩ := lookup_spec (N := N) fits scope runT
  obtain ⟨rfl, rfl⟩ := pure_ok run
  refine ⟨w₁, fits₁, kinded, way.weaken scope.kinded subset_rfl (by simp [Expr.note]) ?_⟩
  intro f before fresh
  refine ⟨by simpa [Expr.notes] using kinded.grow before.grows, fun own θ good => ?_⟩
  exact .var (by simp [Env.context, found]) (fresh (own _ (mem_visible found)) θ good)

theorem sound_qualified {p : Position} {module name : String} :
    Sound host ctors (.qualified p module name) := by
  intro N env w s s' e' fits scope run
  simp only [infer] at run
  obtain ⟨t, s₁, runT, run⟩ := bind_ok run
  obtain ⟨w₁, b, found, fits₁, kinded, way⟩ := lookup_spec (N := N) fits scope runT
  obtain ⟨rfl, rfl⟩ := pure_ok run
  refine ⟨w₁, fits₁, kinded, way.weaken scope.kinded subset_rfl (by simp [Expr.note]) ?_⟩
  intro f before fresh
  refine ⟨by simpa [Expr.notes] using kinded.grow before.grows, fun own θ good => ?_⟩
  exact .qualified (by simp [Env.context, found]) (fresh (own _ (mem_visible found)) θ good)

theorem sound_unary {p : Position} {op : UnaryOp} {e : Expr Position} (sound : Sound host ctors e) :
    Sound host ctors (.unary p op e) := by
  intro N env w s s' e' fits scope run
  simp only [infer] at run
  obtain ⟨e'', s₁, runE, run⟩ := bind_ok run
  obtain ⟨w₁, fits₁, kinded₁, way₁⟩ := sound (N := N) fits scope runE
  cases op with
  | not =>
    obtain ⟨_, s₂, runTest, run⟩ := bind_ok run
    obtain ⟨w₂, fits₂, -, way₂⟩ :=
      way₁.unify fits₁ kinded₁ (.of_closed rfl rfl) (by simp [Covers.of_mem]) runTest
    obtain ⟨rfl, rfl⟩ := pure_ok run
    refine ⟨w₂, fits₂, .of_closed rfl rfl, ?_⟩
    refine (way₂.adjoin (t := .bool) (.of_closed rfl rfl) (by simp)).weaken scope.kinded subset_rfl
      (by simp [Expr.note]) ?_
    rintro f before ⟨holds, test⟩
    refine ⟨?_, fun own θ good => .unary (holds.derives own θ good) ?_⟩
    · simp only [Expr.notes, List.forall_mem_cons]
      exact ⟨.of_closed rfl rfl, holds.kinded⟩
    · simp [UnaryFits, test, Ty.assign]
  | neg =>
    obtain ⟨v, s₂, runV, run⟩ := bind_ok run
    obtain ⟨w₂, fits₂, later₂, kindedV, way₂⟩ := way₁.freshNumeric fits₁ runV
    obtain ⟨_, s₃, runSame, run⟩ := bind_ok run
    obtain ⟨w₃, fits₃, later₃, way₃⟩ :=
      way₂.unify fits₂ (kinded₁.grow later₂.grows) kindedV (by simp [Covers.of_mem]) runSame
    obtain ⟨rfl, rfl⟩ := pure_ok run
    have kinded := kinded₁.grow (later₂.trans later₃).grows
    refine ⟨w₃, fits₃, kinded, way₃.weaken scope.kinded subset_rfl (by simp [Expr.note]) ?_⟩
    rintro f before ⟨⟨holds, numeric⟩, same⟩
    refine ⟨?_, fun own θ good => .unary (holds.derives own θ good) ?_⟩
    · simp only [Expr.notes, List.forall_mem_cons]
      exact ⟨kinded.grow before.grows, holds.kinded⟩
    · simp only [UnaryFits, Expr.note_mapNotes, Typed.close_type, same, and_true]
      exact Ty.fitsNumeric_assign numeric fun id _ => good.numeric id

theorem ArithmeticFits.of_eq {t : Ty} (numeric : t.fitsNumeric) : ArithmeticFits t t t := by
  refine ⟨numeric, numeric, ?_⟩
  split
  · next h => exact h.elim id id
  · exact ⟨rfl, rfl⟩

section Binary

variable {p : Position} {op : BinaryOp} {l r : Typed} {t : Ty} {T O : Set Ty} {w₁ : Stage}
  {claim : Stage → Prop}

theorem assign_eq_double {u : Ty} {f : Stage} (kinded : t.WellKinded w.supply)
    (same : u.assign w.meaning = t.assign w.meaning) (before : w.Before f) (h : u = .double) :
    t.assign f.meaning = .double := by
  rw [← before.refines.assign kinded.mono, ← same, h]
  rfl

theorem arithmeticType_spec (arithmetic : op.isArithmetic) (way : Reaches N T w w₁ O claim)
    (fits : Fits ctors w₁ s) (kindedL : l.type.WellKinded w₁.supply)
    (kindedR : r.type.WellKinded w₁.supply) (memL : l.type ∈ O) (memR : r.type ∈ O)
    (run : binaryType p op l r s = .ok t s') : ∃ w₂, Fits ctors w₂ s' ∧ t.WellKinded w₂.supply ∧
      Reaches N T w w₂ (O ∪ {t}) fun f => claim f ∧ ∀ θ : Assignment, θ.Kinded →
        ArithmeticFits ((l.type.assign f.meaning).assign θ) ((r.type.assign f.meaning).assign θ)
          ((t.assign f.meaning).assign θ) := by
  simp only [binaryType, arithmetic, if_true] at run
  obtain ⟨v, s₂, runV, run⟩ := bind_ok run
  obtain ⟨w₂, fits₂, later₂, kindedV, way₂⟩ := way.freshNumeric fits runV
  obtain ⟨_, s₃, runL, run⟩ := bind_ok run
  obtain ⟨w₃, fits₃, later₃, way₃⟩ := way₂.unify fits₂ (kindedL.grow later₂.grows) kindedV
    (by simp [memL, Covers.of_mem]) runL
  obtain ⟨u, s₄, runU, run⟩ := bind_ok run
  obtain ⟨w₄, fits₄, later₄, kindedU, way₄⟩ := way₃.freshNumeric fits₃ runU
  have later := (later₂.trans later₃).trans later₄
  obtain ⟨_, s₅, runR, run⟩ := bind_ok run
  obtain ⟨w₅, fits₅, later₅, way₅⟩ := way₄.unify fits₄ (kindedR.grow later.grows) kindedU
    (by simp [memR, Covers.of_mem]) runR
  have later := later.trans later₅
  have kindedL₅ := kindedL.grow later.grows
  have kindedR₅ := kindedR.grow later.grows
  obtain ⟨l', s₆, runPL, run⟩ := bind_ok run
  obtain ⟨sameL, fits₆⟩ := prune_spec fits₅ kindedL₅ runPL
  obtain ⟨r', s₇, runPR, run⟩ := bind_ok run
  obtain ⟨sameR, fits₇⟩ := prune_spec fits₆ kindedR₅ runPR
  split at run
  · next double =>
    obtain ⟨rfl, rfl⟩ := pure_ok run
    refine ⟨w₅, fits₇, .of_closed rfl rfl, (way₅.adjoin (t := .double) (.of_closed rfl rfl)
      (by simp)).weaken way.inView subset_rfl ?_ ?_⟩
    · exact Set.union_subset_union_left _ (by intro; simp +contextual)
    · rintro f before ⟨⟨⟨⟨holds, numericV⟩, eqL⟩, numericU⟩, eqR⟩
      refine ⟨holds, fun θ good => ⟨?_, ?_, ?_⟩⟩
      · rw [eqL]
        exact Ty.fitsNumeric_assign numericV fun id _ => good.numeric id
      · rw [eqR]
        exact Ty.fitsNumeric_assign numericU fun id _ => good.numeric id
      · have either := double.imp (assign_eq_double kindedL₅ sameL before)
          (assign_eq_double kindedR₅ sameR before)
        rw [if_pos (either.imp (fun h => by rw [h]; rfl) (fun h => by rw [h]; rfl))]
        rfl
  · obtain ⟨_, s₈, runSame, run⟩ := bind_ok run
    obtain ⟨w₈, fits₈, later₈, way₈⟩ := way₅.unify fits₇ kindedL₅ kindedR₅
      (by simp [memL, memR, Covers.of_mem]) runSame
    obtain ⟨rfl, rfl⟩ := pure_ok run
    refine ⟨w₈, fits₈, kindedL₅.grow later₈.grows, way₈.weaken way.inView subset_rfl ?_ ?_⟩
    · rintro x (old | rfl)
      · simp [old]
      · simp [memL]
    · rintro f before ⟨⟨⟨⟨⟨holds, numericV⟩, eqL⟩, -⟩, -⟩, same⟩
      refine ⟨holds, fun θ good => ?_⟩
      rw [← same, eqL]
      exact .of_eq (Ty.fitsNumeric_assign numericV fun id _ => good.numeric id)

theorem binaryType_spec (way : Reaches N T w w₁ O claim) (fits : Fits ctors w₁ s)
    (kindedL : l.type.WellKinded w₁.supply) (kindedR : r.type.WellKinded w₁.supply)
    (memL : l.type ∈ O) (memR : r.type ∈ O) (run : binaryType p op l r s = .ok t s') :
    ∃ w₂, Fits ctors w₂ s' ∧ t.WellKinded w₂.supply ∧
      Reaches N T w w₂ (O ∪ {t}) fun f => claim f ∧ ∀ θ : Assignment, θ.Kinded →
        BinaryFits op ((l.type.assign f.meaning).assign θ) ((r.type.assign f.meaning).assign θ)
          ((t.assign f.meaning).assign θ) := by
  by_cases arithmetic : op.isArithmetic
  · obtain ⟨w₂, fits₂, kinded, way₂⟩ :=
      arithmeticType_spec arithmetic way fits kindedL kindedR memL memR run
    refine ⟨w₂, fits₂, kinded, way₂.weaken way.inView subset_rfl subset_rfl fun f _ h => ?_⟩
    simpa [BinaryFits, arithmetic] using h
  · by_cases comparison : op.isComparison
    · simp only [binaryType, arithmetic, comparison, if_true] at run
      obtain ⟨_, s₁, runSame, run⟩ := bind_ok run
      obtain ⟨w₂, fits₂, -, way₂⟩ :=
        way.unify fits kindedL kindedR (by simp [memL, memR, Covers.of_mem]) runSame
      obtain ⟨rfl, rfl⟩ := pure_ok run
      refine ⟨w₂, fits₂, .of_closed rfl rfl, ?_⟩
      refine (way₂.adjoin (.of_closed rfl rfl) (by simp)).weaken way.inView subset_rfl subset_rfl ?_
      rintro f before ⟨holds, same⟩
      refine ⟨holds, fun θ _ => ?_⟩
      simp [BinaryFits, arithmetic, comparison, same, Ty.assign]
    · simp only [binaryType, arithmetic, comparison] at run
      obtain ⟨_, s₁, runL, run⟩ := bind_ok run
      obtain ⟨w₂, fits₂, later₂, way₂⟩ :=
        way.unify fits kindedL (.of_closed rfl rfl) (by simp [memL, Covers.of_mem]) runL
      obtain ⟨_, s₂, runR, run⟩ := bind_ok run
      obtain ⟨w₃, fits₃, -, way₃⟩ := way₂.unify fits₂ (kindedR.grow later₂.grows)
        (.of_closed rfl rfl) (by simp [memR, Covers.of_mem]) runR
      obtain ⟨rfl, rfl⟩ := pure_ok run
      refine ⟨w₃, fits₃, .of_closed rfl rfl, ?_⟩
      refine (way₃.adjoin (.of_closed rfl rfl) (by simp)).weaken way.inView subset_rfl subset_rfl ?_
      rintro f before ⟨⟨holds, boolL⟩, boolR⟩
      refine ⟨holds, fun θ _ => ?_⟩
      simp [BinaryFits, arithmetic, comparison, boolL, boolR, Ty.assign]

end Binary

theorem sound_binary {p : Position} {op : BinaryOp} {l r : Expr Position}
    (soundL : Sound host ctors l) (soundR : Sound host ctors r) :
    Sound host ctors (.binary p op l r) := by
  intro N env w s s' e' fits scope run
  simp only [infer] at run
  obtain ⟨l', s₁, runL, run⟩ := bind_ok run
  obtain ⟨w₁, fits₁, kindedL, way₁⟩ := soundL (N := N) fits scope runL
  obtain ⟨r', s₂, runR, run⟩ := bind_ok run
  obtain ⟨w₂, fits₂, later₂, kindedR, way₂⟩ := way₁.infer scope fits₁ soundR runR
  obtain ⟨t, s₃, runT, run⟩ := bind_ok run
  obtain ⟨w₃, fits₃, kinded, way₃⟩ := binaryType_spec way₂ fits₂ (kindedL.grow later₂.grows) kindedR
    (by simp) (by simp) runT
  obtain ⟨rfl, rfl⟩ := pure_ok run
  refine ⟨w₃, fits₃, kinded, way₃.weaken scope.kinded subset_rfl (by simp [Expr.note]) ?_⟩
  rintro f before ⟨⟨holdsL, holdsR⟩, binary⟩
  refine ⟨?_, fun own θ good => ?_⟩
  · simp only [Expr.notes, List.forall_mem_cons, List.forall_mem_append]
    exact ⟨kinded.grow before.grows, holdsL.kinded, holdsR.kinded⟩
  · refine .binary (holdsL.derives own θ good) (holdsR.derives own θ good) ?_
    simpa using binary θ good

/-! ### Function types -/

theorem covers_fns {T : Set Ty} {ps : List Ty} {r : Ty} (params : ∀ t ∈ ps, Covers T {t})
    (result : Covers T {r}) : Covers T {Ty.fns ps r} := by
  induction ps with
  | nil => exact result
  | cons t ps ih =>
    simp only [List.forall_mem_cons] at params
    exact Covers.fn_iff.2 ⟨params.1, ih params.2⟩

theorem covers_lambdaType {T : Set Ty} {ps : List Ty} {r : Ty} (params : ∀ t ∈ ps, Covers T {t})
    (result : Covers T {r}) : Covers T {lambdaType ps r} := by
  unfold lambdaType
  split
  · simpa using result
  · exact covers_fns params result

theorem wellKinded_fns {g : Supply} {ps : List Ty} {r : Ty} (params : ∀ t ∈ ps, t.WellKinded g)
    (result : r.WellKinded g) : (Ty.fns ps r).WellKinded g := by
  induction ps with
  | nil => exact result
  | cons t ps ih =>
    simp only [List.forall_mem_cons] at params
    exact Ty.WellKinded.fn_iff.2 ⟨params.1, ih params.2⟩

theorem wellKinded_lambdaType {g : Supply} {ps : List Ty} {r : Ty}
    (params : ∀ t ∈ ps, t.WellKinded g) (result : r.WellKinded g) :
    (lambdaType ps r).WellKinded g := by
  unfold lambdaType
  split
  · exact Ty.WellKinded.fn_iff.2 ⟨.of_closed rfl rfl, result⟩
  · exact wellKinded_fns params result

theorem assign_fns (R : Assignment) (ps : List Ty) (r : Ty) :
    (Ty.fns ps r).assign R = Ty.fns (ps.map (Ty.assign R)) (r.assign R) := by
  induction ps with
  | nil => rfl
  | cons t ps ih => exact congrArg (Ty.fn (t.assign R)) ih

theorem assign_lambdaType (R : Assignment) (ps : List Ty) (r : Ty) :
    (lambdaType ps r).assign R = lambdaType (ps.map (Ty.assign R)) (r.assign R) := by
  unfold lambdaType
  cases ps with
  | nil => rfl
  | cons t ps => exact assign_fns R (t :: ps) r

end StackML.Typing
