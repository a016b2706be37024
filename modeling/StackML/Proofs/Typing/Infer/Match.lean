import StackML.Proofs.Typing.Infer.Binding
import StackML.Proofs.Typing.Infer.Lists

/-!
Patterns and matches. A pattern is checked against a type in view and leaves the names it binds in
scope of its arm, at types without quantifiers.
-/

namespace StackML.Typing

open Assignment

variable {N : Set VarId} {host : Host.Resolver} {ctors : NameMap Constructor} {env : Env} {w : Stage}
  {s s' : State}

theorem findCtor_spec {p : Position} {name : String} {c : Constructor} (fits : Fits ctors w s)
    (run : findCtor p name s = .ok c s') : ctors.get? name = some c ∧ Fits ctors w s' := by
  simp only [findCtor] at run
  obtain ⟨_, _, ⟨⟩, run⟩ := bind_ok run
  rw [fits.ctors_eq] at run
  cases found : ctors.get? name with
  | none =>
    simp only [found] at run
    exact (not_refuse_ok run).elim
  | some c =>
    simp only [found] at run
    obtain ⟨rfl, rfl⟩ := pure_ok run
    exact ⟨rfl, fits⟩

structure PatternHolds (ctors : NameMap Constructor) (outer env inner : Env) (p : Pattern Typed)
    (f : Stage) : Prop where
  kinded : ∀ n ∈ p.notes, n.type.WellKinded f.supply
  context : inner.context f.meaning =
    (env.context f.meaning).extendPattern (p.mapNotes (Typed.close f.meaning))
  fits : (∀ t ∈ visible outer ctors, t.Private f.meaning) → ∀ θ : Assignment, θ.Kinded →
    PatternFits ctors θ (p.mapNotes (Typed.close f.meaning))

def PatternSound (ctors : NameMap Constructor) (p : Pattern Position) : Prop :=
  ∀ {N : Set VarId} {outer env inner : Env} {w w₁ : Stage} {s s' : State} {t : Ty} {O : Set Ty}
    {claim : Stage → Prop} {p' : Pattern Typed}, Scope w (visible outer ctors) →
    Reaches N (visible outer ctors) w w₁ O claim → (∀ u ∈ O, u.isMono) → Fits ctors w₁ s →
    visible env ctors ⊆ visible outer ctors ∪ O → t.WellKinded w₁.supply → t ∈ O →
    checkPattern env t p s = .ok (p', inner) s' →
    ∃ w₂ O', O ⊆ O' ∧ (∀ u ∈ O', u.isMono) ∧ Fits ctors w₂ s' ∧ w₁.Before w₂ ∧
      visible inner ctors ⊆ visible outer ctors ∪ O' ∧ p'.note.type = t ∧
      Reaches N (visible outer ctors) w w₂ O' fun f =>
        claim f ∧ PatternHolds ctors outer env inner p' f

theorem patternSound_wild {p : Position} : PatternSound ctors (.wild p) := by
  intro N outer env inner w w₁ s s' t O claim p' scope way mono fits sub kinded member run
  obtain ⟨same, rfl⟩ := pure_ok run
  cases same
  refine ⟨w₁, O, subset_rfl, mono, fits, .refl w₁, sub, rfl, ?_⟩
  refine way.weaken scope.kinded subset_rfl subset_rfl fun f before h => ⟨h, ?_, rfl, ?_⟩
  · simpa [Pattern.notes] using kinded.grow before.grows
  · exact fun _ θ _ => .wild

theorem patternSound_var {p : Position} {name : String} : PatternSound ctors (.var p name) := by
  intro N outer env inner w w₁ s s' t O claim p' scope way mono fits sub kinded member run
  obtain ⟨same, rfl⟩ := pure_ok run
  cases same
  refine ⟨w₁, O, subset_rfl, mono, fits, .refl w₁, ?_, rfl, ?_⟩
  · intro u seen
    rcases visible_insert env ctors name { type := t } seen with old | rfl
    · exact sub old
    · exact .inr member
  · refine way.weaken scope.kinded subset_rfl subset_rfl fun f before h => ⟨h, ?_, ?_, ?_⟩
    · simpa [Pattern.notes] using kinded.grow before.grows
    · exact Env.context_insert env name { type := t } f.meaning
    · exact fun _ θ _ => .var

theorem patternSound_literal {p : Pattern Position} {place : Position} {c : Ty}
    (literal : Typed → Pattern Typed) (mono : c.isMono) (closed : c.occurrences = [])
    (shape : ∀ env t, checkPattern env t p = do
      unify place t c
      pure (literal ⟨place, t, none⟩, env))
    (note : ∀ n, (literal n).note = n) (notes : ∀ n, (literal n).notes = [n])
    (map : ∀ f n, (literal n).mapNotes f = literal (f n))
    (bind : ∀ Γ n, Context.extendPattern Γ (literal n) = Γ)
    (fit : ∀ (θ : Assignment) (n : Typed), n.type.assign θ = c → PatternFits ctors θ (literal n)) :
    PatternSound ctors p := by
  intro N outer env inner w w₁ s s' t O claim p' scope way monoO fits sub kinded member run
  rw [shape] at run
  obtain ⟨_, s₁, runSame, run⟩ := bind_ok run
  obtain ⟨same, rfl⟩ := pure_ok run
  cases same
  have cover : Covers (visible outer ctors ∪ O) {t, c} :=
    Covers.insert_iff.2 ⟨.of_mem (.inr member), .of_occurrences (by simp [closed])⟩
  obtain ⟨w₂, fits₂, later, way₂⟩ := way.unify fits kinded (.of_closed mono closed) cover runSame
  refine ⟨w₂, O, subset_rfl, monoO, fits₂, later, sub, by simp [note], ?_⟩
  refine way₂.weaken scope.kinded subset_rfl subset_rfl ?_
  rintro f before ⟨claim, same⟩
  refine ⟨claim, ?_, by rw [map, bind], fun _ θ _ => ?_⟩
  · simpa [notes] using kinded.grow (later.trans before).grows
  · rw [map]
    refine fit θ _ ?_
    rw [Typed.close_type, same, assign_of_closed closed, assign_of_closed closed]

theorem patternSound_nil {p : Position} : PatternSound ctors (.nil p) := by
  intro N outer env inner w w₁ s s' t O claim p' scope way mono fits sub kinded member run
  simp only [checkPattern] at run
  obtain ⟨elem, s₁, runV, run⟩ := bind_ok run
  obtain ⟨w₂, fits₂, later₂, kindedV, way₂⟩ := way.fresh fits runV
  obtain ⟨_, s₂, runSame, run⟩ := bind_ok run
  obtain ⟨w₃, fits₃, later₃, way₃⟩ := way₂.unify fits₂ (kinded.grow later₂.grows)
    (Ty.WellKinded.list_iff.2 kindedV) (by simp [Covers.of_mem, member]) runSame
  obtain ⟨same, rfl⟩ := pure_ok run
  cases same
  have later := later₂.trans later₃
  refine ⟨w₃, O, subset_rfl, mono, fits₃, later, sub, rfl, ?_⟩
  refine way₃.weaken scope.kinded subset_rfl Set.subset_union_left ?_
  rintro f before ⟨claim, same⟩
  refine ⟨claim, ?_, rfl, fun _ θ _ => ?_⟩
  · simpa [Pattern.notes] using kinded.grow (later.trans before).grows
  · have shape : (t.assign f.meaning).assign θ = .list ((elem.assign f.meaning).assign θ) := by
      simp [same, Ty.assign]
    exact .nil shape

theorem patternSound_cons {p : Position} {head tail : Pattern Position}
    (soundH : PatternSound ctors head) (soundT : PatternSound ctors tail) :
    PatternSound ctors (.cons p head tail) := by
  intro N outer env inner w w₁ s s' t O claim p' scope way mono fits sub kinded member run
  simp only [checkPattern] at run
  obtain ⟨elem, s₁, runV, run⟩ := bind_ok run
  obtain ⟨w₂, fits₂, later₂, kindedV, way₂⟩ := way.fresh fits runV
  obtain ⟨_, s₂, runSame, run⟩ := bind_ok run
  obtain ⟨w₃, fits₃, later₃, way₃⟩ := way₂.unify fits₂ (kinded.grow later₂.grows)
    (Ty.WellKinded.list_iff.2 kindedV) (by simp [Covers.of_mem, member]) runSame
  have monoV : ∀ u ∈ O ∪ {elem}, u.isMono := by
    rintro u (old | rfl)
    · exact mono u old
    · exact kindedV.mono
  obtain ⟨⟨h', env₁⟩, s₃, runH, run⟩ := bind_ok run
  obtain ⟨w₄, O₁, sub₁, mono₁, fits₄, later₄, sub₄, noteH, way₄⟩ := soundH scope way₃ monoV fits₃
    (sub.trans (Set.union_subset_union_right _ Set.subset_union_left))
    (kindedV.grow later₃.grows) (.inr rfl) runH
  obtain ⟨⟨t', env₂⟩, s₄, runT, run⟩ := bind_ok run
  have later := (later₂.trans later₃).trans later₄
  obtain ⟨w₅, O₂, sub₂, mono₂, fits₅, later₅, sub₅, noteT, way₅⟩ := soundT scope way₄ mono₁ fits₄
    sub₄ (kinded.grow later.grows) (sub₁ (.inl member)) runT
  obtain ⟨same, rfl⟩ := pure_ok run
  cases same
  have later := later.trans later₅
  refine ⟨w₅, O₂, (Set.subset_union_left.trans sub₁).trans sub₂, mono₂, fits₅, later, sub₅, rfl, ?_⟩
  refine way₅.weaken scope.kinded subset_rfl subset_rfl ?_
  rintro f before ⟨⟨⟨claim, same⟩, holdsH⟩, holdsT⟩
  refine ⟨claim, ?_, ?_, fun own θ good => ?_⟩
  · simp only [Pattern.notes, List.forall_mem_cons, List.forall_mem_append]
    exact ⟨kinded.grow (later.trans before).grows, holdsH.kinded, holdsT.kinded⟩
  · rw [holdsT.context, holdsH.context]
    rfl
  · refine .cons ?_ ?_ (holdsH.fits own θ good) (holdsT.fits own θ good)
    · simp [noteH, same, Ty.assign]
    · simp [noteT]

theorem Reaches.instantiateCtor {name : String} {c : Constructor} {u : Ty} {O : Set Ty}
    {w₁ : Stage} {claim : Stage → Prop} (closed : CtorsClosed ctors)
    (way : Reaches N (visible env ctors) w w₁ O claim) (scope : Scope w (visible env ctors))
    (fits : Fits ctors w₁ s) (found : ctors.get? name = some c)
    (run : Typing.instantiate c.type s = .ok u s') :
    ∃ w₂, Fits ctors w₂ s' ∧ w₁.Before w₂ ∧ u.WellKinded w₂.supply ∧
      Reaches N (visible env ctors) w w₂ (O ∪ {u}) fun f => claim f ∧
        ((∀ t ∈ visible env ctors, t.Private f.meaning) → ∀ θ : Assignment, θ.Kinded →
          c.type.Instance θ (u.assign f.meaning)) := by
  have member : c.type ∈ visible env ctors := ctor_mem_visible found
  obtain ⟨w₂, fits₂, later, kinded, way₂⟩ := way.instantiate scope fits member run
  refine ⟨w₂, fits₂, later, kinded, way₂.weaken way.inView subset_rfl subset_rfl ?_⟩
  rintro f before ⟨claim, fresh⟩
  refine ⟨claim, fun own θ good => ?_⟩
  have := fresh (own _ member) θ good
  rwa [assign_of_closed (closed _ (mem_of_get? found))] at this

theorem patternSound_tag {p : Position} {name : String} (closed : CtorsClosed ctors) :
    PatternSound ctors (.tag p name) := by
  intro N outer env inner w w₁ s s' t O claim p' scope way mono fits sub kinded member run
  simp only [checkPattern] at run
  obtain ⟨c, s₁, runC, run⟩ := bind_ok run
  obtain ⟨found, fits⟩ := findCtor_spec fits runC
  obtain ⟨ct, s₂, runT, run⟩ := bind_ok run
  obtain ⟨w₂, fits₂, later₂, kindedC, way₂⟩ := way.instantiateCtor closed scope fits found runT
  cases hasArg : c.hasArg with
  | true =>
    simp only [hasArg, if_true] at run
    obtain ⟨payload, s₃, runV, run⟩ := bind_ok run
    obtain ⟨w₃, fits₃, later₃, kindedV, way₃⟩ := way₂.fresh fits₂ runV
    obtain ⟨_, s₄, runSame, run⟩ := bind_ok run
    have later := later₂.trans later₃
    obtain ⟨w₄, fits₄, later₄, way₄⟩ := way₃.unify fits₃ (kindedC.grow later₃.grows)
      (Ty.WellKinded.fn_iff.2 ⟨kindedV, kinded.grow later.grows⟩)
      (by simp [Covers.of_mem, member]) runSame
    obtain ⟨same, rfl⟩ := pure_ok run
    cases same
    have later := later.trans later₄
    refine ⟨w₄, O, subset_rfl, mono, fits₄, later, sub, rfl, ?_⟩
    refine way₄.weaken scope.kinded subset_rfl (fun u h => .inl (.inl h)) ?_
    rintro f before ⟨⟨claim, fresh⟩, same⟩
    refine ⟨claim, ?_, rfl, fun own θ good => ?_⟩
    · simpa [Pattern.notes] using kinded.grow (later.trans before).grows
    · have := fresh own θ good
      rw [same] at this
      exact .tagOfArg found hasArg this
  | false =>
    simp only [hasArg] at run
    obtain ⟨_, s₄, runSame, run⟩ := bind_ok run
    obtain ⟨w₄, fits₄, later₄, way₄⟩ := way₂.unify fits₂ (kinded.grow later₂.grows) kindedC
      (by simp [Covers.of_mem, member]) runSame
    obtain ⟨same, rfl⟩ := pure_ok run
    cases same
    have later := later₂.trans later₄
    refine ⟨w₄, O, subset_rfl, mono, fits₄, later, sub, rfl, ?_⟩
    refine way₄.weaken scope.kinded subset_rfl Set.subset_union_left ?_
    rintro f before ⟨⟨claim, fresh⟩, same⟩
    refine ⟨claim, ?_, rfl, fun own θ good => ?_⟩
    · simpa [Pattern.notes] using kinded.grow (later.trans before).grows
    · have := fresh own θ good
      rw [← same] at this
      exact .tag found hasArg this

theorem patternSound_build {p : Position} {name : String} {arg : Pattern Position}
    (closed : CtorsClosed ctors) (sound : PatternSound ctors arg) :
    PatternSound ctors (.build p name arg) := by
  intro N outer env inner w w₁ s s' t O claim p' scope way mono fits sub kinded member run
  simp only [checkPattern] at run
  obtain ⟨c, s₁, runC, run⟩ := bind_ok run
  obtain ⟨found, fits⟩ := findCtor_spec fits runC
  obtain ⟨ct, s₂, runT, run⟩ := bind_ok run
  obtain ⟨w₂, fits₂, later₂, kindedC, way₂⟩ := way.instantiateCtor closed scope fits found runT
  cases hasArg : c.hasArg with
  | false =>
    simp only [hasArg, Bool.not_false, if_true] at run
    obtain ⟨_, _, failed, -⟩ := bind_ok run
    exact (not_refuse_ok failed).elim
  | true =>
    simp only [hasArg, Bool.not_true] at run
    obtain ⟨payload, s₃, runV, run⟩ := bind_ok run
    obtain ⟨w₃, fits₃, later₃, kindedV, way₃⟩ := way₂.fresh fits₂ runV
    obtain ⟨_, s₄, runSame, run⟩ := bind_ok run
    have later := later₂.trans later₃
    obtain ⟨w₄, fits₄, later₄, way₄⟩ := way₃.unify fits₃ (kindedC.grow later₃.grows)
      (Ty.WellKinded.fn_iff.2 ⟨kindedV, kinded.grow later.grows⟩)
      (by simp [Covers.of_mem, member]) runSame
    have later := later.trans later₄
    have mono₄ : ∀ u ∈ O ∪ {ct} ∪ {payload}, u.isMono := by
      rintro u ((old | rfl) | rfl)
      · exact mono u old
      · exact kindedC.mono
      · exact kindedV.mono
    obtain ⟨⟨arg', env₁⟩, s₅, runA, run⟩ := bind_ok run
    obtain ⟨w₅, O₁, sub₁, mono₁, fits₅, later₅, sub₅, noteA, way₅⟩ := sound scope way₄ mono₄ fits₄
      (sub.trans (Set.union_subset_union_right _ fun u h => .inl (.inl h)))
      (kindedV.grow later₄.grows) (.inr rfl) runA
    obtain ⟨same, rfl⟩ := pure_ok run
    cases same
    have later := later.trans later₅
    refine ⟨w₅, O₁, fun u h => sub₁ (.inl (.inl h)), mono₁, fits₅, later, sub₅, rfl, ?_⟩
    refine way₅.weaken scope.kinded subset_rfl subset_rfl ?_
    rintro f before ⟨⟨⟨claim, fresh⟩, same⟩, holds⟩
    refine ⟨claim, ?_, ?_, fun own θ good => ?_⟩
    · simp only [Pattern.notes, List.forall_mem_cons]
      exact ⟨kinded.grow (later.trans before).grows, holds.kinded⟩
    · rw [holds.context]
      rfl
    · have := fresh own θ good
      rw [same] at this
      refine .build found hasArg ?_ (holds.fits own θ good)
      rw [Pattern.note_mapNotes, Typed.close_type, noteA]
      exact this

theorem patternSound (closed : CtorsClosed ctors) (p : Pattern Position) :
    PatternSound ctors p := by
  induction p with
  | wild p => exact patternSound_wild
  | var p name => exact patternSound_var
  | int p v =>
    exact patternSound_literal (c := .int) (fun n => .int n v) rfl rfl (fun _ _ => rfl)
      (fun _ => rfl) (fun _ => rfl) (fun _ _ => rfl) (fun _ _ => rfl) fun _ _ h => .int h
  | bool p v =>
    exact patternSound_literal (c := .bool) (fun n => .bool n v) rfl rfl
      (fun _ _ => rfl) (fun _ => rfl) (fun _ => rfl) (fun _ _ => rfl) (fun _ _ => rfl)
      fun _ _ h => .bool h
  | str p v =>
    exact patternSound_literal (c := .string) (fun n => .str n v) rfl rfl
      (fun _ _ => rfl) (fun _ => rfl) (fun _ => rfl) (fun _ _ => rfl) (fun _ _ => rfl)
      fun _ _ h => .str h
  | nil p => exact patternSound_nil
  | cons p head tail ihHead ihTail => exact patternSound_cons ihHead ihTail
  | tag p name => exact patternSound_tag closed
  | build p name arg ih => exact patternSound_build closed ih

/-! ### Matches -/

structure ArmHolds (host : Host.Resolver) (ctors : NameMap Constructor) (env : Env)
    (scrutinee result : Ty) (p : Pattern Typed) (e : Expr Typed) (f : Stage) : Prop where
  known : ∀ n, n ∈ p.notes ∨ n ∈ e.notes → n.type.WellKinded f.supply
  pattern_type : p.note.type = scrutinee
  body_type : result.assign f.meaning = e.note.type.assign f.meaning
  fits : (∀ t ∈ visible env ctors, t.Private f.meaning) → ∀ θ : Assignment, θ.Kinded →
    PatternFits ctors θ (p.mapNotes (Typed.close f.meaning)) ∧
      Derives host ctors θ
        ((env.context f.meaning).extendPattern (p.mapNotes (Typed.close f.meaning)))
        (e.mapNotes (Typed.close f.meaning))

theorem inferArms_spec {scrutinee result : Ty} {arms : List (Arm Position)}
    {done arms' : List (Arm Typed)} {O : Set Ty} {w₁ : Stage} {claim : Stage → Prop}
    (closed : CtorsClosed ctors) (each : ∀ p b, .mk p b ∈ arms → Sound host ctors b)
    (way : Reaches N (visible env ctors) w w₁ O claim) (scope : Scope w (visible env ctors))
    (fits : Fits ctors w₁ s) (mono : ∀ t ∈ O, t.isMono)
    (kindedS : scrutinee.WellKinded w₁.supply) (memberS : scrutinee ∈ O)
    (kindedR : result.WellKinded w₁.supply) (memberR : result ∈ O)
    (run : inferArms host env scrutinee result done arms s = .ok arms' s') :
    ∃ w₂ new, arms' = done.reverse ++ new ∧ new.length = arms.length ∧ Fits ctors w₂ s' ∧
      w₁.Before w₂ ∧ Reaches N (visible env ctors) w w₂ O fun f => claim f ∧
        ∀ p e, .mk p e ∈ new → ArmHolds host ctors env scrutinee result p e f := by
  induction arms generalizing done w₁ O claim s with
  | nil =>
    simp only [inferArms] at run
    cases run
    refine ⟨w₁, [], by simp, rfl, fits, .refl _, ?_⟩
    exact way.weaken scope.kinded subset_rfl subset_rfl fun _ _ h => ⟨h, by simp⟩
  | cons arm arms ih =>
    obtain ⟨p, b⟩ := arm
    simp only [inferArms] at run
    obtain ⟨⟨p', inner⟩, s₁, runP, run⟩ := bind_ok run
    obtain ⟨w₂, O₁, sub₁, mono₁, fits₂, later₂, cover, note, way₂⟩ := patternSound closed p scope way
      mono fits Set.subset_union_left kindedS memberS runP
    obtain ⟨e', s₂, runE, run⟩ := bind_ok run
    obtain ⟨w₃, fits₃, later₃, kindedE, way₃⟩ :=
      way₂.inferInner scope cover mono₁ fits₂ (each p b (by simp)) runE
    obtain ⟨_, s₃, runSame, run⟩ := bind_ok run
    have later := later₂.trans later₃
    obtain ⟨w₄, fits₄, later₄, way₄⟩ := way₃.unify fits₃ (kindedR.grow later.grows) kindedE
      (by simp [Covers.of_mem, sub₁ memberR]) runSame
    have later := later.trans later₄
    have mono₄ : ∀ t ∈ O₁ ∪ {e'.note.type}, t.isMono := by
      rintro t (old | rfl)
      · exact mono₁ t old
      · exact kindedE.mono
    have rest : ∀ p b, .mk p b ∈ arms → Sound host ctors b := fun p b member =>
      each p b (List.mem_cons_of_mem _ member)
    obtain ⟨w₅, new, rfl, lengths, fits₅, later₅, way₅⟩ := ih rest way₄ fits₄ mono₄
      (kindedS.grow later.grows) (.inl (sub₁ memberS)) (kindedR.grow later.grows)
      (.inl (sub₁ memberR)) run
    refine ⟨w₅, .mk p' e' :: new, by simp, by simp [lengths], fits₅, later.trans later₅, ?_⟩
    refine way₅.weaken scope.kinded subset_rfl (fun t h => .inl (sub₁ h)) ?_
    rintro f before ⟨⟨⟨⟨claim, holdsP⟩, known, derives⟩, same⟩, others⟩
    refine ⟨claim, fun q x member => ?_⟩
    rcases List.mem_cons.1 member with head | tail
    · cases head
      refine ⟨fun n => Or.rec (holdsP.kinded n) (known n), note, same, fun own θ good => ?_⟩
      refine ⟨holdsP.fits own θ good, ?_⟩
      rw [← holdsP.context]
      exact derives own θ good
    · exact others q x tail

theorem sound_matchOn {p : Position} {e : Expr Position} {arms : List (Arm Position)}
    (closed : CtorsClosed ctors) (soundE : Sound host ctors e)
    (each : ∀ p b, .mk p b ∈ arms → Sound host ctors b) : Sound host ctors (.matchOn p e arms) := by
  intro N env w s s' e' fits scope run
  simp only [infer] at run
  obtain ⟨e'', s₁, runE, run⟩ := bind_ok run
  obtain ⟨w₁, fits₁, kindedE, way₁⟩ := soundE (N := N) fits scope runE
  cases arms with
  | nil =>
    simp only [List.isEmpty_nil, if_true] at run
    obtain ⟨_, _, failed, -⟩ := bind_ok run
    exact (not_refuse_ok failed).elim
  | cons arm arms =>
    simp only [List.isEmpty_cons, Bool.false_eq_true, if_false] at run
    obtain ⟨result, s₂, runR, run⟩ := bind_ok run
    obtain ⟨w₂, fits₂, later₂, kindedR, way₂⟩ := way₁.fresh fits₁ runR
    obtain ⟨arms', s₃, runA, run⟩ := bind_ok run
    have mono : ∀ t ∈ ({e''.note.type} ∪ {result} : Set Ty), t.isMono := by
      rintro t (rfl | rfl)
      · exact kindedE.mono
      · exact kindedR.mono
    obtain ⟨w₃, _, rfl, lengths, fits₃, later₃, way₃⟩ := inferArms_spec closed each way₂ scope fits₂
      mono (kindedE.grow later₂.grows) (.inl rfl) kindedR (.inr rfl) runA
    obtain ⟨rfl, rfl⟩ := pure_ok run
    have kinded := kindedR.grow later₃.grows
    refine ⟨w₃, fits₃, kinded, way₃.weaken scope.kinded subset_rfl (by simp [Expr.note]) ?_⟩
    rintro f before ⟨holdsE, holds⟩
    refine ⟨?_, fun own θ good => ?_⟩
    · simp only [Expr.notes, List.forall_mem_cons, List.forall_mem_append, Expr.mem_notesOfArms]
      refine ⟨kinded.grow before.grows, holdsE.kinded, fun n inside => ?_⟩
      obtain ⟨p, b, member, inside⟩ := inside
      exact (holds p b member).known n inside
    · rw [Expr.mapNotes, Expr.mapArms_eq, List.reverse_nil, List.nil_append]
      have some : arms'.map (Expr.mapArm (Typed.close f.meaning)) ≠ [] := by
        intro none
        simp [List.map_eq_nil_iff.1 none] at lengths
      have split : ∀ q b, .mk q b ∈ arms'.map (Expr.mapArm (Typed.close f.meaning)) →
          ∃ q' b', .mk q' b' ∈ arms' ∧ q = q'.mapNotes (Typed.close f.meaning) ∧
            b = b'.mapNotes (Typed.close f.meaning) := by
        intro q b member
        obtain ⟨⟨q', b'⟩, inside, same⟩ := List.mem_map.1 member
        cases same
        exact ⟨q', b', inside, rfl, rfl⟩
      refine .matchOn (holdsE.derives own θ good) some (fun q b member => ?_) fun q b member => ?_
      all_goals
        obtain ⟨q', b', inside, rfl, rfl⟩ := split q b member
        have arm := holds q' b' inside
      · refine ⟨(arm.fits own θ good).1, ?_, ?_⟩
        · simp [arm.pattern_type]
        · simp [arm.body_type]
      · exact (arm.fits own θ good).2

/-! ### Constructors -/

theorem sound_tag {p : Position} {name : String} (closed : CtorsClosed ctors) :
    Sound host ctors (.tag p name) := by
  intro N env w s s' e' fits scope run
  simp only [infer] at run
  obtain ⟨c, s₁, runC, run⟩ := bind_ok run
  obtain ⟨found, fits⟩ := findCtor_spec fits runC
  obtain ⟨ct, s₂, runT, run⟩ := bind_ok run
  obtain ⟨w₂, fits₂, -, kindedC, way₂⟩ :=
    (Reaches.here (N := N) scope.kinded).instantiateCtor closed scope fits found runT
  cases hasArg : c.hasArg with
  | true =>
    simp only [hasArg, if_true] at run
    obtain ⟨_, _, failed, -⟩ := bind_ok run
    exact (not_refuse_ok failed).elim
  | false =>
    simp only [hasArg] at run
    obtain ⟨rfl, rfl⟩ := pure_ok run
    refine ⟨w₂, fits₂, kindedC, way₂.weaken scope.kinded subset_rfl (by simp [Expr.note]) ?_⟩
    rintro f before ⟨-, fresh⟩
    refine ⟨?_, fun own θ good => .tag found hasArg (fresh own θ good)⟩
    simpa [Expr.notes] using kindedC.grow before.grows

theorem sound_build {p : Position} {name : String} {e : Expr Position}
    (closed : CtorsClosed ctors) (sound : Sound host ctors e) :
    Sound host ctors (.build p name e) := by
  intro N env w s s' e' fits scope run
  simp only [infer] at run
  obtain ⟨c, s₁, runC, run⟩ := bind_ok run
  obtain ⟨found, fits⟩ := findCtor_spec fits runC
  obtain ⟨ct, s₂, runT, run⟩ := bind_ok run
  obtain ⟨w₂, fits₂, -, kindedC, way₂⟩ :=
    (Reaches.here (N := N) scope.kinded).instantiateCtor closed scope fits found runT
  cases hasArg : c.hasArg with
  | false =>
    simp only [hasArg, Bool.not_false, if_true] at run
    obtain ⟨_, _, failed, -⟩ := bind_ok run
    exact (not_refuse_ok failed).elim
  | true =>
    simp only [hasArg, Bool.not_true] at run
    obtain ⟨e'', s₃, runE, run⟩ := bind_ok run
    obtain ⟨w₃, fits₃, later₃, kindedE, way₃⟩ := way₂.infer scope fits₂ sound runE
    obtain ⟨result, s₄, runR, run⟩ := bind_ok run
    obtain ⟨w₄, fits₄, later₄, kindedR, way₄⟩ := way₃.fresh fits₃ runR
    obtain ⟨_, s₅, runSame, run⟩ := bind_ok run
    obtain ⟨w₅, fits₅, later₅, way₅⟩ := way₄.unify fits₄ (kindedC.grow (later₃.trans later₄).grows)
      (Ty.WellKinded.fn_iff.2 ⟨kindedE.grow later₄.grows, kindedR⟩) (by simp [Covers.of_mem]) runSame
    obtain ⟨rfl, rfl⟩ := pure_ok run
    have kinded := kindedR.grow later₅.grows
    refine ⟨w₅, fits₅, kinded, way₅.weaken scope.kinded subset_rfl (by simp [Expr.note]) ?_⟩
    rintro f before ⟨⟨⟨-, fresh⟩, holds⟩, same⟩
    refine ⟨?_, fun own θ good => ?_⟩
    · simp only [Expr.notes, List.forall_mem_cons]
      exact ⟨kinded.grow before.grows, holds.kinded⟩
    · have := fresh own θ good
      rw [same] at this
      refine .build found hasArg (holds.derives own θ good) ?_
      rw [Expr.note_mapNotes]
      exact this

/-! ### All expressions -/

theorem sound (hostClosed : HostClosed host) (closed : CtorsClosed ctors) (e : Expr Position) :
    Sound host ctors e := by
  induction e using Expr.induct with
  | int p v | float p v | bool p v | str p v | unit p =>
    intro N env w s s' e' fits scope run
    simp only [infer] at run
    obtain ⟨rfl, rfl⟩ := pure_ok run
    refine sound_of_pure fits scope (fun _ => .of_closed rfl rfl) rfl rfl fun θ Γ R => ?_
    constructor
    rfl
  | interp p parts ih => exact sound_interp ih
  | var p name => exact sound_var
  | qualified p m name => exact sound_qualified
  | unary p op e ih => exact sound_unary ih
  | binary p op l r ihl ihr => exact sound_binary ihl ihr
  | cond p c t e ihc iht ihe => exact sound_cond ihc iht ihe
  | letIn p name v b ihv ihb => exact sound_letIn closed ihv ihb
  | letRec p name fp params fb b ihf ihb => exact sound_letRec closed ihf ihb
  | lambda p params b ih => exact sound_lambda ih
  | apply p c args ihc ih => exact sound_apply ihc ih
  | sequence p es ih => exact sound_sequence ih
  | print p e ih => exact sound_print ih
  | list p es ih => exact sound_list ih
  | cons p h t ihh iht => exact sound_cons ihh iht
  | matchOn p e arms ihe ih => exact sound_matchOn closed ihe ih
  | tag p name => exact sound_tag closed
  | build p name e ih => exact sound_build closed ih
  | hostCall p o m args ih => exact sound_hostCall hostClosed ih
  | hostMethod p r m args ihr ih => exact sound_hostMethod hostClosed ihr ih
  | hostField p o name => exact sound_hostField hostClosed
  | hostNew p o => exact sound_hostNew hostClosed

end StackML.Typing
