import StackML.Proofs.Typing.Infer.Basic

/-!
Bindings: a local that is generalized, a local function, a nested function. What is generalized
becomes private to the binding, and the parameters of a function are new variables.
-/

namespace StackML.Typing

open Assignment

variable {N : Set VarId} {host : Host.Resolver} {ctors : NameMap Constructor} {env : Env} {w : Stage}
  {s s' : State}

theorem visible_insert (env : Env) (ctors : NameMap Constructor) (name : String) (b : Binding) :
    visible (env.insert name b) ctors ⊆ visible env ctors ∪ {b.type} := by
  rintro t (inEnv | inCtors)
  · exact (Env.types_insert env name b inEnv).imp .inl id
  · exact .inl (.inr inCtors)

def CtorsClosed (ctors : NameMap Constructor) : Prop :=
  ∀ e ∈ ctors.entries, e.2.type.occurrences = []

theorem AllAvoid.visible {R : Assignment} {D : Set VarId} (closed : CtorsClosed ctors)
    (avoid : AllAvoid R D env.types) : AllAvoid R D (visible env ctors) := by
  refine avoid.union ?_
  rintro _ ⟨e, member, rfl⟩ v occurs
  simp [closed e member] at occurs

theorem Ty.assign_quantify {t : Ty} {vars : List VarId} {R : Assignment}
    (unbound : ∀ a ∈ vars, R.Unbound a) :
    (t.quantify vars).assign R = (t.assign R).quantify vars := by
  cases vars with
  | nil => rfl
  | cons a rest =>
    have hidden : t.assign (R.hide (a :: rest)) = t.assign R := by
      refine Ty.assign_congr fun o _ => ?_
      rw [get_hide]
      split
      · next member => rw [(unbound o.1 member).get, ← Ty.assign_ofVar, Ty.assign_default]
      · rfl
    change Ty.scheme _ _ = Ty.scheme _ _
    rw [hidden]

theorem Ty.mem_occurrences_close {t : Ty} {R : Assignment} (mono : t.body.isMono)
    {o : VarId × Bool} (occurs : o ∈ (t.assign R).occurrences) :
    ∃ v ∈ t.occurrences, o ∈ (R.get v).occurrences := by
  rcases Ty.mono_or_scheme mono with mono | ⟨vars, body, rfl⟩
  · exact (Ty.mem_occurrences_assign mono R o).1 occurs
  · change body.isMono at mono
    obtain ⟨occurs, outside⟩ := List.mem_filter.1 occurs
    have outside : o.1 ∉ vars := by simpa using outside
    obtain ⟨v, member, inside⟩ := (Ty.mem_occurrences_assign mono _ o).1 occurs
    rw [get_hide] at inside
    split at inside
    · next hidden =>
      rw [← Ty.assign_ofVar, Ty.assign_default, Ty.occurrences_ofVar, List.mem_singleton] at inside
      exact absurd (inside ▸ hidden) outside
    · next free => exact ⟨v, by simp [Ty.occurrences, member, free], inside⟩

theorem Env.lacks {R : Assignment} {vars : List VarId} (kinded : ∀ t ∈ env.types, t.body.isMono)
    (avoid : AllAvoid R {a | a ∈ vars} env.types) : (env.context R).Lacks vars := by
  intro name t found o occurs
  simp only [Env.context, Option.map_eq_some_iff] at found
  obtain ⟨b, found, rfl⟩ := found
  have member := Env.type_mem found
  obtain ⟨v, free, inside⟩ := Ty.mem_occurrences_close (kinded _ member) occurs
  exact avoid _ member v free o inside

theorem Reaches.quantify {t : Ty} {vars : List VarId} {O : Set Ty} {w₁ : Stage}
    {claim : Stage → Prop} (way : Reaches N (visible env ctors) w w₁ O claim)
    (closed : CtorsClosed ctors) (scope : Scope w (visible env ctors)) (member : t ∈ O)
    (kinded : t.WellKinded w₁.supply) (general : Generalizable w₁ env t vars)
    (plain : ∀ a ∈ vars, a ∈ w₁.supply.numeric → a ∈ N) :
    Scope w₁ (visible env ctors ∪ {(t.assign w₁.meaning).quantify vars}) ∧
      Reaches N (visible env ctors) w w₁ {(t.assign w₁.meaning).quantify vars} fun f =>
        claim f ∧ ((t.assign w₁.meaning).quantify vars).Private f.meaning ∧
          ((t.assign w₁.meaning).quantify vars).assign f.meaning =
            (t.assign f.meaning).quantify vars ∧
          (env.context f.meaning).Lacks vars := by
  obtain ⟨scope', way'⟩ := scope.generalize way member kinded general.occur
    (general.apart.visible closed) plain
  refine ⟨scope', way'.weaken way.inView subset_rfl subset_rfl ?_⟩
  rintro f before ⟨holds, own, avoid⟩
  refine ⟨holds, own, ?_, ?_⟩
  · have unbound := own.unbound
    rw [Ty.quantified_quantify (w₁.wellKinded_assign kinded).mono] at unbound
    rw [Ty.assign_quantify unbound, before.refines.assign kinded.mono]
  · refine Env.lacks (fun t member => (scope.kinded t (.inl member)).mono) ?_
    exact avoid.mono Set.subset_union_left subset_rfl

theorem generalizeLocal_step {t u : Ty} {O : Set Ty} {w₁ : Stage} {claim : Stage → Prop}
    (closed : CtorsClosed ctors) (scope : Scope w (visible env ctors))
    (way : Reaches N (visible env ctors) w w₁ O claim) (fits : Fits ctors w₁ s) (member : t ∈ O)
    (kinded : t.WellKinded w₁.supply) (run : generalizeLocal env t s = .ok u s') :
    Fits ctors w₁ s' ∧ Scope w₁ (visible env ctors ∪ {u}) ∧ ∃ vars : List VarId,
      Reaches N (visible env ctors) w w₁ {u} fun f => claim f ∧ u.Private f.meaning ∧
        u.assign f.meaning = (t.assign f.meaning).quantify vars ∧
        (env.context f.meaning).Lacks vars ∧
        ∀ o ∈ (t.assign f.meaning).occurrences, o.2 = true → o.1 ∉ vars := by
  have scope₁ := scope.after way
  obtain ⟨fits', vars, rfl, general, plain⟩ :=
    generalizeLocal_spec fits (scope₁.mono Set.subset_union_left) kinded run
  have resolved := w₁.wellKinded_assign kinded
  have plainVars : ∀ a ∈ vars, a ≤ w₁.supply.last ∧ a ∉ w₁.supply.numeric := by
    intro a inside
    obtain ⟨o, occurs, rfl⟩ := general.occur a inside
    have known := resolved.kinds o occurs
    exact ⟨known.1.2, fun numeric => plain o occurs (known.2.2 numeric) inside⟩
  obtain ⟨scope', way'⟩ := way.quantify closed scope member kinded general
    fun a inside numeric => ((plainVars a inside).2 numeric).elim
  refine ⟨fits', scope', vars, way'.weaken way.inView subset_rfl subset_rfl ?_⟩
  rintro f before ⟨holds, own, shape, lacks⟩
  refine ⟨holds, own, shape, lacks, fun o occurs numeric inside => ?_⟩
  have known := (f.wellKinded_assign (kinded.grow before.grows)).kinds o occurs
  have := plainVars o.1 inside
  exact this.2 ((before.grows.numeric o.1 this.1).1 (known.2.1 numeric))

theorem sound_letIn {p : Position} {name : String} {v b : Expr Position}
    (closed : CtorsClosed ctors) (soundV : Sound host ctors v) (soundB : Sound host ctors b) :
    Sound host ctors (.letIn p name v b) := by
  intro N env w s s' e' fits scope run
  simp only [infer] at run
  obtain ⟨v', s₁, runV, run⟩ := bind_ok run
  obtain ⟨w₁, fits₁, kindedV, way₁⟩ := soundV (N := N) fits scope runV
  obtain ⟨u, s₂, runU, run⟩ := bind_ok run
  obtain ⟨fits₂, scope₂, vars, way₂⟩ :=
    generalizeLocal_step closed scope way₁ fits₁ rfl kindedV runU
  obtain ⟨b', s₃, runB, run⟩ := bind_ok run
  have sub := visible_insert env ctors name { type := u }
  obtain ⟨w₃, fits₃, kindedB, wayB⟩ := soundB (N := N) fits₂ (scope₂.mono sub) runB
  have way₃ := way₂.andThen wayB (.of_subset sub)
  obtain ⟨rfl, rfl⟩ := pure_ok run
  refine ⟨w₃, fits₃, kindedB, way₃.weaken scope.kinded subset_rfl (by simp [Expr.note]) ?_⟩
  rintro f before ⟨⟨holdsV, ownU, shape, lacks, plain⟩, holdsB⟩
  refine ⟨?_, fun own θ good => ?_⟩
  · simp only [Expr.notes, List.forall_mem_cons, List.forall_mem_append]
    exact ⟨kindedB.grow before.grows, holdsV.kinded, holdsB.kinded⟩
  · have inner : ∀ t ∈ visible (env.extend name u) ctors, t.Private f.meaning := fun t member =>
      (sub member).elim (own t) fun same => Set.mem_singleton_iff.1 same ▸ ownU
    have body := holdsB.derives inner θ good
    rw [Env.context_insert, shape] at body
    refine .letIn lacks (by simpa using plain) (fun ρ goodρ _ => holdsV.derives own ρ goodρ) ?_
      (by simp)
    simpa using body

theorem bindParams_spec {names : List String} {ps : List Ty} {inner : Env} {T O : Set Ty}
    {w₁ : Stage} {claim : Stage → Prop} (way : Reaches N T w w₁ O claim) (fits : Fits ctors w₁ s)
    (cover : visible env ctors ⊆ T ∪ O) (run : bindParams env names s = .ok (ps, inner) s') :
    ∃ w₂, Fits ctors w₂ s' ∧ w₁.Before w₂ ∧ ps.length = names.length ∧
      (∀ t ∈ ps, t.WellKinded w₂.supply) ∧ visible inner ctors ⊆ T ∪ (O ∪ {t | t ∈ ps}) ∧
      (∀ R : Assignment, inner.context R =
        (env.context R).extendAll names (ps.map (Ty.assign R))) ∧
      Reaches N T w w₂ (O ∪ {t | t ∈ ps}) claim := by
  induction names generalizing env w₁ s O ps with
  | nil =>
    simp only [bindParams] at run
    cases run
    refine ⟨w₁, fits, .refl w₁, rfl, by simp, by simpa using cover, fun R => rfl, ?_⟩
    simpa using way
  | cons name names ih =>
    simp only [bindParams] at run
    obtain ⟨v, s₁, runV, run⟩ := bind_ok run
    obtain ⟨w₂, fits₂, later₂, kindedV, way₂⟩ := way.fresh fits runV
    obtain ⟨⟨vs, inner'⟩, s₂, runRest, run⟩ := bind_ok run
    cases run
    have cover' : visible (env.extend name v) ctors ⊆ T ∪ (O ∪ {v}) := by
      rintro t member
      rcases visible_insert env ctors name { type := v } member with old | new
      · exact (cover old).imp_right .inl
      · exact .inr (.inr new)
    obtain ⟨w₃, fits₃, later₃, lengths, kinded, cover₃, context, way₃⟩ :=
      ih way₂ fits₂ cover' runRest
    refine ⟨w₃, fits₃, later₂.trans later₃, by simp [lengths], ?_, ?_, fun R => ?_, ?_⟩
    · simp only [List.forall_mem_cons]
      exact ⟨kindedV.grow later₃.grows, kinded⟩
    · refine cover₃.trans fun t member => ?_
      simp only [Set.mem_union, Set.mem_singleton_iff, Set.mem_ofPred_eq, List.mem_cons] at member ⊢
      grind
    · rw [context, Env.extend, Env.context_insert]
      rfl
    · refine way₃.weaken way.inView subset_rfl (fun t member => ?_) fun _ _ => id
      simp only [Set.mem_union, Set.mem_singleton_iff, Set.mem_ofPred_eq, List.mem_cons] at member ⊢
      grind

theorem Ty.private_of_mono {R : Assignment} {t : Ty} (mono : t.isMono) : t.Private R := by
  constructor <;> simp [Ty.quantified_of_mono mono]

theorem Reaches.inferInner {e : Expr Position} {e' : Expr Typed} {inner : Env} {O : Set Ty}
    {w₁ : Stage} {claim : Stage → Prop} (way : Reaches N (visible env ctors) w w₁ O claim)
    (scope : Scope w (visible env ctors)) (cover : visible inner ctors ⊆ visible env ctors ∪ O)
    (mono : ∀ t ∈ O, t.isMono) (fits : Fits ctors w₁ s) (sound : Sound host ctors e)
    (run : Typing.infer host inner e s = .ok e' s') : ∃ w₂, Fits ctors w₂ s' ∧ w₁.Before w₂ ∧
      e'.note.type.WellKinded w₂.supply ∧
      Reaches N (visible env ctors) w w₂ (O ∪ {e'.note.type}) fun f => claim f ∧
        (∀ n ∈ e'.notes, n.type.WellKinded f.supply) ∧
        ((∀ t ∈ visible env ctors, t.Private f.meaning) → ∀ θ : Assignment, θ.Kinded →
          Derives host ctors θ (inner.context f.meaning) (e'.mapNotes (Typed.close f.meaning))) := by
  have scope₁ := (scope.later_of_mono way mono).mono cover
  obtain ⟨w₂, fits₂, kinded, step⟩ := sound (N := N) fits scope₁ run
  have way₂ := way.andThen step (.of_subset cover)
  refine ⟨w₂, fits₂, step.before, kinded, way₂.weaken way.inView subset_rfl subset_rfl ?_⟩
  rintro f before ⟨claim, holds⟩
  refine ⟨claim, holds.kinded, fun own => holds.derives fun t member => ?_⟩
  exact (cover member).elim (own t) fun new => Ty.private_of_mono (mono t new)

theorem sound_lambda {p : Position} {params : List String} {b : Expr Position}
    (soundB : Sound host ctors b) : Sound host ctors (.lambda p params b) := by
  intro N env w s s' e' fits scope run
  simp only [infer] at run
  obtain ⟨⟨ps, inner⟩, s₁, runP, run⟩ := bind_ok run
  obtain ⟨w₁, fits₁, -, lengths, kindedP, cover, context, way₁⟩ :=
    bindParams_spec (Reaches.here (N := N) scope.kinded) fits Set.subset_union_left runP
  obtain ⟨b', s₂, runB, run⟩ := bind_ok run
  obtain ⟨w₂, fits₂, later₂, kindedB, way₂⟩ := way₁.inferInner scope cover
    (by simpa using fun t member => (kindedP t member).mono) fits₁ soundB runB
  obtain ⟨rfl, rfl⟩ := pure_ok run
  have kinded := wellKinded_lambdaType (fun t member => (kindedP t member).grow later₂.grows) kindedB
  have made : Covers (visible env ctors ∪ (∅ ∪ {t | t ∈ ps} ∪ {b'.note.type}))
      {lambdaType ps b'.note.type} := by
    refine covers_lambdaType (fun t member => .of_mem ?_) (.of_mem ?_)
    · simp [member]
    · simp
  refine ⟨w₂, fits₂, kinded, (way₂.adjoin kinded made).weaken scope.kinded subset_rfl
    (by simp [Expr.note]) ?_⟩
  rintro f before ⟨-, known, derives⟩
  refine ⟨?_, fun own θ good => ?_⟩
  · simp only [Expr.notes, List.forall_mem_cons]
    exact ⟨kinded.grow before.grows, known⟩
  · have body := derives own θ good
    rw [context] at body
    refine .lambda (by simp [lengths]) ?_ body
    simp [assign_lambdaType]

theorem sound_letRec {p fp : Position} {name : String} {params : List String}
    {fb b : Expr Position} (closed : CtorsClosed ctors) (soundF : Sound host ctors fb)
    (soundB : Sound host ctors b) : Sound host ctors (.letRec p name fp params fb b) := by
  intro N env w s s' e' fits scope run
  simp only [infer] at run
  obtain ⟨self, s₁, runSelf, run⟩ := bind_ok run
  obtain ⟨w₁, fits₁, later₁, kindedSelf, way₁⟩ :=
    (Reaches.here (N := N) scope.kinded).fresh fits runSelf
  obtain ⟨⟨ps, inner⟩, s₂, runP, run⟩ := bind_ok run
  have coverSelf : visible (env.extend name self) ctors ⊆ visible env ctors ∪ (∅ ∪ {self}) := by
    rw [Set.empty_union]
    exact visible_insert env ctors name { type := self }
  obtain ⟨w₂, fits₂, later₂, lengths, kindedP, cover, context, way₂⟩ :=
    bindParams_spec way₁ fits₁ coverSelf runP
  obtain ⟨fb', s₃, runF, run⟩ := bind_ok run
  have mono : ∀ t ∈ ∅ ∪ {self} ∪ {t | t ∈ ps}, t.isMono := by
    rintro t ((none | rfl) | member)
    · exact none.elim
    · exact kindedSelf.mono
    · exact (kindedP t member).mono
  obtain ⟨w₃, fits₃, later₃, kindedF, way₃⟩ :=
    way₂.inferInner scope cover mono fits₂ soundF runF
  have kindedFn := wellKinded_lambdaType (fun t member => (kindedP t member).grow later₃.grows)
    kindedF
  have made : Covers (visible env ctors ∪ (∅ ∪ {self} ∪ {t | t ∈ ps} ∪ {fb'.note.type}))
      {lambdaType ps fb'.note.type} := by
    refine covers_lambdaType (fun t member => .of_mem ?_) (.of_mem ?_)
    · simp [member]
    · simp
  have way₄ := way₃.adjoin kindedFn made
  obtain ⟨_, s₅, runSame, run⟩ := bind_ok run
  obtain ⟨w₅, fits₅, later₅, way₅⟩ := way₄.unify fits₃ (kindedSelf.grow (later₂.trans later₃).grows)
    kindedFn (by simp [Covers.of_mem]) runSame
  obtain ⟨u, s₆, runU, run⟩ := bind_ok run
  have kindedFn := kindedFn.grow later₅.grows
  obtain ⟨fits₆, scope₆, vars, way₆⟩ :=
    generalizeLocal_step closed scope way₅ fits₅ (by simp) kindedFn runU
  obtain ⟨b', s₇, runB, run⟩ := bind_ok run
  have sub := visible_insert env ctors name { type := u }
  obtain ⟨w₇, fits₇, kindedB, wayB⟩ := soundB (N := N) fits₆ (scope₆.mono sub) runB
  have way₇ := way₆.andThen wayB (.of_subset sub)
  obtain ⟨rfl, rfl⟩ := pure_ok run
  refine ⟨w₇, fits₇, kindedB, way₇.weaken scope.kinded subset_rfl (by simp [Expr.note]) ?_⟩
  rintro f before ⟨⟨⟨⟨-, knownF, derivesF⟩, same⟩, ownU, shape, lacks, plain⟩, holdsB⟩
  refine ⟨?_, fun own θ good => ?_⟩
  · simp only [Expr.notes, List.forall_mem_cons, List.forall_mem_append]
    exact ⟨kindedB.grow before.grows, kindedFn.grow (wayB.before.trans before).grows, knownF,
      holdsB.kinded⟩
  · have inner : ∀ t ∈ visible (env.extend name u) ctors, t.Private f.meaning := fun t member =>
      (sub member).elim (own t) fun same => Set.mem_singleton_iff.1 same ▸ ownU
    have body := holdsB.derives inner θ good
    rw [Env.context_insert, shape] at body
    have lengths : (ps.map (Ty.assign f.meaning)).length = params.length := by simp [lengths]
    refine .letRec lengths (by simp [assign_lambdaType]) lacks (by simpa using plain)
      (fun ρ goodρ _ => ?_) body (by simp)
    have bodyF := derivesF own ρ goodρ
    rw [context, Env.extend, Env.context_insert, same] at bodyF
    exact bodyF

end StackML.Typing
