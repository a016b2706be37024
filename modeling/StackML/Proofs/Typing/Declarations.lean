import StackML.Proofs.Typing.Closing
import StackML.Proofs.Typing.Infer.Match
import StackML.Proofs.Typing.Opening

/-!
Functions and values in the order of their declarations. Each function is generalized over what the
names before it do not lead to; a numeric variable among these is one that closing leaves alone.
-/

namespace StackML.Typing

open Assignment

variable {N : Set VarId} {host : Host.Resolver} {ctors : NameMap Constructor} {env : Env} {w : Stage}
  {s s' : State}

/-! ### Annotations -/

def Mapping.range (m : Mapping) : Set Ty := {v | ∃ id, m.get? id = some v}

theorem Known.mono_of_range {g : Supply} {m : Mapping} (known : Known g m) {v : Ty}
    (member : v ∈ Mapping.range m) : v.WellKinded g := by
  obtain ⟨id, found⟩ := member
  obtain ⟨o, rfl, knows⟩ := known id v found
  exact Ty.wellKinded_ofVar knows

theorem Reaches.freshen {t u : Ty} {m m' : Mapping} {T O : Set Ty} {w₁ : Stage}
    {claim : Stage → Prop} (way : Reaches N T w w₁ O claim) (fits : Fits ctors w₁ s)
    (mono : t.body.isMono) (known : Known w₁.supply m) (met : Mapping.range m ⊆ O)
    (run : Typing.freshen t m s = .ok (u, m') s') :
    ∃ w₂, Fits ctors w₂ s' ∧ w₁.Before w₂ ∧ u.WellKinded w₂.supply ∧ Known w₂.supply m' ∧
      Reaches N T w w₂ (O ∪ insert u (Mapping.range m')) claim := by
  obtain ⟨g, grows, rfl, known', new, kinded, made⟩ := freshen_spec mono fits.last known run
  have fits' : Fits ctors (w₁.grow g grows) { s with last := g.last } :=
    ⟨fits.denotes.grow grows, rfl, fits.ctors_eq⟩
  have origin : ∀ id v, m'.get? id = some v → ∀ o ∈ v.occurrences,
      w₁.supply.last < o.1 ∨ ∃ x ∈ Mapping.range m, o ∈ x.occurrences := by
    intro id v found o occurs
    rcases new id v found with old | beyond
    · exact .inr ⟨v, ⟨id, old⟩, occurs⟩
    · exact .inl (beyond o occurs)
  have step : Reaches N (Mapping.range m) w₁ (w₁.grow g grows) (insert u (Mapping.range m'))
      fun _ => True := by
    refine reaches_grow grows (fun v member => (known.mono_of_range member).presentable) ?_ ?_
      fun _ _ => trivial
    · rintro v (rfl | member)
      · exact kinded.presentable
      · exact (known'.mono_of_range member).presentable
    · rintro v (rfl | ⟨id, found⟩) o occurs
      · obtain ⟨id, x, found, occurs⟩ := made o occurs
        exact origin id x found o occurs
      · exact origin id v found o occurs
  refine ⟨_, fits', step.before, kinded, known', ?_⟩
  exact (way.andThen step (.of_subset (met.trans Set.subset_union_right))).weaken way.inView
    subset_rfl subset_rfl fun _ _ => And.left

/-- The annotations of a function have no quantifier inside. -/
def AnnotationsPlain (d : FnDecl Position) : Prop :=
  (∀ p ∈ d.params, ∀ t, p.type = some t → t.body.isMono) ∧ ∀ t, d.result = some t → t.body.isMono

theorem bindTypedParams_spec {params : List Param} {ps : List Ty} {inner : Env} {m m' : Mapping}
    {T O : Set Ty} {w₁ : Stage} {claim : Stage → Prop} (way : Reaches N T w w₁ O claim)
    (fits : Fits ctors w₁ s) (plain : ∀ p ∈ params, ∀ t, p.type = some t → t.body.isMono)
    (known : Known w₁.supply m) (met : Mapping.range m ⊆ O) (mono : ∀ t ∈ O, t.isMono)
    (cover : visible env ctors ⊆ T ∪ O)
    (run : bindTypedParams env m params s = .ok (ps, inner, m') s') :
    ∃ w₂ O', Fits ctors w₂ s' ∧ w₁.Before w₂ ∧ ps.length = params.length ∧
      (∀ t ∈ ps, t.WellKinded w₂.supply ∧ t ∈ O') ∧ O ⊆ O' ∧ visible inner ctors ⊆ T ∪ O' ∧
      Known w₂.supply m' ∧ Mapping.range m' ⊆ O' ∧ (∀ t ∈ O', t.isMono) ∧
      (∀ R : Assignment, inner.context R =
        (env.context R).extendAll (params.map (·.name)) (ps.map (Ty.assign R))) ∧
      Reaches N T w w₂ O' claim := by
  induction params generalizing env w₁ s O ps m with
  | nil =>
    simp only [bindTypedParams] at run
    cases run
    exact ⟨w₁, O, fits, .refl w₁, rfl, by simp, subset_rfl, cover, known, met, mono, fun R => rfl,
      way⟩
  | cons p params ih =>
    simp only [bindTypedParams] at run
    simp only [List.forall_mem_cons] at plain
    have first : ∃ t m₁ s₁ w₂ O₁, Fits ctors w₂ s₁ ∧ w₁.Before w₂ ∧ t.WellKinded w₂.supply ∧
        t ∈ O₁ ∧ O ⊆ O₁ ∧ Known w₂.supply m₁ ∧ Mapping.range m₁ ⊆ O₁ ∧ (∀ t ∈ O₁, t.isMono) ∧
        Reaches N T w w₂ O₁ claim ∧
        (bindTypedParams (env.extend p.name t) m₁ params >>= fun rest =>
          pure (t :: rest.1, rest.2.1, rest.2.2) : Infer _) s₁ = .ok (ps, inner, m') s' := by
      cases annotated : p.type with
      | some a =>
        simp only [annotated] at run
        obtain ⟨⟨t, m₁⟩, s₁, runT, run⟩ := bind_ok run
        obtain ⟨w₂, fits₂, later, kinded, known₂, way₂⟩ :=
          way.freshen fits (plain.1 a annotated) known met runT
        refine ⟨t, m₁, s₁, w₂, _, fits₂, later, kinded, ?_, ?_, known₂, ?_, ?_, way₂, run⟩
        · exact .inr (.inl rfl)
        · exact Set.subset_union_left
        · exact fun v member => .inr (.inr member)
        · rintro v (old | rfl | new)
          · exact mono v old
          · exact kinded.mono
          · exact (known₂.mono_of_range new).mono
      | none =>
        simp only [annotated] at run
        obtain ⟨t, s₁, runT, run⟩ := bind_ok run
        obtain ⟨w₂, fits₂, later, kinded, way₂⟩ := way.fresh fits runT
        refine ⟨t, m, s₁, w₂, _, fits₂, later, kinded, .inr rfl, Set.subset_union_left,
          known.grow later.grows, met.trans Set.subset_union_left, ?_, way₂, run⟩
        rintro v (old | rfl)
        · exact mono v old
        · exact kinded.mono
    clear run
    obtain ⟨t, m₁, s₁, w₂, O₁, fits₂, later₂, kinded, inside, grown, known₂, met₂, mono₂, way₂,
      run⟩ := first
    obtain ⟨⟨ts, inner', m₂⟩, s₂, runRest, run⟩ := bind_ok run
    cases run
    have cover₂ : visible (env.extend p.name t) ctors ⊆ T ∪ O₁ := by
      intro u member
      rcases visible_insert env ctors p.name { type := t } member with old | new
      · exact (cover old).imp_right fun h => grown h
      · exact .inr (Set.mem_singleton_iff.1 new ▸ inside)
    obtain ⟨w₃, O', fits₃, later₃, lengths, each, grown₃, cover₃, known₃, met₃, mono₃, context,
      way₃⟩ := ih way₂ fits₂ plain.2 known₂ met₂ mono₂ cover₂ runRest
    refine ⟨w₃, O', fits₃, later₂.trans later₃, by simp [lengths], ?_, grown.trans grown₃, cover₃,
      known₃, met₃, mono₃, fun R => ?_, way₃⟩
    · simp only [List.forall_mem_cons]
      exact ⟨⟨kinded.grow later₃.grows, grown₃ inside⟩, each⟩
    · rw [context, Env.extend, Env.context_insert]
      rfl

theorem resultAnnotation_spec {α : Type} {result : Option Ty} {m : Mapping} {b : Typed}
    {next : Unit → Infer α} {a : α} {T O : Set Ty} {w₁ : Stage} {claim : Stage → Prop}
    (way : Reaches N T w w₁ O claim) (fits : Fits ctors w₁ s) (known : Known w₁.supply m)
    (met : Mapping.range m ⊆ O) (kinded : b.type.WellKinded w₁.supply) (member : b.type ∈ O)
    (run : (match result with
      | some t => do
        let (t, _) ← freshen t m
        let r ← unify b.position b.type t
        next r
      | none => next () : Infer α) s = .ok a s')
    (plain : ∀ t, result = some t → t.body.isMono) :
    ∃ w₂ s₁, Fits ctors w₂ s₁ ∧ w₁.Before w₂ ∧ Reaches N T w w₂ O claim ∧
      next () s₁ = .ok a s' := by
  cases result with
  | none => exact ⟨w₁, s, fits, .refl w₁, way, run⟩
  | some t =>
    obtain ⟨⟨u, m'⟩, s₁, runF, run⟩ := bind_ok run
    obtain ⟨_, s₂, runSame, run⟩ := bind_ok run
    obtain ⟨w₂, fits₂, later₂, kindedU, -, way₂⟩ := way.freshen fits (plain t rfl) known met runF
    obtain ⟨w₃, fits₃, later₃, way₃⟩ := way₂.unify fits₂ (kinded.grow later₂.grows) kindedU
      (Covers.insert_iff.2 ⟨.of_mem (by simp [member]), .of_mem (by simp)⟩) runSame
    exact ⟨w₃, s₂, fits₃, later₂.trans later₃, way₃.weaken way.inView subset_rfl
      Set.subset_union_left fun _ _ => And.left, run⟩

/-! ### Functions -/

structure FunctionHolds (host : Host.Resolver) (ctors : NameMap Constructor) (env : Env)
    (d : FnDecl Typed) (t : Ty) (vars : List VarId) (f : Stage) : Prop where
  kinded : ∀ n ∈ d.note :: d.body.notes, n.type.WellKinded f.supply
  sorted : t.WellKinded f.supply
  unbound : ∀ a ∈ vars, f.meaning.Unbound a
  same : t.assign f.meaning = d.note.type.assign f.meaning
  lacks : (env.context f.meaning).Lacks vars
  derives : (∀ t ∈ visible env ctors, t.Private f.meaning) → ∃ ps : List Ty,
    ps.length = d.params.length ∧
    d.note.type.assign f.meaning = Ty.fns ps (d.body.note.type.assign f.meaning) ∧
    ∀ θ : Assignment, θ.Kinded → Derives host ctors θ
      (((env.context f.meaning).extend d.name (d.note.type.assign f.meaning)).extendAll
        (d.params.map (·.name)) ps) (d.body.mapNotes (Typed.close f.meaning))

theorem inferFunction_spec {d : FnDecl Position} {F : Function} (closed : CtorsClosed ctors)
    (soundBody : Sound host ctors d.body) (plain : AnnotationsPlain d) (fits : Fits ctors w s)
    (scope : Scope w (visible env ctors)) (run : inferFunction host env d s = .ok F s')
    (kept : ∀ a ∈ F.type.quantified, a ∈ N) :
    ∃ w' t vars, Fits ctors w' s' ∧ F.type = t.quantify vars ∧
      (∀ a ∈ vars, ∃ o ∈ t.occurrences, o.1 = a) ∧ F.decl.name = d.name ∧
      Scope w' (visible env ctors ∪ {F.type}) ∧
      Reaches N (visible env ctors) w w' {F.type} fun f =>
        F.type.Private f.meaning ∧ FunctionHolds host ctors env F.decl t vars f := by
  unfold inferFunction at run
  obtain ⟨self, s₁, runSelf, run⟩ := bind_ok run
  obtain ⟨w₁, fits₁, later₁, kindedSelf, way₁⟩ :=
    (Reaches.here (N := N) scope.kinded).fresh fits runSelf
  obtain ⟨⟨ps, inner, m⟩, s₂, runP, run⟩ := bind_ok run
  have coverSelf : visible (env.extend d.name self) ctors ⊆ visible env ctors ∪ (∅ ∪ {self}) := by
    rw [Set.empty_union]
    exact visible_insert env ctors d.name { type := self }
  have none : ∀ id v, Mapping.get? [] id ≠ some v := fun id v found => by
    simp [Mapping.get?] at found
  obtain ⟨w₂, O, fits₂, later₂, lengths, kindedP, grown, cover, known, met, mono, context, way₂⟩ :=
    bindTypedParams_spec way₁ fits₁ plain.1 (fun id v found => (none id v found).elim)
      (fun v inside => inside.elim fun id found => (none id v found).elim)
      (by simpa using kindedSelf.mono) coverSelf runP
  obtain ⟨body, s₃, runB, run⟩ := bind_ok run
  obtain ⟨w₃, fits₃, later₃, kindedB, way₃⟩ :=
    way₂.inferInner scope cover mono fits₂ soundBody runB
  dsimp only at run
  obtain ⟨w₄, s₄, fits₄, later₄, way₄, run⟩ := resultAnnotation_spec way₃ fits₃
    (known.grow later₃.grows) (met.trans Set.subset_union_left) kindedB (by simp) run plain.2
  have later₂₄ := later₃.trans later₄
  have kindedT := wellKinded_fns (fun t member => (kindedP t member).1.grow later₂₄.grows)
    (kindedB.grow later₄.grows)
  have made : Covers (visible env ctors ∪ (O ∪ {body.note.type}))
      {Ty.fns ps body.note.type} := by
    refine covers_fns (fun t member => .of_mem ?_) (.of_mem ?_)
    · simp [(kindedP t member).2]
    · simp
  have way₅ := way₄.adjoin kindedT made
  obtain ⟨_, s₅, runSame, run⟩ := bind_ok run
  have selfIn : self ∈ O := grown (by simp)
  obtain ⟨w₆, fits₆, later₆, way₆⟩ := way₅.unify fits₄ (kindedSelf.grow (later₂.trans later₂₄).grows)
    kindedT (Covers.insert_iff.2 ⟨.of_mem (by simp [selfIn]), .of_mem (by simp)⟩) runSame
  obtain ⟨u, s₇, runU, run⟩ := bind_ok run
  obtain ⟨rfl, rfl⟩ := pure_ok run
  have kindedT := kindedT.grow later₆.grows
  have scope₆ := scope.after way₆
  obtain ⟨fits₇, vars, rfl, general⟩ :=
    generalize_spec fits₆ (scope₆.mono Set.subset_union_left) kindedT runU
  have resolved := w₆.wellKinded_assign kindedT
  rw [Ty.quantified_quantify resolved.mono] at kept
  obtain ⟨scope', way'⟩ := way₆.quantify closed scope (by simp) kindedT general
    fun a inside _ => kept a inside
  refine ⟨w₆, _, vars, fits₇, rfl, general.occur, rfl, scope',
    way'.weaken scope.kinded subset_rfl subset_rfl ?_⟩
  rintro f before ⟨⟨⟨-, knownB, derives⟩, same⟩, own, -, lacks⟩
  have unbound := own.unbound
  rw [Ty.quantified_quantify resolved.mono] at unbound
  refine ⟨own, ?_, resolved.grow before.grows, unbound, before.refines.assign kindedT.mono, lacks,
    fun others => ⟨ps.map (Ty.assign f.meaning), by simp [lengths], assign_fns _ _ _, ?_⟩⟩
  · simp only [List.forall_mem_cons]
    exact ⟨kindedT.grow before.grows, knownB⟩
  · intro θ good
    have bodyDerives := derives others θ good
    rwa [context, Env.extend, Env.context_insert, same] at bodyDerives

/-! ### One declaration -/

inductive DeclStep (host : Host.Resolver) (p : Progress) (s : State) :
    Decl Position → Progress → State → Prop where
  | type {d} : DeclStep host p s (.type d)
      { p with decls := .type { d with note := ⟨d.note, .unit, none⟩ } :: p.decls } s
  | fn {d F s₁ s'} : d.name ∉ p.declared → inferFunction host p.env d s = .ok F s₁ →
      s'.subst = s₁.subst → s'.last = s₁.last → s'.ctors = s₁.ctors →
      (∀ name ts, s'.uses.get? name = some ts →
        s₁.uses.get? name = some ts ∨ name = d.name ∧ ts = []) →
      DeclStep host p s (.fn d)
        { env := p.env.extendGlobal d.name F.type
          declared := d.name :: p.declared
          functions := p.functions.insert d.name F
          values := p.values
          order := d.name :: p.order
          decls := .fn F.decl :: p.decls } s'
  | value {d v s'} : d.name ∉ p.declared → infer host p.env d.value s = .ok v s' →
      DeclStep host p s (.value d)
        { env := p.env.extendGlobal d.name v.note.type
          declared := d.name :: p.declared
          functions := p.functions
          values := p.values.insert d.name v.note.type
          order := d.name :: p.order
          decls := .value { note := ⟨d.note, v.note.type, none⟩, name := d.name, value := v } ::
            p.decls } s'

theorem inferDecl_step {d : Decl Position} {p p' : Progress}
    (run : inferDecl host p d s = .ok p' s') : DeclStep host p s d p' s' := by
  cases d with
  | type d =>
    cases run
    exact .type
  | value d =>
    obtain ⟨p₁, s₁, runD, run⟩ := bind_ok run
    obtain ⟨rfl, rfl, new⟩ := declare_env runD
    obtain ⟨v, s₂, runV, run⟩ := bind_ok run
    cases run
    exact .value new runV
  | fn d =>
    obtain ⟨p₁, s₁, runD, run⟩ := bind_ok run
    obtain ⟨rfl, rfl, new⟩ := declare_env runD
    obtain ⟨F, s₂, runF, run⟩ := bind_ok run
    dsimp only at run
    split at run
    · obtain ⟨_, s₃, runM, run⟩ := bind_ok run
      cases runM
      cases run
      refine .fn new runF ?_ ?_ ?_ ?_
      all_goals dsimp only
      all_goals split
      any_goals rfl
      · exact fun name ts => .inl
      · intro name ts found
        rw [NameMap.get?_insert] at found
        split at found
        · next same => exact .inr ⟨same, (Option.some.inj found).symm⟩
        · exact .inl found
    · cases run
      exact .fn new runF rfl rfl rfl fun name ts => .inl

structure Progress.Tidy (p : Progress) : Prop where
  functions : ∀ name F, p.functions.get? name = some F → name ∈ p.declared
  values : ∀ name t, p.values.get? name = some t → name ∈ p.declared

structure Progress.Extends (p p' : Progress) : Prop where
  functions : ∀ name F, p.functions.get? name = some F → p'.functions.get? name = some F
  values : ∀ name t, p.values.get? name = some t → p'.values.get? name = some t

theorem Progress.Extends.trans {p p' p'' : Progress} (first : p.Extends p')
    (second : p'.Extends p'') : p.Extends p'' :=
  ⟨fun name F found => second.functions name F (first.functions name F found),
    fun name t found => second.values name t (first.values name t found)⟩

theorem get?_insert_of_get? {β : Type} {m : NameMap β} {name other : String} {a b : β}
    (found : m.get? other = some a) (new : ∀ b, m.get? name ≠ some b) :
    (m.insert name b).get? other = some a := by
  have distinct : other ≠ name := fun same => new a (same ▸ found)
  rw [NameMap.get?_insert, if_neg distinct, found]

theorem DeclStep.tidy {d : Decl Position} {p p' : Progress} (step : DeclStep host p s d p' s')
    (tidy : p.Tidy) : p'.Tidy ∧ p.Extends p' := by
  cases step with
  | type => exact ⟨⟨tidy.functions, tidy.values⟩, fun _ _ => id, fun _ _ => id⟩
  | fn new runF =>
    refine ⟨⟨fun name F found => ?_, fun name t found => ?_⟩, ⟨fun name F found => ?_, fun _ _ => id⟩⟩
    · rw [NameMap.get?_insert] at found
      split at found
      · next same => simp [same]
      · exact List.mem_cons_of_mem _ (tidy.functions name F found)
    · exact List.mem_cons_of_mem _ (tidy.values name t found)
    · exact get?_insert_of_get? found fun F declared => new (tidy.functions _ F declared)
  | value new runV =>
    refine ⟨⟨fun name F found => ?_, fun name t found => ?_⟩, ⟨fun _ _ => id, fun name t found => ?_⟩⟩
    · exact List.mem_cons_of_mem _ (tidy.functions name F found)
    · rw [NameMap.get?_insert] at found
      split at found
      · next same => simp [same]
      · exact List.mem_cons_of_mem _ (tidy.values name t found)
    · exact get?_insert_of_get? found fun t declared => new (tidy.values _ t declared)

theorem inferDecls_tidy {ds : List (Decl Position)} {p p' : Progress} (tidy : p.Tidy)
    (run : ds.foldlM (inferDecl host) p s = .ok p' s') : p'.Tidy ∧ p.Extends p' := by
  refine foldlM_invariant (P := fun p₁ _ => p₁.Tidy ∧ p.Extends p₁) ?_
    ⟨tidy, fun _ _ => id, fun _ _ => id⟩ run
  rintro p₁ d - s p₂ s' ⟨tidy₁, extends₁⟩ run
  obtain ⟨tidy₂, extends₂⟩ := (inferDecl_step run).tidy tidy₁
  exact ⟨tidy₂, extends₁.trans extends₂⟩

/-! ### All declarations -/

def declNotes : Decl Typed → List Typed
  | .fn d => d.note :: d.body.notes
  | .value d => d.note :: d.value.notes
  | .type d => [d.note]

structure Shuts (ctors : NameMap Constructor) (p : Progress) (subst : Subst) (c : Checked) :
    Prop where
  ctors_eq : c.ctors = ctors
  functions : ∀ name F, p.functions.get? name = some F →
    c.functions.get? name = some (F.shut subst)
  values : ∀ name t, p.values.get? name = some t → c.values.get? name = some (closeType subst t)

structure DeclsHold (host : Host.Resolver) (ctors : NameMap Constructor) (env env' : Env)
    (last : Progress) (ds : List (Decl Typed)) (f : Stage) : Prop where
  kinded : ∀ d ∈ ds, ∀ n ∈ declNotes d, n.type.WellKinded f.supply
  own : (∀ t ∈ visible env ctors, t.Private f.meaning) → ∀ t ∈ visible env' ctors,
    t.Private f.meaning
  derives : (∀ t ∈ visible env ctors, t.Private f.meaning) →
    ∀ subst, Subst.Denotes f.supply subst f.meaning → ∀ c, Shuts ctors last subst c →
    ∀ θ : Assignment, θ.Kinded → DeclsDerive host c θ (env.context f.meaning)
      (ds.map (mapDecl (Typed.shut subst))) (env'.context f.meaning)

theorem DeclsHold.nil {last : Progress} {f : Stage} :
    DeclsHold host ctors env env last [] f where
  kinded := by simp
  own := id
  derives _ _ _ _ _ _ _ := .nil

theorem DeclsHold.type {env' : Env} {last : Progress} {ds : List (Decl Typed)} {f : Stage}
    {d : TypeDecl Typed} (closed : d.note.type.WellKinded f.supply)
    (rest : DeclsHold host ctors env env' last ds f) :
    DeclsHold host ctors env env' last (.type d :: ds) f where
  kinded := by
    simp only [List.forall_mem_cons]
    exact ⟨by simpa [declNotes] using closed, rest.kinded⟩
  own := rest.own
  derives own subst denotes c shuts θ good := .type (rest.derives own subst denotes c shuts θ good)

theorem visible_private (name : String) {b : Binding} {f : Stage} (own : b.type.Private f.meaning)
    (others : ∀ t ∈ visible env ctors, t.Private f.meaning) :
    ∀ t ∈ visible (env.insert name b) ctors, t.Private f.meaning := by
  intro t member
  rcases visible_insert env ctors name b member with old | new
  · exact others t old
  · exact Set.mem_singleton_iff.1 new ▸ own

theorem DeclsHold.value {env' : Env} {last : Progress} {ds : List (Decl Typed)} {f : Stage}
    {name : String} {place : Position} {v : Expr Typed} (holds : Holds host ctors env v f)
    (found : last.values.get? name = some v.note.type)
    (rest : DeclsHold host ctors (env.extendGlobal name v.note.type) env' last ds f) :
    DeclsHold host ctors env env' last (.value ⟨⟨place, v.note.type, none⟩, name, v⟩ :: ds) f := by
  have kinded := holds.kinded v.note (Expr.note_mem_notes v)
  have own : (∀ t ∈ visible env ctors, t.Private f.meaning) →
      ∀ t ∈ visible (env.extendGlobal name v.note.type) ctors, t.Private f.meaning :=
    visible_private name (b := ⟨v.note.type, true⟩) (Ty.private_of_mono kinded.mono)
  refine ⟨?_, fun others => rest.own (own others), fun others subst denotes c shuts θ good => ?_⟩
  · simp only [List.forall_mem_cons, declNotes]
    exact ⟨⟨kinded, holds.kinded⟩, rest.kinded⟩
  · have same : closeType subst v.note.type = v.note.type.assign f.meaning :=
      congrArg Typed.type (Typed.shut_eq denotes kinded)
    have value := holds.derives others θ good
    have rest := rest.derives (own others) subst denotes c shuts θ good
    have listed := shuts.values name _ found
    rw [← mapNotes_shut denotes holds.kinded] at value
    rw [Env.extendGlobal, Env.context_insert, ← same] at rest
    refine .value (shuts.ctors_eq ▸ value) ?_ listed rest
    simp [Expr.note_mapNotes, Typed.shut]

theorem DeclsHold.fn {env' : Env} {last : Progress} {ds : List (Decl Typed)} {f : Stage}
    {F : Function} {t : Ty} {vars : List VarId} (shape : F.type = t.quantify vars)
    (occur : ∀ a ∈ vars, ∃ o ∈ t.occurrences, o.1 = a) (ownF : F.type.Private f.meaning)
    (holds : FunctionHolds host ctors env F.decl t vars f)
    (found : last.functions.get? F.decl.name = some F)
    (rest : DeclsHold host ctors (env.extendGlobal F.decl.name F.type) env' last ds f) :
    DeclsHold host ctors env env' last (.fn F.decl :: ds) f := by
  have own : (∀ t ∈ visible env ctors, t.Private f.meaning) →
      ∀ t ∈ visible (env.extendGlobal F.decl.name F.type) ctors, t.Private f.meaning :=
    visible_private F.decl.name (b := ⟨F.type, true⟩) ownF
  refine ⟨?_, fun others => rest.own (own others), fun others subst denotes c shuts θ good => ?_⟩
  · simp only [List.forall_mem_cons, declNotes]
    exact ⟨by simpa using holds.kinded, rest.kinded⟩
  · have kinded := holds.kinded
    simp only [List.forall_mem_cons] at kinded
    have note := congrArg Typed.type (Typed.shut_eq denotes kinded.1)
    have body := mapNotes_shut denotes kinded.2
    have type : closeType subst F.type = (F.decl.note.shut subst).type.quantify vars := by
      rw [shape, closeType_quantify vars denotes holds.sorted holds.unbound occur, holds.same, note]
      rfl
    have assigned : F.type.assign f.meaning = closeType subst F.type := by
      rw [type, shape, Ty.assign_quantify holds.unbound, holds.same, note]
      rfl
    have rest := rest.derives (own others) subst denotes c shuts θ good
    have listed := shuts.functions _ F found
    obtain ⟨ps, lengths, params, derives⟩ := holds.derives others
    rw [Env.extendGlobal, Env.context_insert, assigned, type] at rest
    refine .fn (d := (F.shut subst).decl) lengths ?_ holds.lacks (fun ρ goodρ _ => ?_) ?_ rest
    · change (F.decl.note.shut subst).type =
        Ty.fns ps (F.decl.body.mapNotes (Typed.shut subst)).note.type
      rw [body, Expr.note_mapNotes, note]
      exact params
    · have derived := derives ρ goodρ
      rw [← body] at derived
      have declared : F.decl.note.type.assign f.meaning = (F.decl.note.shut subst).type := note.symm
      rw [declared] at derived
      exact shuts.ctors_eq ▸ derived
    · exact listed.trans (congrArg (fun t => some (Function.mk _ t)) type)

theorem inferDecls_spec {ds : List (Decl Position)} {p p' : Progress}
    (hostClosed : HostClosed host) (closed : CtorsClosed ctors)
    (plain : ∀ d, .fn d ∈ ds → AnnotationsPlain d) (tidy : p.Tidy) (fits : Fits ctors w s)
    (scope : Scope w (visible p.env ctors))
    (run : ds.foldlM (inferDecl host) p s = .ok p' s')
    (kept : ∀ name F, p'.functions.get? name = some F → ∀ a ∈ F.type.quantified, a ∈ N) :
    ∃ w' O made, Fits ctors w' s' ∧ p'.decls = made.reverse ++ p.decls ∧
      Scope w' (visible p'.env ctors) ∧ visible p'.env ctors ⊆ visible p.env ctors ∪ O ∧
      Reaches N (visible p.env ctors) w w' O (DeclsHold host ctors p.env p'.env p' made) := by
  induction ds generalizing p w s with
  | nil =>
    cases run
    refine ⟨w, ∅, [], fits, rfl, scope, Set.subset_union_left, ?_⟩
    exact (Reaches.here scope.kinded).weaken scope.kinded subset_rfl subset_rfl fun _ _ _ => .nil
  | cons d ds ih =>
    rw [List.foldlM_cons] at run
    obtain ⟨p₁, s₁, first, run⟩ := bind_ok run
    have step := inferDecl_step first
    obtain ⟨tidy₁, -⟩ := step.tidy tidy
    obtain ⟨-, kept₁⟩ := inferDecls_tidy tidy₁ run
    have plainRest : ∀ d, .fn d ∈ ds → AnnotationsPlain d := fun d member =>
      plain d (List.mem_cons_of_mem _ member)
    cases step with
    | @type d =>
      obtain ⟨w', O, made, fits', decls, scope', cover, way⟩ :=
        ih plainRest tidy₁ fits scope run
      let noted : TypeDecl Typed := ⟨⟨d.note, .unit, none⟩, d.name, d.params, d.ctors⟩
      refine ⟨w', O, .type noted :: made, fits', by simp [decls, noted], scope', cover, ?_⟩
      exact way.weaken scope.kinded subset_rfl subset_rfl fun f _ rest =>
        .type (.of_closed rfl rfl) rest
    | @value d v s' new runV =>
      obtain ⟨w₁, fits₁, kinded, way₁⟩ :=
        sound hostClosed closed d.value (N := N) fits scope runV
      have sub := visible_insert p.env ctors d.name ⟨v.note.type, true⟩
      have scope₁ := (scope.later_of_mono way₁ (by simpa using kinded.mono)).mono sub
      obtain ⟨w', O, made, fits', decls, scope', cover, way₂⟩ :=
        ih plainRest tidy₁ fits₁ scope₁ run
      have way := way₁.andThen way₂ (.of_subset sub)
      have found := kept₁.values d.name v.note.type (NameMap.get?_insert_self _ _ _)
      refine ⟨w', _, .value ⟨⟨d.note, v.note.type, none⟩, d.name, v⟩ :: made, fits', by simp [decls],
        scope', fun t member => ?_, way.weaken scope.kinded subset_rfl subset_rfl
          fun f _ all => .value all.1 found all.2⟩
      rcases cover member with old | new
      · exact (sub old).imp_right .inl
      · exact .inr (.inr new)
    | @fn d F s₂ s' new runF subst last ctorsSame _ =>
      have found := kept₁.functions d.name F (NameMap.get?_insert_self _ _ _)
      obtain ⟨w₁, t, vars, fits₂, shape, occur, name, scope₁, way₁⟩ :=
        inferFunction_spec (N := N) closed (sound hostClosed closed d.body)
          (plain d List.mem_cons_self) fits scope runF (kept d.name F found)
      have fits₁ : Fits ctors w₁ s₁ :=
        ⟨subst ▸ fits₂.denotes, last.trans fits₂.last, ctorsSame.trans fits₂.ctors_eq⟩
      have sub := visible_insert p.env ctors d.name ⟨F.type, true⟩
      obtain ⟨w', O, made, fits', decls, scope', cover, way₂⟩ :=
        ih plainRest tidy₁ fits₁ (scope₁.mono sub) run
      have way := way₁.andThen way₂ (.of_subset sub)
      refine ⟨w', _, .fn F.decl :: made, fits', by simp [decls], scope', fun t member => ?_,
        way.weaken scope.kinded subset_rfl subset_rfl ?_⟩
      · rcases cover member with old | new
        · exact (sub old).imp_right .inl
        · exact .inr (.inr new)
      · rintro f - ⟨⟨own, holds⟩, rest⟩
        rw [← name] at found rest
        exact .fn shape occur own holds found rest

end StackML.Typing
