import StackML.Proofs.Typing.Principal.Solutions
import StackML.Proofs.Typing.Principal.System

/-!
Environments that offer no less than a context, and the way of inference from one solution to the
next with the types of an environment in view.
-/

namespace StackML.Typing

open Assignment

/-! ### Contexts and environments -/

/-- Whatever the scheme `b` can be used at under the assignment, the scheme `c` can be used at under
the valuation. -/
def Subsumes (u : Valuation) (c : Ty) (ρ : Assignment) (b : Ty) : Prop :=
  ∀ ρ' : Assignment, ρ'.AgreesOff ρ b.quantified → ∃ u' : Valuation,
    (∀ id ∉ c.quantified, u' id = u id) ∧ c.body.assign u'.assignment = b.body.assign ρ'

theorem Ty.mem_occurrences_of_body {t : Ty} {o : VarId × Bool} (occurs : o ∈ t.body.occurrences)
    (free : o.1 ∉ t.quantified) : o ∈ t.occurrences := by
  cases t with
  | scheme vars a =>
    change o ∈ a.occurrences at occurs
    change o.1 ∉ vars at free
    simp [Ty.occurrences, occurs, free]
  | _ => exact occurs

namespace Subsumes

variable {u u₁ : Valuation} {b c t : Ty} {ρ ρ₁ : Assignment}

theorem of_mono (monoC : c.isMono) (monoB : b.isMono)
    (same : c.assign u.assignment = b.assign ρ) : Subsumes u c ρ b := by
  intro ρ' agrees
  rw [Ty.quantified_of_mono monoB] at agrees
  refine ⟨u, fun _ _ => rfl, ?_⟩
  rw [Ty.body_of_mono monoC, Ty.body_of_mono monoB, same]
  refine Ty.assign_congr fun o _ => ?_
  have := agrees o.1 (by simp)
  rcases o with ⟨id, _ | _⟩
  · exact this.1.symm
  · exact this.2.symm

theorem of_closed (closed : b.occurrences = []) (plain : b.Plain) : Subsumes u b ρ b := by
  intro ρ' _
  refine ⟨fun id => if id ∈ b.quantified then ρ'.var id else u id, fun id outside => by
    simp [outside], Ty.assign_congr fun o occurs => ?_⟩
  have inside : o.1 ∈ b.quantified := by
    by_contra outside
    have := Ty.mem_occurrences_of_body occurs outside
    simp [closed] at this
  have kind := plain o occurs inside
  obtain ⟨id, _⟩ := o
  cases kind
  change (if id ∈ b.quantified then ρ'.var id else u id) = ρ'.var id
  rw [if_pos inside]

theorem agree (h : Subsumes u c ρ b) (same : ∀ o ∈ c.occurrences, u₁ o.1 = u o.1) :
    Subsumes u₁ c ρ b := by
  intro ρ' agrees
  obtain ⟨u', off, used⟩ := h ρ' agrees
  refine ⟨fun id => if id ∈ c.quantified then u' id else u₁ id, fun id outside => by
    simp [outside], ?_⟩
  rw [← used]
  refine Ty.assign_congr fun o occurs => ?_
  rw [Valuation.get_assignment, Valuation.get_assignment]
  split
  · rfl
  · next free => rw [off o.1 free, same o (Ty.mem_occurrences_of_body occurs free)]

theorem vary {vars : List VarId} (h : Subsumes u c ρ b) (agrees : ρ₁.AgreesOff ρ vars)
    (lacks : ∀ o ∈ b.occurrences, o.1 ∉ vars) : Subsumes u c ρ₁ b := by
  intro ρ' agrees'
  let σ : Assignment :=
    ⟨fun id => if id ∈ b.quantified then ρ'.var id else ρ.var id,
      fun id => if id ∈ b.quantified then ρ'.num id else ρ.num id⟩
  obtain ⟨u', off, used⟩ := h σ fun id outside => by simp [σ, outside]
  refine ⟨u', off, used.trans (Ty.assign_congr fun o occurs => ?_)⟩
  by_cases inside : o.1 ∈ b.quantified
  · rcases o with ⟨id, _ | _⟩ <;> simp_all [σ]
  · have first := agrees' o.1 inside
    have second := agrees o.1 (lacks o (Ty.mem_occurrences_of_body occurs inside))
    rcases o with ⟨id, _ | _⟩ <;> simp_all [σ]

theorem use (h : Subsumes u c ρ b) (mono : b.body.isMono) (inst : b.Instance {} t) :
    ∃ u' : Valuation, (∀ id ∉ c.quantified, u' id = u id) ∧
      c.body.assign u'.assignment = t.assign ρ := by
  obtain ⟨σ, -, off, same⟩ := inst
  rw [Ty.assign_default] at same
  obtain ⟨u', kept, used⟩ := h (σ.comp ρ) fun id outside => by
    simp only [comp, (off id outside).1, (off id outside).2, Ty.assign, and_self]
  exact ⟨u', kept, by rw [used, same, Ty.assign_assign mono]⟩

end Subsumes

/-- Every name of the context is in the environment, with a type that offers no less. -/
def Covered (Γ : Context) (env : Env) (u : Valuation) (ρ : Assignment) : Prop :=
  ∀ name b, Γ name = some b → b.body.isMono ∧
    ∃ c, env.get? name = some c ∧ Subsumes u c.type ρ b

namespace Covered

variable {Γ : Context} {env : Env} {u : Valuation} {ρ ρ₁ : Assignment} {b c : Ty}

theorem extend (covered : Covered Γ env u ρ) (name : String) (mono : b.body.isMono)
    (sub : Subsumes u c ρ b) : Covered (Γ.extend name b) (env.extend name c) u ρ := by
  intro other b' found
  simp only [Context.extend] at found
  rw [Env.extend, NameMap.get?_insert]
  split at found
  · next same =>
    cases found
    exact ⟨mono, { type := c }, by simp [same], sub⟩
  · next differs =>
    rw [if_neg differs]
    exact covered other b' found

theorem extend_mono (covered : Covered Γ env u ρ) (name : String) (monoB : b.isMono)
    (monoC : c.isMono) (same : c.assign u.assignment = b.assign ρ) :
    Covered (Γ.extend name b) (env.extend name c) u ρ :=
  covered.extend name (by rwa [Ty.body_of_mono monoB]) (.of_mono monoC monoB same)

theorem vary {vars : List VarId} (covered : Covered Γ env u ρ) (agrees : ρ₁.AgreesOff ρ vars)
    (lacks : Γ.Lacks vars) : Covered Γ env u ρ₁ := by
  intro name b found
  obtain ⟨mono, c, known, sub⟩ := covered name b found
  exact ⟨mono, c, known, sub.vary agrees (lacks name b found)⟩

end Covered

/-! ### Trails -/

variable {ctors : NameMap Constructor} {env inner : Env} {x y z : Solution ctors} {O O₁ : Set Ty}
  {Γ : Context} {ρ : Assignment}

structure Open (env : Env) (x : Solution ctors) : Prop where
  scope : Scope x.stage (visible env ctors)
  plain : ∀ t ∈ visible env ctors, t.Plain

theorem Covered.later (covered : Covered Γ env x.value ρ) (opened : Open env x)
    (agree : x.Agree y) : Covered Γ env y.value ρ := by
  intro name b found
  obtain ⟨mono, c, known, sub⟩ := covered name b found
  refine ⟨mono, c, known, sub.agree fun o occurs => agree.value o.1 ?_⟩
  exact ((opened.scope.kinded _ (mem_visible known)).free o occurs).1.2

theorem Ty.plain_of_mono {t : Ty} (mono : t.isMono) : t.Plain := by
  intro o _ inside
  simp [Ty.quantified_of_mono mono] at inside

structure Trail (env : Env) (x : Solution ctors) (O : Set Ty) (y : Solution ctors) : Prop where
  start : Open env x
  way : Reaches ∅ (visible env ctors) x.stage y.stage O fun _ => True
  mono : ∀ t ∈ O, t.isMono
  calm : y.stage.supply.numeric = x.stage.supply.numeric
  agree : x.Agree y

namespace Trail

theorem here (start : Open env x) : Trail env x ∅ x :=
  ⟨start, .here start.scope.kinded, by simp, rfl, .refl x⟩

theorem kinded (trail : Trail env x O y) {t : Ty} (member : t ∈ O) :
    t.WellKinded y.stage.supply :=
  ⟨trail.mono t member, (trail.way.kinded member).free⟩

theorem sub (trail : Trail env x O y) (less : O₁ ⊆ O) : Trail env x O₁ y :=
  ⟨trail.start, trail.way.weaken trail.way.inView subset_rfl less fun _ _ => id,
    fun t member => trail.mono t (less member), trail.calm, trail.agree⟩

theorem adjoin (trail : Trail env x O y) {t : Ty} (kinded : t.WellKinded y.stage.supply)
    (made : Covers (visible env ctors ∪ O) {t}) : Trail env x (O ∪ {t}) y := by
  refine ⟨trail.start, trail.way.adjoin kinded made, ?_, trail.calm, trail.agree⟩
  rintro u (old | rfl)
  · exact trail.mono u old
  · exact kinded.mono

theorem opens (trail : Trail env x O y) (cover : visible inner ctors ⊆ visible env ctors ∪ O) :
    Open inner y := by
  refine ⟨(trail.start.scope.later_of_mono trail.way trail.mono).mono cover, fun t member => ?_⟩
  rcases cover member with old | new
  · exact trail.start.plain t old
  · exact Ty.plain_of_mono (trail.mono t new)

theorem andThen (trail : Trail env x O y) (next : Trail inner y O₁ z)
    (cover : visible inner ctors ⊆ visible env ctors ∪ O) : Trail env x (O ∪ O₁) z := by
  have way := trail.way.andThen next.way (.of_subset cover)
  refine ⟨trail.start, way.weaken trail.way.inView subset_rfl subset_rfl fun _ _ _ => trivial, ?_,
    next.calm.trans trail.calm, trail.agree.trans next.agree⟩
  rintro t (old | new)
  · exact trail.mono t old
  · exact next.mono t new

theorem covered (trail : Trail env x O y) (covered : Covered Γ env x.value ρ) :
    Covered Γ env y.value ρ :=
  covered.later trail.start trail.agree

theorem final (trail : Trail env x O y) (next : y.Agree z) {t : Ty} (member : t ∈ O) :
    z.final t = y.final t :=
  next.final (trail.kinded member)

theorem fresh (trail : Trail env x O y) (t : Ty) : ∃ (v : Ty) (z : Solution ctors),
    Typing.fresh y.state = .ok v z.state ∧ Trail env x (O ∪ {v}) z ∧ y.Agree z ∧
      z.final v = t := by
  obtain ⟨v, z, run, agree, final, mono, calm, step⟩ := y.fresh t
  have way := trail.way.andThen step .empty
  refine ⟨v, z, run, ⟨trail.start, way.weaken trail.way.inView subset_rfl subset_rfl
    fun _ _ _ => trivial, ?_, calm.trans trail.calm,
    trail.agree.trans agree⟩, agree, final⟩
  rintro u (old | rfl)
  · exact trail.mono u old
  · exact mono

theorem unify (trail : Trail env x O y) {a b : Ty} (kindedA : a.WellKinded y.stage.supply)
    (kindedB : b.WellKinded y.stage.supply) (cover : Covers (visible env ctors ∪ O) {a, b})
    (same : y.final a = y.final b) (place : Position) : ∃ z : Solution ctors,
      Typing.unify place a b y.state = .ok () z.state ∧ Trail env x O z ∧ y.Agree z ∧
        z.value = y.value := by
  obtain ⟨z, run, value, supply, step⟩ := y.unify kindedA kindedB same place
  have agree : y.Agree z := ⟨by rw [supply], fun id _ => congrFun value id⟩
  have way := trail.way.andThen step cover
  have calm : z.stage.supply.numeric = x.stage.supply.numeric := by rw [supply, trail.calm]
  exact ⟨z, run, ⟨trail.start, way.weaken trail.way.inView subset_rfl Set.subset_union_left
    fun _ _ _ => trivial, trail.mono, calm,
    trail.agree.trans agree⟩, agree, value⟩

/-- A type that was found can be made equal to a type without variables if that is what it stands
for. -/
theorem unifyClosed (trail : Trail env x O y) {a c : Ty} (member : a ∈ O) (mono : c.isMono)
    (closed : c.occurrences = []) (same : y.final a = c) (place : Position) :
    ∃ z : Solution ctors, Typing.unify place a c y.state = .ok () z.state ∧ Trail env x O z ∧
      y.Agree z ∧ z.value = y.value :=
  trail.unify (trail.kinded member) (.of_closed mono closed)
    (Covers.insert_iff.2 ⟨.of_mem (.inr member), .of_occurrences (by simp [closed])⟩)
    (same.trans (assign_of_closed closed _).symm) place

theorem instantiate (trail : Trail env x O y) {t : Ty} (member : t ∈ visible env ctors)
    {value : Valuation} (same : ∀ id ∉ t.quantified, value id = y.value id) :
    ∃ (v : Ty) (z : Solution ctors), Typing.instantiate t y.state = .ok v z.state ∧
      Trail env x (O ∪ {v}) z ∧ y.Agree z ∧ z.final v = t.body.assign value.assignment := by
  have opened := trail.opens Set.subset_union_left
  obtain ⟨v, z, run, agree, final, mono, calm, step⟩ :=
    y.instantiate opened.scope member (trail.start.plain t member) same
  have way := trail.way.andThen step .left
  refine ⟨v, z, run, ⟨trail.start, way.weaken trail.way.inView subset_rfl subset_rfl
    fun _ _ _ => trivial, ?_, calm.trans trail.calm,
    trail.agree.trans agree⟩, agree, final⟩
  rintro u (old | rfl)
  · exact trail.mono u old
  · exact mono

end Trail
end StackML.Typing
