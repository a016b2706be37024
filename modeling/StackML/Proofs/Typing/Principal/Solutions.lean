import StackML.Proofs.Ty.Generality
import StackML.Proofs.Typing.Infer.Lists

/-!
Inference with a solution in mind: types for all variables, such that the bindings hold. Whatever
step a solution allows succeeds, and the solution goes on to the variables that the step gives out.
-/

namespace StackML

def Supply.extend (g : Supply) (last : VarId) (le : g.last ≤ last) : Supply :=
  { g with last, ordered := g.ordered.trans le, known := fun id member => (g.known id member).trans le }

theorem Supply.grows_extend (g : Supply) {last : VarId} (le : g.last ≤ last) :
    g.Grows (g.extend last le) :=
  ⟨rfl, le, fun _ _ => Iff.rfl⟩

namespace Typing

open Assignment

structure Solution (ctors : NameMap Constructor) where
  stage : Stage
  state : State
  value : Valuation
  fits : Fits ctors stage state
  weighs : state.subst.Weighs
  holds : state.subst.Holds value
  numeric : value.Numeric stage.supply.numeric

namespace Solution

variable {ctors : NameMap Constructor} {x y z : Solution ctors} {t : Ty}

/-- What a type stands for. -/
def final (x : Solution ctors) (t : Ty) : Ty := t.assign x.value.assignment

structure Agree (x y : Solution ctors) : Prop where
  last : x.stage.supply.last ≤ y.stage.supply.last
  value : ∀ id ≤ x.stage.supply.last, y.value id = x.value id

theorem Agree.refl (x : Solution ctors) : x.Agree x := ⟨Int.le_refl _, fun _ _ => rfl⟩

theorem Agree.trans (first : x.Agree y) (second : y.Agree z) : x.Agree z :=
  ⟨first.last.trans second.last, fun id known =>
    (second.value id (known.trans first.last)).trans (first.value id known)⟩

theorem Agree.final (agree : x.Agree y) (kinded : t.WellKinded x.stage.supply) :
    y.final t = x.final t := by
  refine Ty.assign_congr fun o occurs => ?_
  rw [Valuation.get_assignment, Valuation.get_assignment,
    agree.value o.1 (kinded.kinds o occurs).1.2]

theorem refines (x : Solution ctors) : x.value.assignment.Refines x.stage.meaning := by
  obtain ⟨dom, rank, size, walk⟩ := x.fits.denotes
  exact walk.holds_iff.1 x.holds

theorem final_assign (x : Solution ctors) (mono : t.isMono) :
    x.final (t.assign x.stage.meaning) = x.final t :=
  x.refines.assign mono

def moved (x : Solution ctors) (s : State) (fits : Fits ctors x.stage s)
    (weighs : s.subst.Weighs) : Solution ctors where
  stage := x.stage
  state := s
  value := x.value
  fits
  weighs
  holds := by
    obtain ⟨dom, rank, size, walk⟩ := fits.denotes
    exact walk.holds_iff.2 x.refines
  numeric := x.numeric

def grown (x : Solution ctors) (last : VarId) (le : x.stage.supply.last ≤ last) (value : Valuation)
    (same : ∀ id ≤ x.stage.supply.last, value id = x.value id) : Solution ctors where
  stage := x.stage.grow _ (x.stage.supply.grows_extend le)
  state := { x.state with last }
  value
  fits := ⟨x.fits.denotes.grow (x.stage.supply.grows_extend le), rfl, x.fits.ctors_eq⟩
  weighs := x.weighs
  holds id t found := by
    obtain ⟨dom, rank, size, walk⟩ := x.fits.denotes
    have bound : id ∈ dom := walk.dom_iff.2 (by rw [found]; rfl)
    rw [same id (walk.known bound).2, x.holds id t found]
    refine Ty.assign_congr fun o occurs => ?_
    rw [Valuation.get_assignment, Valuation.get_assignment,
      same o.1 ((walk.kinded found).kinds o occurs).1.2]
  numeric id member := by
    rw [same id (x.stage.supply.known id member)]
    exact x.numeric id member

/-! ### The steps -/

theorem fresh (x : Solution ctors) (t : Ty) : ∃ (v : Ty) (y : Solution ctors), Typing.fresh x.state = .ok v y.state ∧
    x.Agree y ∧ y.final v = t ∧ v.isMono ∧
    y.stage.supply.numeric = x.stage.supply.numeric ∧
    Reaches ∅ ∅ x.stage y.stage {v} fun _ => True := by
  have last := x.fits.last
  have le : x.stage.supply.last ≤ x.state.last + 1 := by lia
  have same : ∀ id ≤ x.stage.supply.last,
      Function.update x.value (x.state.last + 1) t id = x.value id := fun id known =>
    Function.update_of_ne (by lia) _ _
  have known : (x.stage.supply.extend _ le).Knows (x.state.last + 1, false) := by
    refine ⟨⟨?_, Int.le_refl _⟩, ⟨by simp, fun member => ?_⟩⟩
    · have := x.stage.supply.ordered
      simp only [Supply.extend]
      lia
    · have := x.stage.supply.known _ member
      lia
  refine ⟨.var (x.state.last + 1), x.grown _ le _ same, rfl, ⟨le, same⟩, Function.update_self ..,
    rfl, rfl, ?_⟩
  refine reaches_grow (x.stage.supply.grows_extend le) (by simp) ?_ ?_ fun _ _ => trivial
  · rintro _ rfl
    exact (Ty.wellKinded_ofVar known).presentable
  · rintro _ rfl o member
    rw [List.mem_singleton.1 member]
    exact .inl (by lia)

theorem unify (x : Solution ctors) {a b : Ty} (kindedA : a.WellKinded x.stage.supply)
    (kindedB : b.WellKinded x.stage.supply) (same : x.final a = x.final b) (place : Position) :
    ∃ y : Solution ctors, Typing.unify place a b x.state = .ok () y.state ∧ y.value = x.value ∧
      y.stage.supply = x.stage.supply ∧
      Reaches ∅ {a, b} x.stage y.stage ∅ fun _ => True := by
  obtain ⟨subst, unified, holds⟩ := Subst.unify_solved x.fits.denotes x.weighs x.holds x.numeric
    kindedA kindedB same
  obtain ⟨w, supply, fits, way⟩ := reaches_unify (N := ∅) x.fits kindedA kindedB unified
  have weighs : subst.Weighs := by
    have kept : (x.state.subst.unify a b).2.Weighs :=
      Subst.unifyWithin_preserves (fun _ id t good => good.bind id t) _ a b x.weighs
    rwa [unified] at kept
  refine ⟨⟨w, { x.state with subst }, x.value, fits, weighs, holds, supply ▸ x.numeric⟩, ?_, rfl,
    supply, way.weaken way.inView subset_rfl subset_rfl fun _ _ _ => trivial⟩
  have got : (get : Infer State) x.state = .ok x.state x.state := rfl
  simp only [Typing.unify, bind_of_ok got, unified]
  rfl

end Solution
end Typing

/-! ### Instantiating -/

namespace Ty

/-- The quantified variables of a scheme are not numeric. -/
def Plain (t : Ty) : Prop := ∀ o ∈ t.body.occurrences, o.1 ∈ t.quantified → o.2 = false

theorem freshMapping_value (body : Ty) (vars : List VarId) (last : VarId)
    (value wanted : Valuation) : ∃ u : Valuation, (∀ id ≤ last, u id = value id) ∧
      last ≤ (freshMapping body vars last).2 ∧ ∀ id ∈ vars, ∃ k,
        (freshMapping body vars last).1.get? id = some (ofVar k (body.isNumericIn id)) ∧
          last < k ∧ k ≤ (freshMapping body vars last).2 ∧ u k = wanted id := by
  induction vars generalizing last value with
  | nil => exact ⟨value, fun _ _ => rfl, Int.le_refl _, by simp⟩
  | cons a rest ih =>
    obtain ⟨u, kept, le, each⟩ := ih (last + 1) (Function.update value (last + 1) (wanted a))
    refine ⟨u, fun id known => ?_, ?_, fun id member => ?_⟩
    · rw [kept id (by lia), Function.update_of_ne (by lia)]
    · simp only [freshMapping]
      lia
    · by_cases later : id ∈ rest
      · obtain ⟨k, found, above, below, same⟩ := each id later
        exact ⟨k, by rw [get?_freshMapping_cons, found]; rfl, by lia, below, same⟩
      · have same : id = a := by simpa [later] using member
        subst same
        refine ⟨last + 1, ?_, by lia, le, ?_⟩
        · rw [get?_freshMapping_cons, get?_freshMapping_eq_none later]
          simp
        · rw [kept (last + 1) (Int.le_refl _), Function.update_self]

theorem isNumericIn_eq_false {g : Supply} {vars : List VarId} {body : Ty}
    (kinded : body.WellKinded g) (plain : (scheme vars body).Plain) {id : VarId}
    (member : id ∈ vars) : body.isNumericIn id = false := by
  cases numeric : body.isNumericIn id with
  | false => rfl
  | true =>
    have open_ : body.unquantified = body := by
      cases body with
      | scheme vars a => exact absurd kinded.mono (by simp [isMono])
      | _ => rfl
    unfold isNumericIn at numeric
    rw [open_] at numeric
    split at numeric
    · next found =>
      subst numeric
      have inside := List.mem_of_getLast? found
      simp only [List.mem_filter, beq_iff_eq] at inside
      exact absurd (plain _ inside.1 (inside.2 ▸ member)) (by simp)
    · exact numeric.symm

end Ty

namespace Typing

open Assignment

namespace Solution

variable {ctors : NameMap Constructor} {t : Ty}

theorem instantiate (x : Solution ctors) {T : Set Ty} (scope : Scope x.stage T) (member : t ∈ T)
    (plain : t.Plain) {value : Valuation} (same : ∀ id ∉ t.quantified, value id = x.value id) :
    ∃ (v : Ty) (y : Solution ctors), Typing.instantiate t x.state = .ok v y.state ∧ x.Agree y ∧
      y.final v = t.body.assign value.assignment ∧ v.isMono ∧
      y.stage.supply.numeric = x.stage.supply.numeric ∧
      Reaches ∅ T x.stage y.stage {v} fun _ => True := by
  have shape : Typing.instantiate t x.state =
      .ok (t.instantiate x.state.last).1 { x.state with last := (t.instantiate x.state.last).2 } :=
    rfl
  rw [shape, x.fits.last]
  have kinded := scope.kinded t member
  rcases Ty.mono_or_scheme kinded.mono with mono | ⟨vars, body, rfl⟩
  · have stays : t.instantiate x.stage.supply.last = (t, x.stage.supply.last) := by
      cases t with
      | scheme vars body => simp [Ty.isMono] at mono
      | _ => rfl
    rw [stays, ← x.fits.last, Ty.body_of_mono mono]
    rw [Ty.quantified_of_mono mono] at same
    have equal : value = x.value := funext fun id => same id (by simp)
    refine ⟨t, x, rfl, .refl x, by rw [equal]; rfl, mono, rfl, ?_⟩
    refine reaches_grow (.refl x.stage.supply) scope.kinded (by simpa using kinded) ?_
      fun _ _ => trivial
    rintro u rfl o occurs
    exact .inr ⟨u, member, occurs⟩
  · obtain ⟨h, sorted⟩ := kinded.sorted
    change body.WellKinded h at sorted
    obtain ⟨u, kept, le, each⟩ :=
      Ty.freshMapping_value body vars x.stage.supply.last x.value value
    have others : ∀ id ∉ vars,
        (body.freshMapping vars x.stage.supply.last).1.get? id = none := fun _ =>
      Ty.get?_freshMapping_eq_none
    have split : (Ty.scheme vars body).instantiate x.stage.supply.last =
        (body.replace (body.freshMapping vars x.stage.supply.last).1,
          (body.freshMapping vars x.stage.supply.last).2) := rfl
    rw [split]
    generalize (body.freshMapping vars x.stage.supply.last).1 = m at each others
    generalize (body.freshMapping vars x.stage.supply.last).2 = last at each le
    have grows := x.stage.supply.grows_extend le
    have fresh : ∀ id ∈ vars, ∃ k, m.get? id = some (.ofVar k (body.isNumericIn id)) ∧
        x.stage.supply.last < k ∧ (x.stage.supply.extend last le).Gave k ∧
        (body.isNumericIn id = true ↔ k ∈ (x.stage.supply.extend last le).numeric) := by
      intro id inside
      obtain ⟨k, found, above, below, -⟩ := each id inside
      refine ⟨k, found, above, ⟨x.stage.supply.ordered.trans_lt above, below⟩, ?_⟩
      have unknown : k ∉ x.stage.supply.numeric := fun old =>
        not_le.2 above (x.stage.supply.known k old)
      simp [Ty.isNumericIn_eq_false sorted plain inside, Supply.extend, unknown]
    obtain ⟨kinded', made⟩ := Ty.wellKinded_replace sorted kinded.free grows others fresh
    refine ⟨_, x.grown last le u kept, rfl, ⟨le, kept⟩, ?_, kinded'.mono, rfl, ?_⟩
    · change (body.replace m).assign u.assignment = body.assign value.assignment
      rw [Ty.replace_eq_assign, Ty.assign_assign sorted.mono]
      refine Ty.assign_congr fun o occurs => ?_
      rw [get_comp, Valuation.get_assignment]
      by_cases inside : o.1 ∈ vars
      · obtain ⟨k, found, -, -, wanted⟩ := each o.1 inside
        rw [Ty.isNumericIn_eq_false sorted plain inside] at found
        have plainO := plain o occurs inside
        obtain ⟨id, _⟩ := o
        cases plainO
        simp only [get_var, ofMapping, found, Option.getD_some]
        exact wanted
      · have free : o ∈ (Ty.scheme vars body).occurrences := by
          simp [Ty.occurrences, occurs, inside]
        have stays : (ofMapping m).get o = .ofVar o.1 o.2 := by
          rcases o with ⟨id, _ | _⟩ <;> simp [ofMapping, others _ inside, Ty.ofVar]
        rw [stays, Ty.assign_ofVar, Valuation.get_assignment, kept o.1 (kinded.free o free).1.2]
        exact (same o.1 inside).symm
    · refine reaches_grow grows scope.kinded ?_ ?_ fun _ _ => trivial
      · rintro _ rfl
        exact kinded'.presentable
      · rintro _ rfl o occurs
        exact (made o occurs).imp_right fun free => ⟨_, member, free⟩

/-! ### Steps that only rewrite bindings -/

theorem resolve_weighs {s : Subst} (t : Ty) (weighs : s.Weighs) : (s.resolve t).2.Weighs :=
  Subst.resolveWithin_preserves (fun _ id t good => good.bind id t) _ t weighs

theorem freeVars_weighs {s : Subst} (env : Env) (weighs : s.Weighs) :
    (env.freeVars s).2.Weighs := by
  have each : ∀ (l : List (String × Binding)) (done : List VarId × Subst), done.2.Weighs →
      (l.foldl Env.gather done).2.Weighs := by
    intro l
    induction l with
    | nil => exact fun _ good => good
    | cons e l ih => exact fun done good => ih _ (resolve_weighs e.2.type good)
  exact each env.entries ([], s) weighs

theorem generalizeLocal (x : Solution ctors) (env : Env) (t : Ty) :
    ∃ (u : Ty) (s : State), Typing.generalizeLocal env t x.state = .ok u s ∧ s.subst.Weighs :=
  ⟨_, _, rfl, freeVars_weighs env (resolve_weighs t x.weighs)⟩

theorem recordUse (x : Solution ctors) (env : Env) (callee : Expr Position) (t : Ty) :
    ∃ s : State, Typing.recordUse env callee t x.state = .ok () s ∧ s.subst.Weighs := by
  cases callee with
  | var p name =>
    have got : (get : Infer State) x.state = .ok x.state x.state := rfl
    have resolved : Typing.resolve t x.state = .ok (x.state.subst.resolve t).1
        { x.state with subst := (x.state.subst.resolve t).2 } := rfl
    simp only [Typing.recordUse, bind_of_ok got]
    cases used : x.state.uses.get? name with
    | none => exact ⟨_, rfl, x.weighs⟩
    | some seen =>
      cases found : env.get? name with
      | none => exact ⟨_, rfl, x.weighs⟩
      | some b =>
        dsimp only
        split
        · rw [bind_of_ok resolved]
          split
          · exact ⟨_, rfl, resolve_weighs t x.weighs⟩
          · exact ⟨_, rfl, resolve_weighs t x.weighs⟩
        · exact ⟨_, rfl, x.weighs⟩
  | _ => exact ⟨_, rfl, x.weighs⟩

end Solution
end Typing
end StackML
