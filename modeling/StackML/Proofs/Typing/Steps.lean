import StackML.Proofs.Computation
import StackML.Proofs.Typing.Stage

/-!
The steps that inference is made of, each as a way between stages: giving out variables,
instantiating a scheme, resolving, unifying.
-/

namespace StackML.Typing

open Assignment

theorem not_refuse_ok {α : Type} {place : Position} {issue : Issue} {s s' : State} {a : α}
    (run : refuse place issue s = .ok a s') : False := by
  cases run

structure Fits (ctors : NameMap Constructor) (w : Stage) (s : State) : Prop where
  denotes : Subst.Denotes w.supply s.subst w.meaning
  last : s.last = w.supply.last
  ctors_eq : s.ctors = ctors

namespace Stage

def grow (w : Stage) (g : Supply) (grows : w.supply.Grows g) : Stage where
  supply := g
  meaning := w.meaning
  mono := w.mono
  unbound := w.unbound
  unused id outside := w.unused id fun gave => outside (gave.grow grows)
  numeric id member := by
    by_cases known : id ≤ w.supply.last
    · exact w.numeric id ((grows.numeric id known).1 member)
    · rw [(w.unused id fun gave => known gave.2).2]
      rfl
  kinds o known := by
    by_cases old : o.1 ≤ w.supply.last
    · have gave : w.supply.Gave o.1 := ⟨grows.first ▸ known.1.1, old⟩
      exact (w.kinds o ⟨gave, known.2.trans (grows.numeric o.1 old)⟩).grow grows
    · rw [(w.unused o.1 fun gave => old gave.2).get]
      exact Ty.wellKinded_ofVar known

theorem before_grow (w : Stage) {g : Supply} (grows : w.supply.Grows g) :
    w.Before (w.grow g grows) :=
  ⟨grows, w.comp_self⟩

end Stage

section Steps

variable {N : Set VarId} {ctors : NameMap Constructor} {w : Stage} {s s' : State}

theorem reaches_grow {T O : Set Ty} {g : Supply} (grows : w.supply.Grows g)
    (inView : ∀ t ∈ T, t.Presentable w.supply) (kinded : ∀ t ∈ O, t.Presentable g)
    (made : ∀ t ∈ O, ∀ o ∈ t.occurrences, w.supply.last < o.1 ∨ ∃ u ∈ T, o ∈ u.occurrences)
    {claim : Stage → Prop} (holds : ∀ f, (w.grow g grows).Before f → claim f) :
    Reaches N T w (w.grow g grows) O claim := by
  refine ⟨∅, ?_, fun f before _ => holds f before⟩
  exact {
    before := w.before_grow grows
    inView
    keeps := fun D old apart => by
      refine ⟨.refl D _, fun t member o occurs v inside hit => ?_⟩
      rcases made t member o occurs with new | ⟨u, seen, occurs⟩
      · have same : v = o := by
          have := (w.unused o.1 fun gave => not_le.2 new gave.2).get
          rw [show (w.grow g grows).meaning = w.meaning from rfl, this] at inside
          simpa [Ty.occurrences_ofVar] using inside
        have := old v.1 hit
        rw [same] at this
        exact absurd new (not_lt.2 this)
      · exact apart u seen o occurs v inside hit
    fresh := fun p member => member.elim
    plain := fun p member => member.elim
    apart := fun o _ v _ => id
    result := fun t _ o _ v _ => id
    kinded }

theorem freshOf_spec {numeric : Bool} {t : Ty} (fits : Fits ctors w s)
    (run : freshOf numeric s = .ok t s') : ∃ w', Fits ctors w' s' ∧ t.WellKinded w'.supply ∧
      t = .ofVar (w.supply.last + 1) numeric ∧
      Reaches N ∅ w w' {t} fun f => numeric = true → (t.assign f.meaning).fitsNumeric := by
  cases run
  have grows := w.supply.grows_push numeric
  have kinded : (Ty.ofVar (w.supply.last + 1) numeric).WellKinded (w.supply.push numeric) :=
    Ty.wellKinded_ofVar (o := (w.supply.last + 1, numeric))
      ⟨w.supply.gave_push numeric, (w.supply.mem_push_numeric numeric).symm⟩
  rw [fits.last]
  refine ⟨w.grow _ grows, ⟨fits.denotes.grow grows, rfl, fits.ctors_eq⟩, kinded, rfl, ?_⟩
  refine reaches_grow grows (by simp) ?_ ?_ ?_
  · rintro _ rfl
    exact kinded.presentable
  · rintro _ rfl o member
    left
    rw [Ty.occurrences_ofVar, List.mem_singleton] at member
    rw [member]
    exact Int.lt_succ _
  · rintro f before rfl
    have old : w.supply.last + 1 ∈ (w.supply.push true).numeric :=
      (w.supply.mem_push_numeric true).2 rfl
    exact f.numeric _ ((before.grows.numeric _ (Int.le_refl _)).2 old)

theorem fresh_spec {t : Ty} (fits : Fits ctors w s) (run : fresh s = .ok t s') :
    ∃ w', Fits ctors w' s' ∧ t.WellKinded w'.supply ∧ Reaches N ∅ w w' {t} fun _ => True := by
  obtain ⟨w', fits', kinded, -, way⟩ := freshOf_spec fits run
  exact ⟨w', fits', kinded, way.weaken (by simp) subset_rfl subset_rfl fun _ _ _ => trivial⟩

theorem freshNumeric_spec {t : Ty} (fits : Fits ctors w s) (run : freshNumeric s = .ok t s') :
    ∃ w', Fits ctors w' s' ∧ t.WellKinded w'.supply ∧
      Reaches N ∅ w w' {t} fun f => (t.assign f.meaning).fitsNumeric := by
  obtain ⟨w', fits', kinded, -, way⟩ := freshOf_spec fits run
  exact ⟨w', fits', kinded, way.weaken (by simp) subset_rfl subset_rfl fun _ _ h => h rfl⟩

theorem resolve_spec {t u : Ty} (fits : Fits ctors w s) (kinded : t.WellKinded w.supply)
    (run : resolve t s = .ok u s') : u = t.assign w.meaning ∧ Fits ctors w s' := by
  obtain ⟨dom, rank, size, walk⟩ := fits.denotes
  obtain ⟨subst, resolved, walk'⟩ := Subst.resolve_spec walk kinded
  have shape : resolve t s = .ok (s.subst.resolve t).1 { s with subst := (s.subst.resolve t).2 } :=
    rfl
  rw [shape, resolved] at run
  cases run
  exact ⟨rfl, ⟨dom, rank, size, walk'⟩, fits.last, fits.ctors_eq⟩

theorem prune_spec {t u : Ty} (fits : Fits ctors w s) (kinded : t.WellKinded w.supply)
    (run : prune t s = .ok u s') :
    u.assign w.meaning = t.assign w.meaning ∧ Fits ctors w s' := by
  obtain ⟨dom, rank, size, walk⟩ := fits.denotes
  obtain ⟨root, subst, pruned, walk', same, -⟩ := Subst.prune_spec walk kinded
  have shape : prune t s = .ok (s.subst.prune t).1 { s with subst := (s.subst.prune t).2 } := rfl
  rw [shape, pruned] at run
  cases run
  exact ⟨same, ⟨dom, rank, size, walk'⟩, fits.last, fits.ctors_eq⟩

theorem reaches_unify {a b : Ty} {subst : Subst} (fits : Fits ctors w s)
    (kindedA : a.WellKinded w.supply) (kindedB : b.WellKinded w.supply)
    (unified : s.subst.unify a b = (none, subst)) : ∃ w' : Stage, w'.supply = w.supply ∧
      Fits ctors w' { s with subst } ∧
      Reaches N {a, b} w w' ∅ fun f => a.assign f.meaning = b.assign f.meaning := by
  obtain ⟨R, denotes, refines, same, keeps⟩ := Subst.unify_spec fits.denotes kindedA kindedB unified
  refine ⟨.ofDenotes denotes, rfl, ⟨denotes, fits.last, fits.ctors_eq⟩, ∅, ?_, fun f before _ => ?_⟩
  · exact {
      before := ⟨.refl _, refines⟩
      inView := by
        rintro t (rfl | rfl)
        · exact kindedA.presentable
        · exact kindedB.presentable
      keeps := fun D _ apart =>
        ⟨keeps D (apart a (by simp)) (apart b (by simp)), fun t member => member.elim⟩
      fresh := fun p member => member.elim
      plain := fun p member => member.elim
      apart := fun o _ v _ => id
      result := fun t member => member.elim
      kinded := fun t member => member.elim }
  · have later := before.refines
    change a.assign f.meaning = b.assign f.meaning
    rw [← later.assign kindedA.mono, ← later.assign kindedB.mono]
    exact congrArg _ same

theorem unify_ok {place : Position} {a b : Ty} {u : Unit} (run : unify place a b s = .ok u s') :
    ∃ subst, s.subst.unify a b = (none, subst) ∧ s' = { s with subst } := by
  unfold Typing.unify at run
  obtain ⟨_, _, runGet, run⟩ := bind_ok run
  cases runGet
  rcases found : s.subst.unify a b with ⟨_ | e, subst⟩
  · simp only [found] at run
    cases run
    exact ⟨subst, rfl, rfl⟩
  · simp only [found] at run
    obtain ⟨_, s₁, -, run⟩ := bind_ok run
    obtain ⟨issue, s₂, -, failed⟩ := bind_ok run
    exact (not_refuse_ok failed).elim

theorem unify_spec {place : Position} {a b : Ty} {u : Unit} (fits : Fits ctors w s)
    (kindedA : a.WellKinded w.supply) (kindedB : b.WellKinded w.supply)
    (run : unify place a b s = .ok u s') : ∃ w', Fits ctors w' s' ∧
      Reaches N {a, b} w w' ∅ fun f => a.assign f.meaning = b.assign f.meaning := by
  obtain ⟨subst, unified, rfl⟩ := unify_ok run
  obtain ⟨w', -, fits', way⟩ := reaches_unify (N := N) fits kindedA kindedB unified
  exact ⟨w', fits', way⟩

end Steps
end StackML.Typing

/-! ### Instantiating -/

namespace StackML.Ty

theorem isNumericIn_of_mem {g : Supply} {body : Ty} (kinded : body.WellKinded g)
    {o : VarId × Bool} (member : o ∈ body.occurrences) : body.isNumericIn o.1 = o.2 := by
  have plain : body.unquantified = body := by
    cases body with
    | scheme vars a => exact absurd kinded.mono (by simp [isMono])
    | _ => rfl
  unfold isNumericIn
  rw [plain]
  have here : o ∈ body.occurrences.filter (·.1 == o.1) := by simp [member]
  obtain ⟨last, found⟩ : ∃ last, (body.occurrences.filter (·.1 == o.1)).getLast? = some last := by
    cases h : (body.occurrences.filter (·.1 == o.1)).getLast? with
    | none =>
      rw [List.getLast?_eq_none_iff.1 h] at here
      cases here
    | some last => exact ⟨last, rfl⟩
  have inside := List.mem_of_getLast? found
  simp only [List.mem_filter, beq_iff_eq] at inside
  rw [found]
  have first := (kinded.kinds last inside.1).2
  have second := (kinded.kinds o member).2
  rw [inside.2] at first
  exact Bool.eq_iff_iff.2 (first.trans second.symm)

theorem get?_freshMapping_cons (body : Ty) (a : VarId) (rest : List VarId) (last id : VarId) :
    (freshMapping body (a :: rest) last).1.get? id =
      ((freshMapping body rest (last + 1)).1.get? id).or
        (if id = a then some (ofVar (last + 1) (body.isNumericIn a)) else none) := by
  simp only [freshMapping, Mapping.get?, List.lookup_append, List.lookup_cons]
  by_cases same : id = a
  · simp [same]
  · simp [same, beq_eq_false_iff_ne.2 same]

theorem get?_freshMapping_eq_none {body : Ty} {vars : List VarId} {last id : VarId}
    (outside : id ∉ vars) : (freshMapping body vars last).1.get? id = none := by
  induction vars generalizing last with
  | nil => rfl
  | cons a rest ih =>
    simp only [List.mem_cons, not_or] at outside
    rw [get?_freshMapping_cons, ih outside.2]
    simp [outside.1]

theorem freshMapping_spec (body : Ty) (vars : List VarId) (g : Supply) :
    ∃ g', g.Grows g' ∧ g'.last = (freshMapping body vars g.last).2 ∧
      (∀ id ∉ vars, (freshMapping body vars g.last).1.get? id = none) ∧
      ∀ id ∈ vars, ∃ k, (freshMapping body vars g.last).1.get? id =
          some (ofVar k (body.isNumericIn id)) ∧
        g.last < k ∧ g'.Gave k ∧ (body.isNumericIn id = true ↔ k ∈ g'.numeric) := by
  induction vars generalizing g with
  | nil => exact ⟨g, .refl g, rfl, by simp [freshMapping, Mapping.get?], by simp⟩
  | cons a rest ih =>
    obtain ⟨g', grows, last, others, each⟩ := ih (g.push (body.isNumericIn a))
    have step := g.grows_push (body.isNumericIn a)
    refine ⟨g', step.trans grows, last, fun id => get?_freshMapping_eq_none, fun id member => ?_⟩
    by_cases later : id ∈ rest
    · obtain ⟨k, found, above, below, kind⟩ := each id later
      simp only [Supply.push] at found above
      exact ⟨k, by rw [get?_freshMapping_cons, found]; rfl, by lia, below, kind⟩
    · have same : id = a := by simpa [later] using member
      subst same
      have := others id later
      simp only [Supply.push] at this
      refine ⟨g.last + 1, by rw [get?_freshMapping_cons, this]; simp, by lia,
        (g.gave_push _).grow grows, ?_⟩
      exact (g.mem_push_numeric _).symm.trans (grows.numeric _ (Int.le_refl _)).symm

/-- Fresh variables of the right kinds keep a type well-kinded; the rest of its variables are those
that are free in the scheme. -/
theorem wellKinded_replace {g g' h : Supply} {vars : List VarId} {body : Ty} {m : Mapping}
    (kinded : body.WellKinded h) (free : ∀ o ∈ (scheme vars body).occurrences, g.Knows o)
    (grows : g.Grows g') (others : ∀ id ∉ vars, m.get? id = none)
    (each : ∀ id ∈ vars, ∃ k, m.get? id = some (ofVar k (body.isNumericIn id)) ∧
      g.last < k ∧ g'.Gave k ∧ (body.isNumericIn id = true ↔ k ∈ g'.numeric)) :
    (body.replace m).WellKinded g' ∧ ∀ o ∈ (body.replace m).occurrences,
      g.last < o.1 ∨ o ∈ (scheme vars body).occurrences := by
  have value : ∀ o ∈ body.occurrences,
      (∃ k, (Assignment.ofMapping m).get o = ofVar k o.2 ∧ g.last < k ∧ g'.Gave k ∧
        (o.2 = true ↔ k ∈ g'.numeric)) ∨
      (Assignment.ofMapping m).get o = ofVar o.1 o.2 ∧ o ∈ (scheme vars body).occurrences := by
    rintro ⟨id, numeric⟩ occurs
    by_cases member : id ∈ vars
    · obtain ⟨k, found, above, known, kind⟩ := each id member
      rw [isNumericIn_of_mem kinded occurs] at found kind
      refine .inl ⟨k, ?_, above, known, kind⟩
      cases numeric <;> simp [Assignment.ofMapping, Assignment.get, found]
    · refine .inr ⟨?_, by simp [occurrences, occurs, member]⟩
      cases numeric <;> simp [Assignment.ofMapping, others _ member, ofVar]
  rw [replace_eq_assign]
  refine ⟨⟨isMono_assign kinded.mono fun o occurs => ?_, fun v member => ?_⟩, fun v member => ?_⟩
  · rcases value o occurs with ⟨k, found, -⟩ | ⟨found, -⟩ <;> rw [found] <;> cases o.2 <;> rfl
  · obtain ⟨o, occurs, inside⟩ := (mem_occurrences_assign kinded.mono _ v).1 member
    rcases value o occurs with ⟨k, found, -, known, kind⟩ | ⟨found, outside⟩
    · rw [found, occurrences_ofVar, List.mem_singleton] at inside
      rw [inside]
      exact ⟨known, kind⟩
    · rw [found, occurrences_ofVar, List.mem_singleton] at inside
      rw [inside]
      exact (free o outside).grow grows
  · obtain ⟨o, occurs, inside⟩ := (mem_occurrences_assign kinded.mono _ v).1 member
    rcases value o occurs with ⟨k, found, above, -⟩ | ⟨found, free⟩
    · rw [found, occurrences_ofVar, List.mem_singleton] at inside
      exact .inl (inside ▸ above)
    · rw [found, occurrences_ofVar, List.mem_singleton] at inside
      exact .inr (inside ▸ free)

/-- What a scheme gives with fresh variables of the right kinds is an instance of it, at any stage
where its own variables are private. -/
theorem instance_replace {g : Supply} {vars : List VarId} {body : Ty} {m : Mapping}
    {f : Typing.Stage} {θ : Assignment} (kinded : body.WellKinded g)
    (own : (scheme vars body).Private f.meaning) (good : θ.Kinded)
    (others : ∀ id ∉ vars, m.get? id = none)
    (each : ∀ id ∈ vars, ∃ k, m.get? id = some (ofVar k (body.isNumericIn id)) ∧
      (body.isNumericIn id = true → k ∈ f.supply.numeric)) :
    ((scheme vars body).assign f.meaning).Instance θ ((body.replace m).assign f.meaning) := by
  classical
  let value (o : VarId × Bool) : Ty :=
    if o.1 ∈ vars ∧ o ∈ body.occurrences then
      (((Assignment.ofMapping m).get o).assign f.meaning).assign θ
    else θ.get o
  let ρ : Assignment := ⟨fun id => value (id, false), fun id => value (id, true)⟩
  have get : ∀ o, ρ.get o = value o := by
    rintro ⟨id, _ | _⟩ <;> rfl
  have fresh : ∀ o : VarId × Bool, o.1 ∈ vars → o ∈ body.occurrences → ∃ k,
      (Assignment.ofMapping m).get o = ofVar k o.2 ∧ (o.2 = true → k ∈ f.supply.numeric) := by
    rintro ⟨id, numeric⟩ member occurs
    obtain ⟨k, found, kind⟩ := each id member
    rw [isNumericIn_of_mem kinded occurs] at found kind
    refine ⟨k, ?_, kind⟩
    cases numeric <;> simp [Assignment.ofMapping, Assignment.get, found]
  have hidden : body.assign (f.meaning.hide vars) = body.assign f.meaning := by
    refine assign_congr fun o _ => ?_
    rw [Assignment.get_hide]
    split
    · next member =>
      rw [(own.unbound o.1 member).get, ← assign_ofVar, assign_default]
    · rfl
  refine ⟨ρ, ⟨fun o => ?_, fun id => ?_⟩, fun id outside => ?_, ?_⟩
  · rw [get]
    simp only [value]
    split
    · next member =>
      obtain ⟨k, found, -⟩ := fresh o member.1 member.2
      rw [found]
      have mono : ((ofVar k o.2).assign f.meaning).isMono := by
        rw [assign_ofVar f.meaning (k, o.2)]
        exact f.mono _
      exact isMono_assign mono fun v _ => good.mono v
    · exact good.mono o
  · change (value (id, true)).fitsNumeric
    simp only [value]
    split
    · next member =>
      obtain ⟨k, found, kind⟩ := fresh (id, true) member.1 member.2
      rw [found]
      exact fitsNumeric_assign (f.numeric k (kind rfl)) fun v _ => good.numeric v
    · exact good.numeric id
  · have outside : id ∉ vars := outside
    simp [ρ, value, outside]
  · change ((body.replace m).assign f.meaning).assign θ = (body.assign (f.meaning.hide vars)).assign ρ
    have replaced : (body.assign (.ofMapping m)).isMono := by
      refine isMono_assign kinded.mono fun o occurs => ?_
      by_cases member : o.1 ∈ vars
      · obtain ⟨k, found, -⟩ := fresh o member occurs
        rw [found]
        cases o.2 <;> rfl
      · rcases o with ⟨id, _ | _⟩ <;> simp [Assignment.ofMapping, others _ member, isMono]
    rw [hidden, replace_eq_assign, assign_assign replaced, assign_assign kinded.mono,
      assign_assign kinded.mono]
    refine assign_congr fun o occurs => ?_
    simp only [Assignment.get_comp]
    by_cases member : o.1 ∈ vars
    · obtain ⟨k, found, -⟩ := fresh o member occurs
      have free : ((ofVar k o.2).assign f.meaning).isMono := by
        rw [assign_ofVar f.meaning (k, o.2)]
        exact f.mono _
      rw [(own.unbound o.1 member).get, assign_ofVar, get]
      simp only [value, member, occurs, and_self, if_true, found]
      rw [assign_assign (by cases o.2 <;> rfl)]
    · have kept : (Assignment.ofMapping m).get o = ofVar o.1 o.2 := by
        rcases o with ⟨id, _ | _⟩ <;> simp [Assignment.ofMapping, others _ member, ofVar]
      rw [kept, assign_ofVar, Assignment.get_comp]
      refine assign_congr fun v inside => ?_
      have outside : v.1 ∉ vars :=
        own.apart o (by simp [occurrences, occurs, member]) v inside
      rw [get]
      simp [value, outside]

end StackML.Ty

namespace StackML.Typing

open Assignment

variable {N : Set VarId} {ctors : NameMap Constructor} {w : Stage} {s s' : State}

theorem instantiate_spec {t u : Ty} {T : Set Ty} (fits : Fits ctors w s) (scope : Scope w T)
    (member : t ∈ T) (run : instantiate t s = .ok u s') : ∃ w', Fits ctors w' s' ∧
      u.WellKinded w'.supply ∧ Reaches N T w w' {u} fun f => t.Private f.meaning →
        ∀ θ : Assignment, θ.Kinded → (t.assign f.meaning).Instance θ (u.assign f.meaning) := by
  have shape : instantiate t s =
      .ok (t.instantiate s.last).1 { s with last := (t.instantiate s.last).2 } := rfl
  rw [shape, fits.last] at run
  have kinded := scope.kinded t member
  rcases Ty.mono_or_scheme kinded.mono with mono | ⟨vars, body, rfl⟩
  · have same : t.instantiate w.supply.last = (t, w.supply.last) := by
      cases t with
      | scheme vars body => simp [Ty.isMono] at mono
      | _ => rfl
    rw [same] at run
    cases run
    refine ⟨w, ⟨fits.denotes, rfl, fits.ctors_eq⟩, ⟨mono, kinded.free⟩, ?_⟩
    refine reaches_grow (.refl w.supply) scope.kinded (by simpa using kinded) ?_ ?_
    · rintro u rfl o occurs
      exact .inr ⟨u, member, occurs⟩
    · intro f _ _ θ good
      refine ⟨θ, good, fun _ _ => ⟨rfl, rfl⟩, ?_⟩
      rw [Ty.body_of_mono (Ty.isMono_assign mono fun o _ => f.mono o)]
  · obtain ⟨h, sorted⟩ := kinded.sorted
    change body.WellKinded h at sorted
    obtain ⟨g, grows, last, others, each⟩ := Ty.freshMapping_spec body vars w.supply
    have split : (Ty.scheme vars body).instantiate w.supply.last =
        (body.replace (body.freshMapping vars w.supply.last).1, g.last) := by
      rw [last]
      rfl
    rw [split] at run
    generalize (body.freshMapping vars w.supply.last).1 = m at run others each
    cases run
    obtain ⟨kinded', made⟩ := Ty.wellKinded_replace sorted kinded.free grows others each
    refine ⟨w.grow g grows, ⟨fits.denotes.grow grows, rfl, fits.ctors_eq⟩, kinded', ?_⟩
    refine reaches_grow grows scope.kinded ?_ ?_ ?_
    · rintro u rfl
      exact kinded'.presentable
    · rintro u rfl o occurs
      exact (made o occurs).imp_right fun occurs => ⟨_, member, occurs⟩
    · intro f before own θ good
      refine Ty.instance_replace sorted own good others fun id inside => ?_
      obtain ⟨k, found, -, known, kind⟩ := each id inside
      exact ⟨k, found, fun numeric => (before.grows.numeric k known.2).2 (kind.1 numeric)⟩

/-! ### Generalizing -/

/-- The types that an environment gives to names. -/
def Env.types (env : Env) : Set Ty := {t | ∃ e ∈ env.entries, e.2.type = t}

/-- The environment as the rules see it, under an assignment. -/
def Env.context (env : Env) (R : Assignment) : Context :=
  fun name => (env.get? name).map fun b => b.type.assign R

theorem mem_of_get? {β : Type} {m : NameMap β} {name : String} {b : β}
    (found : m.get? name = some b) : (name, b) ∈ m.entries :=
  mem_of_lookup found

theorem Env.type_mem {env : Env} {name : String} {b : Binding} (found : env.get? name = some b) :
    b.type ∈ env.types :=
  ⟨_, mem_of_get? found, rfl⟩

theorem Env.types_insert (env : Env) (name : String) (b : Binding) :
    Env.types (env.insert name b) ⊆ env.types ∪ {b.type} := by
  rintro t ⟨e, member, rfl⟩
  rcases List.mem_cons.1 member with rfl | old
  · exact .inr rfl
  · exact .inl ⟨e, (List.mem_filter.1 old).1, rfl⟩

theorem Env.context_insert (env : Env) (name : String) (b : Binding) (R : Assignment) :
    Env.context (env.insert name b) R = (env.context R).extend name (b.type.assign R) := by
  funext other
  simp only [Env.context, Context.extend, NameMap.get?_insert]
  split <;> rfl

def LeadsTo (R : Assignment) (t : Ty) (id : VarId) : Prop :=
  ∃ v ∈ t.occurrences, ∃ o ∈ (R.get v).occurrences, o.1 = id

theorem resolve_visible {t : Ty} {subst : Subst} (denotes : Subst.Denotes w.supply subst w.meaning)
    (kinded : t.Presentable w.supply) (own : t.Private w.meaning) :
    ∃ u subst', subst.resolve t = (u, subst') ∧ Subst.Denotes w.supply subst' w.meaning ∧
      ∀ id, id ∈ u.freeVars ↔ LeadsTo w.meaning t id := by
  obtain ⟨dom, rank, size, walk⟩ := denotes
  rcases Ty.mono_or_scheme kinded.mono with mono | ⟨vars, body, rfl⟩
  · obtain ⟨subst', resolved, walk'⟩ := Subst.resolve_spec walk ⟨mono, kinded.free⟩
    refine ⟨_, subst', resolved, ⟨dom, rank, size, walk'⟩, fun id => ?_⟩
    simp only [Ty.mem_freeVars, Ty.mem_occurrences_assign mono, LeadsTo]
    exact ⟨fun ⟨o, ⟨v, free, inside⟩, same⟩ => ⟨v, free, o, inside, same⟩,
      fun ⟨v, free, o, inside, same⟩ => ⟨o, ⟨v, free, inside⟩, same⟩⟩
  · have mono : body.isMono := kinded.mono
    have known : ∀ o ∈ body.occurrences, w.supply.Knows o ∨ o.1 ∉ dom := by
      intro o occurs
      by_cases member : o.1 ∈ vars
      · exact .inr (walk.not_mem_of_unbound (own.unbound o.1 member))
      · exact .inl (kinded.free o (by simp [Ty.occurrences, occurs, member]))
    obtain ⟨subst', resolved, walk'⟩ := Subst.resolve_spec' walk mono known
    have shape : subst.resolve (.scheme vars body) =
        (.scheme vars (subst.resolve body).1, (subst.resolve body).2) := rfl
    rw [resolved] at shape
    refine ⟨_, subst', shape, ⟨dom, rank, size, walk'⟩, fun id => Ty.mem_freeVars.trans ?_⟩
    simp only [Ty.occurrences, List.mem_filter, Ty.mem_occurrences_assign mono]
    constructor
    · rintro ⟨o, ⟨⟨v, free, inside⟩, outside⟩, same⟩
      have outside : o.1 ∉ vars := by simpa using outside
      refine ⟨v, ?_, o, inside, same⟩
      by_cases member : v.1 ∈ vars
      · rw [(own.unbound v.1 member).get, Ty.occurrences_ofVar, List.mem_singleton] at inside
        exact absurd (inside ▸ member) outside
      · simp [Ty.occurrences, free, member]
    · rintro ⟨v, occurs, o, inside, same⟩
      have outside : o.1 ∉ vars := own.apart v occurs o inside
      exact ⟨o, ⟨⟨v, (List.mem_filter.1 occurs).1, inside⟩, by simpa using outside⟩, same⟩

def Env.gather (done : List VarId × Subst) (e : String × Binding) : List VarId × Subst :=
  ((done.2.resolve e.2.type).1.freeVars ++ done.1, (done.2.resolve e.2.type).2)

theorem fixedVars_spec {env : Env} {ids : List VarId} (fits : Fits ctors w s)
    (scope : Scope w env.types) (run : fixedVars env s = .ok ids s') :
    Fits ctors w s' ∧ ∀ id, id ∈ ids ↔ ∃ t ∈ env.types, LeadsTo w.meaning t id := by
  have shape : fixedVars env s =
      .ok (env.freeVars s.subst).1 { s with subst := (env.freeVars s.subst).2 } := rfl
  rw [shape] at run
  have each : ∀ (l : List (String × Binding)) (done : List VarId) (subst : Subst),
      Subst.Denotes w.supply subst w.meaning →
      (∀ e ∈ l, e.2.type.Presentable w.supply ∧ e.2.type.Private w.meaning) →
      ∃ ids subst', l.foldl Env.gather (done, subst) = (ids, subst') ∧
        Subst.Denotes w.supply subst' w.meaning ∧
        ∀ id, id ∈ ids ↔ id ∈ done ∨ ∃ e ∈ l, LeadsTo w.meaning e.2.type id := by
    intro l
    induction l with
    | nil => exact fun done subst denotes _ => ⟨done, subst, rfl, denotes, by simp⟩
    | cons e l ih =>
      intro done subst denotes good
      simp only [List.forall_mem_cons] at good
      obtain ⟨u, subst₁, resolved, denotes₁, exact⟩ := resolve_visible denotes good.1.1 good.1.2
      obtain ⟨ids, subst', folded, denotes', rest⟩ :=
        ih (u.freeVars ++ done) subst₁ denotes₁ good.2
      refine ⟨ids, subst', ?_, denotes', fun id => ?_⟩
      · rw [List.foldl_cons, ← folded]
        simp only [Env.gather, resolved]
      · rw [rest, List.mem_append, exact, List.exists_mem_cons_iff]
        grind
  obtain ⟨ids', subst', folded, denotes, exact⟩ := each env.entries [] s.subst fits.denotes
    fun e member => ⟨scope.kinded _ ⟨e, member, rfl⟩, scope.isPrivate ⟨e, member, rfl⟩⟩
  have both : env.freeVars s.subst = (ids', subst') := folded
  rw [both] at run
  cases run
  refine ⟨⟨denotes, fits.last, fits.ctors_eq⟩, fun id => (exact id).trans ?_⟩
  simp [Env.types]

theorem generalize_eq (t : Ty) (fixed : List VarId) :
    t.generalize fixed = t.quantify (t.freeVars.filter fun id => !fixed.contains id) := by
  unfold Ty.generalize
  split
  · next none => rw [none]; rfl
  · next vars some =>
    cases h : t.freeVars.filter fun id => !fixed.contains id with
    | nil => exact absurd h some
    | cons a rest => rfl

structure Generalizable (w : Stage) (env : Env) (t : Ty) (vars : List VarId) : Prop where
  occur : ∀ a ∈ vars, ∃ o ∈ (t.assign w.meaning).occurrences, o.1 = a
  apart : AllAvoid w.meaning {a | a ∈ vars} env.types
  full : ∀ o ∈ (t.assign w.meaning).occurrences, o.2 = false →
    o.1 ∈ vars ∨ ∃ u ∈ env.types, LeadsTo w.meaning u o.1

theorem generalizable_filter {env : Env} {t : Ty} {ids : List VarId} {more : List VarId}
    (exact : ∀ id, id ∈ ids ↔ ∃ u ∈ env.types, LeadsTo w.meaning u id)
    (numeric : ∀ id ∈ more, (id, false) ∉ (t.assign w.meaning).occurrences) :
    Generalizable w env t
      ((t.assign w.meaning).freeVars.filter fun id => !(ids ++ more).contains id) where
  occur a member := Ty.mem_freeVars.1 (List.mem_filter.1 member).1
  apart u seen v occurs o inside member := by
    have := (List.mem_filter.1 member).2
    simp only [List.contains_eq_mem, List.mem_append, Bool.not_eq_true', decide_eq_false_iff_not,
      not_or] at this
    exact this.1 ((exact o.1).2 ⟨u, seen, v, occurs, o, inside, rfl⟩)
  full := by
    rintro ⟨id, _⟩ occurs rfl
    by_cases fixed : id ∈ ids
    · exact .inr ((exact id).1 fixed)
    · have plain : id ∉ more := fun inside => numeric id inside occurs
      exact .inl (by simp [Ty.mem_freeVars.2 ⟨_, occurs, rfl⟩, fixed, plain])

theorem generalizeLocal_spec {env : Env} {t u : Ty} (fits : Fits ctors w s)
    (scope : Scope w env.types) (kinded : t.WellKinded w.supply)
    (run : generalizeLocal env t s = .ok u s') : Fits ctors w s' ∧ ∃ vars,
      u = (t.assign w.meaning).quantify vars ∧ Generalizable w env t vars ∧
      ∀ o ∈ (t.assign w.meaning).occurrences, o.2 = true → o.1 ∉ vars := by
  obtain ⟨t', s₁, resolved, run⟩ := bind_ok run
  obtain ⟨rfl, fits₁⟩ := resolve_spec fits kinded resolved
  obtain ⟨ids, s₂, fixed, run⟩ := bind_ok run
  obtain ⟨fits₂, exact⟩ := fixedVars_spec fits₁ scope fixed
  obtain ⟨rfl, rfl⟩ := pure_ok run
  refine ⟨fits₂, _, generalize_eq _ _, generalizable_filter exact fun id numeric plain => ?_, ?_⟩
  · -- a variable occurs at one kind only
    have kinds := (w.wellKinded_assign kinded).kinds
    have := (kinds _ (Ty.mem_numericIds.1 numeric)).2.trans (kinds _ plain).2.symm
    simp at this
  · rintro ⟨id, _⟩ occurs rfl member
    have := (List.mem_filter.1 member).2
    simp [Ty.mem_numericIds.2 occurs] at this

theorem generalize_spec {env : Env} {t u : Ty} (fits : Fits ctors w s)
    (scope : Scope w env.types) (kinded : t.WellKinded w.supply)
    (run : generalize env t s = .ok u s') : Fits ctors w s' ∧ ∃ vars,
      u = (t.assign w.meaning).quantify vars ∧ Generalizable w env t vars := by
  obtain ⟨t', s₁, resolved, run⟩ := bind_ok run
  obtain ⟨rfl, fits₁⟩ := resolve_spec fits kinded resolved
  obtain ⟨ids, s₂, fixed, run⟩ := bind_ok run
  obtain ⟨fits₂, exact⟩ := fixedVars_spec fits₁ scope fixed
  obtain ⟨rfl, rfl⟩ := pure_ok run
  refine ⟨fits₂, _, generalize_eq _ _, ?_⟩
  have none : ∀ id ∈ ([] : List VarId), (id, false) ∉ (t.assign w.meaning).occurrences := by simp
  have := generalizable_filter exact none
  rwa [List.append_nil] at this

/-! ### Going on from a stage -/

namespace Reaches

variable {T O : Set Ty} {w₁ : Stage} {claim : Stage → Prop}

theorem fresh {t : Ty} (way : Reaches N T w w₁ O claim) (fits : Fits ctors w₁ s)
    (run : Typing.fresh s = .ok t s') : ∃ w₂, Fits ctors w₂ s' ∧ w₁.Before w₂ ∧
      t.WellKinded w₂.supply ∧ Reaches N T w w₂ (O ∪ {t}) claim := by
  obtain ⟨w₂, fits₂, kinded, step⟩ := fresh_spec (N := N) fits run
  have way₂ := way.andThen step .empty
  exact ⟨w₂, fits₂, step.before, kinded,
    way₂.weaken way.inView subset_rfl subset_rfl fun _ _ => And.left⟩

theorem freshNumeric {t : Ty} (way : Reaches N T w w₁ O claim) (fits : Fits ctors w₁ s)
    (run : Typing.freshNumeric s = .ok t s') : ∃ w₂, Fits ctors w₂ s' ∧ w₁.Before w₂ ∧
      t.WellKinded w₂.supply ∧ Reaches N T w w₂ (O ∪ {t}) fun f =>
        claim f ∧ (t.assign f.meaning).fitsNumeric := by
  obtain ⟨w₂, fits₂, kinded, step⟩ := freshNumeric_spec (N := N) fits run
  exact ⟨w₂, fits₂, step.before, kinded, way.andThen step .empty⟩

theorem unify {place : Position} {a b : Ty} {u : Unit} (way : Reaches N T w w₁ O claim)
    (fits : Fits ctors w₁ s) (kindedA : a.WellKinded w₁.supply) (kindedB : b.WellKinded w₁.supply)
    (cover : Covers (T ∪ O) {a, b}) (run : Typing.unify place a b s = .ok u s') :
    ∃ w₂, Fits ctors w₂ s' ∧ w₁.Before w₂ ∧ Reaches N T w w₂ O fun f =>
      claim f ∧ a.assign f.meaning = b.assign f.meaning := by
  obtain ⟨w₂, fits₂, step⟩ := unify_spec (N := N) fits kindedA kindedB run
  exact ⟨w₂, fits₂, step.before, (way.andThen step cover).weaken way.inView subset_rfl
    Set.subset_union_left fun _ _ => id⟩

theorem instantiate {t u : Ty} (way : Reaches N T w w₁ O claim) (scope : Scope w T)
    (fits : Fits ctors w₁ s) (member : t ∈ T) (run : Typing.instantiate t s = .ok u s') :
    ∃ w₂, Fits ctors w₂ s' ∧ w₁.Before w₂ ∧ u.WellKinded w₂.supply ∧
      Reaches N T w w₂ (O ∪ {u}) fun f => claim f ∧ (t.Private f.meaning →
        ∀ θ : Assignment, θ.Kinded → (t.assign f.meaning).Instance θ (u.assign f.meaning)) := by
  obtain ⟨w₂, fits₂, kinded, step⟩ := instantiate_spec (N := N) fits (scope.after way) member run
  exact ⟨w₂, fits₂, step.before, kinded, way.andThen step .left⟩

end Reaches
end StackML.Typing
