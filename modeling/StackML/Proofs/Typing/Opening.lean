import StackML.Proofs.Typing.Infer.Binding

/-!
The scope that a module opens with: built-in names, imports and constructors. Nothing is unified
before it stands, and every type in it is closed, so the stage after it starts with no variable
given out.
-/

namespace StackML.Typing

open Assignment

/-! ### Types from outside -/

def Known (g : Supply) (m : Mapping) : Prop :=
  ∀ id v, m.get? id = some v → ∃ o, v = Ty.ofVar o.1 o.2 ∧ g.Knows o

theorem Known.grow {g g' : Supply} {m : Mapping} (known : Known g m) (grows : g.Grows g') :
    Known g' m := by
  intro id v found
  obtain ⟨o, rfl, knows⟩ := known id v found
  exact ⟨o, rfl, knows.grow grows⟩

theorem get?_cons (m : Mapping) (id other : VarId) (v : Ty) :
    Mapping.get? ((id, v) :: m) other = if other = id then some v else m.get? other := by
  simp only [Mapping.get?, List.lookup_cons]
  by_cases same : other = id
  · simp [same]
  · simp [same, beq_eq_false_iff_ne.2 same]

def NewBeyond (g : Supply) (m m' : Mapping) : Prop :=
  ∀ id v, m'.get? id = some v → m.get? id = some v ∨ ∀ o ∈ v.occurrences, g.last < o.1

theorem freshenVars_spec {numeric ids : List VarId} {m m' : Mapping} {s s' : State} {g : Supply}
    (last : s.last = g.last) (known : Known g m)
    (run : (ids.foldlM (fun m id => do
      if (m.get? id).isSome then pure m
      else pure ((id, ← freshOf (numeric.contains id)) :: m)) m : Infer Mapping) s = .ok m' s') :
    ∃ g', g.Grows g' ∧ s' = { s with last := g'.last } ∧ Known g' m' ∧ NewBeyond g m m' ∧
      (∀ id ∈ ids, (m'.get? id).isSome) ∧ ∀ id, (m.get? id).isSome → (m'.get? id).isSome := by
  induction ids generalizing m s g with
  | nil =>
    cases run
    exact ⟨g, .refl g, by rw [← last], known, fun _ _ => .inl, by simp, fun _ => id⟩
  | cons a ids ih =>
    rw [List.foldlM_cons] at run
    obtain ⟨m₁, s₁, runA, run⟩ := bind_ok run
    cases found : m.get? a with
    | some v =>
      simp only [found, Option.isSome_some, if_true] at runA
      cases runA
      obtain ⟨g', grows, state, known', new, each, kept⟩ := ih last known run
      refine ⟨g', grows, state, known', new, ?_, kept⟩
      simp only [List.forall_mem_cons]
      exact ⟨kept a (by simp [found]), each⟩
    | none =>
      simp only [found, Option.isSome_none, Bool.false_eq_true, if_false] at runA
      obtain ⟨v, s₂, runV, runA⟩ := bind_ok runA
      cases runV
      cases runA
      have grows := g.grows_push (numeric.contains a)
      have knows : (g.push (numeric.contains a)).Knows (g.last + 1, numeric.contains a) :=
        ⟨g.gave_push _, (g.mem_push_numeric _).symm⟩
      have known₁ : Known (g.push (numeric.contains a))
          ((a, Ty.ofVar (s.last + 1) (numeric.contains a)) :: m) := by
        intro id v inside
        rw [get?_cons] at inside
        split at inside
        · cases inside
          exact ⟨_, by rw [last], knows⟩
        · exact known.grow grows id v inside
      obtain ⟨g', grows', state, known', new, each, kept⟩ :=
        ih (g := g.push (numeric.contains a)) (by simp [Supply.push, last]) known₁ run
      refine ⟨g', grows.trans grows', state, known', fun id v inside => ?_, ?_, fun id inside => ?_⟩
      · rcases new id v inside with before | beyond
        · rw [get?_cons] at before
          split at before
          · cases before
            right
            intro o occurs
            rw [Ty.occurrences_ofVar, List.mem_singleton] at occurs
            rw [occurs, last]
            exact Int.lt_succ _
          · exact .inl before
        · exact .inr fun o occurs => (grows.last.trans_lt (beyond o occurs))
      · simp only [List.forall_mem_cons]
        exact ⟨kept a (by simp [get?_cons]), each⟩
      · refine kept id ?_
        rw [get?_cons]
        split
        · rfl
        · exact inside

theorem freshen_spec {t u : Ty} {m m' : Mapping} {s s' : State} {g : Supply} (mono : t.body.isMono)
    (last : s.last = g.last) (known : Known g m) (run : freshen t m s = .ok (u, m') s') :
    ∃ g', g.Grows g' ∧ s' = { s with last := g'.last } ∧ Known g' m' ∧ NewBeyond g m m' ∧
      u.WellKinded g' ∧
      ∀ o ∈ u.occurrences, ∃ id v, m'.get? id = some v ∧ o ∈ v.occurrences := by
  obtain ⟨m₁, s₁, runM, run⟩ := bind_ok run
  obtain ⟨same, rfl⟩ := pure_ok run
  cases same
  obtain ⟨g', grows, state, known', new, each, -⟩ := freshenVars_spec last known runM
  have value : ∀ o ∈ t.body.occurrences, ∃ v, m'.get? o.1 = some v ∧ (ofMapping m').get o = v := by
    rintro ⟨id, numeric⟩ occurs
    obtain ⟨v, found⟩ := Option.isSome_iff_exists.1 (each id (Ty.mem_freeVars.2 ⟨_, occurs, rfl⟩))
    exact ⟨v, found, by cases numeric <;> simp [ofMapping, Assignment.get, found]⟩
  refine ⟨g', grows, state, known', new, ⟨?_, fun v inside => ?_⟩, fun o inside => ?_⟩
  · rw [Ty.replace_eq_assign]
    refine Ty.isMono_assign mono fun o occurs => ?_
    obtain ⟨v, found, same⟩ := value o occurs
    obtain ⟨k, rfl, -⟩ := known' _ _ found
    rw [same]
    cases k.2 <;> rfl
  · rw [Ty.replace_eq_assign] at inside
    obtain ⟨o, occurs, inside⟩ := (Ty.mem_occurrences_assign mono _ v).1 inside
    obtain ⟨u, found, same⟩ := value o occurs
    obtain ⟨k, rfl, knows⟩ := known' _ _ found
    rw [same, Ty.occurrences_ofVar, List.mem_singleton] at inside
    rw [inside]
    exact knows
  · rw [Ty.replace_eq_assign] at inside
    obtain ⟨v, occurs, inside⟩ := (Ty.mem_occurrences_assign mono _ o).1 inside
    obtain ⟨u, found, same⟩ := value v occurs
    exact ⟨v.1, u, found, same ▸ inside⟩

/-! ### The scope -/

structure ClosedBy (last : VarId) (t : Ty) : Prop where
  sorted : ∃ h : Supply, t.body.WellKinded h
  closed : t.occurrences = []
  bound : ∀ a ∈ t.quantified, a ≤ last

theorem ClosedBy.mono {last last' : VarId} {t : Ty} (h : ClosedBy last t) (le : last ≤ last') :
    ClosedBy last' t :=
  ⟨h.sorted, h.closed, fun a member => (h.bound a member).trans le⟩

theorem closedBy_quantify {g : Supply} {t : Ty} (vars : List VarId) (kinded : t.WellKinded g)
    (all : ∀ o ∈ t.occurrences, o.1 ∈ vars) (bound : ∀ a ∈ vars, a ≤ g.last) :
    ClosedBy g.last (t.quantify vars) where
  sorted := ⟨g, by rwa [Ty.body_quantify kinded.mono]⟩
  closed := by
    refine List.eq_nil_iff_forall_not_mem.2 fun o occurs => ?_
    obtain ⟨occurs, outside⟩ := Ty.mem_occurrences_quantify.1 occurs
    exact outside (all o occurs)
  bound := by rwa [Ty.quantified_quantify kinded.mono]

structure Opened (env : Env) (s : State) : Prop where
  subst_eq : s.subst = {}
  types : ∀ t ∈ visible env s.ctors, ClosedBy s.last t

theorem Opened.later {env : Env} {s s' : State} (h : Opened env s) (last : s.last ≤ s'.last)
    (subst : s'.subst = s.subst) (ctors : s'.ctors = s.ctors) : Opened env s' where
  subst_eq := subst.trans h.subst_eq
  types t member := (h.types t (ctors ▸ member)).mono last

theorem Opened.insert {env : Env} {s : State} (h : Opened env s) (name : String) (b : Binding)
    (closed : ClosedBy s.last b.type) : Opened (env.insert name b) s where
  subst_eq := h.subst_eq
  types t member := by
    rcases visible_insert env s.ctors name b member with old | rfl
    · exact h.types t old
    · exact closed

theorem Opened.insertCtor {env : Env} {s : State} (h : Opened env s) (name : String)
    (c : Constructor) (closed : ClosedBy s.last c.type) :
    Opened env { s with ctors := s.ctors.insert name c } where
  subst_eq := h.subst_eq
  types := by
    rintro t (inEnv | ⟨e, member, rfl⟩)
    · exact h.types t (.inl inEnv)
    · rcases List.mem_cons.1 member with rfl | old
      · exact closed
      · exact h.types _ (.inr ⟨e, (List.mem_filter.1 old).1, rfl⟩)

theorem baseEnv_opened {env : Env} {s : State} (run : baseEnv {} = .ok env s) : Opened env s := by
  cases run
  let g : Supply := ⟨∅, 0, 3, by decide, by simp⟩
  have known : ∀ id : VarId, 0 < id → id ≤ 3 → (Ty.var id).WellKinded g := fun id low high =>
    ⟨rfl, by simpa [Ty.occurrences, Supply.Knows, Supply.Gave, g] using ⟨low, high⟩⟩
  have result : (Ty.result (.var 2) (.var 3)).WellKinded g :=
    Ty.WellKinded.result_iff.2 ⟨known 2 (by decide) (by decide), known 3 (by decide) (by decide)⟩
  have build : ∀ id ∈ [(2 : VarId), 3],
      ClosedBy 3 (.scheme [2, 3] (.fn (.var id) (.result (.var 2) (.var 3)))) := by
    intro id member
    have arg := known id (by simp at member; lia) (by simp at member; lia)
    refine closedBy_quantify [2, 3] (Ty.WellKinded.fn_iff.2 ⟨arg, result⟩) ?_ ?_
    · simpa [Ty.occurrences] using member
    · simp [g]
  have print : ClosedBy 3 (.scheme [1] (.fn (.var 1) .unit)) :=
    closedBy_quantify (g := g) [1]
      (Ty.WellKinded.fn_iff.2 ⟨known 1 (by decide) (by decide), .of_closed rfl rfl⟩)
      (by simp [Ty.occurrences]) (by simp [g])
  let base : State :=
    { last := 3, sums := NameMap.insert .empty Names.result [Names.ok, Names.error] }
  have start : Opened .empty base := by
    refine ⟨rfl, ?_⟩
    rintro t (⟨e, member, -⟩ | ⟨e, member, -⟩) <;> cases member
  have okBuild := build 2 (by simp)
  have errorBuild := build 3 (by simp)
  have ctors := (start.insertCtor Names.ok ⟨Names.ok, Names.result, 0, true, "", _⟩ okBuild).insertCtor
    Names.error ⟨Names.error, Names.result, 1, true, "", _⟩ errorBuild
  exact ((ctors.insert Names.print ⟨_, true⟩ print).insert Names.ok ⟨_, true⟩ okBuild).insert
    Names.error ⟨_, true⟩ errorBuild

/-- The types that imported modules export have no quantifier inside. -/
def ImportsPlain (importer : Option Importer) : Prop :=
  ∀ find, importer = some find → ∀ name i, find name = .ok i → ∀ e ∈ i.exports, e.type.body.isMono

theorem importType_spec {t u : Ty} {s s' : State} (mono : t.body.isMono)
    (run : importType t s = .ok u s') :
    ∃ last, s' = { s with last } ∧ s.last ≤ last ∧ ClosedBy last u := by
  obtain ⟨⟨t', m⟩, s₁, runF, run⟩ := bind_ok run
  obtain ⟨rfl, rfl⟩ := pure_ok run
  let g : Supply := ⟨∅, s.last, s.last, Int.le_refl _, by simp⟩
  have none : Known g [] := fun id v found => by simp [Mapping.get?] at found
  obtain ⟨g', grows, rfl, -, -, kinded, -⟩ := freshen_spec (g := g) mono rfl none runF
  refine ⟨g'.last, rfl, grows.last, ?_⟩
  rw [generalize_eq]
  refine closedBy_quantify _ kinded (fun o occurs => ?_) fun a member => ?_
  · simpa using Ty.mem_freeVars.2 ⟨o, occurs, rfl⟩
  · obtain ⟨o, occurs, rfl⟩ := Ty.mem_freeVars.1 (List.mem_filter.1 member).1
    exact (kinded.kinds o occurs).1.2

theorem importExport_opened {place : Position} {module : String} {env env' : Env}
    {counts counts' : NameMap Nat} {e : Export} {s s' : State} (mono : e.type.body.isMono)
    (opened : Opened env s)
    (run : importExport place module env counts e s = .ok (env', counts') s') : Opened env' s' := by
  unfold importExport at run
  cases factory : factoryOf? e.name with
  | some ctor =>
    simp only [factory] at run
    obtain ⟨counts₁, s₁, runC, run⟩ := bind_ok run
    cases run
    unfold importCtor at runC
    cases built : builtSum? e.type with
    | none =>
      simp only [built] at runC
      exact (not_refuse_ok runC).elim
    | some sum =>
      simp only [built] at runC
      obtain ⟨t, s₂, runT, runC⟩ := bind_ok runC
      obtain ⟨last, rfl, le, closed⟩ := importType_spec mono runT
      obtain ⟨_, s₃, runM, runC⟩ := bind_ok runC
      cases runM
      cases runC
      have later : Opened env { s with last } := opened.later le rfl rfl
      exact later.insertCtor _ _ closed
  | none =>
    simp only [factory] at run
    split at run
    · cases run
      exact opened
    · obtain ⟨t, s₁, runT, run⟩ := bind_ok run
      obtain ⟨last, rfl, le, closed⟩ := importType_spec mono runT
      cases run
      have later : Opened env { s with last } := opened.later le rfl rfl
      exact later.insert _ _ closed

theorem importModule_opened {importer : Option Importer} {place : Position} {env env' : Env}
    {name : String} {s s' : State} (plain : ImportsPlain importer) (opened : Opened env s)
    (run : importModule importer place env name s = .ok env' s') : Opened env' s' := by
  unfold importModule at run
  cases importer with
  | none => exact (not_refuse_ok run).elim
  | some find =>
    simp only at run
    cases found : find name with
    | error reason =>
      simp only [found] at run
      exact (not_refuse_ok run).elim
    | ok i =>
      simp only [found] at run
      obtain ⟨_, s₁, runM, run⟩ := bind_ok run
      cases runM
      obtain ⟨⟨env₁, counts⟩, s₂, runE, run⟩ := bind_ok run
      cases run
      have later : Opened env { s with imports := s.imports.insert name i } :=
        opened.later (Int.le_refl _) rfl rfl
      refine foldlM_invariant (P := fun b s => Opened b.1 s) (fun b e member s b' s' => ?_) later runE
      exact importExport_opened (plain find rfl name i found e member)

theorem bindParams_fresh {env env' : Env} {names : List String} {vs : List Ty} {s s' : State}
    (run : bindParams env names s = .ok (vs, env') s') :
    ∃ last, s' = { s with last } ∧ s.last ≤ last ∧ vs.length = names.length ∧
      ∀ v ∈ vs, ∃ id, v = .var id ∧ s.last < id ∧ id ≤ last := by
  induction names generalizing env s vs with
  | nil =>
    cases run
    exact ⟨_, rfl, Int.le_refl _, rfl, by simp⟩
  | cons name names ih =>
    simp only [bindParams] at run
    obtain ⟨v, s₁, runV, run⟩ := bind_ok run
    cases runV
    obtain ⟨⟨vs', inner⟩, s₂, runRest, run⟩ := bind_ok run
    cases run
    obtain ⟨last, rfl, le, lengths, each⟩ := ih runRest
    simp only at le each
    refine ⟨last, rfl, by lia, by simp [lengths], ?_⟩
    simp only [List.forall_mem_cons]
    refine ⟨⟨_, rfl, Int.lt_succ _, le⟩, fun v member => ?_⟩
    obtain ⟨id, rfl, above, below⟩ := each v member
    exact ⟨id, rfl, by lia, below⟩

theorem bindTypeParamsAll_eq (params : List (String × Ty)) (as : List Ty) :
    bindTypeParamsAll params as = as.map (bindTypeParams params) := by
  induction as with
  | nil => rfl
  | cons a as ih => simp [bindTypeParamsAll, ih]

theorem bindTypeParams_spec {g : Supply} {params : List (String × Ty)} {t : Ty}
    (given : ∀ e ∈ params, e.2.WellKinded g) (mono : t.isMono) (closed : t.occurrences = []) :
    (bindTypeParams params t).WellKinded g ∧
      ∀ o ∈ (bindTypeParams params t).occurrences, ∃ e ∈ params, o ∈ e.2.occurrences := by
  induction t using Ty.induct with
  | int | double | string | bool | unit | host =>
    exact ⟨.of_closed rfl rfl, by simp [bindTypeParams, Ty.occurrences]⟩
  | var id | num id => simp [Ty.occurrences] at closed
  | scheme vars a ih => simp [Ty.isMono] at mono
  | named name =>
    simp only [bindTypeParams]
    cases found : params.lookup name with
    | none => exact ⟨.of_closed rfl rfl, by simp [Ty.occurrences]⟩
    | some v =>
      have member : (name, v) ∈ params := mem_of_get? (m := ⟨params⟩) found
      exact ⟨given _ member, fun o occurs => ⟨_, member, occurs⟩⟩
  | list a ih =>
    obtain ⟨kinded, inside⟩ := ih mono closed
    exact ⟨Ty.WellKinded.list_iff.2 kinded, inside⟩
  | fn a b iha ihb =>
    simp only [Ty.isMono, Bool.and_eq_true] at mono
    simp only [Ty.occurrences, List.append_eq_nil_iff] at closed
    obtain ⟨kindedA, insideA⟩ := iha mono.1 closed.1
    obtain ⟨kindedB, insideB⟩ := ihb mono.2 closed.2
    refine ⟨Ty.WellKinded.fn_iff.2 ⟨kindedA, kindedB⟩, fun o occurs => ?_⟩
    exact (List.mem_append.1 occurs).elim (insideA o) (insideB o)
  | result a b iha ihb =>
    simp only [Ty.isMono, Bool.and_eq_true] at mono
    simp only [Ty.occurrences, List.append_eq_nil_iff] at closed
    obtain ⟨kindedA, insideA⟩ := iha mono.1 closed.1
    obtain ⟨kindedB, insideB⟩ := ihb mono.2 closed.2
    refine ⟨Ty.WellKinded.result_iff.2 ⟨kindedA, kindedB⟩, fun o occurs => ?_⟩
    exact (List.mem_append.1 occurs).elim (insideA o) (insideB o)
  | app name as ih =>
    simp only [Ty.isMono, Ty.isMonoAll_eq, List.all_eq_true] at mono
    simp only [Ty.occurrences, Ty.occurrencesAll_eq, List.flatMap_eq_nil_iff] at closed
    have each := fun a member => ih a member (mono a member) (closed a member)
    simp only [bindTypeParams, bindTypeParamsAll_eq]
    refine ⟨Ty.WellKinded.app_iff.2 ?_, fun o occurs => ?_⟩
    · simp only [List.forall_mem_map]
      exact fun a member => (each a member).1
    · simp only [Ty.occurrences, Ty.occurrencesAll_eq, List.mem_flatMap, List.mem_map] at occurs
      obtain ⟨_, ⟨a, member, rfl⟩, occurs⟩ := occurs
      exact (each a member).2 o occurs

theorem ctorType_closed {name : String} {names : List String} {vs : List Ty} {low last : VarId}
    {arg : Option Ty} (ordered : low ≤ last) (lengths : vs.length = names.length)
    (each : ∀ v ∈ vs, ∃ id, v = .var id ∧ low < id ∧ id ≤ last)
    (plain : ∀ a, arg = some a → a.isMono ∧ a.occurrences = []) :
    ClosedBy last (ctorType (names.zip vs).reverse
      (if vs.isEmpty then .named name else .app name vs) arg) := by
  let g : Supply := ⟨∅, low, last, ordered, by simp⟩
  have given : ∀ v ∈ vs, v.WellKinded g := by
    intro v member
    obtain ⟨id, rfl, above, below⟩ := each v member
    exact ⟨rfl, by simpa [Ty.occurrences, Supply.Knows, Supply.Gave, g] using ⟨above, below⟩⟩
  have params : ∀ e ∈ (names.zip vs).reverse, e.2 ∈ vs := fun e member =>
    (List.of_mem_zip (List.mem_reverse.1 member)).2
  generalize selfEq : (if vs.isEmpty then Ty.named name else .app name vs) = self
  have selfSpec : self.WellKinded g ∧ ∀ o ∈ self.occurrences, ∃ v ∈ vs, o ∈ v.occurrences := by
    rw [← selfEq]
    split
    · exact ⟨.of_closed rfl rfl, by simp [Ty.occurrences]⟩
    · refine ⟨Ty.WellKinded.app_iff.2 given, fun o occurs => ?_⟩
      simpa [Ty.occurrences, Ty.occurrencesAll_eq] using occurs
  have shape : ∃ t : Ty, ctorType (names.zip vs).reverse self arg =
      t.quantify (vs.filterMap Ty.varId?) ∧ t.WellKinded g ∧
      ∀ o ∈ t.occurrences, ∃ v ∈ vs, o ∈ v.occurrences := by
    have vars : ((names.zip vs).reverse.reverse.map (·.2)).filterMap Ty.varId? =
        vs.filterMap Ty.varId? := by
      rw [List.reverse_reverse, List.map_snd_zip (le_of_eq lengths)]
    unfold ctorType
    simp only [vars]
    cases arg with
    | none => exact ⟨self, by cases vs.filterMap Ty.varId? <;> rfl, selfSpec⟩
    | some a =>
      refine ⟨.fn (bindTypeParams (names.zip vs).reverse a) self,
        by cases vs.filterMap Ty.varId? <;> rfl, ?_⟩
      obtain ⟨mono, closed⟩ := plain a rfl
      obtain ⟨kinded, inside⟩ := bindTypeParams_spec (fun e member => given _ (params e member))
        mono closed
      refine ⟨Ty.WellKinded.fn_iff.2 ⟨kinded, selfSpec.1⟩, fun o occurs => ?_⟩
      rcases List.mem_append.1 occurs with inArg | inSelf
      · obtain ⟨e, member, found⟩ := inside o inArg
        exact ⟨e.2, params e member, found⟩
      · exact selfSpec.2 o inSelf
  obtain ⟨t, same, kinded, inside⟩ := shape
  rw [same]
  refine closedBy_quantify (g := g) _ kinded (fun o occurs => ?_) fun a member => ?_
  · obtain ⟨v, member, found⟩ := inside o occurs
    obtain ⟨id, rfl, -⟩ := each v member
    rw [Ty.occurrences, List.mem_singleton] at found
    exact List.mem_filterMap.2 ⟨_, member, by rw [found]; rfl⟩
  · obtain ⟨v, member, found⟩ := List.mem_filterMap.1 member
    obtain ⟨id, rfl, -, below⟩ := each v member
    cases found
    exact below

theorem declare_env {p p' : Progress} {place : Position} {name : String} {s s' : State}
    (run : p.declare place name s = .ok p' s') :
    s' = s ∧ p' = { p with declared := name :: p.declared } ∧ name ∉ p.declared := by
  unfold Progress.declare at run
  split at run
  · exact (not_refuse_ok run).elim
  · next fresh =>
    obtain ⟨rfl, rfl⟩ := pure_ok run
    exact ⟨rfl, rfl, by simpa using fresh⟩

theorem declareCtors_opened {place : Position} {sum : String} {typeOf : Option Ty → Ty}
    {index : Nat} {ctors : List CtorDecl} {p p' : Progress} {s s' : State}
    (closed : ∀ c ∈ ctors, ClosedBy s.last (typeOf c.arg)) (opened : Opened p.env s)
    (run : declareCtors place sum typeOf p index ctors s = .ok p' s') : Opened p'.env s' := by
  induction ctors generalizing p index s with
  | nil =>
    cases run
    exact opened
  | cons c ctors ih =>
    simp only [declareCtors] at run
    obtain ⟨p₁, s₁, runD, run⟩ := bind_ok run
    obtain ⟨rfl, rfl, -⟩ := declare_env runD
    obtain ⟨_, _, runG, run⟩ := bind_ok run
    cases runG
    simp only [List.forall_mem_cons] at closed
    split at run
    · obtain ⟨_, _, failed, -⟩ := bind_ok run
      exact (not_refuse_ok failed).elim
    · obtain ⟨_, s₂, runM, run⟩ := bind_ok run
      cases runM
      let ctor : Constructor := ⟨c.name, sum, index, c.arg.isSome, "", typeOf c.arg⟩
      have next := (opened.insertCtor c.name ctor closed.1).insert c.name ⟨_, true⟩ closed.1
      exact ih (s := { s₁ with ctors := s₁.ctors.insert c.name ctor }) closed.2 next run

theorem declareType_opened {p p' : Progress} {d : TypeDecl Position} {s s' : State}
    (plain : ∀ c ∈ d.ctors, ∀ a, c.arg = some a → a.isMono ∧ a.occurrences = [])
    (opened : Opened p.env s) (run : declareType p d s = .ok p' s') : Opened p'.env s' := by
  unfold declareType at run
  obtain ⟨p₁, s₁, runD, run⟩ := bind_ok run
  obtain ⟨rfl, rfl, -⟩ := declare_env runD
  split at run
  · obtain ⟨_, _, failed, -⟩ := bind_ok run
    exact (not_refuse_ok failed).elim
  · obtain ⟨⟨vs, _⟩, s₂, runP, run⟩ := bind_ok run
    obtain ⟨last, rfl, le, lengths, each⟩ := bindParams_fresh runP
    obtain ⟨p₂, s₃, runC, run⟩ := bind_ok run
    have start : Opened ({ p with declared := d.name :: p.declared } : Progress).env
        { s₁ with last } := opened.later le rfl rfl
    have done := declareCtors_opened
      (fun c member => ctorType_closed le lengths each (plain c member)) start runC
    obtain ⟨_, s₄, runM, run⟩ := bind_ok run
    cases runM
    cases run
    exact done.later (Int.le_refl _) rfl rfl

/-- The argument types of constructors have no variables and no quantifiers. -/
def CtorArgsPlain (m : Module Position) : Prop :=
  ∀ d, .type d ∈ m.decls → ∀ c ∈ d.ctors, ∀ a, c.arg = some a → a.isMono ∧ a.occurrences = []

theorem openScope_opened {importer : Option Importer} {m : Module Position} {p : Progress}
    {s : State} (imports : ImportsPlain importer) (args : CtorArgsPlain m)
    (run : openScope importer m {} = .ok p s) : Opened p.env s := by
  unfold openScope at run
  obtain ⟨env, s₁, runB, run⟩ := bind_ok run
  have base := baseEnv_opened runB
  obtain ⟨env₁, s₂, runI, run⟩ := bind_ok run
  have imported : Opened env₁ s₂ := foldlM_invariant
    (fun env name _ s env' s' opened step => importModule_opened imports opened step) base runI
  refine foldlM_invariant (P := fun p s => Opened p.env s) ?_ imported run
  intro p d member s p' s' opened step
  cases d with
  | type d => exact declareType_opened (args d member) opened step
  | fn d =>
    cases step
    exact opened
  | value d =>
    cases step
    exact opened

theorem Opened.stage {env : Env} {s : State} (opened : Opened env s) :
    ∃ w : Stage, Fits s.ctors w s ∧ Scope w (visible env s.ctors) ∧ CtorsClosed s.ctors ∧
      ∀ f, w.Before f → ∀ t ∈ visible env s.ctors, t.Private f.meaning := by
  let g : Supply := ⟨∅, s.last, s.last, Int.le_refl _, by simp⟩
  have denotes : Subst.Denotes g s.subst {} := opened.subst_eq ▸ Subst.denotes_empty g
  refine ⟨.ofDenotes denotes, ⟨denotes, rfl, rfl⟩, ⟨?_, ?_, ?_, ?_⟩, ?_, ?_⟩
  · exact fun t member => ⟨(opened.types t member).sorted, by simp [(opened.types t member).closed]⟩
  · exact fun t member => (opened.types t member).bound
  · exact fun t member a _ => ⟨rfl, rfl⟩
  · intro t _ u member v occurs
    simp [(opened.types u member).closed] at occurs
  · exact fun e member => (opened.types _ (.inr ⟨e, member, rfl⟩)).closed
  · intro f before t member
    refine ⟨fun a inside => f.unused a fun gave => ?_, fun v occurs => ?_⟩
    · have low : f.supply.first = s.last := before.grows.first
      have := (opened.types t member).bound a inside
      exact absurd gave.1 (not_lt.2 (low ▸ this))
    · simp [(opened.types t member).closed] at occurs

end StackML.Typing
