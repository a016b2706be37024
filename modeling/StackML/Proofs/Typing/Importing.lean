import StackML.Proofs.Typing.SumTypes

/-!
Types and constructors from outside. The type of an export is given variables of its own, one for each
that it had. Constructors arrive as exports of their factories: the name, the shape of the type and the
order of the lines tell what the exporting module knows of them.
-/

namespace StackML

def Assignment.rename (f : VarId → VarId) : Assignment where
  var id := .var (f id)
  num id := .num (f id)

theorem Assignment.get_rename (f : VarId → VarId) (o : VarId × Bool) :
    (rename f).get o = .ofVar (f o.1) o.2 := by
  obtain ⟨id, _ | _⟩ := o <;> rfl

structure Ty.Renamed (t u : Ty) : Prop where
  closed : t.occurrences = []
  closed' : u.occurrences = []
  renamed : ∃ f : VarId → VarId, Set.InjOn f {id | id ∈ t.body.freeVars} ∧
    u.body = t.body.assign (.rename f)

namespace Typing

variable {s s' : State}

/-! ### Types -/

theorem nodup_eraseDups (ids : List VarId) : ids.eraseDups.Nodup := by
  induction h : ids.length using Nat.strong_induction_on generalizing ids with
  | _ n ih =>
    cases ids with
    | nil => exact List.nodup_nil
    | cons a ids =>
      have shorter : (ids.filter fun b => !b == a).length < n := by
        rw [← h, List.length_cons]
        exact Nat.lt_succ_of_le (List.length_filter_le _ _)
      rw [List.eraseDups_cons, List.nodup_cons]
      exact ⟨by simp, ih _ shorter _ rfl⟩

theorem freshenVars_run (numeric : List VarId) {ids : List VarId} {m : Mapping} (distinct : ids.Nodup)
    (unmet : ∀ id ∈ ids, m.get? id = none) (s : State) :
    ∃ m', (ids.foldlM (fun m id => do
        if (m.get? id).isSome then pure m
        else pure ((id, ← freshOf (numeric.contains id)) :: m)) m : Infer Mapping) s =
      .ok m' { s with last := s.last + ids.length } ∧
      (∀ id ∈ ids, m'.get? id = some (.ofVar (s.last + 1 + ids.idxOf id) (numeric.contains id))) ∧
      ∀ id, id ∉ ids → m'.get? id = m.get? id := by
  induction ids generalizing m s with
  | nil => exact ⟨m, by simp; rfl, by simp, fun _ _ => rfl⟩
  | cons a ids ih =>
    rw [List.nodup_cons] at distinct
    rw [List.forall_mem_cons] at unmet
    let m₁ : Mapping := (a, .ofVar (s.last + 1) (numeric.contains a)) :: m
    have unmet₁ : ∀ id ∈ ids, m₁.get? id = none := fun id member => by
      have other : id ≠ a := fun same => distinct.1 (same ▸ member)
      rw [get?_cons, if_neg other, unmet.2 id member]
    obtain ⟨m', run, given, kept⟩ := ih distinct.2 unmet₁ { s with last := s.last + 1 }
    refine ⟨m', ?_, ?_, fun id outside => ?_⟩
    · have first : ((do
          if (m.get? a).isSome then pure m
          else pure ((a, ← freshOf (numeric.contains a)) :: m) : Infer Mapping)) s =
          .ok m₁ { s with last := s.last + 1 } := by
        rw [unmet.1]
        rfl
      rw [List.foldlM_cons, bind_of_ok first, run]
      simp [Int.add_assoc, Int.add_comm 1]
    · rw [List.forall_mem_cons]
      refine ⟨?_, fun id member => ?_⟩
      · rw [kept a distinct.1, get?_cons, if_pos rfl]
        simp
      · have other : a ≠ id := fun same => distinct.1 (same ▸ member)
        rw [given id member, List.idxOf_cons_ne ids other]
        congr 2
        push_cast
        ring
    · rw [List.mem_cons, not_or] at outside
      rw [kept id outside.2, get?_cons, if_neg outside.1]

theorem freshen_run (t : Ty) (s : State) : ∃ m, freshen t [] s =
      .ok (t.body.replace m, m) { s with last := s.last + t.body.freeVars.length } ∧
    ∀ id ∈ t.body.freeVars, Mapping.get? m id =
      some (.ofVar (s.last + 1 + t.body.freeVars.idxOf id) (t.body.numericIds.contains id)) := by
  obtain ⟨m, run, given, -⟩ := freshenVars_run t.body.numericIds (m := [])
    (nodup_eraseDups (t.body.occurrences.map (·.1))) (fun _ _ => rfl) s
  exact ⟨m, bind_of_ok run, given⟩

theorem importType_ok (t : Ty) (s : State) : ∃ u last, importType t s = .ok u { s with last } := by
  obtain ⟨m, run, -⟩ := freshen_run t s
  exact ⟨_, _, bind_of_ok run⟩

theorem importType_renamed {t : Ty} {last : VarId} (closed : ClosedBy last t) (s : State) :
    ∃ u last', importType t s = .ok u { s with last := last' } ∧ t.Renamed u := by
  obtain ⟨g, kinded⟩ := closed.sorted
  obtain ⟨m, run, given⟩ := freshen_run t s
  let f : VarId → VarId := fun id => s.last + 1 + t.body.freeVars.idxOf id
  have replaced : t.body.replace m = t.body.assign (.rename f) := by
    rw [Ty.replace_eq_assign]
    refine Ty.assign_congr fun o occurs => ?_
    have found := given o.1 (Ty.mem_freeVars.2 ⟨o, occurs, rfl⟩)
    have kind : t.body.numericIds.contains o.1 = o.2 := by
      have knows := kinded.kinds o occurs
      rw [Bool.eq_iff_iff, List.contains_iff_mem, Ty.mem_numericIds, knows.2]
      refine ⟨fun inside => (kinded.kinds _ inside).2.1 rfl, fun numeric => ?_⟩
      have := knows.2.2 numeric
      rwa [← this]
    rw [Assignment.get_rename, ← kind]
    cases o.2 <;> simp [Assignment.ofMapping, Assignment.get, found] <;> rfl
  have mono : (t.body.assign (.rename f)).isMono := by
    refine Ty.isMono_assign kinded.mono fun o _ => ?_
    rw [Assignment.get_rename]
    cases o.2 <;> rfl
  rw [replaced] at run
  refine ⟨(t.body.assign (.rename f)).generalize [], s.last + t.body.freeVars.length,
    bind_of_ok run, closed.closed, ?_, f, fun a _ b inB same => ?_, ?_⟩
  · rw [generalize_eq]
    refine List.eq_nil_iff_forall_not_mem.2 fun o occurs => ?_
    obtain ⟨occurs, outside⟩ := Ty.mem_occurrences_quantify.1 occurs
    exact outside (by simpa using Ty.mem_freeVars.2 ⟨o, occurs, rfl⟩)
  · have position : t.body.freeVars.idxOf b = t.body.freeVars.idxOf a := by
      have : s.last + 1 + (t.body.freeVars.idxOf a : Int) = s.last + 1 + t.body.freeVars.idxOf b := same
      lia
    exact ((List.idxOf_inj inB).1 position).symm
  · rw [generalize_eq, Ty.body_quantify mono]

/-! ### Constructors -/

variable {place : Position} {module : String} {env : Env} {counts : NameMap Nat} {c : Constructor}
  {cs : List Constructor}

def Constructor.factory (c : Constructor) : Export := ⟨Names.factoryStem ++ c.name, c.type⟩

structure Constructor.Arrives (c : Constructor) (module : String) (c' : Constructor) : Prop where
  same : c' = { c with module, type := c'.type }
  renamed : c.type.Renamed c'.type

structure Constructor.Portable (c : Constructor) : Prop where
  builds : builtSum? c.type = some (c.sum, c.hasArg)
  closed : ∃ last, ClosedBy last c.type

def Ordered (cs : List Constructor) : Prop :=
  ∀ before c behind, cs = before ++ c :: behind → c.index = before.countP (·.sum = c.sum)

theorem factoryOf?_eq_some {name ctor : String} :
    factoryOf? name = some ctor ↔ name = Names.factoryStem ++ ctor := by
  have starts : Names.factoryStem.isPrefixOf name = true ↔
      Names.factoryStem.toList <+: name.toList := by
    rw [String.isPrefixOf, String.startsWith_string_iff]
  constructor
  · intro found
    unfold factoryOf? at found
    split at found
    · next stem =>
      obtain ⟨rest, chars⟩ := starts.1 stem
      cases found
      have same : name.toList.drop Names.factoryStem.length = rest := by
        rw [← chars, ← String.length_toList, List.drop_left]
      rw [← String.toList_inj, String.toList_append, same, String.toList_ofList, chars]
    · cases found
  · rintro rfl
    have stem := starts.2 (by rw [String.toList_append]; exact List.prefix_append _ _)
    rw [factoryOf?, if_pos stem, String.toList_append, ← String.length_toList, List.drop_left,
      String.ofList_toList]

variable (place module env) in
theorem importExport_factory (portable : c.Portable)
    (next : (counts.get? c.sum).getD 0 = c.index) (s : State) :
    ∃ c' last, c.Arrives module c' ∧ importExport place module env counts c.factory s =
      .ok (env, counts.insert c.sum (c.index + 1))
        { s with last, ctors := s.ctors.insert (module ++ "." ++ c.name) c' } := by
  obtain ⟨bound, closed⟩ := portable.closed
  obtain ⟨u, last, run, renamed⟩ := importType_renamed closed s
  refine ⟨{ c with module, type := u }, last, ⟨rfl, renamed⟩, ?_⟩
  have ctor : importCtor place module c.name c.type counts s =
      .ok (counts.insert c.sum (c.index + 1))
        { s with last, ctors := s.ctors.insert (module ++ "." ++ c.name) { c with module, type := u } } := by
    unfold importCtor
    simp only [portable.builds, next]
    rw [bind_of_ok run]
    rfl
  unfold importExport
  simp only [factoryOf?_eq_some.2 (show c.factory.name = _ from rfl)]
  exact bind_of_ok ctor

structure Registered (module : String) (cs : List Constructor)
    (ctors ctors' : NameMap Constructor) : Prop where
  arrived : ∀ c ∈ cs, ∃ c', ctors'.get? (module ++ "." ++ c.name) = some c' ∧ c.Arrives module c'
  others : ∀ key, (∀ c ∈ cs, key ≠ module ++ "." ++ c.name) → ctors'.get? key = ctors.get? key

theorem Registered.insert {ctors ctors' : NameMap Constructor} {c' : Constructor}
    (h : Registered module cs ctors ctors') (arrives : c.Arrives module c')
    (apart : ∀ d ∈ cs, d.name = c.name → d = c) :
    Registered module (cs ++ [c]) ctors (ctors'.insert (module ++ "." ++ c.name) c') := by
  refine ⟨fun d member => ?_, fun key other => ?_⟩
  · rw [NameMap.get?_insert]
    split
    · next same =>
      have same : d.name = c.name := by simpa using same
      rcases List.mem_append.1 member with old | new
      · exact ⟨c', rfl, apart d old same ▸ arrives⟩
      · exact ⟨c', rfl, List.mem_singleton.1 new ▸ arrives⟩
    · next other =>
      rcases List.mem_append.1 member with old | new
      · exact h.arrived d old
      · exact (other (by rw [List.mem_singleton.1 new])).elim
  · rw [NameMap.get?_insert, if_neg (other c (by simp))]
    exact h.others key fun d member => other d (List.mem_append_left _ member)

def importExports (place : Position) (module : String) (b : Env × NameMap Nat) (es : List Export) :
    Infer (Env × NameMap Nat) :=
  es.foldlM (fun b e => importExport place module b.1 b.2 e) b

variable (place env counts) in
theorem importExports_factories (before : List Constructor) {s₀ : State}
    (ordered : Ordered (before ++ cs)) (portable : ∀ c ∈ cs, c.Portable)
    (apart : ∀ c ∈ before ++ cs, ∀ d ∈ before ++ cs, c.name = d.name → c = d)
    (counted : ∀ sum, (counts.get? sum).getD 0 = before.countP (·.sum = sum))
    (registered : Registered module before s₀.ctors s.ctors) :
    ∃ counts' s', importExports place module (env, counts) (cs.map Constructor.factory) s =
        .ok (env, counts') s' ∧ Registered module (before ++ cs) s₀.ctors s'.ctors := by
  induction cs generalizing before counts s with
  | nil => exact ⟨counts, s, rfl, by simpa using registered⟩
  | cons c cs ih =>
    rw [List.forall_mem_cons] at portable
    have next : (counts.get? c.sum).getD 0 = c.index :=
      (counted c.sum).trans (ordered before c cs rfl).symm
    obtain ⟨c', last, arrives, run⟩ := importExport_factory place module env portable.1 next s
    have split : before ++ c :: cs = before ++ [c] ++ cs := by simp
    rw [split] at ordered apart ⊢
    have counted' : ∀ sum, ((counts.insert c.sum (c.index + 1)).get? sum).getD 0 =
        (before ++ [c]).countP (·.sum = sum) := by
      intro sum
      rw [NameMap.get?_insert, List.countP_append, ← counted sum]
      by_cases same : sum = c.sum
      · subst same
        simp [next]
      · simp [same, Ne.symm same]
    obtain ⟨counts', s', rest, done⟩ := ih _ (before ++ [c]) ordered portable.2 apart counted'
      (s := { s with last, ctors := s.ctors.insert (module ++ "." ++ c.name) c' })
      (registered.insert arrives fun d member => apart d (by simp [member]) c (by simp))
    exact ⟨counts', s', (bind_of_ok run).trans rest, done⟩

/-! ### Modules -/

variable (place module env counts) in
theorem importExports_plain {es : List Export} (plain : ∀ e ∈ es, factoryOf? e.name = none)
    (s : State) : ∃ env' last, importExports place module (env, counts) es s =
      .ok (env', counts) { s with last } := by
  induction es generalizing env s with
  | nil => exact ⟨env, s.last, rfl⟩
  | cons e es ih =>
    rw [List.forall_mem_cons] at plain
    have first : ∃ env' last, importExport place module env counts e s =
        .ok (env', counts) { s with last } := by
      unfold importExport
      simp only [plain.1]
      split
      · exact ⟨env, s.last, rfl⟩
      · obtain ⟨u, last, run⟩ := importType_ok e.type s
        exact ⟨_, last, by rw [bind_of_ok run]; rfl⟩
    obtain ⟨env', last, run⟩ := first
    obtain ⟨env'', last', rest⟩ := ih env' plain.2 { s with last }
    exact ⟨env'', last', (bind_of_ok run).trans rest⟩

variable (place env) in
/-- A module that exports its constructors, in their order, behind exports that are no factories is
imported, and they are the constructors that it registers. -/
theorem importModule_registers {find : Importer} {i : Interface} {es : List Export}
    (found : find module = .ok i) (exports : i.exports = es ++ cs.map Constructor.factory)
    (plain : ∀ e ∈ es, factoryOf? e.name = none) (ordered : Ordered cs)
    (portable : ∀ c ∈ cs, c.Portable) (apart : ∀ c ∈ cs, ∀ d ∈ cs, c.name = d.name → c = d)
    (s : State) : ∃ env' s', importModule (some find) place env module s = .ok env' s' ∧
      Registered module cs s.ctors s'.ctors := by
  let s₀ : State := { s with imports := s.imports.insert module i }
  obtain ⟨env₁, last, first⟩ := importExports_plain place module env .empty plain s₀
  obtain ⟨counts, s', second, registered⟩ := importExports_factories place env₁ .empty []
    (s := { s₀ with last }) ordered portable apart (by simp) ⟨by simp, fun _ _ => rfl⟩
  have run : importExports place module (env, .empty) i.exports s₀ = .ok (env₁, counts) s' := by
    rw [exports, importExports, List.foldlM_append]
    exact (bind_of_ok first).trans second
  refine ⟨env₁, s', ?_, registered⟩
  unfold importModule
  simp only [found]
  exact bind_of_ok run

theorem builds_of_importExports {es : List Export} {env' : Env} {counts' : NameMap Nat}
    (run : importExports place module (env, counts) es s = .ok (env', counts') s') :
    ∀ e ∈ es, (factoryOf? e.name).isSome → (builtSum? e.type).isSome := by
  induction es generalizing env counts s with
  | nil => simp
  | cons e es ih =>
    obtain ⟨⟨env₁, counts₁⟩, s₁, first, rest⟩ := bind_ok run
    rw [List.forall_mem_cons]
    refine ⟨fun factory => ?_, ih rest⟩
    obtain ⟨ctor, name⟩ := Option.isSome_iff_exists.1 factory
    unfold importExport at first
    simp only [name] at first
    obtain ⟨counts₂, s₂, built, -⟩ := bind_ok first
    cases type : builtSum? e.type with
    | none =>
      unfold importCtor at built
      simp only [type] at built
      cases built
    | some _ => rfl

theorem builds_of_importModule {find : Importer} {i : Interface} {env' : Env}
    (found : find module = .ok i) (run : importModule (some find) place env module s = .ok env' s') :
    ∀ e ∈ i.exports, (factoryOf? e.name).isSome → (builtSum? e.type).isSome := by
  unfold importModule at run
  simp only [found] at run
  obtain ⟨_, s₁, -, rest⟩ := bind_ok run
  obtain ⟨⟨env₁, counts⟩, s₂, each, -⟩ := bind_ok rest
  exact builds_of_importExports each

end Typing
end StackML
