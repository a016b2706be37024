import StackML.Proofs.Typing.Constructors
import StackML.Proofs.Typing.Registry
import StackML.Proofs.Typing.Soundness

/-!
The sum types of a checked module: the built-in one and those it declares, each with its constructors
in the order of their declarations. Imports may add constructors, under qualified names, but no sum
types.
-/

namespace StackML.Typing

variable {host : Host.Resolver} {importer : Option Importer} {m : Module Position} {p p' : Progress}
  {s s' : State} {sums : NameMap (List String)} {ctors : NameMap Constructor} {sum : String}
  {index : Nat}

structure Constructor.DeclaredAt (c : Constructor) (sum : String) (index : Nat) (d : CtorDecl) :
    Prop where
  name_eq : c.name = d.name
  sum_eq : c.sum = sum
  index_eq : c.index = index
  hasArg_eq : c.hasArg = d.arg.isSome
  module_eq : c.module = ""
  builds : builtSum? c.type = some (sum, d.arg.isSome)
  closed : ∃ last, ClosedBy last c.type

structure Lists (types : Set (TypeDecl Position)) (sums : NameMap (List String))
    (ctors : NameMap Constructor) : Prop where
  distinct : (sums.entries.map Prod.fst).Nodup
  known : ∀ {sum names}, (sum, names) ∈ sums.entries →
    sum = Names.result ∨ ∃ d ∈ types, sum = d.name ∧ names = d.ctors.map (·.name)
  listed : ∀ d ∈ types, d.name ≠ Names.result ∧ (d.name, d.ctors.map (·.name)) ∈ sums.entries
  placed : ∀ d ∈ types, ∀ k, ∀ c, d.ctors[k]? = some c →
    ∃ info, ctors.get? c.name = some info ∧ info.DeclaredAt d.name k c

/-! ### One sum type -/

theorem lookup_constructorsFrom_at {typeOf : Option Ty → Ty} {decls : List CtorDecl}
    (distinct : (decls.map (·.name)).Nodup) {k : Nat} {c : CtorDecl} (found : decls[k]? = some c) :
    (constructorsFrom sum typeOf index decls).lookup c.name =
      some ⟨c.name, sum, index + k, c.arg.isSome, "", typeOf c.arg⟩ := by
  induction decls generalizing index k with
  | nil => cases found
  | cons d decls ih =>
    rw [List.map_cons, List.nodup_cons] at distinct
    rw [constructorsFrom, List.lookup_cons]
    cases k with
    | zero =>
      cases found
      simp
    | succ k =>
      rw [List.getElem?_cons_succ] at found
      have other : c.name ≠ d.name := fun same =>
        distinct.1 (same ▸ List.mem_map_of_mem (List.mem_of_getElem? found))
      rw [beq_eq_false_iff_ne.2 other, ih distinct.2 found, Nat.add_right_comm, Nat.add_assoc]

theorem builtSum?_ctorType (params : List (String × Ty)) (vs : List Ty) (arg : Option Ty) :
    builtSum? (ctorType params (if vs.isEmpty then .named sum else .app sum vs) arg) =
      some (sum, arg.isSome) := by
  unfold builtSum?
  cases arg with
  | none =>
    rw [body_ctorType_none params (by split <;> rfl)]
    cases vs <;> rfl
  | some a =>
    rw [body_ctorType_some]
    cases vs <;> rfl

structure DeclaresTypes (types : Set (TypeDecl Position)) (p : Progress) (s : State) : Prop
    extends Lists types s.sums s.ctors where
  declared : ∀ {sum names}, (sum, names) ∈ s.sums.entries → sum = Names.result ∨ sum ∈ p.declared

theorem DeclaresTypes.declareType {types : Set (TypeDecl Position)} {d : TypeDecl Position}
    (h : DeclaresTypes types p s)
    (plain : ∀ c ∈ d.ctors, ∀ a, c.arg = some a → a.isMono ∧ a.occurrences = [])
    (run : Typing.declareType p d s = .ok p' s') : DeclaresTypes (insert d types) p' s' := by
  unfold Typing.declareType at run
  obtain ⟨p₁, s₁, runD, run⟩ := bind_ok run
  obtain ⟨rfl, rfl, unused⟩ := declare_env runD
  split at run
  · obtain ⟨_, _, failed, -⟩ := bind_ok run
    exact (not_refuse_ok failed).elim
  next allowed =>
  have other : d.name ≠ Names.result := fun same => by simp [same] at allowed
  obtain ⟨⟨vs, _⟩, s₂, runP, run⟩ := bind_ok run
  obtain ⟨last, rfl, le, lengths, each⟩ := bindParams_fresh runP
  obtain ⟨p₂, s₃, runC, run⟩ := bind_ok run
  obtain ⟨_, s₄, runM, run⟩ := bind_ok run
  cases runM
  cases run
  obtain ⟨sums, declared, distinct, absent, ctors⟩ := declareCtors_ok runC
  simp only at sums absent ctors
  have new : ∀ e ∈ s₁.sums.entries, e.1 ≠ d.name := by
    rintro ⟨_, names⟩ member rfl
    exact (h.declared member).elim other unused
  have kept : s₁.sums.entries.filter (·.1 != d.name) = s₁.sums.entries :=
    List.filter_eq_self.2 fun e member => bne_iff_ne.2 (new e member)
  have entries : (s₃.sums.insert d.name (d.ctors.map (·.name))).entries =
      (d.name, d.ctors.map (·.name)) :: s₁.sums.entries := by
    rw [NameMap.insert, sums, kept]
  constructor
  constructor
  · rw [entries, List.map_cons, List.nodup_cons]
    refine ⟨fun again => ?_, h.distinct⟩
    obtain ⟨e, member, same⟩ := List.mem_map.1 again
    exact new e member same
  · intro sum names member
    rw [entries, List.mem_cons] at member
    rcases member with same | member
    · cases same
      exact .inr ⟨d, .inl rfl, rfl, rfl⟩
    · refine (h.known member).imp_right fun known => ?_
      obtain ⟨d', inside, same⟩ := known
      exact ⟨d', .inr inside, same⟩
  · rw [entries]
    rintro d' (rfl | inside)
    · exact ⟨other, List.mem_cons_self⟩
    · exact ⟨(h.listed d' inside).1, List.mem_cons_of_mem _ (h.listed d' inside).2⟩
  · rintro d' (rfl | inside) k c found
    · have member := List.mem_of_getElem? found
      have known := ctors c.name
      rw [absent c.name (List.mem_map_of_mem member), Option.none_or,
        lookup_constructorsFrom_at distinct found, Nat.zero_add] at known
      exact ⟨_, known, rfl, rfl, rfl, rfl, rfl, builtSum?_ctorType _ vs c.arg, last,
        ctorType_closed le lengths each (plain c member)⟩
    · obtain ⟨info, known, declaredAt⟩ := h.placed d' inside k c found
      exact ⟨info, by rw [ctors, known]; rfl, declaredAt⟩
  · intro sum names member
    rw [entries, List.mem_cons] at member
    rcases member with same | member
    · cases same
      exact .inr (declared List.mem_cons_self)
    · exact (h.declared member).imp_right fun old => declared (List.mem_cons_of_mem _ old)

theorem DeclaresTypes.foldlM {types : Set (TypeDecl Position)} {decls : List (Decl Position)}
    (h : DeclaresTypes types p s)
    (plain : ∀ d, .type d ∈ decls → ∀ c ∈ d.ctors, ∀ a, c.arg = some a → a.isMono ∧ a.occurrences = [])
    (run : (decls.foldlM (fun p d => match d with
      | .type d => Typing.declareType p d
      | _ => pure p) p : Infer Progress) s = .ok p' s') :
    DeclaresTypes (types ∪ {d | .type d ∈ decls}) p' s' := by
  induction decls generalizing types p s with
  | nil =>
    cases run
    simpa using h
  | cons d decls ih =>
    rw [List.foldlM_cons] at run
    obtain ⟨p₁, s₁, first, rest⟩ := bind_ok run
    have later := fun d member => plain d (List.mem_cons_of_mem _ member)
    cases d with
    | type d =>
      have all := ih (h.declareType (plain d List.mem_cons_self) first) later rest
      have same : insert d types ∪ {d | .type d ∈ decls} =
          types ∪ {d' | .type d' ∈ Decl.type d :: decls} := by
        ext d'
        simp [or_left_comm, or_assoc]
      exact same ▸ all
    | fn d | value d =>
      cases first
      simpa using ih h later rest

/-! ### Modules -/

theorem DeclaresNone.importType {t : Ty} : DeclaresNone (Typing.importType t) :=
  freshen.bind fun _ => pure

theorem importExport_sums {place : Position} {module : String} {env env' : Env}
    {counts counts' : NameMap Nat} {e : Export}
    (run : importExport place module env counts e s = .ok (env', counts') s') : s'.sums = s.sums := by
  unfold importExport at run
  cases factory : factoryOf? e.name with
  | some ctor =>
    simp only [factory] at run
    obtain ⟨counts₁, s₁, runC, run⟩ := bind_ok run
    cases run
    unfold importCtor at runC
    cases built : builtSum? e.type with
    | none =>
      simp only [built] at runC
      exact (not_refuse_ok runC).elim
    | some sum =>
      simp only [built] at runC
      obtain ⟨t, s₂, runT, runC⟩ := bind_ok runC
      obtain ⟨_, s₃, runM, runC⟩ := bind_ok runC
      cases runM
      cases runC
      exact (DeclaresNone.importType runT).1
  | none =>
    simp only [factory] at run
    split at run
    · cases run
      rfl
    · obtain ⟨t, s₁, runT, run⟩ := bind_ok run
      cases run
      exact (DeclaresNone.importType runT).1

theorem importModule_sums {place : Position} {env env' : Env} {name : String}
    (run : importModule importer place env name s = .ok env' s') : s'.sums = s.sums := by
  unfold importModule at run
  cases importer with
  | none => exact (not_refuse_ok run).elim
  | some find =>
    cases found : find name with
    | error reason =>
      simp only [found] at run
      exact (not_refuse_ok run).elim
    | ok i =>
      simp only [found] at run
      obtain ⟨_, s₁, runM, run⟩ := bind_ok run
      cases runM
      obtain ⟨⟨env₁, counts⟩, s₂, runE, run⟩ := bind_ok run
      cases run
      refine foldlM_invariant (P := fun _ s₁ => s₁.sums = s.sums) ?_ rfl runE
      exact fun b e _ s₁ b' s₂ same step => (importExport_sums step).trans same

theorem openScope_lists (plain : CtorArgsPlain m) (run : openScope importer m {} = .ok p s) :
    Lists {d | .type d ∈ m.decls} s.sums s.ctors := by
  unfold openScope at run
  obtain ⟨env, s₁, runB, run⟩ := bind_ok run
  obtain ⟨env₁, s₂, runI, run⟩ := bind_ok run
  have base : s₁.sums.entries = [(Names.result, [Names.ok, Names.error])] := by
    cases runB
    rfl
  have same : s₂.sums = s₁.sums := foldlM_invariant (P := fun _ s => s.sums = s₁.sums)
    (fun env name _ s env' s' same step => (importModule_sums step).trans same) rfl runI
  have start : DeclaresTypes ∅ { env := env₁ } s₂ := by
    rw [← same] at base
    constructor
    constructor
    · simp [base]
    · intro sum names member
      rw [base, List.mem_singleton] at member
      cases member
      exact .inl rfl
    · exact fun d inside => inside.elim
    · exact fun d inside => inside.elim
    · intro sum names member
      rw [base, List.mem_singleton] at member
      cases member
      exact .inl rfl
  have all := start.foldlM plain run
  rw [Set.empty_union] at all
  exact all.toLists

/-- Sum types and constructors are those that inference starts from. -/
theorem inferOpen_declares {raw : Checked} (run : inferOpen host importer m {} = .ok raw s') :
    ∃ p s, openScope importer m {} = .ok p s ∧ raw.sums = s.sums ∧ raw.ctors = s.ctors := by
  obtain ⟨p, s, p', s₂, main, opened, runD, runM, gathers⟩ := inferOpen_parts run
  obtain ⟨sums, ctors⟩ := DeclaresNone.inferDecls runD
  refine ⟨p, s, opened, ?_⟩
  rw [gathers.sums_eq, gathers.ctors_eq]
  rcases runM with ⟨-, -, rfl⟩ | ⟨e, e', -, -, runE⟩
  · exact ⟨sums, ctors⟩
  · obtain ⟨sums', ctors'⟩ := DeclaresNone.infer e _ runE
    exact ⟨sums'.trans sums, ctors'.trans ctors⟩

theorem check_lists {c : Checked} (plain : CtorArgsPlain m) (run : check host importer m = .ok c) :
    Lists {d | .type d ∈ m.decls} c.sums c.ctors := by
  unfold check at run
  split at run
  · next inferred =>
    cases run
    obtain ⟨raw, runRaw, rfl⟩ := inferModule_ok inferred
    obtain ⟨p, s, opened, sums, ctors⟩ := inferOpen_declares runRaw
    rw [Checked.close_eq]
    dsimp only
    rw [sums, ctors]
    exact openScope_lists plain opened
  · cases run

end StackML.Typing
