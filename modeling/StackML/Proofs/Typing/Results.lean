import StackML.Proofs.Ty.Legible
import StackML.Proofs.Typing.Filing
import StackML.Proofs.Typing.Finalized
import StackML.Proofs.Typing.SumTypes

/-!
The result of inference, as whoever compiles it finds it. What is in scope before functions and values is
held by reference, unless it is imported: constructors, whose types say whether they have an argument, and
functions. The types of the result are all of one supply of variables, so that a variable is numeric
everywhere or nowhere, and its functions are those of its tree, which follows the typing rules.
-/

namespace StackML.Typing

/-! ### What a module opens with -/

structure Constructor.Shaped (info : Constructor) : Prop where
  alone : info.hasArg = false → info.type.body.Boxed
  applied : info.hasArg = true → ∃ a r, info.type.body = .fn a r ∧ r.Boxed

theorem Constructor.Shaped.boxed {info : Constructor} (shaped : info.Shaped) : info.type.body.Boxed := by
  cases argument : info.hasArg with
  | false => exact shaped.alone argument
  | true =>
    obtain ⟨a, r, same, -⟩ := shaped.applied argument
    exact same ▸ Ty.boxed_fn a r

/-- A constructor is known by its name, and one that is imported by that of its module as well. -/
def Constructor.Placed (imports : List String) (key : String) (info : Constructor) : Prop :=
  (info.module = "" ∧ info.name = key) ∨ (info.module ∈ imports ∧ key = info.module ++ "." ++ info.name)

theorem dot_mem_qualified (module name : String) : '.' ∈ (module ++ "." ++ name).toList := by
  simp [String.toList_append]

theorem Constructor.Placed.own {imports : List String} {key : String} {info : Constructor}
    (placed : info.Placed imports key) (plain : '.' ∉ key.toList) : info.name = key := by
  rcases placed with ⟨-, same⟩ | ⟨-, rfl⟩
  · exact same
  · exact absurd (dot_mem_qualified _ _) plain

structure Furnished (imports : List String) (env : Env) (ctors : NameMap Constructor) : Prop where
  names : ∀ name b, env.get? name = some b → '.' ∉ name.toList → b.type.body.Boxed
  shaped : ∀ key info, ctors.get? key = some info → info.Shaped
  placed : ∀ key info, ctors.get? key = some info → info.Placed imports key

namespace Furnished

variable {imports : List String} {env : Env} {ctors : NameMap Constructor}

theorem insert (h : Furnished imports env ctors) {name : String} {b : Binding}
    (boxed : '.' ∉ name.toList → b.type.body.Boxed) : Furnished imports (env.insert name b) ctors := by
  refine ⟨fun other b' found plain => ?_, h.shaped, h.placed⟩
  rw [NameMap.get?_insert] at found
  split at found
  · next same =>
    cases found
    exact boxed (same ▸ plain)
  · exact h.names other b' found plain

theorem insertCtor (h : Furnished imports env ctors) {key : String} {info : Constructor} (shaped : info.Shaped)
    (placed : info.Placed imports key) : Furnished imports env (ctors.insert key info) := by
  refine ⟨h.names, fun other info' found => ?_, fun other info' found => ?_⟩ <;>
    rw [NameMap.get?_insert] at found <;> split at found
  · exact Option.some.inj found ▸ shaped
  · exact h.shaped other info' found
  · next same =>
    cases found
    exact same ▸ placed
  · exact h.placed other info' found

end Furnished

variable {host : Host.Resolver} {importer : Option Importer} {m : Module Position} {imports : List String}
  {env env' : Env} {s s' : State}

theorem baseEnv_furnished (run : baseEnv {} = .ok env s) : Furnished imports env s.ctors := by
  cases run
  have start : Furnished imports .empty .empty := ⟨nofun, nofun, nofun⟩
  have ctor (name : String) (index : Nat) (vars : List VarId) (arg : Ty) (o e : Ty) : Constructor.Shaped
      { name, sum := Names.result, index, hasArg := true, type := .scheme vars (.fn arg (.result o e)) } :=
    ⟨nofun, fun _ => ⟨arg, _, rfl, fun _ => rfl⟩⟩
  refine .insert (.insert (.insert (.insertCtor (.insertCtor start ?_ ?_) ?_ ?_) ?_) ?_) ?_
  · exact ctor ..
  · exact .inl ⟨rfl, rfl⟩
  · exact ctor ..
  · exact .inl ⟨rfl, rfl⟩
  all_goals exact fun _ _ => rfl

/-! ### Imports -/

theorem shaped_importType {t u : Ty} {sum : String} {hasArg : Bool} (built : builtSum? t = some (sum, hasArg))
    (run : importType t s = .ok u s') (name module : String) (index : Nat) :
    Constructor.Shaped { name, sum, index, hasArg, module, type := u } := by
  obtain ⟨⟨t', n⟩, s₁, runF, run⟩ := bind_ok run
  obtain ⟨rfl, rfl⟩ := pure_ok run
  obtain ⟨n', s₂, -, runF⟩ := bind_ok runF
  obtain ⟨same, rfl⟩ := pure_ok runF
  cases same
  rw [generalize_eq]
  have body {t : Ty} (whole : ((t.replace n).quantify [] ).body = t.replace n) (vars : List VarId) :
      ((t.replace n).quantify vars).body = t.replace n := by
    cases vars with
    | nil => exact whole
    | cons => rfl
  unfold builtSum? at built
  cases shape : t.body with
  | fn a r =>
    rw [shape] at built
    cases r <;> cases built
    · exact ⟨nofun, fun _ => ⟨_, _, body rfl _, fun _ => rfl⟩⟩
    · exact ⟨nofun, fun _ => ⟨_, _, body rfl _, fun _ => rfl⟩⟩
  | named sum' =>
    rw [shape] at built
    cases built
    refine ⟨fun _ => ?_, nofun⟩
    rw [body rfl]
    exact Ty.boxed_named _
  | app sum' as =>
    rw [shape] at built
    cases built
    refine ⟨fun _ => ?_, nofun⟩
    rw [body rfl]
    exact Ty.boxed_app _ _
  | _ =>
    rw [shape] at built
    cases built

theorem importExport_furnished {place : Position} {module : String} {counts counts' : NameMap Nat} {e : Export}
    (mono : e.type.body.isMono) (listed : module ∈ imports) (h : Furnished imports env s.ctors)
    (run : importExport place module env counts e s = .ok (env', counts') s') : Furnished imports env' s'.ctors := by
  unfold importExport at run
  cases factory : factoryOf? e.name with
  | some ctor =>
    simp only [factory] at run
    obtain ⟨counts₁, s₁, runC, run⟩ := bind_ok run
    cases run
    unfold importCtor at runC
    cases built : builtSum? e.type with
    | none =>
      simp only [built] at runC
      exact (not_refuse_ok runC).elim
    | some sum =>
      simp only [built] at runC
      obtain ⟨t, s₂, runT, runC⟩ := bind_ok runC
      have shaped := shaped_importType built runT
      obtain ⟨last, rfl, -, -⟩ := importType_spec mono runT
      obtain ⟨_, s₃, runM, runC⟩ := bind_ok runC
      cases runM
      cases runC
      exact h.insertCtor (shaped _ _ _) (.inr ⟨listed, rfl⟩)
  | none =>
    simp only [factory] at run
    split at run
    · cases run
      exact h
    · obtain ⟨t, s₁, runT, run⟩ := bind_ok run
      obtain ⟨last, rfl, -, -⟩ := importType_spec mono runT
      cases run
      exact h.insert fun plain => absurd (dot_mem_qualified _ _) plain

theorem importModule_furnished {place : Position} {name : String} (plain : ImportsPlain importer)
    (listed : name ∈ imports) (h : Furnished imports env s.ctors)
    (run : importModule importer place env name s = .ok env' s') : Furnished imports env' s'.ctors := by
  unfold importModule at run
  cases importer with
  | none => exact (not_refuse_ok run).elim
  | some find =>
    simp only at run
    cases found : find name with
    | error reason =>
      simp only [found] at run
      exact (not_refuse_ok run).elim
    | ok i =>
      simp only [found] at run
      obtain ⟨_, s₁, runM, run⟩ := bind_ok run
      cases runM
      obtain ⟨⟨env₁, counts⟩, s₂, runE, run⟩ := bind_ok run
      cases run
      refine foldlM_invariant (P := fun b s => Furnished imports b.1 s.ctors) (fun b e member s b' s' => ?_) h runE
      exact importExport_furnished (plain find rfl name i found e member) listed

/-! ### Declarations -/

theorem shaped_ctorType {params : List (String × Ty)} {self : Ty} (boxed : self.Boxed)
    (plain : self.body = self) (name sum : String) (index : Nat) (arg : Option Ty) :
    Constructor.Shaped { name, sum, index, hasArg := arg.isSome, type := ctorType params self arg } := by
  unfold ctorType
  generalize (params.reverse.map (·.2)).filterMap Ty.varId? = vars
  cases arg with
  | none =>
    refine ⟨fun _ => ?_, nofun⟩
    cases vars with
    | nil =>
      change self.body.Boxed
      rwa [plain]
    | cons => exact boxed
  | some a =>
    refine ⟨nofun, fun _ => ⟨bindTypeParams params a, self, ?_, boxed⟩⟩
    cases vars <;> rfl

theorem declareCtors_furnished {place : Position} {sum : String} {typeOf : Option Ty → Ty}
    {index : Nat} {ctors : List CtorDecl} {p p' : Progress}
    (shaped : ∀ name index arg, Constructor.Shaped
      { name, sum, index, hasArg := Option.isSome arg, type := typeOf arg })
    (h : Furnished imports p.env s.ctors)
    (run : declareCtors place sum typeOf p index ctors s = .ok p' s') : Furnished imports p'.env s'.ctors := by
  induction ctors generalizing p index s with
  | nil =>
    cases run
    exact h
  | cons c ctors ih =>
    simp only [declareCtors] at run
    obtain ⟨p₁, s₁, runD, run⟩ := bind_ok run
    obtain ⟨rfl, rfl, -⟩ := declare_env runD
    obtain ⟨_, _, runG, run⟩ := bind_ok run
    cases runG
    split at run
    · obtain ⟨_, _, failed, -⟩ := bind_ok run
      exact (not_refuse_ok failed).elim
    · obtain ⟨_, s₂, runM, run⟩ := bind_ok run
      cases runM
      have ctor := shaped c.name index c.arg
      exact ih (s := { s₁ with ctors := s₁.ctors.insert c.name _ })
        ((h.insertCtor ctor (.inl ⟨rfl, rfl⟩)).insert fun _ => ctor.boxed) run

theorem declareType_furnished {p p' : Progress} {d : TypeDecl Position} (h : Furnished imports p.env s.ctors)
    (run : declareType p d s = .ok p' s') : Furnished imports p'.env s'.ctors := by
  unfold declareType at run
  obtain ⟨p₁, s₁, runD, run⟩ := bind_ok run
  obtain ⟨rfl, rfl, -⟩ := declare_env runD
  split at run
  · obtain ⟨_, _, failed, -⟩ := bind_ok run
    exact (not_refuse_ok failed).elim
  · obtain ⟨⟨vs, _⟩, s₂, runP, run⟩ := bind_ok run
    obtain ⟨last, rfl, -, -, -⟩ := bindParams_fresh runP
    obtain ⟨p₂, s₃, runC, run⟩ := bind_ok run
    obtain ⟨_, s₄, runM, run⟩ := bind_ok run
    cases runM
    cases run
    have declared : Furnished imports p'.env s₃.ctors := by
      refine declareCtors_furnished (fun name index arg => shaped_ctorType ?_ ?_ ..) ?_ runC
      · split <;> exact fun _ => rfl
      · split <;> rfl
      · exact h
    exact declared

/-- Whatever a module opens with is held by reference, unless it is imported. -/
theorem openScope_furnished {p : Progress} (plain : ImportsPlain importer)
    (run : openScope importer m {} = .ok p s) : Furnished m.imports p.env s.ctors := by
  unfold openScope at run
  obtain ⟨env, s₁, runB, run⟩ := bind_ok run
  have base : Furnished m.imports env s₁.ctors := baseEnv_furnished runB
  obtain ⟨env₁, s₂, runI, run⟩ := bind_ok run
  have imported : Furnished m.imports env₁ s₂.ctors :=
    foldlM_invariant (P := fun env s => Furnished m.imports env s.ctors)
      (fun env name listed s env' s' h step => importModule_furnished plain listed h step) base runI
  refine foldlM_invariant (P := fun p s => Furnished m.imports p.env s.ctors) ?_ imported run
  intro p d _ s p' s' h step
  cases d with
  | type d => exact declareType_furnished h step
  | fn d | value d =>
    cases step
    exact h

/-! ### Modules -/

structure Completed (host : Host.Resolver) (m : Module Position) (g : Supply) (c : Checked) : Prop where
  name : c.module.name = m.name
  erased : c.module.decls.map eraseDecl = m.decls ∧ c.module.main.map Expr.erase = m.main
  notes : ∀ n ∈ c.notes, n.type.WellKinded g
  functions : ∀ {name F}, c.functions.get? name = some F → F.type.body.WellKinded g ∧
    (F.isPolymorphic = false → F.type.body = F.type) ∧ .fn F.decl ∈ c.module.decls
  uses : ∀ {name t}, t ∈ c.usesOf name → t.isMono
  main : c.main = c.module.main.map (·.note.type)
  filed : ∀ {name F}, c.functions.get? name = some F → F.decl.name = name ∧ c.values.get? name = none
  shaped : ∀ {key info}, c.ctors.get? key = some info → info.Shaped ∧ info.Placed m.imports key
  derives : ∃ Γ : Context, (∀ name t, Γ name = some t → '.' ∉ name.toList → t.body.Boxed) ∧
    ∀ θ : Assignment, θ.Kinded → ModuleDerives host c θ Γ

theorem inferOpen_name {raw : Checked} (run : inferOpen host importer m {} = .ok raw s') :
    raw.module.name = m.name := by
  unfold inferOpen at run
  obtain ⟨_, _, -, run⟩ := bind_ok run
  obtain ⟨_, _, -, run⟩ := bind_ok run
  dsimp only at run
  cases main : m.main with
  | none =>
    rw [main] at run
    cases run
    rfl
  | some e =>
    rw [main] at run
    obtain ⟨_, _, -, run⟩ := bind_ok run
    cases run
    rfl

theorem inferDecls_listed {ds : List (Decl Position)} {p p' : Progress} (bare : p.Bare)
    (run : ds.foldlM (inferDecl host) p s = .ok p' s') :
    ∀ name F, p'.functions.get? name = some F → .fn F.decl ∈ p'.decls := by
  refine foldlM_invariant (P := fun p _ => ∀ name F, p.functions.get? name = some F → .fn F.decl ∈ p.decls) ?_
    (by simp [bare.1]) run
  intro p₁ d _ s p₂ s' listed step name F found
  cases inferDecl_step step with
  | type => exact List.mem_cons_of_mem _ (listed name F found)
  | value => exact List.mem_cons_of_mem _ (listed name F found)
  | fn =>
    rw [NameMap.get?_insert] at found
    split at found
    · cases found
      exact List.mem_cons_self
    · exact List.mem_cons_of_mem _ (listed name F found)

theorem Ty.body_of_single {b : Ty} {vars : List VarId} (mono : b.isMono)
    (single : (b.quantify vars).isPolymorphic = false) : (b.quantify vars).body = b.quantify vars := by
  cases vars with
  | nil => exact (Ty.body_quantify mono : (b.quantify []).body = b)
  | cons v vars => cases single

theorem check_completed {c : Checked} (hostClosed : HostClosed host) (imports : ImportsPlain importer)
    (args : CtorArgsPlain m) (annotations : ∀ d, .fn d ∈ m.decls → AnnotationsPlain d)
    (run : check host importer m = .ok c) : ∃ g, Completed host m g c := by
  obtain ⟨decls, main, p, s, opened, derives⟩ := check_sound hostClosed imports args annotations run
  have filed := check_filed run
  unfold check at run
  split at run
  · next c' s' inferred =>
    cases run
    obtain ⟨raw, runRaw, rfl⟩ := inferModule_ok inferred
    obtain ⟨w, before, denotes⟩ := inferOpen_settled hostClosed imports args annotations runRaw
    obtain ⟨f, settled, denotes, -⟩ := before.close denotes
    obtain ⟨p₁, s₁, p', s₂, e, runO, runD, -, gathers⟩ := inferOpen_parts runRaw
    cases opened.symm.trans runO
    have furnished := openScope_furnished imports runO
    have ctors : (raw.close s'.subst).ctors = s.ctors := by
      obtain ⟨q, t, opened', -, ctors⟩ := inferOpen_declares runRaw
      cases opened.symm.trans opened'
      rw [Checked.close_eq]
      exact ctors
    have shut : ∀ {name F}, (raw.close s'.subst).functions.get? name = some F →
        ∃ F₀, raw.functions.get? name = some F₀ ∧ F = F₀.shut (raw.defaulted s'.subst) := by
      intro name F found
      rw [Checked.close_eq, NameMap.get?_map, Option.map_eq_some_iff] at found
      obtain ⟨F₀, found, rfl⟩ := found
      exact ⟨F₀, found, rfl⟩
    refine ⟨f.supply, ?_, ⟨decls, main⟩, ?_, ?_, ?_, ?_, ?_, ?_, ?_⟩
    · have name := inferOpen_name runRaw
      rwa [Checked.close_eq]
    · intro n noted
      rw [Checked.notes_close] at noted
      obtain ⟨n, known, rfl⟩ := List.mem_map.1 noted
      obtain ⟨b, listed, inside⟩ := Checked.mem_notes.1 known
      have kinded := settled.notes b listed n inside
      rw [Typed.shut_eq denotes kinded]
      exact f.wellKinded_assign kinded
    · intro name F found
      obtain ⟨F₀, known, rfl⟩ := shut found
      have general := settled.general name F₀ known
      have kinded := f.wellKinded_assign general.kinded
      refine ⟨?_, fun single => ?_, ?_⟩
      · exact (general.body_close denotes).symm ▸ kinded
      · have close : (F₀.shut (raw.defaulted s'.subst)).type = _ := general.close denotes
        rw [Function.isPolymorphic, close] at single
        rw [close]
        exact Ty.body_of_single kinded.mono single
      · rw [Checked.close_decls, gathers.decls, List.mem_map]
        rw [gathers.functions] at known
        exact ⟨_, List.mem_reverse.2 (inferDecls_listed (openScope_bare runO) runD name F₀ known), rfl⟩
    · intro name t member
      obtain ⟨F, -, used⟩ := settled.used_close denotes member
      exact used.mono
    · rw [Checked.close_eq]
      change raw.main.map _ = _
      rw [gathers.type]
      cases raw.module.main <;> simp [Expr.note_mapNotes, Typed.shut]
    · intro name F found
      obtain ⟨named, -, none⟩ := filed.functions name F found
      exact ⟨named, none⟩
    · intro key info found
      rw [ctors] at found
      exact ⟨furnished.shaped key info found, furnished.placed key info found⟩
    · refine ⟨p.env.context {}, fun name t found plain => ?_, derives⟩
      obtain ⟨b, listed, rfl⟩ := Option.map_eq_some_iff.1 found
      rw [Ty.assign_default]
      exact furnished.names name b listed plain
  · cases run

end StackML.Typing
