import Mathlib
import StackML.Proofs.Typing.Declarations
import StackML.Proofs.Typing.Erasure

/-!
Soundness of inference: a module that is accepted follows the typing rules with the types that its
closed tree shows, under every assignment of the variables left in them.
-/

namespace StackML.Typing

open Assignment

variable {host : Host.Resolver} {importer : Option Importer} {m : Module Position}

/-! ### Before the first function -/

def Progress.Bare (p : Progress) : Prop :=
  p.functions = .empty ∧ p.values = .empty ∧ p.decls = [] ∧ p.order = []

theorem Progress.Bare.tidy {p : Progress} (bare : p.Bare) : p.Tidy := by
  obtain ⟨functions, values, -⟩ := bare
  constructor
  · simp [functions]
  · simp [values]

theorem declareCtors_bare {place : Position} {sum : String} {typeOf : Option Ty → Ty} {index : Nat}
    {ctors : List CtorDecl} {p p' : Progress} {s s' : State} (bare : p.Bare)
    (run : declareCtors place sum typeOf p index ctors s = .ok p' s') : p'.Bare := by
  induction ctors generalizing p index s with
  | nil =>
    cases run
    exact bare
  | cons c ctors ih =>
    simp only [declareCtors] at run
    obtain ⟨p₁, s₁, runD, run⟩ := bind_ok run
    obtain ⟨-, rfl, -⟩ := declare_env runD
    obtain ⟨_, _, runG, run⟩ := bind_ok run
    cases runG
    split at run
    · obtain ⟨_, _, failed, -⟩ := bind_ok run
      exact (not_refuse_ok failed).elim
    · obtain ⟨_, s₂, -, run⟩ := bind_ok run
      exact ih (by exact bare) run

theorem declareType_bare {p p' : Progress} {d : TypeDecl Position} {s s' : State} (bare : p.Bare)
    (run : declareType p d s = .ok p' s') : p'.Bare := by
  unfold declareType at run
  obtain ⟨p₁, s₁, runD, run⟩ := bind_ok run
  obtain ⟨-, rfl, -⟩ := declare_env runD
  split at run
  · obtain ⟨_, _, failed, -⟩ := bind_ok run
    exact (not_refuse_ok failed).elim
  · obtain ⟨⟨vs, _⟩, s₂, -, run⟩ := bind_ok run
    obtain ⟨p₂, s₃, runC, run⟩ := bind_ok run
    have done : p₂.Bare := declareCtors_bare (by exact bare) runC
    obtain ⟨_, s₄, -, run⟩ := bind_ok run
    cases run
    exact done

theorem openScope_bare {p : Progress} {s s' : State} (run : openScope importer m s = .ok p s') :
    p.Bare := by
  unfold openScope at run
  obtain ⟨env, s₁, -, run⟩ := bind_ok run
  obtain ⟨env₁, s₂, -, run⟩ := bind_ok run
  refine foldlM_invariant (P := fun p _ => p.Bare) ?_ ⟨rfl, rfl, rfl, rfl⟩ run
  intro p d _ s p' s' bare step
  cases d with
  | type d => exact declareType_bare bare step
  | fn d | value d =>
    cases step
    exact bare

/-! ### After the last declaration -/

theorem quantified_mem {functions : NameMap Function} {name : String} {F : Function}
    (found : functions.get? name = some F) {a : VarId} (member : a ∈ F.type.quantified) :
    a ∈ quantifiedVars functions := by
  have inside : F ∈ functions.values := List.mem_map.2 ⟨_, mem_of_get? found, rfl⟩
  refine List.mem_flatMap.2 ⟨F, inside, ?_⟩
  cases h : F.type <;> simp_all [Ty.quantified]

theorem foldDecl_eq {σ : Type} (f : σ → Typed → σ) (s : σ) (d : Decl Typed) :
    foldDecl f s d = (declNotes d).foldl f s := by
  cases d with
  | fn d | value d => exact Expr.foldNotes_eq f _ _
  | type d => rfl

def Checked.notes (c : Checked) : List Typed :=
  c.module.decls.flatMap declNotes ++ (c.module.main.map Expr.notes).getD []

/-- The substitution under which a checked module is closed. -/
def Checked.defaulted (c : Checked) (s : Subst) : Subst :=
  c.notes.foldl (fun s n => defaultNumeric (quantifiedVars c.functions) s n.type) s

theorem Checked.close_eq (c : Checked) (s : Subst) :
    c.close s = { c with
      module := { c.module with
        decls := c.module.decls.map (mapDecl (Typed.shut (c.defaulted s)))
        main := c.module.main.map (·.mapNotes (Typed.shut (c.defaulted s))) }
      functions := c.functions.map (Function.shut (c.defaulted s))
      values := c.values.map (closeType (c.defaulted s))
      uses := c.uses.map (closeUses (c.defaulted s))
      main := c.main.map (closeType (c.defaulted s)) } := by
  have decls : ∀ (f : Subst → Typed → Subst) (ds : List (Decl Typed)) (s : Subst),
      ds.foldl (foldDecl f) s = (ds.flatMap declNotes).foldl f s := by
    intro f ds
    induction ds with
    | nil => exact fun s => rfl
    | cons d ds ih =>
      intro s
      simp only [List.foldl_cons, List.flatMap_cons, List.foldl_append, ih, foldDecl_eq]
  unfold close
  simp only [decls]
  cases h : c.module.main with
  | none =>
    have same : c.defaulted s = (c.module.decls.flatMap declNotes).foldl
        (fun s n => defaultNumeric (quantifiedVars c.functions) s n.type) s := by
      simp [defaulted, notes, h]
    rw [same]
    rfl
  | some e =>
    have same : c.defaulted s = e.foldNotes
        (fun s n => defaultNumeric (quantifiedVars c.functions) s n.type)
        ((c.module.decls.flatMap declNotes).foldl
          (fun s n => defaultNumeric (quantifiedVars c.functions) s n.type) s) := by
      simp [defaulted, notes, h, List.foldl_append, Expr.foldNotes_eq]
    rw [same]
    rfl

theorem Checked.close_decls (c : Checked) (s : Subst) : (c.close s).module.decls =
    c.module.decls.map (mapDecl (Typed.shut (c.defaulted s))) := by
  rw [close_eq]

theorem Checked.close_main (c : Checked) (s : Subst) : (c.close s).module.main =
    c.module.main.map (·.mapNotes (Typed.shut (c.defaulted s))) := by
  rw [close_eq]

/-! ### Modules -/

theorem Ty.assign_of_closed {t : Ty} (R : Assignment) (closed : t.occurrences = []) :
    t.assign R = t.assign {} := by
  refine Ty.assign_congr fun o occurs => ?_
  simp [closed] at occurs

/-- Inference of a module up to its closing. -/
def inferOpen (host : Host.Resolver) (importer : Option Importer) (m : Module Position) :
    Infer Checked := do
  let s ← openScope importer m
  let s ← m.decls.foldlM (inferDecl host) s
  let main ← match m.main with
    | some e => do pure (some (← infer host s.env e))
    | none => pure none
  let st ← get
  pure {
    module := { m with note := ⟨m.note, .unit, none⟩, decls := s.decls.reverse, main }
    functions := s.functions
    values := s.values
    ctors := st.ctors
    sums := st.sums
    imports := st.imports
    uses := st.uses
    order := s.order.reverse
    main := main.map (·.note.type) }

theorem inferModule_ok {c : Checked} {s' : State}
    (run : inferModule host importer m {} = .ok c s') :
    ∃ raw, inferOpen host importer m {} = .ok raw s' ∧ c = raw.close s'.subst := by
  unfold inferModule at run
  unfold inferOpen
  obtain ⟨p, s₁, runO, run⟩ := bind_ok run
  obtain ⟨p', s₂, runD, run⟩ := bind_ok run
  rw [bind_of_ok runO, bind_of_ok runD]
  dsimp only at run ⊢
  cases h : m.main with
  | none =>
    rw [h] at run
    cases run
    exact ⟨_, rfl, rfl⟩
  | some e =>
    rw [h] at run
    obtain ⟨e', s₃, runE, run⟩ := bind_ok run
    cases run
    exact ⟨_, bind_of_ok runE, rfl⟩

structure Gathers (p : Progress) (main : Option (Expr Typed)) (s : State) (c : Checked) : Prop where
  decls : c.module.decls = p.decls.reverse
  main : c.module.main = main
  functions : c.functions = p.functions
  values : c.values = p.values
  order : c.order = p.order.reverse
  ctors_eq : c.ctors = s.ctors
  sums_eq : c.sums = s.sums
  uses_eq : c.uses = s.uses
  type : c.main = c.module.main.map (·.note.type)

theorem inferOpen_parts {raw : Checked} {s' : State}
    (run : inferOpen host importer m {} = .ok raw s') :
    ∃ p s₁ p' s₂ main, openScope importer m {} = .ok p s₁ ∧
      m.decls.foldlM (inferDecl host) p s₁ = .ok p' s₂ ∧
      ((m.main = none ∧ main = none ∧ s' = s₂) ∨
        ∃ e e', m.main = some e ∧ main = some e' ∧ infer host p'.env e s₂ = .ok e' s') ∧
      Gathers p' main s' raw := by
  unfold inferOpen at run
  obtain ⟨p, s₁, runO, run⟩ := bind_ok run
  obtain ⟨p', s₂, runD, run⟩ := bind_ok run
  dsimp only at run
  cases h : m.main with
  | none =>
    rw [h] at run
    cases run
    exact ⟨p, s₁, p', _, none, runO, runD, .inl ⟨rfl, rfl, rfl⟩,
      ⟨rfl, rfl, rfl, rfl, rfl, rfl, rfl, rfl, rfl⟩⟩
  | some e =>
    rw [h] at run
    obtain ⟨e', s₃, runE, run⟩ := bind_ok run
    cases run
    exact ⟨p, s₁, p', s₂, some e', runO, runD, .inr ⟨e, e', rfl, rfl, runE⟩,
      ⟨rfl, rfl, rfl, rfl, rfl, rfl, rfl, rfl, rfl⟩⟩

theorem inferModule_parts {c : Checked} {s' : State}
    (run : inferModule host importer m {} = .ok c s') :
    ∃ p s₁ p' s₂ main raw, openScope importer m {} = .ok p s₁ ∧
      m.decls.foldlM (inferDecl host) p s₁ = .ok p' s₂ ∧
      ((m.main = none ∧ main = none ∧ s' = s₂) ∨
        ∃ e e', m.main = some e ∧ main = some e' ∧ infer host p'.env e s₂ = .ok e' s') ∧
      Gathers p' main s' raw ∧ c = raw.close s'.subst := by
  obtain ⟨raw, runRaw, same⟩ := inferModule_ok run
  obtain ⟨p, s₁, p', s₂, main, runO, runD, runM, gathers⟩ := inferOpen_parts runRaw
  exact ⟨p, s₁, p', s₂, main, raw, runO, runD, runM, gathers, same⟩

theorem Gathers.shuts {p : Progress} {main : Option (Expr Typed)} {last : State} {c : Checked}
    (gathers : Gathers p main last c) (s : Subst) :
    Shuts last.ctors p (c.defaulted s) (c.close s) := by
  rw [Checked.close_eq]
  refine ⟨gathers.ctors_eq, fun name F found => ?_, fun name t found => ?_⟩
  · simp [gathers.functions, found]
  · simp [gathers.values, found]

/-- Closing is one more step of inference. The stage it leads to leaves alone what is private, and
gives every type its closed form. -/
theorem Reaches.close {c : Checked} {T O : Set Ty} {w w' : Stage} {claim : Stage → Prop}
    {s : Subst} (way : Reaches {a | a ∈ quantifiedVars c.functions} T w w' O claim)
    (denotes : Subst.Denotes w'.supply s w'.meaning)
    (kinded : claim w' → ∀ n ∈ c.notes, n.type.WellKinded w'.supply) :
    ∃ f : Stage, w.Before f ∧ claim f ∧ Subst.Denotes f.supply (c.defaulted s) f.meaning := by
  obtain ⟨P, runs, holds⟩ := way
  have here := holds w' (.refl w') fun D _ => .refl D _
  obtain ⟨R, defaults, -⟩ :=
    defaultNotes_spec (quantifiedVars c.functions) denotes (kinded here)
  let f := Stage.ofDenotes defaults.denotes
  have later : w'.Before f := ⟨.refl _, defaults.refines⟩
  refine ⟨f, runs.before.trans later, holds f later fun D inside => ?_, defaults.denotes⟩
  exact defaults.keeps D fun d member numeric => runs.plain d (inside member) numeric

theorem inferModule_sound {c : Checked} {s' : State} (hostClosed : HostClosed host)
    (imports : ImportsPlain importer) (args : CtorArgsPlain m)
    (annotations : ∀ d, .fn d ∈ m.decls → AnnotationsPlain d)
    (run : inferModule host importer m {} = .ok c s') :
    ∃ p s, openScope importer m {} = .ok p s ∧
      ∀ θ : Assignment, θ.Kinded → ModuleDerives host c θ (p.env.context {}) := by
  obtain ⟨p, s₁, p', s₂, main, raw, runO, runD, runM, gathers, rfl⟩ := inferModule_parts run
  have bare := openScope_bare runO
  have opened := openScope_opened imports args runO
  obtain ⟨w, fits, scope, closed, own⟩ := opened.stage
  obtain ⟨w₁, O, made, fits₁, decls, scope₁, cover, way₁⟩ :=
    inferDecls_spec (N := {a | a ∈ quantifiedVars raw.functions}) hostClosed closed annotations
      bare.tidy fits scope runD fun name F found a member =>
        quantified_mem (gathers.functions ▸ found) member
  have listed : raw.module.decls = made := by simp [gathers.decls, decls, bare.2.2.1]
  have whole : ∃ w₂ O₂, Fits s₁.ctors w₂ s' ∧
      Reaches {a | a ∈ quantifiedVars raw.functions} (visible p.env s₁.ctors) w w₂ O₂ fun f =>
        DeclsHold host s₁.ctors p.env p'.env p' made f ∧
          ∀ e', main = some e' → Holds host s₁.ctors p'.env e' f := by
    rcases runM with ⟨-, rfl, rfl⟩ | ⟨e, e', -, rfl, runE⟩
    · exact ⟨w₁, O, fits₁, way₁.weaken scope.kinded subset_rfl subset_rfl fun f _ holds =>
        ⟨holds, by simp⟩⟩
    · obtain ⟨w₂, fits₂, -, way₂⟩ := sound hostClosed closed e fits₁ scope₁ runE
      refine ⟨w₂, _, fits₂, (way₁.andThen way₂ (.of_subset cover)).weaken scope.kinded subset_rfl
        subset_rfl fun f _ holds => ⟨holds.1, ?_⟩⟩
      rintro _ ⟨⟩
      exact holds.2
  obtain ⟨w₂, O₂, fits₂, way⟩ := whole
  obtain ⟨f, before, ⟨declsHold, mainHolds⟩, denotes⟩ := way.close fits₂.denotes (by
    rintro ⟨declsHold, mainHolds⟩ n member
    rcases List.mem_append.1 member with inDecls | inMain
    · obtain ⟨d, inside, noted⟩ := List.mem_flatMap.1 inDecls
      exact declsHold.kinded d (listed ▸ inside) n noted
    · rw [gathers.main] at inMain
      cases main with
      | none => cases inMain
      | some e' => exact (mainHolds e' rfl).kinded n inMain)
  have private_ := own f before
  have shuts := fits₂.ctors_eq ▸ gathers.shuts s'.subst
  have context : p.env.context f.meaning = p.env.context {} := by
    funext name
    simp only [Env.context]
    cases found : p.env.get? name with
    | none => rfl
    | some b =>
      have closedB := (opened.types b.type (.inl (Env.type_mem found))).closed
      exact congrArg some (Ty.assign_of_closed f.meaning closedB)
  refine ⟨p, s₁, runO, fun θ good => ⟨p'.env.context f.meaning, ?_, fun e found => ?_⟩⟩
  · rw [← context, Checked.close_decls, listed]
    exact declsHold.derives private_ _ denotes _ shuts θ good
  · rw [Checked.close_main, gathers.main, Option.map_eq_some_iff] at found
    obtain ⟨e', same, rfl⟩ := found
    have holds := mainHolds e' same
    rw [mapNotes_shut denotes holds.kinded, shuts.ctors_eq]
    exact holds.derives (declsHold.own private_) θ good

theorem inferDecls_faithful {ds : List (Decl Position)} {p p' : Progress} {s s' : State}
    (run : ds.foldlM (inferDecl host) p s = .ok p' s') :
    p'.decls.reverse.map eraseDecl = p.decls.reverse.map eraseDecl ++ ds := by
  induction ds generalizing p s with
  | nil =>
    cases run
    simp
  | cons d ds ih =>
    rw [List.foldlM_cons] at run
    obtain ⟨p₁, s₁, first, run⟩ := bind_ok run
    have rest := ih run
    cases inferDecl_step first with
    | type => simpa [eraseDecl] using rest
    | fn new runF => simpa [inferFunction_faithful runF] using rest
    | value new runV => simpa [eraseDecl, infer_faithful _ runV] using rest

theorem inferModule_faithful {c : Checked} {s' : State}
    (run : inferModule host importer m {} = .ok c s') :
    c.module.decls.map eraseDecl = m.decls ∧ c.module.main.map Expr.erase = m.main := by
  obtain ⟨p, s₁, p', s₂, main, raw, runO, runD, runM, gathers, rfl⟩ := inferModule_parts run
  have keep : ∀ n, (Typed.shut (raw.defaulted s'.subst) n).position = n.position := fun n => rfl
  constructor
  · rw [Checked.close_decls, gathers.decls, List.map_map]
    have each : p'.decls.reverse.map (eraseDecl ∘ mapDecl (Typed.shut (raw.defaulted s'.subst))) =
        p'.decls.reverse.map eraseDecl := List.map_congr_left fun d _ => eraseDecl_mapDecl _ keep d
    rw [each, inferDecls_faithful runD, (openScope_bare runO).2.2.1]
    rfl
  · rw [Checked.close_main, gathers.main]
    rcases runM with ⟨none, rfl, -⟩ | ⟨e, e', some, rfl, runE⟩
    · exact none.symm
    · simp [erase_mapNotes _ keep, infer_faithful e runE, some]

/-- The tree of an accepted module is the given one with a type at every node, and it follows the
typing rules from the names in scope before its functions and values. Host members and arguments of
constructors have no variables; imports and annotations have no quantifier below the top. -/
theorem check_sound {c : Checked} (hostClosed : HostClosed host) (imports : ImportsPlain importer)
    (args : CtorArgsPlain m) (annotations : ∀ d, .fn d ∈ m.decls → AnnotationsPlain d)
    (run : check host importer m = .ok c) :
    c.module.decls.map eraseDecl = m.decls ∧ c.module.main.map Expr.erase = m.main ∧
      ∃ p s, openScope importer m {} = .ok p s ∧
        ∀ θ : Assignment, θ.Kinded → ModuleDerives host c θ (p.env.context {}) := by
  unfold check at run
  split at run
  · next c' s' inferred =>
    cases run
    obtain ⟨decls, main⟩ := inferModule_faithful inferred
    exact ⟨decls, main, inferModule_sound hostClosed imports args annotations inferred⟩
  · cases run

theorem hostClosed_chain : HostClosed (Host.Resolver.chain []) := by
  intro owner member kind s found
  cases found

/-- A polymorphic function that is used at a numeric type. -/
def twiceModule : Module Position where
  note := default
  name := "M"
  imports := []
  decls := [.fn ⟨default, "twice", [⟨"f", none⟩, ⟨"x", some (.var 0)⟩], none,
    .apply default (.var default "f") [.apply default (.var default "f") [.var default "x"]]⟩]
  main := some (.apply default (.var default "twice") [.lambda default ["y"]
    (.binary default .add (.var default "y") (.int default 1)), .int default 3])

theorem check_sound_twice : ∃ c, check (.chain []) none twiceModule = .ok c ∧
    ∃ p s, openScope none twiceModule {} = .ok p s ∧
      ∀ θ : Assignment, θ.Kinded → ModuleDerives (.chain []) c θ (p.env.context {}) := by
  have accepted : (check (.chain []) none twiceModule).toBool = true := by decide +kernel
  cases found : check (.chain []) none twiceModule with
  | error d => simp [found, Except.toBool] at accepted
  | ok c =>
    have plain : ∀ d, .fn d ∈ twiceModule.decls → AnnotationsPlain d := by
      intro d member
      simp only [twiceModule, List.mem_singleton, Decl.fn.injEq] at member
      subst member
      simp [AnnotationsPlain, Ty.body, Ty.isMono]
    exact ⟨c, rfl, (check_sound hostClosed_chain (by simp [ImportsPlain])
      (by simp [CtorArgsPlain, twiceModule]) plain found).2.2⟩

/-- A quantifier below the top of an annotation, over a variable that inference binds later. -/
def nestedModule : Module Position where
  note := default
  name := "M"
  imports := []
  decls := [.fn ⟨default, "f", [⟨"x", some (.list (.scheme [5] (.var 5)))⟩], none,
    .matchOn default (.var default "x")
      [.mk (.cons default (.var default "h") (.wild default))
        (.letIn default "y" (.var default "h")
          (.cond default (.binary default .eq (.var default "y") (.str default "a"))
            (.int default 1) (.int default 2))),
        .mk (.wild default) (.int default 0)]⟩]
  main := some (.unit default)

theorem not_derives_letIn {ctors : NameMap Constructor} {θ : Assignment} {Γ : Context}
    {n nb nc ny : Typed} {name : String} {v r t e : Expr Typed} {op : BinaryOp}
    (value : v.note.type = .int) (use : ny.type = .string) :
    ¬Derives host ctors θ Γ (.letIn n name v (.cond nb (.binary nc op (.var ny name) r) t e)) := by
  intro derived
  cases derived with
  | @letIn _ _ _ _ _ _ vars _ _ _ body _ =>
    cases body with
    | cond first =>
      cases first with
      | binary left =>
        cases left with
        | @var _ _ _ _ b found fits =>
          obtain ⟨ρ, -, -, same⟩ := fits
          simp only [Context.extend, if_true, Option.some.injEq, value] at found
          have bound : b.body = .int := found ▸ Ty.body_quantify rfl
          rw [bound, use] at same
          cases same

/-- What is bound to `y` is an integer in the end, and `y` is used as a string. -/
theorem check_nested : ∃ c, check (.chain []) none nestedModule = .ok c ∧
    HostClosed (.chain []) ∧ CtorArgsPlain nestedModule ∧
    ∀ Γ, ¬ModuleDerives (.chain []) c {} Γ := by
  let note (t : Ty) : Typed := ⟨default, t, none⟩
  let list : Ty := .list (.scheme [5] .int)
  have decls : (check (.chain []) none nestedModule).map (·.module.decls) = .ok
      [.fn ⟨note (.fn list .int), "f", [⟨"x", some (.list (.scheme [5] (.var 5)))⟩], none,
        .matchOn (note .int) (.var (note list) "x")
          [.mk (.cons (note list) (.var (note .int) "h") (.wild (note list)))
            (.letIn (note .int) "y" (.var (note .int) "h")
              (.cond (note .int) (.binary (note .bool) .eq (.var (note .string) "y")
                (.str (note .string) "a")) (.int (note .int) 1) (.int (note .int) 2))),
            .mk (.wild (note list)) (.int (note .int) 0)]⟩] := by
    cbv
  cases found : check (.chain []) none nestedModule with
  | error d => simp [found, Except.map] at decls
  | ok c =>
    simp only [found, Except.map, Except.ok.injEq] at decls
    refine ⟨c, rfl, hostClosed_chain, by simp [CtorArgsPlain, nestedModule], ?_⟩
    rintro Γ ⟨Γ', derived, -⟩
    rw [decls] at derived
    cases derived with
    | fn lengths shape lacks body listed rest =>
      cases body {} kinded_default (by simp [AgreesOff]) with
      | matchOn _ _ _ arms => exact not_derives_letIn rfl rfl (arms _ _ List.mem_cons_self)

end StackML.Typing
