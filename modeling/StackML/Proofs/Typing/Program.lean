import StackML.Proofs.Typing.Constructors
import StackML.Proofs.Typing.Registry
import StackML.Proofs.Typing.Soundness

/-!
Programs: modules of type declarations and a main expression without functions. Inference of one
asks no host and finds no types beyond the declared ones; what it accepts has a derivation whose
types have no quantifiers.
-/

namespace StackML.Typing

open Semantics (FirstOrder classes)

structure IsProgram (m : Module Position) (e : Expr Position) : Prop where
  named : m.name ≠ ""
  alone : m.imports = []
  types : ∀ d ∈ m.decls, ∃ t, d = .type t
  main : m.main = some e
  first : FirstOrder [] e

variable {host host' : Host.Resolver} {importer : Option Importer} {env : Env} {bound : List String}
variable {m : Module Position} {e : Expr Position}

/-! ### Hosts -/

theorem inferAll_host {es : List (Expr Position)} {done : List (Expr Typed)}
    (each : ∀ e ∈ es, infer host env e = infer host' env e) :
    inferAll host env done es = inferAll host' env done es := by
  induction es generalizing done with
  | nil => rfl
  | cons e es ih =>
    rw [List.forall_mem_cons] at each
    simp only [inferAll, each.1, ih each.2]

theorem inferElems_host {es : List (Expr Position)} {elem : Ty} {done : List (Expr Typed)}
    (each : ∀ e ∈ es, infer host env e = infer host' env e) :
    inferElems host env elem done es = inferElems host' env elem done es := by
  induction es generalizing done with
  | nil => rfl
  | cons e es ih =>
    rw [List.forall_mem_cons] at each
    simp only [inferElems, each.1, ih each.2]

theorem inferParts_host {ps : List (Part Position)} {done : List (Part Typed)}
    (each : ∀ e, .hole e ∈ ps → infer host env e = infer host' env e) :
    inferParts host env done ps = inferParts host' env done ps := by
  induction ps generalizing done with
  | nil => rfl
  | cons part ps ih =>
    have rest : ∀ {done}, inferParts host env done ps = inferParts host' env done ps :=
      ih fun e member => each e (List.mem_cons_of_mem _ member)
    cases part with
    | text t => simp only [inferParts, rest]
    | hole e => simp only [inferParts, each e List.mem_cons_self, rest]

theorem inferArms_host {arms : List (Arm Position)} {scrutinee result : Ty} {done : List (Arm Typed)}
    (each : ∀ p b, .mk p b ∈ arms → ∀ env, infer host env b = infer host' env b) :
    inferArms host env scrutinee result done arms =
      inferArms host' env scrutinee result done arms := by
  induction arms generalizing done with
  | nil => rfl
  | cons arm arms ih =>
    obtain ⟨p, b⟩ := arm
    have rest : ∀ {done}, inferArms host env scrutinee result done arms =
        inferArms host' env scrutinee result done arms :=
      ih fun p b member => each p b (List.mem_cons_of_mem _ member)
    simp only [inferArms, each p b List.mem_cons_self, rest]

theorem infer_host (first : FirstOrder bound e) (env : Env) :
    infer host env e = infer host' env e := by
  induction first generalizing env with
  | interp _ ih => simp only [infer, inferParts_host fun e member => ih e member env]
  | unary _ ih => simp only [infer, ih]
  | binary _ _ ihL ihR => simp only [infer, ihL, ihR]
  | cond _ _ _ ihC ihT ihE => simp only [infer, ihC, ihT, ihE]
  | letIn _ _ _ ihV ihB => simp only [infer, ihV, ihB]
  | sequence _ ih => simp only [infer, inferAll_host fun e member => ih e member env]
  | print _ ih => simp only [infer, ih]
  | list _ ih => simp only [infer, inferElems_host fun e member => ih e member env]
  | cons _ _ ihH ihT => simp only [infer, ihH, ihT]
  | matchOn _ _ _ ihE ihArms => simp only [infer, ihE, inferArms_host ihArms]
  | build _ ih => simp only [infer, ih]
  | _ => simp only [infer]

/-! ### Programs -/

theorem inferDecls_types {ds : List (Decl Position)} {p p' : Progress} {s s' : State}
    (types : ∀ d ∈ ds, ∃ t, d = .type t)
    (run : ds.foldlM (inferDecl host) p s = .ok p' s') :
    s' = s ∧ p'.env = p.env ∧ p'.functions = p.functions ∧
      ∀ d ∈ p'.decls, d ∈ p.decls ∨ ∃ t, d = .type t ∧ t.note.type = .unit := by
  induction ds generalizing p with
  | nil =>
    cases run
    exact ⟨rfl, rfl, rfl, fun _ => .inl⟩
  | cons d ds ih =>
    rw [List.forall_mem_cons] at types
    obtain ⟨⟨t, rfl⟩, types⟩ := types
    rw [List.foldlM_cons] at run
    obtain ⟨p₁, s₁, first, run⟩ := bind_ok run
    cases first
    obtain ⟨state, env, functions, decls⟩ := ih types run
    refine ⟨state, env, functions, fun d member => ?_⟩
    rcases decls d member with old | new
    · rcases List.mem_cons.1 old with rfl | older
      · exact .inr ⟨_, rfl, rfl⟩
      · exact .inl older
    · exact .inr new

structure Accepted (m : Module Position) (e : Expr Position) (c : Checked) (e' : Expr Typed) :
    Prop where
  name : c.module.name = m.name
  types : ∀ d ∈ c.module.decls, ∃ t, d = .type t
  functions : ∀ name, c.functions.get? name = none
  main : c.module.main = some e'
  type : c.main = some e'.note.type
  erased : e'.erase = e
  mono : ∀ n ∈ e'.notes, n.type.isMono
  registers : Registers m.name (classes m) c.ctors c.sums
  derives : ∃ Γ, Derives (.chain []) c.ctors {} Γ e'

theorem inferModule_program {c : Checked} {s' : State} (program : IsProgram m e)
    (run : inferModule host importer m {} = .ok c s') :
    ∃ (p : Progress) (s : State) (e' : Expr Typed) (raw : Checked), openScope importer m {} = .ok p s ∧
      infer (.chain []) p.env e s = .ok e' s' ∧ c = raw.close s'.subst ∧
      raw.module.name = m.name ∧ raw.functions = .empty ∧
      (∀ d ∈ raw.module.decls, ∃ t, d = .type t ∧ t.note.type = .unit) ∧
      raw.module.main = some e' ∧ raw.main = some e'.note.type ∧ raw.ctors = s'.ctors ∧
      raw.sums = s'.sums := by
  unfold inferModule at run
  obtain ⟨p, s₁, runO, run⟩ := bind_ok run
  obtain ⟨p', s₂, runD, run⟩ := bind_ok run
  obtain ⟨state, env, functions, decls⟩ := inferDecls_types program.types runD
  obtain ⟨bare, -, none, -⟩ := openScope_bare runO
  dsimp only at run
  rw [program.main, env, state] at run
  obtain ⟨e', s₃, runE, run⟩ := bind_ok run
  rw [infer_host program.first] at runE
  cases run
  refine ⟨p, s₁, e', _, runO, runE, rfl, rfl, functions.trans bare, fun d member => ?_, rfl, rfl, rfl,
    rfl⟩
  have listed := decls d (List.mem_reverse.1 member)
  rw [none] at listed
  exact listed.resolve_left List.not_mem_nil

theorem inferModule_accepted {c : Checked} {s' : State} (program : IsProgram m e)
    (plain : CtorArgsPlain m) (run : inferModule host importer m {} = .ok c s') :
    ∃ e', Accepted m e c e' := by
  obtain ⟨p, s, e', raw, runO, runE, rfl, name, functions, decls, main, type, ctors, sums⟩ :=
    inferModule_program program run
  rw [show openScope importer m = openScope none m by unfold openScope; rw [program.alone]; rfl] at runO
  have opened := openScope_opened (by simp [ImportsPlain]) plain runO
  obtain ⟨w, fits, scope, closed, own⟩ := opened.stage
  obtain ⟨w', fits', -, way⟩ := sound (N := {a | a ∈ quantifiedVars raw.functions}) hostClosed_chain
    closed e fits scope runE
  obtain ⟨f, before, holds, denotes⟩ := way.close fits'.denotes (by
    intro holds n member
    rcases List.mem_append.1 member with inDecls | inMain
    · obtain ⟨d, inside, noted⟩ := List.mem_flatMap.1 inDecls
      obtain ⟨t, rfl, unit⟩ := decls d inside
      rw [List.mem_singleton.1 noted, unit]
      exact .of_closed rfl rfl
    · rw [main] at inMain
      exact holds.kinded n inMain)
  have closes : e'.mapNotes (Typed.shut (raw.defaulted s'.subst)) = e'.mapNotes (Typed.close f.meaning) :=
    mapNotes_shut denotes holds.kinded
  have declared : s'.sums = s.sums := (DeclaresNone.infer e _ runE).1
  rw [Checked.close_eq]
  refine ⟨e'.mapNotes (Typed.close f.meaning), name, ?_, ?_, ?_, ?_, ?_, ?_, ?_, ?_⟩
  · intro d member
    obtain ⟨d', inside, rfl⟩ := List.mem_map.1 member
    obtain ⟨t, rfl, -⟩ := decls d' inside
    exact ⟨_, rfl⟩
  · simp [functions]
  · simp [main, closes]
  · have shut : closeType (raw.defaulted s'.subst) e'.note.type = e'.note.type.assign f.meaning :=
      congrArg Typed.type (Typed.shut_eq denotes (holds.kinded _ e'.note_mem_notes))
    simp [type, shut]
  · exact (erase_mapNotes (Typed.close f.meaning) (fun _ => rfl) e').trans (infer_faithful e runE)
  · rw [Expr.notes_mapNotes, List.forall_mem_map]
    exact fun n member => Ty.isMono_assign (holds.kinded n member).mono fun o _ => f.mono o
  · simp only [ctors, sums, fits'.ctors_eq, declared]
    exact openScope_registers program.alone plain runO
  · simp only [ctors, fits'.ctors_eq]
    exact ⟨_, holds.derives (own f before) {} Assignment.kinded_default⟩

theorem check_accepted {c : Checked} (program : IsProgram m e) (plain : CtorArgsPlain m)
    (run : check host importer m = .ok c) : ∃ e', Accepted m e c e' := by
  unfold check at run
  split at run
  · next inferred =>
    cases run
    exact inferModule_accepted program plain inferred
  · cases run

end StackML.Typing
