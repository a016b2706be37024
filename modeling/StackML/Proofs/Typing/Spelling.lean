import StackML.Proofs.Typing.Results

/-!
The names in inferred types are those that a module declares and writes, and those of its imports and of the
host. If all of these can be written into a descriptor, so can every type that the result of inference shows.
-/

namespace StackML

open Descriptor (Nameable)

/-! ### Legible states -/

namespace NameMap

variable {β γ : Type} {P : β → Prop} {m : NameMap β}

def Each (P : β → Prop) (m : NameMap β) : Prop := ∀ b ∈ m.values, P b

theorem mem_values_of_get? {name : String} {b : β} (found : m.get? name = some b) : b ∈ m.values :=
  List.mem_map.2 ⟨_, Typing.mem_of_get? found, rfl⟩

theorem each_empty : Each P empty := List.forall_mem_nil _

theorem Each.get? (each : m.Each P) {name : String} {b : β} (found : m.get? name = some b) : P b :=
  each b (mem_values_of_get? found)

theorem Each.insert (each : m.Each P) (name : String) {b : β} (holds : P b) : (m.insert name b).Each P := by
  refine List.forall_mem_cons.2 ⟨holds, fun b member => ?_⟩
  obtain ⟨e, listed, rfl⟩ := List.mem_map.1 member
  exact each e.2 (List.mem_map.2 ⟨e, List.mem_of_mem_filter listed, rfl⟩)

theorem values_map (f : β → γ) (m : NameMap β) : (m.map f).values = m.values.map f := by
  simp [map, values]

theorem Each.map {f : β → γ} {Q : γ → Prop} (each : m.Each P) (holds : ∀ b, P b → Q (f b)) :
    (m.map f).Each Q := by
  rw [Each, values_map]
  exact List.forall_mem_map.2 fun b member => holds b (each b member)

end NameMap

def Pattern.Legible (p : Pattern Typing.Typed) : Prop := ∀ n ∈ p.notes, n.type.isLegible

namespace Expr

def Legible (e : Expr Typing.Typed) : Prop := ∀ n ∈ e.notes, n.type.isLegible

theorem Legible.note {e : Expr Typing.Typed} (legible : e.Legible) : e.note.type.isLegible :=
  legible _ e.note_mem_notes

theorem legible_all {es : List (Expr Typing.Typed)} (each : ∀ e ∈ es, e.Legible) :
    ∀ n ∈ notesOfAll es, n.type.isLegible := fun n inside =>
  have ⟨e, member, here⟩ := mem_notesOfAll.1 inside
  each e member n here

end Expr

namespace Typing

structure Constructor.Legible (info : Constructor) : Prop where
  name : Distinct info.name
  sum : Nameable info.sum
  type : info.type.isLegible

def Env.Legible (env : Env) : Prop := env.Each fun b => b.type.isLegible

theorem Env.Legible.extend {env : Env} (around : env.Legible) (name : String) {t : Ty} (inside : t.isLegible) :
    (env.extend name t).Legible := around.insert name (b := { type := t }) inside

theorem Env.Legible.extendGlobal {env : Env} (around : env.Legible) (name : String) {t : Ty}
    (inside : t.isLegible) : (env.extendGlobal name t).Legible :=
  around.insert name (b := { type := t, global := true }) inside

theorem Env.Legible.freeVars {env : Env} (around : env.Legible) {s : Subst} (legible : s.Legible) :
    (env.freeVars s).2.Legible := by
  have each (es : List (String × Binding)) (done : List VarId × Subst) (inside : ∀ e ∈ es, e.2.type.isLegible)
      (legible : done.2.Legible) : (es.foldl Env.gather done).2.Legible := by
    induction es generalizing done with
    | nil => exact legible
    | cons e es ih =>
      obtain ⟨first, rest⟩ := List.forall_mem_cons.1 inside
      exact ih _ rest (legible.resolve first).2
  exact each env.entries ([], s) (List.forall_mem_map.1 around) legible

structure State.Legible (s : State) : Prop where
  subst : s.subst.Legible
  ctors : s.ctors.Each Constructor.Legible
  uses : s.uses.Each fun ts => ∀ t ∈ ts, t.isLegible

theorem isLegible_quantify {t : Ty} (legible : t.isLegible) (vars : List VarId) : (t.quantify vars).isLegible := by
  cases vars <;> exact legible

theorem isLegible_lambdaType {params : List Ty} {t : Ty} (each : ∀ p ∈ params, p.isLegible) (legible : t.isLegible) :
    (lambdaType params t).isLegible := by
  unfold lambdaType
  split
  · exact legible
  · exact Ty.isLegible_fns each legible

theorem isLegible_lastType {es : List (Expr Typed)} (each : ∀ e ∈ es, e.Legible) : (lastType es).isLegible := by
  unfold lastType
  split
  · next found => exact (each _ (List.mem_of_getLast? found)).note
  · rfl

theorem isLegible_typesOf {es : List (Expr Typed)} (each : ∀ e ∈ es, e.Legible) :
    ∀ a ∈ typesOf es, a.2.isLegible := List.forall_mem_map.2 fun e inside => (each e inside).note

/-- The types of host members can be written into a descriptor. -/
def HostLegible (host : Host.Resolver) : Prop := ∀ ⦃owner member kind s⦄, host owner member kind = .ok s →
  (∀ t ∈ s.params, t.isLegible) ∧ s.result.isLegible

/-- So can those of what other modules export, and the names of the constructors there. -/
def ImportsLegible (importer : Option Importer) : Prop :=
  ∀ find, importer = some find → ∀ name i, find name = .ok i → ∀ e ∈ i.exports,
    (∀ ctor ∈ factoryOf? e.name, Distinct ctor) ∧ e.type.isLegible

/-- The names that a module declares and the types that it writes have no mark in them that parts names in a
descriptor or a constant, and neither have those of its imports. -/
structure Spelled (importer : Option Importer) (m : Module Position) : Prop where
  imports : ImportsLegible importer
  types : ∀ d, .type d ∈ m.decls → Nameable d.name ∧
    ∀ c ∈ d.ctors, Distinct c.name ∧ ∀ t ∈ c.arg, t.isLegible
  functions : ∀ d, .fn d ∈ m.decls → Distinct d.name ∧ (∀ p ∈ d.params, ∀ t ∈ p.type, t.isLegible) ∧
    ∀ t ∈ d.result, t.isLegible

structure Progress.Legible (p : Progress) : Prop where
  env : p.env.Legible
  functions : p.functions.Each fun F => Distinct F.decl.name ∧ F.type.isLegible
  values : p.values.Each fun t => t.isLegible
  notes : ∀ d ∈ p.decls, ∀ n ∈ declNotes d, n.type.isLegible

structure Checked.Legible (c : Checked) : Prop where
  functions : c.functions.Each fun F => Distinct F.decl.name ∧ F.type.isLegible
  ctors : c.ctors.Each Constructor.Legible
  values : c.values.Each fun t => t.isLegible
  uses : c.uses.Each fun ts => ∀ t ∈ ts, t.isLegible
  notes : ∀ n ∈ c.notes, n.type.isLegible

theorem nameable_of_builtSum? {t : Ty} {sum : String} {hasArg : Bool} (legible : t.isLegible)
    (built : builtSum? t = some (sum, hasArg)) : Nameable sum := by
  have whole := Ty.isLegible_body legible
  unfold builtSum? at built
  cases shape : t.body with
  | fn a r =>
    rw [shape] at built whole
    have result := (Bool.and_eq_true_iff.1 whole).2
    cases r <;> cases built
    · exact of_decide_eq_true result
    · exact (Ty.isLegible_app.1 result).1
  | named name =>
    rw [shape] at built whole
    cases built
    exact of_decide_eq_true whole
  | app name as =>
    rw [shape] at built whole
    cases built
    exact (Ty.isLegible_app.1 whole).1
  | _ =>
    rw [shape] at built
    cases built

theorem isLegible_bindTypeParams {params : List (String × Ty)} {t : Ty} (each : ∀ p ∈ params, p.2.isLegible)
    (legible : t.isLegible) : (bindTypeParams params t).isLegible := by
  induction t using Ty.induct with
  | int | double | string | bool | unit | host | var | num | scheme => exact legible
  | named name =>
    rw [bindTypeParams]
    cases found : params.lookup name with
    | none => exact legible
    | some u => exact each _ (mem_of_lookup found)
  | list a ih => exact ih legible
  | result a b iha ihb | fn a b iha ihb =>
    obtain ⟨first, second⟩ := Bool.and_eq_true_iff.1 legible
    exact Bool.and_eq_true_iff.2 ⟨iha first, ihb second⟩
  | app name as ih =>
    obtain ⟨named, all⟩ := Ty.isLegible_app.1 legible
    rw [bindTypeParams, bindTypeParamsAll_eq, Ty.isLegible_app, List.forall_mem_map]
    exact ⟨named, fun a member => ih a member (all a member)⟩

theorem isLegible_ctorType {params : List (String × Ty)} {self : Ty} {arg : Option Ty}
    (each : ∀ p ∈ params, p.2.isLegible) (legible : self.isLegible) (given : ∀ t ∈ arg, t.isLegible) :
    (ctorType params self arg).isLegible := by
  unfold ctorType
  generalize (params.reverse.map (·.2)).filterMap Ty.varId? = vars
  cases arg with
  | none => cases vars <;> exact legible
  | some a =>
    have type := Bool.and_eq_true_iff.2 ⟨isLegible_bindTypeParams each (given a rfl), legible⟩
    cases vars <;> exact type

/-- From legible types the computation makes legible ones, and its result is as said. -/
def Legibly {α : Type} (x : Infer α) (Q : α → Prop) : Prop :=
  ∀ ⦃s a s'⦄, s.Legible → x s = .ok a s' → Q a ∧ s'.Legible

variable {host : Host.Resolver} {env : Env} {α β : Type}

namespace Legibly

variable {x : Infer α} {f : α → Infer β} {P : α → Prop} {Q : β → Prop} {t u : Ty}

theorem pure {b : β} (holds : Q b) : Legibly (Pure.pure b : Infer β) Q := by
  intro s b' s' legible run
  cases run
  exact ⟨holds, legible⟩

theorem bind (first : Legibly x P) (next : ∀ a, P a → Legibly (f a) Q) : Legibly (x >>= f) Q := by
  intro s b s' legible run
  obtain ⟨a, s₁, runX, run⟩ := bind_ok run
  obtain ⟨holds, legible⟩ := first legible runX
  exact next a holds legible run

theorem both {P' : α → Prop} (first : Legibly x fun a => P a ∧ P' a)
    (next : ∀ a, P a → P' a → Legibly (f a) Q) : Legibly (x >>= f) Q :=
  first.bind fun a known => next a known.1 known.2

theorem foldlM {l : List α} {f : β → α → Infer β} (step : ∀ b, ∀ a ∈ l, Q b → Legibly (f b a) Q) {b : β}
    (start : Q b) : Legibly (l.foldlM f b) Q := fun _ _ _ legible run =>
  foldlM_invariant (P := fun b s => Q b ∧ State.Legible s)
    (fun b a member _ _ _ before run => step b a member before.1 before.2 run) ⟨start, legible⟩ run

theorem modify {g : State → State} (keeps : ∀ s, s.Legible → (g s).Legible) :
    Legibly (modify g : Infer PUnit) fun _ => True := by
  intro s a s' legible run
  cases run
  exact ⟨trivial, keeps s legible⟩

theorem get : Legibly (MonadState.get : Infer State) State.Legible := by
  intro s a s' legible run
  cases run
  exact ⟨legible, legible⟩

theorem refuse {place : Position} {issue : Issue} : Legibly (Typing.refuse place issue : Infer β) Q :=
  fun _ _ _ _ run => (not_refuse_ok run).elim

theorem stop {place : Position} {issue : Issue} : Legibly (Typing.refuse place issue >>= f) Q := by
  intro s b s' _ run
  obtain ⟨_, _, failed, -⟩ := bind_ok run
  exact (not_refuse_ok failed).elim

theorem freshOf {numeric : Bool} : Legibly (Typing.freshOf numeric) fun t => t.isLegible := by
  intro s a s' legible run
  cases run
  exact ⟨Ty.isLegible_ofVar _ _, legible.subst, legible.ctors, legible.uses⟩

theorem instantiate (inside : t.isLegible) : Legibly (Typing.instantiate t) fun u => u.isLegible := by
  intro s a s' legible run
  cases run
  exact ⟨Ty.isLegible_instantiate inside _, legible.subst, legible.ctors, legible.uses⟩

theorem resolve (inside : t.isLegible) : Legibly (Typing.resolve t) fun u => u.isLegible := by
  intro s a s' legible run
  cases run
  obtain ⟨resolved, subst⟩ := legible.subst.resolve inside
  exact ⟨resolved, subst, legible.ctors, legible.uses⟩

theorem prune (inside : t.isLegible) : Legibly (Typing.prune t) fun u => u.isLegible := by
  intro s a s' legible run
  cases run
  obtain ⟨root, subst⟩ := Subst.prune_within legible.subst inside
  exact ⟨root, subst, legible.ctors, legible.uses⟩

theorem fixedVars (inside : env.Legible) : Legibly (Typing.fixedVars env) fun _ => True := by
  intro s a s' legible run
  cases run
  exact ⟨trivial, inside.freeVars legible.subst, legible.ctors, legible.uses⟩

theorem generalize (around : env.Legible) (inside : t.isLegible) :
    Legibly (Typing.generalize env t) fun u => u.isLegible :=
  (resolve inside).bind fun t inside => (fixedVars around).bind fun fixed _ => pure <| by
    rw [generalize_eq]
    exact isLegible_quantify inside _

theorem generalizeLocal (around : env.Legible) (inside : t.isLegible) :
    Legibly (Typing.generalizeLocal env t) fun u => u.isLegible :=
  (resolve inside).bind fun t inside => (fixedVars around).bind fun fixed _ => pure <| by
    rw [generalize_eq]
    exact isLegible_quantify inside _

theorem freshen {m : Mapping} (inside : t.isLegible) (each : ∀ e ∈ m, e.2.isLegible) :
    Legibly (Typing.freshen t m) fun r => r.1.isLegible ∧ ∀ e ∈ r.2, e.2.isLegible := by
  refine (foldlM (Q := fun m => ∀ e ∈ m, e.2.isLegible) (fun m id _ each => ?_) each).bind fun m each =>
    pure ⟨Ty.isLegible_replace each (Ty.isLegible_body inside), each⟩
  split
  · exact pure each
  · exact freshOf.bind fun v fresh => pure (List.forall_mem_cons.2 ⟨fresh, each⟩)

theorem unify {place : Position} (insideT : t.isLegible) (insideU : u.isLegible) :
    Legibly (Typing.unify place t u) fun _ => True := by
  intro s a s' legible run
  obtain ⟨subst, unified, rfl⟩ := unify_ok run
  have kept := legible.subst.unify insideT insideU
  rw [unified] at kept
  exact ⟨trivial, kept, legible.ctors, legible.uses⟩

theorem findCtor {place : Position} {name : String} : Legibly (Typing.findCtor place name) Constructor.Legible := by
  refine get.bind fun s legible => ?_
  split
  · next found => exact pure (legible.ctors.get? found)
  · exact refuse

theorem lookup {place : Position} {name : String} (around : env.Legible) :
    Legibly (Typing.lookup env place name) fun t => t.isLegible := by
  unfold Typing.lookup
  split
  · next found => exact instantiate (around.get? found)
  · exact refuse

theorem binaryType {place : Position} {op : BinaryOp} {l r : Typed} (left : l.type.isLegible)
    (right : r.type.isLegible) : Legibly (Typing.binaryType place op l r) fun t => t.isLegible := by
  unfold Typing.binaryType
  split
  · refine freshOf.bind fun a fresh => (unify left fresh).bind fun _ _ => freshOf.bind fun b fresh =>
      (unify right fresh).bind fun _ _ => (prune left).bind fun _ _ => (prune right).bind fun _ _ => ?_
    split
    · exact pure rfl
    · exact (unify left right).bind fun _ _ => pure left
  · split
    · exact (unify left right).bind fun _ _ => pure rfl
    · exact (unify left rfl).bind fun _ _ => (unify right rfl).bind fun _ _ => pure rfl

theorem bindParams {names : List String} (around : env.Legible) : Legibly (Typing.bindParams env names)
    fun r => (∀ v ∈ r.1, v.isLegible) ∧ r.2.Legible := by
  induction names generalizing env with
  | nil => exact pure ⟨List.forall_mem_nil _, around⟩
  | cons name names ih =>
    exact freshOf.bind fun v fresh => (ih (around.extend name fresh)).both fun r each inner =>
      pure ⟨List.forall_mem_cons.2 ⟨fresh, each⟩, inner⟩

theorem unifyArgs {args : List (Position × Ty)} {params : List Ty} (given : ∀ a ∈ args, a.2.isLegible)
    (taken : ∀ p ∈ params, p.isLegible) : Legibly (Typing.unifyArgs args params) fun _ => True := by
  induction args generalizing params with
  | nil => exact pure trivial
  | cons arg args ih =>
    cases params with
    | nil => exact pure trivial
    | cons p params =>
      obtain ⟨first, given⟩ := List.forall_mem_cons.1 given
      obtain ⟨second, taken⟩ := List.forall_mem_cons.1 taken
      exact (unify first second).bind fun _ _ => ih given taken

theorem recordUse {callee : Expr Position} (inside : t.isLegible) :
    Legibly (Typing.recordUse env callee t) fun _ => True := by
  unfold Typing.recordUse
  split
  · refine get.bind fun s legible => ?_
    split
    · next seen b known _ =>
      split
      · refine (resolve inside).bind fun t inside => ?_
        split
        · have each : ∀ u ∈ t :: seen, u.isLegible := List.forall_mem_cons.2 ⟨inside, legible.uses.get? known⟩
          exact modify fun s legible => ⟨legible.subst, legible.ctors, legible.uses.insert _ each⟩
        · exact pure trivial
      · exact pure trivial
    · exact pure trivial
  · exact pure trivial

/-! ### Patterns and expressions -/

theorem checkPattern {p : Pattern Position} (around : env.Legible) (inside : t.isLegible) :
    Legibly (Typing.checkPattern env t p) fun r => r.1.Legible ∧ r.2.Legible := by
  induction p generalizing env t with
  | wild => exact pure ⟨List.forall_mem_singleton.2 inside, around⟩
  | var _ name => exact pure ⟨List.forall_mem_singleton.2 inside, around.extend name inside⟩
  | int | bool | str =>
    exact (unify inside rfl).bind fun _ _ => pure ⟨List.forall_mem_singleton.2 inside, around⟩
  | nil =>
    exact freshOf.bind fun elem fresh => (unify inside (Ty.isLegible_list fresh)).bind fun _ _ =>
      pure ⟨List.forall_mem_singleton.2 inside, around⟩
  | cons _ _ _ ihHead ihTail =>
    refine freshOf.bind fun elem fresh => (unify inside (Ty.isLegible_list fresh)).bind fun _ _ => ?_
    refine (ihHead around fresh).both fun head first around => ?_
    refine (ihTail around inside).both fun tail second around => pure ⟨?_, around⟩
    exact List.forall_mem_cons.2 ⟨inside, List.forall_mem_append.2 ⟨first, second⟩⟩
  | tag =>
    refine findCtor.bind fun info ctor => (instantiate ctor.type).bind fun type made => ?_
    dsimp only
    split
    · exact freshOf.bind fun _ fresh => (unify made (Ty.isLegible_fn fresh inside)).bind fun _ _ =>
        pure ⟨List.forall_mem_singleton.2 inside, around⟩
    · exact (unify inside made).bind fun _ _ => pure ⟨List.forall_mem_singleton.2 inside, around⟩
  | build _ _ _ ih =>
    refine findCtor.bind fun info ctor => (instantiate ctor.type).bind fun type made => ?_
    dsimp only
    split
    · exact stop
    · refine freshOf.bind fun payload fresh => (unify made (Ty.isLegible_fn fresh inside)).bind fun _ _ => ?_
      exact (ih around fresh).both fun arg each around => pure ⟨List.forall_mem_cons.2 ⟨inside, each⟩, around⟩

def Spells (host : Host.Resolver) (e : Expr Position) : Prop :=
  ∀ env : Env, env.Legible → Legibly (Typing.infer host env e) Expr.Legible

theorem inferAll {es : List (Expr Position)} {done : List (Expr Typed)} (around : env.Legible)
    (each : ∀ e ∈ es, Spells host e) (before : ∀ e ∈ done, e.Legible) :
    Legibly (Typing.inferAll host env done es) fun es => ∀ e ∈ es, e.Legible := by
  induction es generalizing done with
  | nil => exact pure fun e inside => before e (List.mem_reverse.1 inside)
  | cons e es ih =>
    obtain ⟨first, rest⟩ := List.forall_mem_cons.1 each
    simp only [Typing.inferAll]
    exact (first env around).bind fun e inferred => ih rest (List.forall_mem_cons.2 ⟨inferred, before⟩)

theorem inferElems {es : List (Expr Position)} {elem : Ty} {done : List (Expr Typed)} (around : env.Legible)
    (inside : elem.isLegible) (each : ∀ e ∈ es, Spells host e) (before : ∀ e ∈ done, e.Legible) :
    Legibly (Typing.inferElems host env elem done es) fun es => ∀ e ∈ es, e.Legible := by
  induction es generalizing done with
  | nil => exact pure fun e inside => before e (List.mem_reverse.1 inside)
  | cons e es ih =>
    obtain ⟨first, rest⟩ := List.forall_mem_cons.1 each
    simp only [Typing.inferElems]
    exact (first env around).bind fun e inferred => (unify inside inferred.note).bind fun _ _ =>
      ih rest (List.forall_mem_cons.2 ⟨inferred, before⟩)

theorem inferArgs {es : List (Expr Position)} {fn : Ty} {done : List (Expr Typed)} (around : env.Legible)
    (inside : fn.isLegible) (each : ∀ e ∈ es, Spells host e) (before : ∀ e ∈ done, e.Legible) :
    Legibly (Typing.inferArgs host env fn done es) fun r => r.1.isLegible ∧ ∀ e ∈ r.2, e.Legible := by
  induction es generalizing done fn with
  | nil => exact pure ⟨inside, fun e inside => before e (List.mem_reverse.1 inside)⟩
  | cons e es ih =>
    obtain ⟨first, rest⟩ := List.forall_mem_cons.1 each
    simp only [Typing.inferArgs]
    exact (first env around).bind fun e inferred => freshOf.bind fun result fresh =>
      (unify inside (Ty.isLegible_fn inferred.note fresh)).bind fun _ _ =>
        ih fresh rest (List.forall_mem_cons.2 ⟨inferred, before⟩)

theorem inferParts {ps : List (Part Position)} {done : List (Part Typed)} (around : env.Legible)
    (each : ∀ e, .hole e ∈ ps → Spells host e) (before : ∀ e, .hole e ∈ done → e.Legible) :
    Legibly (Typing.inferParts host env done ps) fun ps => ∀ e, .hole e ∈ ps → e.Legible := by
  induction ps generalizing done with
  | nil => exact pure fun e inside => before e (List.mem_reverse.1 inside)
  | cons part ps ih =>
    have rest : ∀ e, .hole e ∈ ps → Spells host e := fun e member => each e (List.mem_cons_of_mem _ member)
    cases part with
    | text t =>
      simp only [Typing.inferParts]
      refine ih rest fun e inside => before e ?_
      simpa using inside
    | hole e =>
      simp only [Typing.inferParts]
      refine (each e List.mem_cons_self env around).bind fun e' inferred => ih rest fun other inside => ?_
      rcases List.mem_cons.1 inside with same | inside
      · cases same
        exact inferred
      · exact before other inside

theorem inferArms {arms : List (Arm Position)} {scrutinee result : Ty} {done : List (Arm Typed)}
    (around : env.Legible) (inside : scrutinee.isLegible) (inside' : result.isLegible)
    (each : ∀ p b, .mk p b ∈ arms → Spells host b) (before : ∀ p b, .mk p b ∈ done → p.Legible ∧ b.Legible) :
    Legibly (Typing.inferArms host env scrutinee result done arms)
      fun arms => ∀ p b, .mk p b ∈ arms → p.Legible ∧ b.Legible := by
  induction arms generalizing done with
  | nil => exact pure fun p b inside => before p b (List.mem_reverse.1 inside)
  | cons arm arms ih =>
    obtain ⟨p, b⟩ := arm
    have rest : ∀ p b, .mk p b ∈ arms → Spells host b := fun p b member => each p b (List.mem_cons_of_mem _ member)
    simp only [Typing.inferArms]
    refine (checkPattern around inside).both fun r pattern inner => ?_
    refine (each p b List.mem_cons_self _ inner).bind fun e inferred => ?_
    refine (unify inside' inferred.note).bind fun _ _ => ih rest fun p' b' inside => ?_
    rcases List.mem_cons.1 inside with same | inside
    · cases same
      exact ⟨pattern, inferred⟩
    · exact before p' b' inside

theorem hostMember {place : Position} {owner member : String} {kind : Host.MemberKind}
    {args : List (Position × Ty)} (signatures : HostLegible host) (given : ∀ a ∈ args, a.2.isLegible) :
    Legibly (Typing.hostMember host place owner member kind args) fun n => n.type.isLegible := by
  unfold Typing.hostMember
  split
  · exact refuse
  · next s found =>
    obtain ⟨taken, result⟩ := signatures found
    dsimp only
    split
    · exact stop
    · exact (unifyArgs given taken).bind fun _ _ => pure result

theorem infer (signatures : HostLegible host) (e : Expr Position) (env : Env) (around : env.Legible) :
    Legibly (Typing.infer host env e) Expr.Legible := by
  have only {n : Typed} {e : Expr Typed} (alone : e.notes = [n]) (type : n.type.isLegible) : e.Legible := by
    rw [Expr.Legible, alone]
    exact List.forall_mem_singleton.2 type
  induction e using Expr.induct generalizing env with
  | int | float | bool | str | unit =>
    simp only [Typing.infer]
    exact pure (only rfl rfl)
  | interp _ _ ih =>
    simp only [Typing.infer]
    refine (inferParts around ih fun _ inside => absurd inside List.not_mem_nil).bind fun parts each => ?_
    refine pure (List.forall_mem_cons.2 ⟨rfl, fun n inside => ?_⟩)
    obtain ⟨e, member, here⟩ := Expr.mem_notesOfParts.1 inside
    exact each e member n here
  | var | qualified =>
    simp only [Typing.infer]
    exact (lookup around).bind fun t inside => pure (only rfl inside)
  | unary _ op _ ih =>
    simp only [Typing.infer]
    refine (ih env around).bind fun e inferred => ?_
    cases op with
    | not => exact (unify inferred.note rfl).bind fun _ _ => pure (List.forall_mem_cons.2 ⟨rfl, inferred⟩)
    | neg =>
      exact freshOf.bind fun _ fresh => (unify inferred.note fresh).bind fun _ _ =>
        pure (List.forall_mem_cons.2 ⟨inferred.note, inferred⟩)
  | binary _ _ _ _ ihL ihR =>
    simp only [Typing.infer]
    exact (ihL env around).bind fun l left => (ihR env around).bind fun r right =>
      (binaryType left.note right.note).bind fun t type =>
        pure (List.forall_mem_cons.2 ⟨type, List.forall_mem_append.2 ⟨left, right⟩⟩)
  | cond _ _ _ _ ihC ihT ihE =>
    simp only [Typing.infer]
    exact (ihC env around).bind fun c asked => (unify asked.note rfl).bind fun _ _ =>
      (ihT env around).bind fun t yes => (ihE env around).bind fun e no =>
      (unify yes.note no.note).bind fun _ _ => pure (List.forall_mem_cons.2
        ⟨yes.note, List.forall_mem_append.2 ⟨asked, List.forall_mem_append.2 ⟨yes, no⟩⟩⟩)
  | letIn _ name _ _ ihV ihB =>
    simp only [Typing.infer]
    exact (ihV env around).bind fun v value => (generalizeLocal around value.note).bind fun t type =>
      (ihB _ (around.extend name type)).bind fun b body =>
        pure (List.forall_mem_cons.2 ⟨body.note, List.forall_mem_append.2 ⟨value, body⟩⟩)
  | letRec _ name _ _ _ _ ihF ihB =>
    simp only [Typing.infer]
    refine freshOf.bind fun placeholder fresh => ?_
    refine (bindParams (around.extend name fresh)).both fun r params inner => ?_
    refine (ihF _ inner).bind fun fb inferred => ?_
    have type := isLegible_lambdaType params inferred.note
    refine (unify fresh type).bind fun _ _ => (generalizeLocal around type).bind fun t general => ?_
    exact (ihB _ (around.extend name general)).bind fun b body => pure (List.forall_mem_cons.2
      ⟨body.note, List.forall_mem_cons.2 ⟨type, List.forall_mem_append.2 ⟨inferred, body⟩⟩⟩)
  | lambda _ _ _ ih =>
    simp only [Typing.infer]
    exact (bindParams around).both fun r params inner => (ih _ inner).bind fun b body =>
      pure (List.forall_mem_cons.2 ⟨isLegible_lambdaType params body.note, body⟩)
  | apply _ _ _ ihC ih =>
    simp only [Typing.infer]
    exact (ihC env around).bind fun c callee => (inferArgs around callee.note ih (List.forall_mem_nil _)).both
      fun r type args => (recordUse callee.note).bind fun _ _ => pure (List.forall_mem_cons.2
        ⟨type, List.forall_mem_append.2 ⟨callee, Expr.legible_all args⟩⟩)
  | sequence _ _ ih =>
    simp only [Typing.infer]
    exact (inferAll around ih (List.forall_mem_nil _)).bind fun es each =>
      pure (List.forall_mem_cons.2 ⟨isLegible_lastType each, Expr.legible_all each⟩)
  | print _ _ ih =>
    simp only [Typing.infer]
    exact (ih env around).bind fun e inferred => pure (List.forall_mem_cons.2 ⟨rfl, inferred⟩)
  | list _ _ ih =>
    simp only [Typing.infer]
    exact freshOf.bind fun elem fresh => (inferElems around fresh ih (List.forall_mem_nil _)).bind fun es each =>
      pure (List.forall_mem_cons.2 ⟨fresh, Expr.legible_all each⟩)
  | cons _ _ _ ihH ihT =>
    simp only [Typing.infer]
    exact (ihH env around).bind fun h head => (ihT env around).bind fun t tail =>
      (unify tail.note (Ty.isLegible_list head.note)).bind fun _ _ =>
        pure (List.forall_mem_cons.2 ⟨tail.note, List.forall_mem_append.2 ⟨head, tail⟩⟩)
  | matchOn _ _ _ ihE ihArms =>
    simp only [Typing.infer]
    refine (ihE env around).bind fun e matched => ?_
    split
    · exact stop
    · refine freshOf.bind fun result fresh => (inferArms around matched.note fresh ihArms
        fun _ _ inside => absurd inside List.not_mem_nil).bind fun arms each => ?_
      refine pure (List.forall_mem_cons.2 ⟨fresh, List.forall_mem_append.2 ⟨matched, fun n inside => ?_⟩⟩)
      obtain ⟨p, b, member, here⟩ := Expr.mem_notesOfArms.1 inside
      exact here.elim ((each p b member).1 n) ((each p b member).2 n)
  | tag =>
    simp only [Typing.infer]
    refine findCtor.bind fun info ctor => (instantiate ctor.type).bind fun type made => ?_
    split
    · exact stop
    · exact pure (only rfl made)
  | build _ _ _ ih =>
    simp only [Typing.infer]
    refine findCtor.bind fun info ctor => (instantiate ctor.type).bind fun type made => ?_
    split
    · exact stop
    · exact (ih env around).bind fun e inferred => freshOf.bind fun result fresh =>
        (unify made (Ty.isLegible_fn inferred.note fresh)).bind fun _ _ =>
          pure (List.forall_mem_cons.2 ⟨fresh, inferred⟩)
  | hostCall _ _ _ _ ih =>
    simp only [Typing.infer]
    exact (inferAll around ih (List.forall_mem_nil _)).bind fun args each =>
      (hostMember signatures (isLegible_typesOf each)).bind fun n type =>
        pure (List.forall_mem_cons.2 ⟨type, Expr.legible_all each⟩)
  | hostMethod _ _ _ _ ihR ih =>
    simp only [Typing.infer]
    refine (ihR env around).bind fun r receiver => (resolve receiver.note).bind fun t _ => ?_
    split
    · exact refuse
    · exact (inferAll around ih (List.forall_mem_nil _)).bind fun args each =>
        (hostMember signatures (isLegible_typesOf each)).bind fun n type => pure (List.forall_mem_cons.2
          ⟨type, List.forall_mem_append.2 ⟨receiver, Expr.legible_all each⟩⟩)
  | hostField | hostNew =>
    simp only [Typing.infer]
    exact (hostMember signatures (List.forall_mem_nil _)).bind fun n type => pure (only rfl type)

/-! ### Functions and values -/

theorem bindTypedParams {m : Mapping} {params : List Param} (around : env.Legible)
    (written : ∀ p ∈ params, ∀ t ∈ p.type, t.isLegible) (each : ∀ e ∈ m, e.2.isLegible) :
    Legibly (Typing.bindTypedParams env m params)
      fun r => (∀ t ∈ r.1, t.isLegible) ∧ r.2.1.Legible ∧ ∀ e ∈ r.2.2, e.2.isLegible := by
  induction params generalizing env m with
  | nil => exact pure ⟨List.forall_mem_nil _, around, each⟩
  | cons p params ih =>
    obtain ⟨first, rest⟩ := List.forall_mem_cons.1 written
    simp only [Typing.bindTypedParams]
    split
    · next annotated =>
      exact (freshen (first _ annotated) each).both fun r inside each =>
        (ih (around.extend p.name inside) rest each).both fun r types kept =>
          pure ⟨List.forall_mem_cons.2 ⟨inside, types⟩, kept⟩
    · exact freshOf.bind fun t fresh => (ih (around.extend p.name fresh) rest each).both fun r types kept =>
        pure ⟨List.forall_mem_cons.2 ⟨fresh, types⟩, kept⟩

theorem inferFunction {d : FnDecl Position} (signatures : HostLegible host) (around : env.Legible)
    (params : ∀ p ∈ d.params, ∀ t ∈ p.type, t.isLegible) (result : ∀ t ∈ d.result, t.isLegible) :
    Legibly (Typing.inferFunction host env d)
      fun F => F.decl.name = d.name ∧ F.decl.note.type.isLegible ∧ F.decl.body.Legible ∧ F.type.isLegible := by
  unfold Typing.inferFunction
  refine freshOf.bind fun placeholder fresh => ?_
  refine (bindTypedParams (around.extend d.name fresh) params (List.forall_mem_nil _)).both fun r types kept => ?_
  refine (infer signatures d.body _ kept.1).bind fun body inferred => ?_
  have type := Ty.isLegible_fns types inferred.note
  dsimp only
  split
  · next annotated =>
    exact (freshen (result _ annotated) kept.2).both fun r inside _ => (unify inferred.note inside).bind fun _ _ =>
      (unify fresh type).bind fun _ _ => (generalize around type).bind fun t general =>
        pure ⟨rfl, type, inferred, general⟩
  · exact (unify fresh type).bind fun _ _ => (generalize around type).bind fun t general =>
      pure ⟨rfl, type, inferred, general⟩

/-! ### Imports and types -/

theorem importType (inside : t.isLegible) : Legibly (Typing.importType t) fun u => u.isLegible :=
  (freshen inside (List.forall_mem_nil _)).both fun r made _ => pure <| by
    rw [generalize_eq]
    exact isLegible_quantify made _

theorem importCtor {place : Position} {module name : String} {counts : NameMap Nat} (named : Distinct name)
    (inside : t.isLegible) : Legibly (Typing.importCtor place module name t counts) fun _ => True := by
  unfold Typing.importCtor
  split
  · exact refuse
  · next sum hasArg built =>
    refine (importType inside).bind fun type made => bind (modify fun s legible => ?_) fun _ _ => pure trivial
    have ctors := legible.ctors.insert (module ++ "." ++ name)
      (b := { name, sum, index := (counts.get? sum).getD 0, hasArg, module, type })
      ⟨named, nameable_of_builtSum? inside built, made⟩
    exact ⟨legible.subst, ctors, legible.uses⟩

theorem importExport {place : Position} {module : String} {counts : NameMap Nat} {e : Export}
    (around : env.Legible) (inside : e.type.isLegible) (named : ∀ ctor ∈ factoryOf? e.name, Distinct ctor) :
    Legibly (Typing.importExport place module env counts e) fun r => r.1.Legible := by
  unfold Typing.importExport
  split
  · next ctor found => exact (importCtor (named ctor found) inside).bind fun _ _ => pure around
  · split
    · exact pure around
    · exact (importType inside).bind fun type made => pure (around.extendGlobal _ made)

theorem importModule {importer : Option Importer} {place : Position} {name : String} (around : env.Legible)
    (spelled : ImportsLegible importer) : Legibly (Typing.importModule importer place env name) Env.Legible := by
  unfold Typing.importModule
  split
  · exact refuse
  · next find =>
    split
    · exact refuse
    · next interface found =>
      refine bind (modify fun s legible => ⟨legible.subst, legible.ctors, legible.uses⟩) fun _ _ => ?_
      refine (foldlM (Q := fun r => r.1.Legible) (fun r e listed around => ?_) around).bind
        fun r around => pure around
      obtain ⟨named, inside⟩ := spelled find rfl name interface found e listed
      exact importExport around inside named

theorem declare {p : Progress} {place : Position} {name : String} (legible : p.Legible) :
    Legibly (p.declare place name) Progress.Legible := by
  unfold Progress.declare
  split
  · exact refuse
  · exact pure ⟨legible.env, legible.functions, legible.values, legible.notes⟩

theorem declareCtors {p : Progress} {place : Position} {sum : String} {typeOf : Option Ty → Ty} {index : Nat}
    {ctors : List CtorDecl} (legible : p.Legible) (named : Nameable sum)
    (written : ∀ c ∈ ctors, Distinct c.name ∧ (typeOf c.arg).isLegible) :
    Legibly (Typing.declareCtors place sum typeOf p index ctors) Progress.Legible := by
  induction ctors generalizing p index with
  | nil => exact pure legible
  | cons c ctors ih =>
    obtain ⟨⟨distinct, type⟩, rest⟩ := List.forall_mem_cons.1 written
    simp only [Typing.declareCtors]
    refine (declare legible).bind fun p legible => get.bind fun s _ => ?_
    split
    · exact stop
    · refine bind (modify fun s legible => ?_) fun _ _ => ih ⟨legible.env.extendGlobal _ type, legible.functions,
        legible.values, legible.notes⟩ rest
      exact ⟨legible.subst, legible.ctors.insert _ ⟨distinct, named, type⟩, legible.uses⟩

theorem declareType {p : Progress} {d : TypeDecl Position} (legible : p.Legible) (named : Nameable d.name)
    (written : ∀ c ∈ d.ctors, Distinct c.name ∧ ∀ t ∈ c.arg, t.isLegible) :
    Legibly (Typing.declareType p d) Progress.Legible := by
  unfold Typing.declareType
  refine (declare legible).bind fun p legible => ?_
  dsimp only
  split
  · exact stop
  · refine (bindParams NameMap.each_empty).both fun r vars _ => ?_
    have params : ∀ e ∈ (d.params.zip r.1).reverse, e.2.isLegible := fun e listed =>
      vars e.2 (List.of_mem_zip (List.mem_reverse.1 listed)).2
    have self : (if r.1.isEmpty then Ty.named d.name else .app d.name r.1).isLegible := by
      split
      · exact decide_eq_true named
      · exact Ty.isLegible_app.2 ⟨named, vars⟩
    refine (declareCtors legible named fun c listed => ⟨(written c listed).1, ?_⟩).bind fun p legible => ?_
    · exact isLegible_ctorType params self (written c listed).2
    · exact bind (modify fun s legible => ⟨legible.subst, legible.ctors, legible.uses⟩) fun _ _ => pure legible

theorem baseEnv : Legibly Typing.baseEnv Env.Legible := by
  unfold Typing.baseEnv
  refine freshOf.bind fun a first => freshOf.bind fun ok second => freshOf.bind fun err third => ?_
  have build {arg : Ty} (inside : arg.isLegible) (vars : List VarId) :
      (Ty.scheme vars (.fn arg (.result ok err))).isLegible :=
    Ty.isLegible_fn inside (Ty.isLegible_result second third)
  have sum : Nameable Names.result := by decide
  have named : Distinct Names.ok ∧ Distinct Names.error := by decide
  refine bind (modify fun s legible => ⟨legible.subst, ?_, legible.uses⟩) fun _ _ => pure ?_
  · exact (legible.ctors.insert _ ⟨named.1, sum, build second _⟩).insert _ ⟨named.2, sum, build third _⟩
  · have base : Env.Legible .empty := NameMap.each_empty
    have print := base.extendGlobal Names.print (t := .scheme ([a].filterMap Ty.varId?) (.fn a .unit))
      (Ty.isLegible_fn first rfl)
    exact (print.extendGlobal Names.ok (build second _)).extendGlobal Names.error (build third _)

theorem openScope {importer : Option Importer} {m : Module Position} (spelled : Spelled importer m) :
    Legibly (Typing.openScope importer m) Progress.Legible := by
  unfold Typing.openScope
  refine baseEnv.bind fun env around => ?_
  refine (foldlM (fun env name _ around => importModule around spelled.imports) around).bind fun env around => ?_
  refine foldlM (fun p d listed legible => ?_)
    ⟨around, NameMap.each_empty, NameMap.each_empty, List.forall_mem_nil _⟩
  split
  · next d =>
    obtain ⟨named, written⟩ := spelled.types d listed
    exact declareType legible named written
  · exact pure legible

theorem inferDecl {p : Progress} {d : Decl Position} (signatures : HostLegible host) (legible : p.Legible)
    (written : ∀ f, d = .fn f → Distinct f.name ∧ (∀ p ∈ f.params, ∀ t ∈ p.type, t.isLegible) ∧
      ∀ t ∈ f.result, t.isLegible) : Legibly (Typing.inferDecl host p d) Progress.Legible := by
  cases d with
  | type d =>
    exact pure ⟨legible.env, legible.functions, legible.values, List.forall_mem_cons.2
      ⟨List.forall_mem_singleton.2 rfl, legible.notes⟩⟩
  | value d =>
    refine (declare legible).bind fun p legible => (infer signatures d.value _ legible.env).bind fun v inferred => ?_
    exact pure ⟨legible.env.extendGlobal _ inferred.note, legible.functions, legible.values.insert _ inferred.note,
      List.forall_mem_cons.2 ⟨List.forall_mem_cons.2 ⟨inferred.note, inferred⟩, legible.notes⟩⟩
  | fn d =>
    obtain ⟨named, params, result⟩ := written d rfl
    refine (declare legible).bind fun p legible => ?_
    refine (inferFunction signatures legible.env params result).bind fun F known => ?_
    obtain ⟨name, note, body, type⟩ := known
    have env := legible.env.extendGlobal d.name type
    have functions := legible.functions.insert d.name (b := F) ⟨name ▸ named, type⟩
    have notes : ∀ n ∈ declNotes (.fn F.decl), n.type.isLegible := List.forall_mem_cons.2 ⟨note, body⟩
    dsimp only
    split
    · refine bind (modify fun s legible => ?_) fun _ _ =>
        pure ⟨env, functions, legible.values, List.forall_mem_cons.2 ⟨notes, legible.notes⟩⟩
      split
      · exact legible
      · exact ⟨legible.subst, legible.ctors, legible.uses.insert _ (List.forall_mem_nil _)⟩
    · exact pure ⟨env, functions, legible.values, List.forall_mem_cons.2 ⟨notes, legible.notes⟩⟩

end Legibly

/-! ### Results -/

namespace Checked.Legible

variable {c : Checked} {s : Subst}

theorem usesOf (legible : c.Legible) {name : String} {t : Ty} (member : t ∈ c.usesOf name) : t.isLegible := by
  rw [Checked.usesOf, List.mem_mergeSort] at member
  cases recorded : c.uses.get? name with
  | none =>
    rw [recorded] at member
    cases member
  | some ts =>
    rw [recorded] at member
    exact legible.uses.get? recorded t member

theorem defaulted (legible : c.Legible) (subst : s.Legible) : (c.defaulted s).Legible := by
  have ints (keep ids : List VarId) (s : Subst) (subst : s.Legible) :
      (ids.foldl (fun s id => if keep.contains id then s else s.bind id .int) s).Legible := by
    induction ids generalizing s with
    | nil => exact subst
    | cons id ids ih =>
      refine ih _ ?_
      dsimp only
      split
      · exact subst
      · exact subst.bind rfl id
  have notes := legible.notes
  unfold Checked.defaulted
  generalize c.notes = ns at notes
  induction ns generalizing s with
  | nil => exact subst
  | cons n ns ih =>
    obtain ⟨first, rest⟩ := List.forall_mem_cons.1 notes
    exact ih (ints _ _ _ (subst.resolve first).2) rest

theorem closeType {t : Ty} (subst : s.Legible) (inside : t.isLegible) : (Typing.closeType s t).isLegible :=
  Ty.isLegible_dropIdle (subst.resolve inside).1

theorem closeUses {ts : List Ty} (subst : s.Legible) (each : ∀ t ∈ ts, t.isLegible) :
    ∀ t ∈ Typing.closeUses s ts, t.isLegible := by
  unfold Typing.closeUses
  induction ts with
  | nil => exact List.forall_mem_nil _
  | cons t ts ih =>
    obtain ⟨first, rest⟩ := List.forall_mem_cons.1 each
    rw [List.foldr_cons]
    dsimp only
    split
    · exact ih rest
    · exact List.forall_mem_cons.2 ⟨(subst.resolve first).1, ih rest⟩

theorem close (legible : c.Legible) (subst : s.Legible) : (c.close s).Legible := by
  have closed := legible.defaulted subst
  have notes := c.notes_close s
  rw [Checked.close_eq] at notes ⊢
  refine ⟨legible.functions.map fun F known => ⟨known.1, closeType closed known.2⟩, legible.ctors,
    legible.values.map fun t => closeType closed, legible.uses.map fun ts => closeUses closed, ?_⟩
  rw [notes]
  exact List.forall_mem_map.2 fun n noted => closeType closed (legible.notes n noted)

end Checked.Legible

/-- What is inferred of a module whose names can be written into a descriptor can be written so, too. -/
theorem check_legible {importer : Option Importer} {m : Module Position} {c : Checked}
    (signatures : HostLegible host) (spelled : Spelled importer m) (run : check host importer m = .ok c) :
    c.Legible := by
  unfold check at run
  split at run
  · next c' s' inferred =>
    cases run
    obtain ⟨raw, runRaw, rfl⟩ := inferModule_ok inferred
    obtain ⟨p, s₁, p', s₂, main, runO, runD, runM, gathers⟩ := inferOpen_parts runRaw
    have start : State.Legible {} := ⟨fun id t found => by simp [Subst.get?] at found,
      NameMap.each_empty, NameMap.each_empty⟩
    obtain ⟨opened, legible⟩ := Legibly.openScope spelled start runO
    obtain ⟨declared, legible⟩ := Legibly.foldlM (fun p d listed legible =>
      Legibly.inferDecl signatures legible fun f same => spelled.functions f (same ▸ listed)) opened legible runD
    have last : s'.Legible ∧ ∀ e ∈ main, e.Legible := by
      rcases runM with ⟨-, rfl, rfl⟩ | ⟨e, e', -, rfl, runE⟩
      · exact ⟨legible, fun e none => by cases none⟩
      · obtain ⟨inferred, legible⟩ := Legibly.infer signatures e _ declared.env legible runE
        exact ⟨legible, fun _ same => Option.some.inj same ▸ inferred⟩
    obtain ⟨legible, last⟩ := last
    refine Checked.Legible.close ⟨?_, ?_, ?_, ?_, fun n noted => ?_⟩ legible.subst
    · exact gathers.functions ▸ declared.functions
    · exact gathers.ctors_eq ▸ legible.ctors
    · exact gathers.values ▸ declared.values
    · exact gathers.uses_eq ▸ legible.uses
    · unfold Checked.notes at noted
      rw [gathers.decls, gathers.main] at noted
      rcases List.mem_append.1 noted with inside | inside
      · obtain ⟨d, listed, here⟩ := List.mem_flatMap.1 inside
        exact declared.notes d (List.mem_reverse.1 listed) n here
      · cases main with
        | none => cases inside
        | some e => exact last e rfl n inside
  · cases run

end Typing
end StackML
