import StackML.Proofs.Ty.Inversion
import StackML.Proofs.Typing.Infer.Lists
import StackML.Typing.Module

/-!
The types at which polymorphic functions are used. A use is recorded in the middle of inference, when
its type has no variables left. What the function does not quantify is settled by then as far as the
use goes, so the type remains an instance of the function's scheme at every later stage.
-/

namespace StackML.Typing

open Assignment

variable {ctors : NameMap Constructor} {env inner : Env} {w w' : Stage} {s s' s'' : State} {b t : Ty}

structure UsedAt (b : Ty) (R : Assignment) (t : Ty) : Prop where
  mono : t.isMono
  closed : t.occurrences = []
  fits : ∃ ρ : Assignment, t = b.body.assign ρ ∧ ∀ o ∈ b.body.occurrences,
    (o.1 ∉ b.quantified → ρ.get o = R.get o) ∧ (o.2 = true → (ρ.get o).fitsNumeric)

theorem Ty.get_closed {ρ : Assignment} (mono : t.isMono) (closed : (t.assign ρ).occurrences = [])
    {o : VarId × Bool} (occurs : o ∈ t.occurrences) : (ρ.get o).occurrences = [] := by
  refine List.eq_nil_iff_forall_not_mem.2 fun v inside => ?_
  have := (Ty.mem_occurrences_assign mono ρ v).2 ⟨o, occurs, inside⟩
  simp [closed] at this

theorem UsedAt.later (used : UsedAt b w.meaning t) (mono : b.body.isMono) (before : w.Before w') :
    UsedAt b w'.meaning t := by
  obtain ⟨monoT, closed, ρ, rfl, fits⟩ := used
  refine ⟨monoT, closed, ρ, rfl, fun o occurs => ⟨fun free => ?_, (fits o occurs).2⟩⟩
  have settled : (w.meaning.get o).occurrences = [] :=
    (fits o occurs).1 free ▸ Ty.get_closed mono closed occurs
  rw [(fits o occurs).1 free, ← before.refines, get_comp, assign_of_closed settled]

theorem UsedAt.matchWith {f : Stage} (used : UsedAt b f.meaning t)
    (kinded : b.body.WellKinded f.supply) (unbound : ∀ a ∈ b.quantified, f.meaning.Unbound a) :
    ((b.body.assign f.meaning).matchWith t []).1 = true := by
  obtain ⟨-, closed, ρ, rfl, fits⟩ := used
  have value : ∀ o ∈ b.body.occurrences, (f.meaning.get o).assign ρ = ρ.get o := by
    intro o occurs
    by_cases quantified : o.1 ∈ b.quantified
    · rw [(unbound o.1 quantified).get, Ty.assign_ofVar]
    · rw [← (fits o occurs).1 quantified,
        assign_of_closed (Ty.get_closed kinded.mono closed occurs)]
  have again : b.body.assign ρ = (b.body.assign f.meaning).assign ρ := by
    rw [Ty.assign_assign kinded.mono]
    exact Ty.assign_congr fun o occurs => (get_comp _ _ o).symm ▸ (value o occurs).symm
  rw [again]
  refine (f.wellKinded_assign kinded).matchWith_assign fun v inside numeric => ?_
  obtain ⟨o, occurs, inside⟩ := (Ty.mem_occurrences_assign kinded.mono _ v).1 inside
  by_cases quantified : o.1 ∈ b.quantified
  · rw [(unbound o.1 quantified).get, Ty.occurrences_ofVar, List.mem_singleton] at inside
    subst inside
    exact (fits o occurs).2 numeric
  · have none := Ty.get_closed kinded.mono closed occurs
    rw [(fits o occurs).1 quantified] at none
    simp [none] at inside

theorem usedAt_of_instantiate {last : VarId} (shown : b.Presentable w.supply)
    (kinded : (b.instantiate last).1.WellKinded w.supply)
    (closed : ((b.instantiate last).1.assign w.meaning).occurrences = []) :
    UsedAt b w.meaning ((b.instantiate last).1.assign w.meaning) := by
  have numeric : ∀ v : VarId × Bool, v ∈ (b.instantiate last).1.occurrences → v.2 = true →
      (w.meaning.get v).fitsNumeric := by
    rintro ⟨id, _⟩ occurs rfl
    exact w.numeric id ((kinded.kinds _ occurs).2.1 rfl)
  have monoT : ((b.instantiate last).1.assign w.meaning).isMono :=
    Ty.isMono_assign kinded.mono fun o _ => w.mono o
  rcases Ty.mono_or_scheme shown.mono with mono | ⟨vars, body, rfl⟩
  · have same : b.instantiate last = (b, last) := by
      cases b with
      | scheme vars body => simp [Ty.isMono] at mono
      | _ => rfl
    rw [same] at closed numeric monoT ⊢
    refine ⟨monoT, closed, w.meaning, by rw [Ty.body_of_mono mono], fun o occurs => ⟨fun _ => rfl, ?_⟩⟩
    exact numeric o (Ty.body_of_mono mono ▸ occurs)
  · obtain ⟨h, sorted⟩ := shown.sorted
    change body.WellKinded h at sorted
    let g : Supply := ⟨∅, last, last, Int.le_refl _, by simp⟩
    obtain ⟨g', -, -, others, each⟩ := Ty.freshMapping_spec body vars g
    have shape : ((Ty.scheme vars body).instantiate last).1 =
        body.assign (ofMapping (body.freshMapping vars last).1) := Ty.replace_eq_assign _ _
    rw [shape] at closed numeric monoT ⊢
    change ∀ id ∉ vars, (body.freshMapping vars last).1.get? id = none at others
    generalize (body.freshMapping vars last).1 = m at others each closed numeric monoT ⊢
    -- a variable of the body becomes a variable of the same kind
    have becomes : ∀ o ∈ body.occurrences, ∃ id, (ofMapping m).get o = Ty.ofVar id o.2 := by
      rintro ⟨id, _⟩ occurs
      by_cases member : id ∈ vars
      · obtain ⟨k, found, -⟩ := each id member
        rw [Ty.isNumericIn_of_mem sorted occurs] at found
        exact ⟨k, by simp [ofMapping, Assignment.get, found]⟩
      · exact ⟨id, by simp [ofMapping, Assignment.get, others id member, Ty.ofVar]⟩
    rw [Ty.assign_assign sorted.mono] at closed monoT ⊢
    refine ⟨monoT, closed, _, rfl, fun o occurs => ⟨fun free => ?_, fun kind => ?_⟩⟩
    · have kept : (ofMapping m).get o = Ty.ofVar o.1 o.2 := by
        simp [ofMapping, Assignment.get, others o.1 free, Ty.ofVar]
      rw [get_comp, kept, Ty.assign_ofVar]
    · obtain ⟨id, found⟩ := becomes o occurs
      rw [get_comp, found, Ty.assign_ofVar (o := (id, o.2))]
      refine numeric _ ((Ty.mem_occurrences_assign sorted.mono _ _).2 ⟨o, occurs, ?_⟩) kind
      rw [found, Ty.occurrences_ofVar]
      exact List.mem_singleton_self _

/-! ### Recorded uses -/

def Locally (env inner : Env) : Prop :=
  ∀ name b, inner.get? name = some b → b.global = true → env.get? name = some b

theorem Locally.refl (env : Env) : Locally env env := fun _ _ found _ => found

theorem Locally.extend (h : Locally env inner) (name : String) (t : Ty) :
    Locally env (inner.extend name t) := by
  intro other b found isGlobal
  rw [Env.extend, NameMap.get?_insert] at found
  split at found
  · cases found
    cases isGlobal
  · exact h other b found isGlobal

/-- Each use recorded on the way from one state to another is a use of a global name at the type it
has in the environment. -/
def Records (env : Env) (R : Assignment) (s s' : State) : Prop :=
  ∀ name ts', s'.uses.get? name = some ts' → ∃ ts, s.uses.get? name = some ts ∧
    ∀ t ∈ ts', t ∈ ts ∨ ∃ b, env.get? name = some b ∧ b.global = true ∧ UsedAt b.type R t

theorem records_of_eq {R : Assignment} (same : s'.uses = s.uses) : Records env R s s' :=
  fun _ ts' found => ⟨ts', same ▸ found, fun _ => .inl⟩

theorem Records.later (records : Records env w.meaning s s') (scope : Scope w (visible env ctors))
    (before : w.Before w') : Records env w'.meaning s s' := by
  intro name ts' found
  obtain ⟨ts, known, each⟩ := records name ts' found
  refine ⟨ts, known, fun t member => (each t member).imp_right ?_⟩
  rintro ⟨b, bound, isGlobal, used⟩
  exact ⟨b, bound, isGlobal, used.later (scope.kinded _ (mem_visible bound)).mono before⟩

theorem Records.trans {R : Assignment} (first : Records env R s s') (second : Records env R s' s'') :
    Records env R s s'' := by
  intro name ts'' found
  obtain ⟨ts', found', new⟩ := second name ts'' found
  obtain ⟨ts, known, old⟩ := first name ts' found'
  exact ⟨ts, known, fun t member => (new t member).elim (old t) .inr⟩

theorem Records.of_inner {R : Assignment} (records : Records inner R s s')
    (same : Locally env inner) : Records env R s s' := by
  intro name ts' found
  obtain ⟨ts, known, each⟩ := records name ts' found
  refine ⟨ts, known, fun t member => (each t member).imp_right ?_⟩
  rintro ⟨b, bound, isGlobal, used⟩
  exact ⟨b, same name b bound isGlobal, isGlobal, used⟩

/-- The type of a node, if it is a name: an instance of what the environment says, as it was when
the name was visited. -/
def Opens (env : Env) (callee : Expr Position) (t : Ty) : Prop :=
  ∀ p name, callee = .var p name → ∃ b last, env.get? name = some b ∧ t = (b.type.instantiate last).1

theorem resolve_uses {u : Ty} (run : resolve t s = .ok u s') : s'.uses = s.uses := by
  cases run
  rfl

theorem recordUse_records {callee : Expr Position} {u : Unit} (fits : Fits ctors w s)
    (scope : Scope w (visible env ctors)) (kinded : t.WellKinded w.supply)
    (opens : Opens env callee t) (run : recordUse env callee t s = .ok u s') :
    Records env w.meaning s s' := by
  cases callee with
  | var p name =>
    simp only [recordUse] at run
    obtain ⟨_, _, ⟨⟩, run⟩ := bind_ok run
    cases seen : s.uses.get? name with
    | none =>
      simp only [seen] at run
      cases run
      exact records_of_eq rfl
    | some ts =>
      cases found : env.get? name with
      | none =>
        simp only [seen, found] at run
        cases run
        exact records_of_eq rfl
      | some b =>
        simp only [seen, found] at run
        split at run
        · next isGlobal =>
          obtain ⟨t', s₁, runT, run⟩ := bind_ok run
          have kept := resolve_uses runT
          obtain ⟨rfl, -⟩ := resolve_spec fits kinded runT
          split at run
          · next new =>
            cases run
            obtain ⟨b', last, known, rfl⟩ := opens p name rfl
            obtain rfl : b = b' := Option.some.inj (found.symm.trans known)
            simp only [Ty.hasVars, Bool.not_not, Bool.and_eq_true, List.isEmpty_iff] at new
            have used := usedAt_of_instantiate (scope.kinded _ (mem_visible found)) kinded new.1
            intro other ts' listed
            rw [NameMap.get?_insert] at listed
            split at listed
            · next same =>
              cases listed
              subst same
              refine ⟨ts, seen, fun t member => ?_⟩
              rcases List.mem_cons.1 member with rfl | old
              · exact .inr ⟨b, found, isGlobal, used⟩
              · exact .inl old
            · exact ⟨ts', kept ▸ listed, fun _ => .inl⟩
          · cases run
            exact records_of_eq kept
        · cases run
          exact records_of_eq rfl
  | _ =>
    cases run
    exact records_of_eq rfl

/-! ### Opening a scope -/

def RecordsNone {α : Type} (x : Infer α) : Prop := ∀ ⦃s a s'⦄, x s = .ok a s' → s'.uses = s.uses

namespace RecordsNone

variable {α β : Type} {x : Infer α} {f : α → Infer β}

theorem pure {a : α} : RecordsNone (Pure.pure a : Infer α) := by
  intro s b s' run
  cases run
  rfl

theorem bind (first : RecordsNone x) (next : ∀ a, RecordsNone (f a)) : RecordsNone (x >>= f) := by
  intro s b s' run
  obtain ⟨a, s₁, runX, run⟩ := bind_ok run
  exact (next a run).trans (first runX)

theorem get : RecordsNone (MonadState.get : Infer State) := by
  intro s a s' run
  cases run
  rfl

theorem modify {g : State → State} (same : ∀ s, (g s).uses = s.uses) :
    RecordsNone (modify g : Infer PUnit) := by
  intro s a s' run
  cases run
  exact same s

theorem refuse {place : Position} {issue : Issue} :
    RecordsNone (Typing.refuse place issue : Infer α) :=
  fun _ _ _ run => (not_refuse_ok run).elim

theorem freshOf {numeric : Bool} : RecordsNone (Typing.freshOf numeric) := by
  intro s a s' run
  cases run
  rfl

theorem foldlM {f : β → α → Infer β} {l : List α} (each : ∀ b, ∀ a ∈ l, RecordsNone (f b a))
    (b : β) : RecordsNone (l.foldlM f b) := by
  intro s b' s' run
  exact foldlM_invariant (P := fun _ s₁ => s₁.uses = s.uses)
    (fun b a member _ _ _ before step => (each b a member step).trans before) rfl run

theorem freshen {m : Mapping} : RecordsNone (Typing.freshen t m) := by
  refine bind (foldlM (fun m id _ => ?_) m) fun _ => pure
  split
  · exact pure
  · exact freshOf.bind fun _ => pure

theorem bindParams {names : List String} : RecordsNone (Typing.bindParams env names) := by
  induction names generalizing env with
  | nil => exact pure
  | cons name names ih => exact freshOf.bind fun _ => ih.bind fun _ => pure

theorem importType : RecordsNone (Typing.importType t) := freshen.bind fun _ => pure

theorem importExport {place : Position} {module : String} {counts : NameMap Nat} {e : Export} :
    RecordsNone (Typing.importExport place module env counts e) := by
  unfold Typing.importExport
  split
  · refine bind ?_ fun _ => pure
    unfold importCtor
    split
    · exact refuse
    · exact importType.bind fun _ => (modify fun _ => by rfl).bind fun _ => pure
  · split
    · exact pure
    · exact importType.bind fun _ => pure

theorem importModule {importer : Option Importer} {place : Position} {name : String} :
    RecordsNone (Typing.importModule importer place env name) := by
  unfold Typing.importModule
  split
  · exact refuse
  · split
    · exact refuse
    · exact (modify fun _ => by rfl).bind fun _ =>
        (foldlM (fun _ _ _ => importExport) _).bind fun _ => pure

theorem declare {p : Progress} {place : Position} {name : String} :
    RecordsNone (p.declare place name) := by
  unfold Progress.declare
  split
  · exact refuse
  · exact pure

theorem declareCtors {place : Position} {sum : String} {typeOf : Option Ty → Ty} {p : Progress}
    {index : Nat} {ctors : List CtorDecl} :
    RecordsNone (Typing.declareCtors place sum typeOf p index ctors) := by
  induction ctors generalizing p index with
  | nil => exact pure
  | cons c ctors ih =>
    simp only [Typing.declareCtors]
    refine declare.bind fun _ => get.bind fun _ => ?_
    split
    · exact refuse.bind fun _ => (modify fun _ => by rfl).bind fun _ => ih
    · exact (modify fun _ => by rfl).bind fun _ => ih

theorem declareType {p : Progress} {d : TypeDecl Position} :
    RecordsNone (Typing.declareType p d) := by
  unfold Typing.declareType
  refine declare.bind fun _ => ?_
  dsimp only
  split
  · exact refuse.bind fun _ => bindParams.bind fun _ => declareCtors.bind fun _ =>
      (modify fun _ => by rfl).bind fun _ => pure
  · exact bindParams.bind fun _ => declareCtors.bind fun _ =>
      (modify fun _ => by rfl).bind fun _ => pure

theorem openScope {importer : Option Importer} {m : Module Position} :
    RecordsNone (Typing.openScope importer m) := by
  refine bind ?_ fun _ => (foldlM (fun _ _ _ => importModule) _).bind fun _ =>
    foldlM (fun _ d _ => ?_) _
  · exact freshOf.bind fun _ => freshOf.bind fun _ => freshOf.bind fun _ =>
      (modify fun _ => by rfl).bind fun _ => pure
  · cases d with
    | type d => exact declareType
    | fn d => exact pure
    | value d => exact pure

end RecordsNone
end StackML.Typing
