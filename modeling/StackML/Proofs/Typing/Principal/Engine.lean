import StackML.Proofs.Typing.Principal.Binding

/-!
Principal types. In the part of the language without arithmetic and host members, inference succeeds
on exactly the expressions that have a type, and all their types are instances of the one it finds.
The engine may have been used before; all that counts is that the variables quantified by the
schemes in view are none that it will still give out and none that it has bound.
-/

namespace StackML.Typing

open Assignment

theorem sound_of_core {host : Host.Resolver} {ctors : NameMap Constructor}
    (closed : CtorsClosed ctors) {e : Expr Position} (core : e.Core) : Sound host ctors e := by
  induction core with
  | int | float | bool | str | unit =>
    intro N env w s s' e' fits scope run
    simp only [infer] at run
    obtain ⟨rfl, rfl⟩ := pure_ok run
    refine sound_of_pure fits scope (fun _ => .of_closed rfl rfl) rfl rfl fun θ Γ R => ?_
    constructor
    rfl
  | interp _ ih => exact sound_interp ih
  | var => exact sound_var
  | not _ ih => exact sound_unary ih
  | binary _ _ _ ihl ihr => exact sound_binary ihl ihr
  | cond _ _ _ ihc iht ihe => exact sound_cond ihc iht ihe
  | letIn _ _ ihv ihb => exact sound_letIn closed ihv ihb
  | letRec _ _ ihf ihb => exact sound_letRec closed ihf ihb
  | lambda _ ih => exact sound_lambda ih
  | apply _ _ ihc ih => exact sound_apply ihc ih
  | sequence _ ih => exact sound_sequence ih
  | print _ ih => exact sound_print ih
  | list _ ih => exact sound_list ih
  | cons _ _ ihh iht => exact sound_cons ihh iht
  | matchOn _ _ ihe ih => exact sound_matchOn closed ihe ih
  | tag => exact sound_tag closed
  | build _ ih => exact sound_build closed ih

/-! ### Engines -/

structure State.Regular (s : State) : Prop where
  fits : ∃ w, Fits s.ctors w s
  weighs : s.subst.Weighs

structure State.Leaves (s : State) (t : Ty) : Prop where
  mono : t.body.isMono
  closed : t.occurrences = []
  plain : ∀ o ∈ t.body.occurrences, o.2 = false
  known : ∀ a ∈ t.quantified, a ≤ s.last
  unbound : ∀ a ∈ t.quantified, s.subst.get? a = none

variable {host : Host.Resolver} {env : Env} {s s' : State} {e : Expr Position} {e' : Expr Typed}
  {t : Ty}

theorem State.regular_of_unused (unused : s.subst = {}) : s.Regular := by
  let g : Supply := ⟨∅, s.last, s.last, Int.le_refl _, by simp⟩
  have denotes : Subst.Denotes g s.subst {} := unused ▸ Subst.denotes_empty g
  exact ⟨⟨.ofDenotes denotes, denotes, rfl, rfl⟩, unused ▸ Subst.weighs_empty⟩

theorem Fits.exists_holds {ctors : NameMap Constructor} {w : Stage} (fits : Fits ctors w s) :
    ∃ u : Valuation, s.subst.Holds u ∧ u.Numeric w.supply.numeric := by
  obtain ⟨dom, rank, size, walk⟩ := fits.denotes
  let ground : Assignment := ⟨fun _ => .int, fun _ => .int⟩
  let u : Valuation := fun id => (w.meaning.var id).assign ground
  have open_ : ∀ o : VarId × Bool, w.meaning.Unbound o.1 → u.assignment.get o = ground.get o := by
    intro o free
    rw [Valuation.get_assignment]
    simp only [u, free.1, Ty.assign]
    rcases o with ⟨id, _ | _⟩ <;> rfl
  have solved : ∀ o, (w.meaning.get o).assign u.assignment = (w.meaning.get o).assign ground :=
    fun o => Ty.assign_congr fun p occurs => open_ p (w.unbound o p occurs)
  have both : ∀ id, (w.meaning.num id).assign ground = u id := by
    intro id
    cases found : s.subst.get? id with
    | some t => simp only [u, (walk.bound found).1, (walk.bound found).2]
    | none =>
      have free : w.meaning.Unbound id := walk.free (by simp [walk.dom_iff, found])
      simp only [u, free.1, free.2, Ty.assign, ground]
  refine ⟨u, walk.holds_iff.2 ?_, fun id member => ?_⟩
  · unfold Refines
    ext id
    · exact solved (id, false)
    · exact (solved (id, true)).trans (both id)
  · rw [← both id]
    rcases Ty.fitsNumeric_cases (w.numeric id member) with int | double | ⟨k, num⟩
    · exact .inl (by simp [int, Ty.assign])
    · exact .inr (by simp [double, Ty.assign])
    · exact .inl (by simp [num, Ty.assign, ground])

theorem State.Regular.exists_solution (regular : s.Regular) :
    ∃ x : Solution s.ctors, x.state = s := by
  obtain ⟨w, fits⟩ := regular.fits
  obtain ⟨u, holds, numeric⟩ := fits.exists_holds
  exact ⟨⟨w, s, u, fits, regular.weighs, holds, numeric⟩, rfl⟩

section View

variable (leaves : ∀ t ∈ visible env s.ctors, s.Leaves t)

include leaves

theorem ctorsClosed_of_leaves : CtorsClosed s.ctors := fun c member =>
  (leaves _ (.inr ⟨c, member, rfl⟩)).closed

theorem scope_of_leaves {w : Stage} (fits : Fits s.ctors w s) : Scope w (visible env s.ctors) where
  kinded t member := by
    have sorted : t.body.Sorted ∅ := ⟨(leaves t member).mono, fun o occurs => by
      simp [(leaves t member).plain o occurs]⟩
    obtain ⟨n, kinded⟩ := sorted.wellKinded
    exact ⟨⟨_, kinded n (Nat.le_refl n)⟩, by simp [(leaves t member).closed]⟩
  known t member a inside := fits.last ▸ (leaves t member).known a inside
  unbound t member a inside := by
    obtain ⟨dom, rank, size, walk⟩ := fits.denotes
    exact walk.free (by simp [walk.dom_iff, (leaves t member).unbound a inside])
  apart t _ u member v occurs := by simp [(leaves u member).closed] at occurs

theorem covered_of_leaves (u : Valuation) : Covered (env.context {}) env u {} := by
  intro name b found
  obtain ⟨c, known, rfl⟩ := Option.map_eq_some_iff.1 found
  have own := leaves _ (mem_visible known)
  rw [Ty.assign_default]
  exact ⟨own.mono, c, known, .of_closed own.closed fun o occurs _ => own.plain o occurs⟩

theorem context_of_leaves (R : Assignment) : env.context R = env.context {} := by
  funext name
  unfold Env.context
  cases found : env.get? name with
  | none => rfl
  | some c =>
    have closed := (leaves _ (mem_visible found)).closed
    rw [Option.map_some, Option.map_some, assign_of_closed closed, assign_of_closed closed]

end View

/-- The type of an expression as an engine shows it. -/
def State.shows (s : State) (e : Expr Typed) : Ty := (s.subst.resolve e.note.type).1

theorem Fits.shows {ctors : NameMap Constructor} {w : Stage} (fits : Fits ctors w s)
    (kinded : e'.note.type.WellKinded w.supply) : s.shows e' = e'.note.type.assign w.meaning := by
  obtain ⟨dom, rank, size, walk⟩ := fits.denotes
  obtain ⟨subst, resolved, -⟩ := Subst.resolve_spec walk kinded
  rw [State.shows, resolved]

/-! ### Principal types -/

theorem hasType_of_infer (regular : s.Regular) (leaves : ∀ t ∈ visible env s.ctors, s.Leaves t)
    (core : e.Core) (run : infer host env e s = .ok e' s') :
    HasType s.ctors (env.context {}) e (s'.shows e') := by
  obtain ⟨w, fits⟩ := regular.fits
  have scope := scope_of_leaves leaves fits
  obtain ⟨w', fits', kinded, way⟩ :=
    sound_of_core (ctorsClosed_of_leaves leaves) core (N := ∅) fits scope run
  have after := scope.after way
  obtain ⟨P, -, holds⟩ := way
  have holds := holds w' (.refl w') fun D _ => .refl D _
  have derives := holds.derives (fun t member => after.isPrivate member) {} kinded_default
  have erased : (e'.mapNotes (Typed.close w'.meaning)).erase = e :=
    (erase_mapNotes (Typed.close w'.meaning) (fun _ => rfl) e').trans (infer_faithful e run)
  have mono : ∀ n ∈ (e'.mapNotes (Typed.close w'.meaning)).notes, n.type.isMono := by
    rw [Expr.notes_mapNotes, List.forall_mem_map]
    exact fun n member => Ty.isMono_assign (holds.kinded n member).mono fun o _ => w'.mono o
  rw [context_of_leaves leaves] at derives
  have typed := agrees _ derives (erased.symm ▸ core) mono
  rwa [erased, Expr.note_mapNotes, Typed.close_type, ← fits'.shows kinded] at typed

theorem infer_of_hasType (host : Host.Resolver) (regular : s.Regular)
    (leaves : ∀ t ∈ visible env s.ctors, s.Leaves t) (core : e.Core)
    (typed : HasType s.ctors (env.context {}) e t) :
    ∃ e' s', infer host env e s = .ok e' s' ∧ s'.Regular ∧
      (∀ o ∈ (s'.shows e').occurrences, o.2 = false) ∧
      ∃ ρ : Assignment, t = (s'.shows e').assign ρ := by
  obtain ⟨x, same⟩ := regular.exists_solution
  have scope := scope_of_leaves leaves (same ▸ x.fits)
  have opened : Open env x := ⟨scope, fun t member o occurs _ => (leaves t member).plain o occurs⟩
  have finds : Complete host s.ctors e := complete (ctorsClosed_of_leaves leaves) core
  obtain ⟨e', y, run, trail, final⟩ := finds opened (covered_of_leaves leaves x.value) typed
  have kinded := trail.kinded rfl
  have shows := y.fits.shows kinded
  rw [same] at run
  refine ⟨e', y.state, run, ⟨⟨y.stage, y.fits.denotes, y.fits.last, rfl⟩, y.weighs⟩, ?_,
    y.value.assignment, ?_⟩
  · -- nothing in view has free variables, so those of the type are new, and no new one is numeric
    obtain ⟨P, runs, -⟩ := trail.way
    obtain ⟨-, avoid⟩ := runs.keeps {id | id ≤ x.stage.supply.last} (fun _ => id)
      fun u member v occurs => by simp [(leaves u member).closed] at occurs
    rw [shows]
    intro o occurs
    have new := (Ty.avoids_iff kinded.mono).1 (avoid _ rfl) o occurs
    have known := (y.stage.wellKinded_assign kinded).kinds o occurs
    by_contra numeric
    have inside := known.2.1 (by simpa using numeric)
    rw [trail.calm] at inside
    exact new (x.stage.supply.known _ inside)
  · rw [shows]
    exact ((y.final_assign kinded.mono).trans (final.trans (Ty.assign_default t))).symm

/-- Among the expressions without arithmetic and host members, inference succeeds on those that
have a type, and it finds a type that all others are instances of. -/
theorem infer_principal (host : Host.Resolver) (regular : s.Regular)
    (leaves : ∀ t ∈ visible env s.ctors, s.Leaves t) (core : e.Core) :
    ((∃ e' s', infer host env e s = .ok e' s') ↔ ∃ t, HasType s.ctors (env.context {}) e t) ∧
      ∀ e' s', infer host env e s = .ok e' s' →
        s'.Regular ∧ HasType s.ctors (env.context {}) e (s'.shows e') ∧
        (∀ o ∈ (s'.shows e').occurrences, o.2 = false) ∧
        ∀ t, HasType s.ctors (env.context {}) e t →
          ∃ ρ : Assignment, t = (s'.shows e').assign ρ := by
  refine ⟨⟨?_, ?_⟩, fun e' s' run => ?_⟩
  · rintro ⟨e', s', run⟩
    exact ⟨_, hasType_of_infer regular leaves core run⟩
  · rintro ⟨t, typed⟩
    obtain ⟨e', s', run, -⟩ := infer_of_hasType host regular leaves core typed
    exact ⟨e', s', run⟩
  · have least : ∀ t, HasType s.ctors (env.context {}) e t → s'.Regular ∧
        (∀ o ∈ (s'.shows e').occurrences, o.2 = false) ∧
        ∃ ρ : Assignment, t = (s'.shows e').assign ρ := by
      intro t typed
      obtain ⟨e'', s'', run', found⟩ := infer_of_hasType host regular leaves core typed
      rw [run] at run'
      cases run'
      exact found
    have typed := hasType_of_infer regular leaves core run
    exact ⟨(least _ typed).1, typed, (least _ typed).2.1, fun t other => (least t other).2.2⟩

/-! ### Variables that a scheme and the engine share -/

/-- A scheme that quantifies the variable 2. -/
def schemeOfTwo : Env := Env.extend .empty "g" (.scheme [2] (.var 2))

/-- `let f = fn a -> (fn b -> b) a in (f 1; f true)`. -/
def usedTwice : Expr Position :=
  .letIn {} "f"
    (.lambda {} ["a"] (.apply {} (.lambda {} ["b"] (.var {} "b")) [.var {} "a"]))
    (.sequence {} [.apply {} (.var {} "f") [.int {} 1], .apply {} (.var {} "f") [.bool {} true]])

theorem usedTwice_core : usedTwice.Core := by
  refine .letIn (.lambda (.apply (.lambda .var) ?_)) (.sequence ?_)
  · simpa using Expr.Core.var
  · simp only [List.forall_mem_cons]
    exact ⟨.apply .var (by simpa using Expr.Core.int), .apply .var (by simpa using Expr.Core.bool),
      by simp⟩

theorem instance_self {t : Ty} (mono : t.isMono) : t.Instance {} t :=
  ⟨{}, kinded_default, fun _ _ => ⟨rfl, rfl⟩, by rw [Ty.body_of_mono mono]⟩

theorem instance_identity {t : Ty} (mono : t.isMono) :
    (Ty.scheme [5] (.fn (.var 5) (.var 5))).Instance {} (.fn t t) := by
  refine ⟨⟨fun id => if id = 5 then t else .var id, .num⟩, ⟨?_, fun _ => rfl⟩, ?_, ?_⟩
  · rintro ⟨id, _ | _⟩
    · by_cases five : id = 5 <;> simp [Assignment.get, five, mono, Ty.isMono]
    · rfl
  · intro id outside
    have other : id ≠ 5 := by simpa [Ty.quantified] using outside
    simp [other]
  · simp [Ty.assign_default, Ty.body, Ty.assign]

theorem usedTwice_hasType : HasType .empty (schemeOfTwo.context {}) usedTwice .bool := by
  have lacks : (schemeOfTwo.context {}).Lacks [5] := by
    intro name t found
    obtain ⟨b, known, rfl⟩ := Option.map_eq_some_iff.1 found
    rw [schemeOfTwo, Env.extend, NameMap.get?_insert] at known
    split at known
    · cases known
      simp [Ty.assign_default, Ty.occurrences]
    · simp at known
  have identity : HasType .empty ((schemeOfTwo.context {}).extend "a" (.var 5))
      (.lambda {} ["b"] (.var {} "b")) (.fn (.var 5) (.var 5)) :=
    @HasType.lambda _ _ _ ["b"] [.var 5] _ (.var 5) rfl (by simp [Ty.isMono])
      (.var rfl (instance_self rfl))
  have value : HasType .empty (schemeOfTwo.context {})
      (.lambda {} ["a"] (.apply {} (.lambda {} ["b"] (.var {} "b")) [.var {} "a"]))
      (.fn (.var 5) (.var 5)) :=
    @HasType.lambda _ _ _ ["a"] [.var 5] _ (.var 5) rfl (by simp [Ty.isMono])
      (@HasType.apply _ _ _ _ _ [.var 5] (.var 5) identity
        (.cons (.var rfl (instance_self rfl)) .nil))
  have use : ∀ {t : Ty} {e : Expr Position}, t.isMono →
      HasType .empty ((schemeOfTwo.context {}).extend "f" (.scheme [5] (.fn (.var 5) (.var 5)))) e t →
      HasType .empty ((schemeOfTwo.context {}).extend "f" (.scheme [5] (.fn (.var 5) (.var 5))))
        (.apply {} (.var {} "f") [e]) t := fun {t e} mono typed =>
    @HasType.apply _ _ _ _ _ [t] t (.var rfl (instance_identity mono)) (.cons typed .nil)
  exact .letIn rfl value lacks
    (@HasType.sequence _ _ _ _ [.int, .bool] (.cons (use rfl .int) (.cons (use rfl .bool) .nil)))

theorem mem_visible_schemeOfTwo {t : Ty} (seen : t ∈ visible schemeOfTwo .empty) :
    t = .scheme [2] (.var 2) := by
  rcases seen with ⟨b, member, rfl⟩ | ⟨c, member, -⟩
  · rw [List.mem_singleton.1 member]
  · exact absurd member List.not_mem_nil

/-- An engine that has counted the variable 2 finds the type. -/
theorem infer_principal_usedTwice :
    ({ last := 2 } : State).Regular ∧
      (∀ t ∈ visible schemeOfTwo .empty, ({ last := 2 } : State).Leaves t) ∧ usedTwice.Core ∧
      ∃ e' s', infer (.chain []) schemeOfTwo usedTwice { last := 2 } = .ok e' s' ∧
        HasType .empty (schemeOfTwo.context {}) usedTwice (s'.shows e') ∧
        ∀ t, HasType .empty (schemeOfTwo.context {}) usedTwice t →
          ∃ ρ : Assignment, t = (s'.shows e').assign ρ := by
  have regular : ({ last := 2 } : State).Regular := State.regular_of_unused rfl
  have leaves : ∀ t ∈ visible schemeOfTwo .empty, ({ last := 2 } : State).Leaves t := by
    intro t seen
    rw [mem_visible_schemeOfTwo seen]
    exact ⟨rfl, rfl, by simp [Ty.body, Ty.occurrences], by simp [Ty.quantified],
      by simp [Ty.quantified, Subst.get?, Std.TreeMap.get?_eq_getElem?]⟩
  obtain ⟨succeeds, principal⟩ := infer_principal (.chain []) regular leaves usedTwice_core
  obtain ⟨e', s', run⟩ := succeeds.2 ⟨_, usedTwice_hasType⟩
  obtain ⟨-, typed, -, least⟩ := principal e' s' run
  exact ⟨regular, leaves, usedTwice_core, e', s', run, typed, least⟩

/-- A new engine gives out the variable 2 itself. What it comes to stand for is then taken to be free
in the scheme, so that the local function is not generalized and its second use is refused. -/
theorem infer_usedTwice_refused :
    (∀ t ∈ visible schemeOfTwo ({} : State).ctors,
        t.body.isMono ∧ t.occurrences = [] ∧ ∀ o ∈ t.body.occurrences, o.2 = false) ∧
      usedTwice.Core ∧ HasType ({} : State).ctors (schemeOfTwo.context {}) usedTwice .bool ∧
      ¬∃ e' s', infer (.chain []) schemeOfTwo usedTwice {} = .ok e' s' := by
  refine ⟨fun t seen => ?_, usedTwice_core, usedTwice_hasType, ?_⟩
  · rw [mem_visible_schemeOfTwo seen]
    exact ⟨rfl, rfl, by simp [Ty.body, Ty.occurrences]⟩
  · rintro ⟨e', s', run⟩
    have refused : (EStateM.run' (infer (.chain []) schemeOfTwo usedTwice) {}).isNone = true := by
      decide +kernel
    have same : ∀ (x : Infer (Expr Typed)) (s : State), x.run' s = EStateM.run' (fun _ => x s) s :=
      fun _ _ => rfl
    rw [same, run] at refused
    cases refused

end StackML.Typing
