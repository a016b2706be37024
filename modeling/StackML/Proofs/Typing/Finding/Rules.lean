import StackML.Proofs.Typing.Declarations
import StackML.Proofs.Typing.Usage

/-!
What a part of inference finds: the types of all the nodes it notes, not only that of the tree it
gives back. Whatever the visible types do not lead to, none of the found types leads to either. A
part of inference is described by how it continues a course; the rules follow its steps, and the
types of a tree are put together where the tree is.
-/

namespace StackML.Typing

open Assignment

variable {host : Host.Resolver} {ctors : NameMap Constructor} {env inner : Env}
  {w w₁ w₂ : Stage} {s s₁ s₂ : State} {T O M : Set Ty} {a b t : Ty} {α β : Type}

/-! ### Sets of types -/

def noted (ns : List Typed) : Set Ty := {t | ∃ n ∈ ns, n.type = t}

@[simp] theorem noted_nil : noted [] = ∅ := by simp [noted]

@[simp] theorem noted_cons (n : Typed) (ns : List Typed) :
    noted (n :: ns) = insert n.type (noted ns) := by
  ext t
  simp [noted, eq_comm]

@[simp] theorem noted_append (ms ns : List Typed) : noted (ms ++ ns) = noted ms ∪ noted ns := by
  ext t
  simp [noted, or_and_right, exists_or]

theorem mem_noted {n : Typed} {ns : List Typed} (member : n ∈ ns) : n.type ∈ noted ns :=
  ⟨n, member, rfl⟩

@[simp] theorem type_mem_noted (e : Expr Typed) : e.note.type ∈ noted e.notes :=
  mem_noted e.note_mem_notes

structure Made (T O : Set Ty) (t : Ty) : Prop where
  covers : Covers (T ∪ O) {t}
  mono : (∀ u ∈ O, u.isMono) → t.isMono

namespace Made

theorem of_mem (member : t ∈ O) : Made T O t :=
  ⟨.of_mem (.inr member), fun mono => mono t member⟩

theorem of_closed (mono : t.isMono) (closed : t.occurrences = []) : Made T O t :=
  ⟨.of_occurrences (by simp [closed]), fun _ => mono⟩

theorem list (made : Made T O a) : Made T O (.list a) := ⟨Covers.list_iff.2 made.covers, made.mono⟩

theorem fn (first : Made T O a) (second : Made T O b) : Made T O (.fn a b) :=
  ⟨Covers.fn_iff.2 ⟨first.covers, second.covers⟩, fun mono => by
    simp [Ty.isMono, first.mono mono, second.mono mono]⟩

theorem fns {ps : List Ty} (params : ∀ p ∈ ps, Made T O p) (result : Made T O t) :
    Made T O (Ty.fns ps t) := by
  induction ps with
  | nil => exact result
  | cons p ps ih =>
    rw [List.forall_mem_cons] at params
    exact fn params.1 (ih params.2)

theorem lambdaType {ps : List Ty} (params : ∀ p ∈ ps, Made T O p) (result : Made T O t) :
    Made T O (Typing.lambdaType ps t) := by
  unfold Typing.lambdaType
  split
  · exact fn (of_closed rfl rfl) result
  · exact fns params result

end Made

/-! ### Courses -/

theorem Reaches.wellKinded {N : Set VarId} {claim : Stage → Prop} (way : Reaches N T w w₁ O claim)
    (mono : ∀ u ∈ O, u.isMono) (made : Made T O t) : t.WellKinded w₁.supply := by
  refine ⟨made.mono mono, fun o occurs => ?_⟩
  obtain ⟨u, old | new, inside⟩ := made.covers t rfl o occurs
  · exact ((way.inView u old).free o inside).grow way.before.grows
  · exact (way.kinded new).free o inside

theorem Reaches.forget {N : Set VarId} {claim : Stage → Prop} (way : Reaches N T w w₁ O claim)
    (N₁ : Set VarId) : Reaches N₁ T w w₁ O fun _ => True := by
  obtain ⟨P, runs, -⟩ := way
  refine ⟨∅, ?_, fun _ _ _ => trivial⟩
  exact { runs with
    fresh := fun p member => member.elim
    plain := fun p member => member.elim
    apart := fun o _ v _ => id
    result := fun t _ o _ v _ => id }

theorem Reaches.union {N : Set VarId} {claim claim₁ : Stage → Prop}
    (first : Reaches ∅ T w w₁ O claim) (second : Reaches N T w w₁ M claim₁) :
    Reaches ∅ T w w₁ (O ∪ M) fun _ => True := by
  obtain ⟨P, runs, -⟩ := first.forget ∅
  obtain ⟨P₁, runs₁, -⟩ := second
  refine ⟨∅, ?_, fun _ _ _ => trivial⟩
  exact { runs with
    keeps := fun D old apart => by
      obtain ⟨keeps, avoid⟩ := runs.keeps D old apart
      exact ⟨keeps, avoid.union (runs₁.keeps D old apart).2⟩
    fresh := fun p member => member.elim
    plain := fun p member => member.elim
    apart := fun o _ v _ => id
    result := fun t _ o _ v _ => id
    kinded := fun t member => member.elim (runs.kinded t) (runs₁.kinded t) }

/-- The course of inference in an environment, from one stage and state to another: the types that
were found, none of which has quantifiers, and the uses that were recorded. -/
structure Course (ctors : NameMap Constructor) (env : Env) (w : Stage) (s : State) (O : Set Ty)
    (w₁ : Stage) (s₁ : State) : Prop where
  scope : Scope w (visible env ctors)
  way : Reaches ∅ (visible env ctors) w w₁ O fun _ => True
  mono : ∀ t ∈ O, t.isMono
  fits : Fits ctors w₁ s₁
  records : Records env w₁.meaning s s₁

namespace Course

theorem start (scope : Scope w (visible env ctors)) (fits : Fits ctors w s) :
    Course ctors env w s ∅ w s :=
  ⟨scope, .here scope.kinded, by simp, fits, records_of_eq rfl⟩

variable (course : Course ctors env w s O w₁ s₁)

include course

theorem scope_after : Scope w₁ (visible env ctors) := course.scope.after course.way

theorem wellKinded (made : Made (visible env ctors) O t) : t.WellKinded w₁.supply :=
  course.way.wellKinded course.mono made

theorem less (sub : M ⊆ O) : Course ctors env w s M w₁ s₁ where
  scope := course.scope
  way := course.way.weaken course.scope.kinded subset_rfl sub fun _ _ => id
  mono t member := course.mono t (sub member)
  fits := course.fits
  records := course.records

theorem move {claim : Stage → Prop} (way : Reaches ∅ (visible env ctors) w w₂ M claim)
    (mono : ∀ t ∈ M, t.isMono) (later : w₁.Before w₂) (fits : Fits ctors w₂ s₂)
    (kept : s₂.uses = s₁.uses) : Course ctors env w s M w₂ s₂ where
  scope := course.scope
  way := way.weaken course.scope.kinded subset_rfl subset_rfl fun _ _ _ => trivial
  mono := mono
  fits := fits
  records := (course.records.later course.scope_after later).trans (records_of_eq kept)

theorem step {claim : Stage → Prop} (step : Reaches ∅ T w₁ w₂ M claim)
    (cover : Covers (visible env ctors ∪ O) T) (mono : ∀ t ∈ M, t.isMono)
    (fits : Fits ctors w₂ s₂) (kept : s₂.uses = s₁.uses) :
    Course ctors env w s (O ∪ M) w₂ s₂ :=
  course.move (course.way.andThen step cover)
    (fun t member => member.elim (course.mono t) (mono t)) step.before fits kept

theorem adjoin (made : ∀ t ∈ M, Made (visible env ctors) O t) :
    Course ctors env w s (O ∪ M) w₁ s₁ := by
  have here : Reaches ∅ (visible env ctors ∪ O) w₁ w₁ M fun _ => True := by
    refine reaches_grow (.refl w₁.supply) ?_ ?_ ?_ fun _ _ => trivial
    · rintro t (old | new)
      · exact (course.scope.kinded t old).grow course.way.before.grows
      · exact course.way.kinded new
    · exact fun t member => (course.wellKinded (made t member)).presentable
    · exact fun t member o occurs => .inr ((made t member).covers t rfl o occurs)
  exact course.step here (.of_subset subset_rfl) (fun t member => (made t member).mono course.mono)
    course.fits rfl

theorem enter (cover : visible inner ctors ⊆ visible env ctors ∪ O) :
    Course ctors inner w₁ s₁ ∅ w₁ s₁ :=
  start ((course.scope.later_of_mono course.way course.mono).mono cover) course.fits

theorem andThen (next : Course ctors inner w₁ s₁ M w₂ s₂)
    (cover : Covers (visible env ctors ∪ O) (visible inner ctors)) (same : Locally env inner) :
    Course ctors env w s (O ∪ M) w₂ s₂ where
  scope := course.scope
  way := (course.way.andThen next.way cover).weaken course.scope.kinded subset_rfl subset_rfl
    fun _ _ _ => trivial
  mono t member := member.elim (course.mono t) (next.mono t)
  fits := next.fits
  records := (course.records.later course.scope_after next.way.before).trans
    (next.records.of_inner same)

end Course

/-! ### Rules -/

/-- In the environment and after the types `O`, a part of inference finds `made` of its result, of
which it is known that `known`. -/
def Finds (ctors : NameMap Constructor) (env : Env) (O : Set Ty) (x : Infer α) (made : α → Set Ty)
    (known : α → Prop) : Prop :=
  ∀ ⦃w s w₁ s₁ a s₂⦄, Course ctors env w s O w₁ s₁ → x s₁ = .ok a s₂ →
    known a ∧ ∃ w₂, Course ctors env w s (O ∪ made a) w₂ s₂

namespace Finds

variable {x : Infer α} {f : α → Infer β} {made : α → Set Ty} {known : α → Prop}
  {made' : β → Set Ty} {known' : β → Prop}

theorem pure {r : α} (each : ∀ t ∈ made r, Made (visible env ctors) O t) (holds : known r) :
    Finds ctors env O (Pure.pure r) made known := by
  intro w s w₁ s₁ r' s₂ course run
  cases run
  exact ⟨holds, w₁, course.adjoin each⟩

theorem bind (first : Finds ctors env O x made known)
    (next : ∀ r, known r → Finds ctors env (O ∪ made r) (f r) made' known') :
    Finds ctors env O (x >>= f) made' known' := by
  intro w s w₁ s₁ r' s₂ course run
  obtain ⟨r, s', runX, run⟩ := bind_ok run
  obtain ⟨holds, w', course'⟩ := first course runX
  obtain ⟨holds', w₂, course₂⟩ := next r holds course' run
  exact ⟨holds', w₂, course₂.less (Set.union_subset_union_left _ Set.subset_union_left)⟩

theorem refuse {place : Position} {issue : Issue} :
    Finds ctors env O (Typing.refuse place issue : Infer α) made known :=
  fun _ _ _ _ _ _ _ run => (not_refuse_ok run).elim

theorem enter (cover : visible inner ctors ⊆ visible env ctors ∪ O) (same : Locally env inner)
    (inside : Finds ctors inner ∅ x made known) : Finds ctors env O x made known := by
  intro w s w₁ s₁ r s₂ course run
  obtain ⟨holds, w₂, course₂⟩ := inside (course.enter cover) run
  rw [Set.empty_union] at course₂
  exact ⟨holds, w₂, course.andThen course₂ (.of_subset cover) same⟩

theorem still (same : ∀ ⦃w₁ s₁ r s₂⦄, (∀ t, Made (visible env ctors) O t → t.WellKinded w₁.supply) →
    Fits ctors w₁ s₁ → x s₁ = .ok r s₂ → known r ∧ Fits ctors w₁ s₂ ∧ s₂.uses = s₁.uses) :
    Finds ctors env O x (fun _ => ∅) known := by
  intro w s w₁ s₁ r s₂ course run
  obtain ⟨holds, fits, kept⟩ := same (fun t made => course.wellKinded made) course.fits run
  have here : Reaches ∅ (visible env ctors) w₁ w₁ ∅ fun _ => True :=
    .here course.scope_after.kinded
  exact ⟨holds, w₁, course.step here .left (by simp) fits kept⟩

theorem resolve (made : Made (visible env ctors) O t) :
    Finds ctors env O (Typing.resolve t) (fun _ => ∅) fun _ => True :=
  still fun _ _ _ _ kinded fits run =>
    ⟨trivial, (resolve_spec fits (kinded t made) run).2, resolve_uses run⟩

theorem prune (made : Made (visible env ctors) O t) :
    Finds ctors env O (Typing.prune t) (fun _ => ∅) fun _ => True := by
  refine still fun _ _ _ _ kinded fits run => ⟨trivial, (prune_spec fits (kinded t made) run).2, ?_⟩
  cases run
  rfl

theorem findCtor {place : Position} {name : String} :
    Finds ctors env O (Typing.findCtor place name) (fun _ => ∅)
      fun c => ctors.get? name = some c := by
  refine still fun w₁ s₁ c s₂ _ fits run => ?_
  obtain ⟨found, fits'⟩ := findCtor_spec fits run
  refine ⟨found, fits', ?_⟩
  obtain ⟨_, _, ⟨⟩, run⟩ := bind_ok run
  simp only [fits.ctors_eq, found] at run
  cases run
  rfl

theorem freshOf {numeric : Bool} :
    Finds ctors env O (Typing.freshOf numeric) (fun v => {v}) fun _ => True := by
  intro w s w₁ s₁ v s₂ course run
  obtain ⟨w₂, fits, kinded, -, step⟩ := freshOf_spec (N := ∅) course.fits run
  cases run
  exact ⟨trivial, w₂, course.step step .empty (by simpa using kinded.mono) fits rfl⟩

theorem unify {place : Position} (madeA : Made (visible env ctors) O a)
    (madeB : Made (visible env ctors) O b) :
    Finds ctors env O (Typing.unify place a b) (fun _ => ∅) fun _ => True := by
  intro w s w₁ s₁ u s₂ course run
  obtain ⟨w₂, fits, step⟩ :=
    unify_spec (N := ∅) course.fits (course.wellKinded madeA) (course.wellKinded madeB) run
  obtain ⟨subst, -, rfl⟩ := unify_ok run
  exact ⟨trivial, w₂, course.step step (Covers.insert_iff.2 ⟨madeA.covers, madeB.covers⟩) (by simp)
    fits rfl⟩

theorem instantiate (member : t ∈ visible env ctors) :
    Finds ctors env O (Typing.instantiate t) (fun u => {u})
      fun u => ∃ last, u = (t.instantiate last).1 := by
  intro w s w₁ s₁ u s₂ course run
  obtain ⟨w₂, fits, kinded, step⟩ :=
    instantiate_spec (N := ∅) course.fits course.scope_after member run
  cases run
  exact ⟨⟨_, rfl⟩, w₂, course.step step .left (by simpa using kinded.mono) fits rfl⟩

theorem lookup {place : Position} {name : String} :
    Finds ctors env O (Typing.lookup env place name) (fun t => {t})
      fun t => ∃ b last, env.get? name = some b ∧ t = (b.type.instantiate last).1 := by
  unfold Typing.lookup
  split
  · next b found =>
    intro w s w₁ s₁ t s₂ course run
    obtain ⟨⟨last, same⟩, course₂⟩ := instantiate (mem_visible found) course run
    exact ⟨⟨b, last, found, same⟩, course₂⟩
  · exact refuse

theorem recordUse {callee : Expr Position} (made : Made (visible env ctors) O t)
    (opens : Opens env callee t) :
    Finds ctors env O (Typing.recordUse env callee t) (fun _ => ∅) fun _ => True := by
  intro w s w₁ s₁ u s₂ course run
  have kinded := course.wellKinded made
  have new := recordUse_records course.fits course.scope_after kinded opens run
  refine ⟨trivial, w₁, course.scope, ?_, ?_, recordUse_spec course.fits kinded run,
    course.records.trans new⟩
  · rw [Set.union_empty]
    exact course.way
  · simpa using course.mono

/-- A local binding: its type is generalized for the names that see it, and then the surroundings go
on with all that was found. -/
theorem generalizeLocal (name : String) {y : Ty → Infer α} {knownAt : Ty → α → Prop}
    (closed : CtorsClosed ctors) (found : Made (visible env ctors) O t)
    (inside : ∀ u, Finds ctors (env.extend name u) ∅ (y u) made (knownAt u))
    (next : ∀ r, Finds ctors env (O ∪ made r) (f r) made' known') :
    Finds ctors env O (Typing.generalizeLocal env t >>= fun u => y u >>= f) made' known' := by
  intro w s w₁ s₁ r' s₂ course run
  obtain ⟨u, s', runU, run⟩ := bind_ok run
  have course' : Course ctors env w s (O ∪ {t}) w₁ s₁ := course.adjoin (by simpa using found)
  obtain ⟨fits, scope, _, way⟩ := generalizeLocal_step closed course.scope course'.way course'.fits
    (.inr rfl) (course.wellKinded found) runU
  have kept : s'.uses = s₁.uses := by
    cases runU
    rfl
  have records := course.records.trans (records_of_eq kept)
  obtain ⟨r, s'', runY, run⟩ := bind_ok run
  have sub := visible_insert env ctors name { type := u }
  obtain ⟨-, w'', course''⟩ := inside u (.start (scope.mono sub) fits) runY
  have whole : Course ctors env w s (O ∪ made r) w'' s'' := by
    have both := course.way.union way
    have on := both.andThen course''.way (.of_subset (sub.trans (Set.union_subset_union_right _
      Set.subset_union_right)))
    refine ⟨course.scope, on.weaken course.scope.kinded subset_rfl ?_ fun _ _ _ => trivial, ?_,
      course''.fits, ?_⟩
    · rintro v (old | new)
      · exact .inl (.inl old)
      · exact .inr (.inr new)
    · rintro v (old | new)
      · exact course.mono v old
      · exact course''.mono v (.inr new)
    · exact (records.later course.scope_after course''.way.before).trans
        (course''.records.of_inner ((Locally.refl env).extend name u))
  obtain ⟨holds', w₂, course₂⟩ := next r whole run
  exact ⟨holds', w₂, course₂.less (Set.union_subset_union_left _ Set.subset_union_left)⟩

end Finds
end StackML.Typing
