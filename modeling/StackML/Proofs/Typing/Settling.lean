import StackML.Proofs.Typing.Finding.Function

/-!
Which declaration a variable belongs to. A variable that a function quantifies is new when the
function is generalized, so no earlier type leads to it, and it is in view of nothing that comes
later. It is left to the notes of that function, and no other function quantifies it.
-/

namespace StackML.Typing

open Assignment

variable {host : Host.Resolver} {ctors : NameMap Constructor} {w w' : Stage} {s s' : State}

/-- Notes that belong together, with the name of the function whose declaration they are from. -/
abbrev Block := Option String × List Typed

def block : Decl Typed → Block
  | .fn d => (some d.name, d.note :: d.body.notes)
  | .value d => (none, d.note :: d.value.notes)
  | .type d => (none, [d.note])

theorem block_notes (d : Decl Typed) : (block d).2 = declNotes d := by
  cases d <;> rfl

structure General (w : Stage) (b : Ty) : Prop where
  kinded : b.body.WellKinded w.supply
  shape : b = b.body.quantify b.quantified
  occur : ∀ a ∈ b.quantified, ∃ o ∈ b.body.occurrences, o.1 = a
  unbound : ∀ a ∈ b.quantified, w.meaning.Unbound a

def owned (b : Ty) : Set VarId := {a | a ∈ b.quantified}

theorem General.later {b : Ty} (general : General w b) (before : w.Before w')
    (keeps : Keeps (owned b) w.meaning w'.meaning) : General w' b where
  kinded := general.kinded.grow before.grows
  shape := general.shape
  occur := general.occur
  unbound a member := keeps.free a member (general.unbound a member)

theorem quantifiedVars_insert {functions : NameMap Function} {name : String} {F : Function}
    {a : VarId} (member : a ∈ quantifiedVars (functions.insert name F)) :
    a ∈ F.type.quantified ∨ a ∈ quantifiedVars functions := by
  obtain ⟨G, inside, quantified⟩ := List.mem_flatMap.1 member
  obtain ⟨e, entry, rfl⟩ := List.mem_map.1 inside
  rcases List.mem_cons.1 entry with rfl | old
  · left
    cases shape : F.type <;> simp_all [Ty.quantified]
  · exact .inr (List.mem_flatMap.2
      ⟨e.2, List.mem_map.2 ⟨e, (List.mem_filter.1 old).1, rfl⟩, quantified⟩)

structure Settled (blocks : List Block) (functions : NameMap Function) (values : NameMap Ty)
    (uses : NameMap (List Ty)) (w : Stage) : Prop where
  notes : ∀ b ∈ blocks, ∀ n ∈ b.2, n.type.WellKinded w.supply
  general : ∀ name F, functions.get? name = some F → General w F.type
  listed : ∀ a ∈ quantifiedVars functions, ∃ name F, functions.get? name = some F ∧
    a ∈ F.type.quantified
  values : ∀ name t, values.get? name = some t → t.WellKinded w.supply
  /-- Only a function's own notes lead to what it quantifies. -/
  apart : ∀ name F, functions.get? name = some F → ∀ b ∈ blocks, b.1 ≠ some name → ∀ n ∈ b.2,
    n.type.Avoids w.meaning (owned F.type)
  disjoint : ∀ name F, functions.get? name = some F → ∀ other G, functions.get? other = some G →
    name ≠ other → ∀ a ∈ F.type.quantified, a ∉ G.type.quantified
  uses : ∀ name ts, uses.get? name = some ts → ∃ F, functions.get? name = some F ∧
    ∀ t ∈ ts, UsedAt F.type w.meaning t

namespace Settled

variable {blocks : List Block} {functions : NameMap Function} {values : NameMap Ty}
  {uses uses' : NameMap (List Ty)}

theorem later (settled : Settled blocks functions values uses w) (before : w.Before w')
    (keeps : ∀ name F, functions.get? name = some F →
      Keeps (owned F.type) w.meaning w'.meaning) : Settled blocks functions values uses w' where
  notes b member n inside := (settled.notes b member n inside).grow before.grows
  general name F found := (settled.general name F found).later before (keeps name F found)
  listed := settled.listed
  values name t found := (settled.values name t found).grow before.grows
  apart name F found b member other n inside :=
    (keeps name F found).avoids (settled.apart name F found b member other n inside)
  disjoint := settled.disjoint
  uses name ts found := by
    obtain ⟨F, listed, each⟩ := settled.uses name ts found
    exact ⟨F, listed, fun t member =>
      (each t member).later (settled.general name F listed).kinded.mono before⟩

theorem note (settled : Settled blocks functions values uses w) (b : Block)
    (kinded : ∀ n ∈ b.2, n.type.WellKinded w.supply)
    (avoid : ∀ name F, functions.get? name = some F → AllAvoid w.meaning (owned F.type) (noted b.2)) :
    Settled (b :: blocks) functions values uses w where
  notes := List.forall_mem_cons.2 ⟨kinded, settled.notes⟩
  general := settled.general
  listed := settled.listed
  values := settled.values
  apart name F found := List.forall_mem_cons.2
    ⟨fun _ _ inside => avoid name F found _ (mem_noted inside), settled.apart name F found⟩
  disjoint := settled.disjoint
  uses := settled.uses

theorem value (settled : Settled blocks functions values uses w) (name : String) {t : Ty}
    (kinded : t.WellKinded w.supply) :
    Settled blocks functions (values.insert name t) uses w where
  notes := settled.notes
  general := settled.general
  listed := settled.listed
  values other u found := by
    rw [NameMap.get?_insert] at found
    split at found
    · exact Option.some.inj found ▸ kinded
    · exact settled.values other u found
  apart := settled.apart
  disjoint := settled.disjoint
  uses := settled.uses

theorem define (settled : Settled blocks functions values uses w) {name : String} {F : Function}
    (unknown : ∀ G, functions.get? name ≠ some G) (general : General w F.type)
    (apart : ∀ b ∈ blocks, b.1 ≠ some name → ∀ n ∈ b.2, n.type.Avoids w.meaning (owned F.type))
    (new : ∀ other G, functions.get? other = some G → ∀ a ∈ G.type.quantified,
      a ∉ F.type.quantified) :
    Settled blocks (functions.insert name F) values uses w := by
  have cases : ∀ {other G}, (functions.insert name F).get? other = some G →
      other = name ∧ G = F ∨ other ≠ name ∧ functions.get? other = some G := by
    intro other G found
    rw [NameMap.get?_insert] at found
    split at found
    · next same => exact .inl ⟨same, (Option.some.inj found).symm⟩
    · next differs => exact .inr ⟨differs, found⟩
  constructor
  · exact settled.notes
  · intro other G found
    obtain ⟨-, rfl⟩ | ⟨-, old⟩ := cases found
    · exact general
    · exact settled.general other G old
  · intro a member
    rcases quantifiedVars_insert member with own | old
    · exact ⟨name, F, NameMap.get?_insert_self _ _ _, own⟩
    · obtain ⟨other, G, found, inside⟩ := settled.listed a old
      exact ⟨other, G, get?_insert_of_get? found unknown, inside⟩
  · exact settled.values
  · intro other G found
    obtain ⟨rfl, rfl⟩ | ⟨-, old⟩ := cases found
    · exact apart
    · exact settled.apart other G old
  · intro first G foundG second H foundH distinct a member inside
    obtain ⟨rfl, rfl⟩ | ⟨-, oldG⟩ := cases foundG <;>
      obtain ⟨rfl, rfl⟩ | ⟨-, oldH⟩ := cases foundH
    · exact distinct rfl
    · exact new second H oldH a inside member
    · exact new first G oldG a member inside
    · exact settled.disjoint first G oldG second H oldH distinct a member inside
  · intro other ts found
    obtain ⟨G, listed, each⟩ := settled.uses other ts found
    exact ⟨G, get?_insert_of_get? listed unknown, each⟩

theorem record (settled : Settled blocks functions values uses w)
    (records : ∀ name ts', uses'.get? name = some ts' → ∃ F, functions.get? name = some F ∧
      ∀ t ∈ ts', UsedAt F.type w.meaning t) : Settled blocks functions values uses' w :=
  { settled with uses := records }

end Settled

/-! ### Standing of a module -/

structure Standing (ctors : NameMap Constructor) (p : Progress) (w : Stage) (s : State) : Prop where
  fits : Fits ctors w s
  scope : Scope w (visible p.env ctors)
  tidy : p.Tidy
  bound : ∀ name F, p.functions.get? name = some F → p.env.get? name = some ⟨F.type, true⟩
  settled : Settled (p.decls.map block) p.functions p.values s.uses w

namespace Standing

variable {p p' : Progress} {O : Set Ty}

theorem keeps (standing : Standing ctors p w s) (course : Course ctors p.env w s O w' s') (name : String)
    (F : Function) (found : p.functions.get? name = some F) :
    Keeps (owned F.type) w.meaning w'.meaning ∧ AllAvoid w'.meaning (owned F.type) O := by
  have inView : F.type ∈ visible p.env ctors := mem_visible (standing.bound name F found)
  obtain ⟨P, runs, -⟩ := course.way
  exact runs.keeps _ (standing.scope.known _ inView) (standing.scope.apart _ inView)

/-- What was settled at the start of a course is so at its end, and the uses recorded on it are uses
of functions. -/
theorem along (standing : Standing ctors p w s) (course : Course ctors p.env w s O w' s') :
    Settled (p.decls.map block) p.functions p.values s'.uses w' := by
  have kept := standing.settled.later course.way.before fun name F found =>
    (standing.keeps course name F found).1
  refine kept.record fun name ts' found => ?_
  obtain ⟨ts, known, each⟩ := course.records name ts' found
  obtain ⟨F, listed, old⟩ := kept.uses name ts known
  refine ⟨F, listed, fun t member => ?_⟩
  rcases each t member with before | ⟨b, inEnv, -, used⟩
  · exact old t before
  · obtain rfl : ⟨F.type, true⟩ = b :=
      Option.some.inj ((standing.bound name F listed).symm.trans inEnv)
    exact used

theorem noting (standing : Standing ctors p w s) (course : Course ctors p.env w s O w' s') (b : Block)
    (found : noted b.2 ⊆ O) :
    Settled (b :: p.decls.map block) p.functions p.values s'.uses w' := by
  refine (standing.along course).note b (fun n member => ?_) fun name F known => ?_
  · exact course.wellKinded (.of_mem (found (mem_noted member)))
  · exact (standing.keeps course name F known).2.mono found subset_rfl

theorem bound_insert (standing : Standing ctors p w s) {name : String} (new : name ∉ p.declared)
    (t : Ty) (other : String) (G : Function) (found : p.functions.get? other = some G) :
    (p.env.extendGlobal name t).get? other = some ⟨G.type, true⟩ := by
  have differs : other ≠ name := fun same => new (same ▸ standing.tidy.functions other G found)
  exact (NameMap.get?_insert _ _ _ _).trans ((if_neg differs).trans (standing.bound other G found))

theorem generalize (standing : Standing ctors p w s) (closed : CtorsClosed ctors)
    (course : Course ctors p.env w s O w' s') {F : Function} {vars : List VarId}
    (found : noted (F.decl.note :: F.decl.body.notes) ⊆ O)
    (shape : F.type = (F.decl.note.type.assign w'.meaning).quantify vars)
    (general : Generalizable w' p.env F.decl.note.type vars)
    (new : F.decl.name ∉ p.declared) :
    Scope w' (visible p.env ctors ∪ {F.type}) ∧
      Settled ((p.decls.map block).cons (block (.fn F.decl))) (p.functions.insert F.decl.name F)
        p.values s'.uses w' := by
  have member : F.decl.note.type ∈ O := found (by simp)
  have kinded := course.wellKinded (.of_mem member)
  have resolved := w'.wellKinded_assign kinded
  have apart := general.apart.visible closed
  have quantified : F.type.quantified = vars := shape ▸ Ty.quantified_quantify resolved.mono
  have body : F.type.body = F.decl.note.type.assign w'.meaning := shape ▸ Ty.body_quantify resolved.mono
  obtain ⟨P, runs, -⟩ := course.way
  have fresh : ∀ a ∈ vars, w.supply.last < a := fun a inside =>
    runs.last_lt member kinded (general.occur a inside)
      (apart.mono subset_rfl (Set.singleton_subset_iff.2 inside))
  refine ⟨?_, (standing.noting course (block (.fn F.decl)) found).define ?_ ?_ ?_ ?_⟩
  · rw [shape]
    exact (standing.scope.generalize (course.way.forget Set.univ) member kinded general.occur apart
      fun _ _ _ => trivial).1
  · exact fun G known => new (standing.tidy.functions _ G known)
  · refine ⟨body ▸ resolved, by rw [body, quantified, ← shape], ?_, ?_⟩
    · rw [body, quantified]
      exact general.occur
    · rw [quantified]
      intro a inside
      obtain ⟨o, occurs, rfl⟩ := general.occur a inside
      obtain ⟨x, -, under⟩ := (Ty.mem_occurrences_assign kinded.mono _ o).1 occurs
      exact w'.unbound x o under
  · rw [List.forall_mem_cons]
    refine ⟨fun other => (other rfl).elim, fun b inBlocks _ n inside v occurs => ?_⟩
    have known := (standing.settled.notes b inBlocks n inside).kinds v occurs
    rw [owned, quantified]
    exact runs.apart_of_new fresh apart known
  · intro other G known a old
    rw [quantified]
    have le := standing.scope.known _ (mem_visible (standing.bound other G known)) a old
    exact fun inside => absurd (fresh a inside) (not_lt.2 le)

theorem step (hostClosed : HostClosed host) (closed : CtorsClosed ctors) {d : Decl Position}
    (plain : ∀ f, d = .fn f → AnnotationsPlain f) (standing : Standing ctors p w s)
    (run : inferDecl host p d s = .ok p' s') : ∃ w', Standing ctors p' w' s' := by
  have step := inferDecl_step run
  obtain ⟨tidy, -⟩ := step.tidy standing.tidy
  cases step with
  | @type d =>
    refine ⟨w, standing.fits, standing.scope, tidy, standing.bound, standing.settled.note _ ?_ ?_⟩
    · simpa [block] using .of_closed rfl rfl
    · intro name F _ t member v occurs
      obtain rfl : t = .unit := by simpa [block] using member
      simp [Ty.occurrences] at occurs
  | @value d v s' new runV =>
    obtain ⟨-, w', course⟩ :=
      Finds.infer hostClosed closed d.value p.env ∅ (Course.start standing.scope standing.fits) runV
    rw [Set.empty_union] at course
    have sub := visible_insert p.env ctors d.name ⟨v.note.type, true⟩
    have scope := (course.scope.later_of_mono course.way course.mono).mono
      (sub.trans (Set.union_subset_union_right _ (by simp)))
    have found : noted (block (.value ⟨⟨d.note, v.note.type, none⟩, d.name, v⟩)).2 ⊆
        noted v.notes := by
      simp [block]
    have kinded := course.wellKinded (.of_mem (type_mem_noted v))
    exact ⟨w', course.fits, scope, tidy, standing.bound_insert new _,
      (standing.noting course _ found).value d.name kinded⟩
  | @fn d F s₁ s' new runF subst last ctorsSame uses =>
    obtain ⟨w', O, vars, course, found, shape, general, name⟩ :=
      inferFunction_course hostClosed closed (plain d rfl) standing.fits standing.scope runF
    rw [← name] at new tidy uses ⊢
    obtain ⟨scope, settled⟩ := standing.generalize closed course found shape general new
    have sub := visible_insert p.env ctors F.decl.name ⟨F.type, true⟩
    refine ⟨w', ⟨subst ▸ course.fits.denotes, last.trans course.fits.last,
      ctorsSame.trans course.fits.ctors_eq⟩, scope.mono sub, tidy, fun other G known => ?_,
      settled.record fun other ts listed => ?_⟩
    · rw [NameMap.get?_insert] at known
      split at known
      · next same =>
        cases known
        rw [same]
        exact NameMap.get?_insert_self _ _ _
      · exact standing.bound_insert new _ other G known
    · rcases uses other ts listed with before | ⟨rfl, rfl⟩
      · exact settled.uses other ts before
      · exact ⟨F, NameMap.get?_insert_self _ _ _, by simp⟩

theorem run (hostClosed : HostClosed host) (closed : CtorsClosed ctors) {ds : List (Decl Position)}
    (plain : ∀ d, .fn d ∈ ds → AnnotationsPlain d) (standing : Standing ctors p w s)
    (run : ds.foldlM (inferDecl host) p s = .ok p' s') : ∃ w', Standing ctors p' w' s' := by
  refine foldlM_invariant (P := fun p s => ∃ w, Standing ctors p w s) ?_ ⟨w, standing⟩ run
  rintro p d member s p' s' ⟨w, standing⟩ step
  exact standing.step hostClosed closed (fun f same => plain f (same ▸ member)) step

end Standing
end StackML.Typing
