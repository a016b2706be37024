import StackML.Proofs.Typing.Finding.Expr

/-!
Inference of a function finds its type and the types of all nodes of its body, and generalizes the
first over what the names before it do not lead to.
-/

namespace StackML.Typing

variable {host : Host.Resolver} {ctors : NameMap Constructor} {env scope inner : Env} {O : Set Ty}
  {t : Ty} {w w₁ : Stage} {s s₁ s' : State}

def Renaming (m : Mapping) : Prop := ∀ id v, m.get? id = some v →
  ∃ o : VarId × Bool, v = Ty.ofVar o.1 o.2

theorem Known.renaming {g : Supply} {m : Mapping} (known : Known g m) : Renaming m := by
  intro id v found
  obtain ⟨o, same, -⟩ := known id v found
  exact ⟨o, same⟩

theorem renaming_nil : Renaming [] := by
  intro id v found
  simp [Mapping.get?] at found

theorem range_nil : Mapping.range [] = ∅ := by simp [Mapping.range, Mapping.get?]

theorem Course.known {m : Mapping} (course : Course ctors env w s O w₁ s₁) (renames : Renaming m)
    (met : Mapping.range m ⊆ O) : Known w₁.supply m := by
  intro id v found
  obtain ⟨o, rfl⟩ := renames id v found
  refine ⟨o, rfl, (course.way.kinded (met ⟨id, found⟩)).free o ?_⟩
  rw [Ty.occurrences_ofVar]
  exact List.mem_singleton_self _

namespace Finds

theorem freshen {m : Mapping} (mono : t.body.isMono) (renames : Renaming m)
    (met : Mapping.range m ⊆ O) : Finds ctors env O (Typing.freshen t m)
      (fun r => insert r.1 (Mapping.range r.2)) fun r => Renaming r.2 := by
  rintro w s w₁ s₁ ⟨u, m'⟩ s₂ course run
  have known := course.known renames met
  obtain ⟨w₂, fits, later, kinded, known', way⟩ :=
    course.way.freshen course.fits mono known met run
  obtain ⟨g, -, rfl, -⟩ := freshen_spec mono course.fits.last known run
  refine ⟨known'.renaming, w₂, course.move way ?_ later fits rfl⟩
  rintro v (old | rfl | new)
  · exact course.mono v old
  · exact kinded.mono
  · exact (known'.mono_of_range new).mono

theorem bindTypedParams {params : List Param} {m : Mapping}
    (plain : ∀ p ∈ params, ∀ t, p.type = some t → t.body.isMono) (renames : Renaming m)
    (met : Mapping.range m ⊆ O) : Finds ctors env O (Typing.bindTypedParams scope m params)
      (fun r => {t | t ∈ r.1} ∪ Mapping.range r.2.2) fun r =>
        visible r.2.1 ctors ⊆ visible scope ctors ∪ {t | t ∈ r.1} ∧ Locally scope r.2.1 ∧
          Renaming r.2.2 := by
  induction params generalizing scope m O with
  | nil =>
    refine pure ?_ ⟨by simp, .refl scope, renames⟩
    rintro t (none | member)
    · cases none
    · exact .of_mem (met member)
  | cons p params ih =>
    rw [List.forall_mem_cons] at plain
    -- what the remaining parameters find, put together with the first one
    have rest : ∀ {O : Set Ty} {t : Ty} {m : Mapping}, t ∈ O → Renaming m → Mapping.range m ⊆ O →
        Finds ctors env O (Typing.bindTypedParams (scope.extend p.name t) m params >>= fun r =>
            Pure.pure (t :: r.1, r.2.1, r.2.2))
          (fun r => {t | t ∈ r.1} ∪ Mapping.range r.2.2) fun r =>
            visible r.2.1 ctors ⊆ visible scope ctors ∪ {t | t ∈ r.1} ∧ Locally scope r.2.1 ∧
              Renaming r.2.2 := by
      intro O t m found renames met
      refine (ih plain.2 renames met).bind fun r known => pure ?_ ⟨?_, ?_, known.2.2⟩
      · rintro u (param | member)
        · rcases List.mem_cons.1 param with rfl | later
          · exact .of_mem (.inl found)
          · exact .of_mem (.inr (.inl later))
        · exact .of_mem (.inr (.inr member))
      · intro u seen
        rcases known.1 seen with old | new
        · rcases visible_insert scope ctors p.name { type := t } old with outer | rfl
          · exact .inl outer
          · exact .inr List.mem_cons_self
        · exact .inr (List.mem_cons_of_mem _ new)
      · exact ((Locally.refl scope).extend p.name t).trans known.2.1
    simp only [Typing.bindTypedParams]
    split
    · next t annotated =>
      exact (freshen (plain.1 t annotated) renames met).bind fun r known =>
        rest (by simp) known fun v member => .inr (.inr member)
    · exact freshOf.bind fun v _ => rest (by simp) renames (met.trans Set.subset_union_left)

end Finds

theorem inferFunction_course {d : FnDecl Position} {F : Function} (hostClosed : HostClosed host)
    (closed : CtorsClosed ctors) (plain : AnnotationsPlain d) (fits : Fits ctors w s)
    (scope : Scope w (visible env ctors)) (run : inferFunction host env d s = .ok F s') :
    ∃ w' O vars, Course ctors env w s O w' s' ∧ noted (F.decl.note :: F.decl.body.notes) ⊆ O ∧
      F.type = (F.decl.note.type.assign w'.meaning).quantify vars ∧
      Generalizable w' env F.decl.note.type vars ∧ F.decl.name = d.name := by
  unfold inferFunction at run
  obtain ⟨self, s₁, runSelf, run⟩ := bind_ok run
  obtain ⟨-, w₁, course₁⟩ := Finds.freshOf (Course.start scope fits) runSelf
  obtain ⟨⟨ps, inner, m⟩, s₂, runP, run⟩ := bind_ok run
  obtain ⟨⟨cover, same, renames⟩, w₂, course₂⟩ := Finds.bindTypedParams plain.1 renaming_nil
    (by simp [range_nil]) course₁ runP
  obtain ⟨body, s₃, runB, run⟩ := bind_ok run
  simp only [Set.empty_union] at course₂
  have inView : visible inner ctors ⊆
      visible env ctors ∪ ({self} ∪ ({t | t ∈ ps} ∪ Mapping.range m)) := by
    intro t seen
    rcases cover seen with old | new
    · exact (visible_insert env ctors d.name { type := self } old).imp_right .inl
    · exact .inr (.inr (.inl new))
  obtain ⟨-, w₃, course₃⟩ := Finds.enter inView
    (((Locally.refl env).extend d.name self).trans same)
    (Finds.infer hostClosed closed d.body inner ∅) course₂ runB
  -- the annotation of the result
  have annotated : ∃ w₄ s₄, Course ctors env w s
      ({self} ∪ ({t | t ∈ ps} ∪ Mapping.range m) ∪ noted body.notes) w₄ s₄ ∧
      (do
        unify d.note self (Ty.fns ps body.note.type)
        pure { decl := { d with note := ⟨d.note, Ty.fns ps body.note.type, none⟩, body },
               type := ← generalize env (Ty.fns ps body.note.type) } : Infer Function) s₄ =
        .ok F s' := by
    cases result : d.result with
    | some t =>
      simp only [result] at run
      obtain ⟨⟨u, m'⟩, s₅, runF, run⟩ := bind_ok run
      obtain ⟨-, w₅, course₅⟩ := Finds.freshen (plain.2 t result) renames
        (fun v member => .inl (.inr (.inr member))) course₃ runF
      obtain ⟨_, s₆, runU, run⟩ := bind_ok run
      obtain ⟨-, w₆, course₆⟩ := Finds.unify (.of_mem (by simp)) (.of_mem (by simp)) course₅ runU
      exact ⟨w₆, s₆, course₆.less (Set.subset_union_left.trans Set.subset_union_left), run⟩
    | none =>
      simp only [result] at run
      exact ⟨w₃, s₃, course₃, run⟩
  obtain ⟨w₄, s₄, course₄, run⟩ := annotated
  have made : ∀ {O : Set Ty}, {self} ∪ ({t | t ∈ ps} ∪ Mapping.range m) ∪ noted body.notes ⊆ O →
      Made (visible env ctors) O (Ty.fns ps body.note.type) := fun sub =>
    .fns (fun p member => .of_mem (sub (by simp [member]))) (.of_mem (sub (by simp)))
  obtain ⟨_, s₅, runSame, run⟩ := bind_ok run
  obtain ⟨-, w₅, course₅⟩ := Finds.unify (.of_mem (by simp)) (made subset_rfl) course₄ runSame
  rw [Set.union_empty] at course₅
  obtain ⟨u, s₆, runG, run⟩ := bind_ok run
  obtain ⟨rfl, rfl⟩ := pure_ok run
  have kept : s'.uses = s₅.uses := by
    cases runG
    rfl
  obtain ⟨fits₆, vars, rfl, general⟩ := generalize_spec course₅.fits
    (course₅.scope_after.mono Set.subset_union_left)
    (course₅.wellKinded (made subset_rfl)) runG
  have course₆ := (course₅.move course₅.way course₅.mono (.refl w₅) fits₆ kept).adjoin
    (M := {Ty.fns ps body.note.type}) (by simpa only [Set.mem_singleton_iff, forall_eq] using made subset_rfl)
  refine ⟨w₅, _, vars, course₆, ?_, rfl, general, rfl⟩
  simp only [noted_cons]
  rintro t (rfl | member)
  · exact .inr rfl
  · exact .inl (.inr member)

end StackML.Typing
