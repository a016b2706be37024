import StackML.Proofs.Typing.Soundness

/-!
The names of functions and values. Each is declared once, so that a name of a checked module stands for
a function that has it, or for a value, and for nothing else at the top level.
-/

namespace StackML.Typing

variable {host : Host.Resolver} {importer : Option Importer} {m : Module Position}

structure Filed (decls : List (Decl Position)) (functions : NameMap Function) (values : NameMap Ty)
    (order : List String) : Prop where
  declared : ∀ name ∈ order, ∃ d ∈ decls, d.name = name
  functions : ∀ name F, functions.get? name = some F →
    F.decl.name = name ∧ name ∈ order ∧ values.get? name = none

theorem inferFunction_name {env : Env} {d : FnDecl Position} {F : Function} {s s' : State}
    (run : inferFunction host env d s = .ok F s') : F.decl.name = d.name :=
  congrArg Decl.name (inferFunction_faithful run)

theorem DeclStep.filed {decls : List (Decl Position)} {d : Decl Position} {p p' : Progress}
    {s s' : State} (step : DeclStep host p s d p' s') (member : d ∈ decls) (tidy : p.Tidy)
    (filed : Filed decls p.functions p.values p.order) :
    Filed decls p'.functions p'.values p'.order := by
  have listed : ∀ name ∈ d.name :: p.order, ∃ d ∈ decls, d.name = name :=
    List.forall_mem_cons.2 ⟨⟨d, member, rfl⟩, filed.declared⟩
  cases step with
  | type => exact ⟨filed.declared, filed.functions⟩
  | @fn d F _ _ new runF =>
    refine ⟨listed, fun name F' found => ?_⟩
    rw [NameMap.get?_insert] at found
    split at found
    · next same =>
      cases found
      subst same
      refine ⟨inferFunction_name runF, List.mem_cons_self, ?_⟩
      exact Option.eq_none_iff_forall_ne_some.2 fun t value => new (tidy.values _ t value)
    · obtain ⟨own, known, none⟩ := filed.functions name F' found
      exact ⟨own, List.mem_cons_of_mem _ known, none⟩
  | @value d v _ new runV =>
    refine ⟨listed, fun name F found => ?_⟩
    obtain ⟨own, known, none⟩ := filed.functions name F found
    have other : name ≠ d.name := fun same => new (same ▸ tidy.functions name F found)
    exact ⟨own, List.mem_cons_of_mem _ known, by rw [NameMap.get?_insert, if_neg other, none]⟩

theorem inferDecls_filed {ds : List (Decl Position)} {p p' : Progress} {s s' : State} (bare : p.Bare)
    (run : ds.foldlM (inferDecl host) p s = .ok p' s') :
    Filed ds p'.functions p'.values p'.order := by
  have start : Filed ds p.functions p.values p.order :=
    ⟨by simp [bare.2.2.2], by simp [bare.1]⟩
  refine (foldlM_invariant (P := fun p _ => p.Tidy ∧ Filed ds p.functions p.values p.order) ?_
    ⟨bare.tidy, start⟩ run).2
  rintro p₁ d member s p₂ s' ⟨tidy, filed⟩ step
  exact ⟨((inferDecl_step step).tidy tidy).1, (inferDecl_step step).filed member tidy filed⟩

theorem check_filed {c : Checked} (run : check host importer m = .ok c) :
    Filed m.decls c.functions c.values c.order := by
  unfold check at run
  split at run
  · next inferred =>
    cases run
    obtain ⟨p, s₁, p', s₂, main, raw, runO, runD, -, gathers, rfl⟩ := inferModule_parts inferred
    have filed := inferDecls_filed (openScope_bare runO) runD
    rw [Checked.close_eq]
    refine ⟨fun name member => ?_, fun name F found => ?_⟩
    · rw [gathers.order] at member
      exact filed.declared name (List.mem_reverse.1 member)
    · rw [gathers.functions, NameMap.get?_map, Option.map_eq_some_iff] at found
      obtain ⟨F', found, rfl⟩ := found
      obtain ⟨own, known, none⟩ := filed.functions name F' found
      refine ⟨own, by rw [gathers.order]; exact List.mem_reverse.2 known, ?_⟩
      rw [gathers.values, NameMap.get?_map, none]
      rfl
  · cases run

end StackML.Typing
