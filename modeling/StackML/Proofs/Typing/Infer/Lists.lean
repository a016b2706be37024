import StackML.Proofs.Typing.Infer.Basic

/-!
Expressions with lists of others: each is inferred from the stage that the one before it led to.
-/

namespace StackML.Typing

open Assignment

variable {N : Set VarId} {host : Host.Resolver} {ctors : NameMap Constructor} {env : Env} {w : Stage}
  {s s' : State}

def typesIn (es : List (Expr Typed)) : Set Ty := {t | ∃ e ∈ es, e.note.type = t}

theorem typesIn_cons (e : Expr Typed) (es : List (Expr Typed)) :
    typesIn (e :: es) = {e.note.type} ∪ typesIn es := by
  ext t
  simp [typesIn, eq_comm]

section Lists

variable {O : Set Ty} {w₁ : Stage} {claim : Stage → Prop} {es : List (Expr Position)}
  {done es' : List (Expr Typed)}

theorem inferAll_spec (each : ∀ e ∈ es, Sound host ctors e)
    (way : Reaches N (visible env ctors) w w₁ O claim) (scope : Scope w (visible env ctors))
    (fits : Fits ctors w₁ s) (run : inferAll host env done es s = .ok es' s') :
    ∃ w₂ new, es' = done.reverse ++ new ∧ Fits ctors w₂ s' ∧ w₁.Before w₂ ∧
      (∀ e ∈ new, e.note.type.WellKinded w₂.supply) ∧
      Reaches N (visible env ctors) w w₂ (O ∪ typesIn new) fun f =>
        claim f ∧ ∀ e ∈ new, Holds host ctors env e f := by
  induction es generalizing done w₁ O claim s with
  | nil =>
    simp only [inferAll] at run
    cases run
    refine ⟨w₁, [], by simp, fits, .refl _, by simp, ?_⟩
    exact way.weaken scope.kinded subset_rfl (by simp [typesIn]) fun _ _ h => ⟨h, by simp⟩
  | cons e es ih =>
    simp only [inferAll] at run
    obtain ⟨e', s₁, runE, run⟩ := bind_ok run
    obtain ⟨w₂, fits₂, later₂, kinded, way₂⟩ := way.infer scope fits (each e (by simp)) runE
    obtain ⟨w₃, new, rfl, fits₃, later₃, kindedNew, way₃⟩ :=
      ih (fun e member => each e (by simp [member])) way₂ fits₂ run
    refine ⟨w₃, e' :: new, by simp, fits₃, later₂.trans later₃, ?_, ?_⟩
    · simp only [List.forall_mem_cons]
      exact ⟨kinded.grow later₃.grows, kindedNew⟩
    · rw [typesIn_cons, ← Set.union_assoc]
      refine way₃.weaken scope.kinded subset_rfl subset_rfl fun f _ h => ⟨h.1.1, ?_⟩
      simp only [List.forall_mem_cons]
      exact ⟨h.1.2, h.2⟩

theorem inferElems_spec {elem : Ty} (each : ∀ e ∈ es, Sound host ctors e)
    (way : Reaches N (visible env ctors) w w₁ O claim) (scope : Scope w (visible env ctors))
    (fits : Fits ctors w₁ s) (kindedElem : elem.WellKinded w₁.supply) (member : elem ∈ O)
    (run : inferElems host env elem done es s = .ok es' s') :
    ∃ w₂ new, es' = done.reverse ++ new ∧ Fits ctors w₂ s' ∧ w₁.Before w₂ ∧
      Reaches N (visible env ctors) w w₂ O fun f => claim f ∧ ∀ e ∈ new,
        Holds host ctors env e f ∧ elem.assign f.meaning = e.note.type.assign f.meaning := by
  induction es generalizing done w₁ O claim s with
  | nil =>
    simp only [inferElems] at run
    cases run
    refine ⟨w₁, [], by simp, fits, .refl _, ?_⟩
    exact way.weaken scope.kinded subset_rfl subset_rfl fun _ _ h => ⟨h, by simp⟩
  | cons e es ih =>
    simp only [inferElems] at run
    obtain ⟨e', s₁, runE, run⟩ := bind_ok run
    obtain ⟨w₂, fits₂, later₂, kinded, way₂⟩ := way.infer scope fits (each e (by simp)) runE
    obtain ⟨_, s₂, runSame, run⟩ := bind_ok run
    obtain ⟨w₃, fits₃, later₃, way₃⟩ := way₂.unify fits₂ (kindedElem.grow later₂.grows) kinded
      (by simp [Covers.of_mem, member]) runSame
    obtain ⟨w₄, new, rfl, fits₄, later₄, way₄⟩ := ih (fun e member => each e (by simp [member]))
      way₃ fits₃ (kindedElem.grow (later₂.trans later₃).grows) (.inl member) run
    refine ⟨w₄, e' :: new, by simp, fits₄, (later₂.trans later₃).trans later₄, ?_⟩
    refine way₄.weaken scope.kinded subset_rfl Set.subset_union_left ?_
    rintro f before ⟨⟨⟨claim, holds⟩, same⟩, rest⟩
    simp only [List.forall_mem_cons]
    exact ⟨claim, ⟨holds, same⟩, rest⟩

theorem inferArgs_spec {fn t : Ty} (each : ∀ e ∈ es, Sound host ctors e)
    (way : Reaches N (visible env ctors) w w₁ O claim) (scope : Scope w (visible env ctors))
    (fits : Fits ctors w₁ s) (kindedFn : fn.WellKinded w₁.supply) (member : fn ∈ O)
    (run : inferArgs host env fn done es s = .ok (t, es') s') :
    ∃ w₂ new O', es' = done.reverse ++ new ∧ Fits ctors w₂ s' ∧ w₁.Before w₂ ∧
      t.WellKinded w₂.supply ∧ t ∈ O' ∧
      Reaches N (visible env ctors) w w₂ O' fun f => claim f ∧
        (∀ e ∈ new, Holds host ctors env e f) ∧ fn.assign f.meaning =
          Ty.fns (new.map fun e => e.note.type.assign f.meaning) (t.assign f.meaning) := by
  induction es generalizing done w₁ O claim s fn with
  | nil =>
    simp only [inferArgs] at run
    cases run
    refine ⟨w₁, [], O, by simp, fits, .refl _, kindedFn, member, ?_⟩
    exact way.weaken scope.kinded subset_rfl subset_rfl fun _ _ h => ⟨h, by simp, rfl⟩
  | cons e es ih =>
    simp only [inferArgs] at run
    obtain ⟨e', s₁, runE, run⟩ := bind_ok run
    obtain ⟨w₂, fits₂, later₂, kinded, way₂⟩ := way.infer scope fits (each e (by simp)) runE
    obtain ⟨result, s₂, runR, run⟩ := bind_ok run
    obtain ⟨w₃, fits₃, later₃, kindedR, way₃⟩ := way₂.fresh fits₂ runR
    obtain ⟨_, s₃, runSame, run⟩ := bind_ok run
    have later := later₂.trans later₃
    obtain ⟨w₄, fits₄, later₄, way₄⟩ := way₃.unify fits₃ (kindedFn.grow later.grows)
      (Ty.WellKinded.fn_iff.2 ⟨kinded.grow later₃.grows, kindedR⟩)
      (by simp [Covers.of_mem, member]) runSame
    obtain ⟨w₅, new, O', rfl, fits₅, later₅, kindedT, memberT, way₅⟩ :=
      ih (fun e member => each e (by simp [member])) way₄ fits₄ (kindedR.grow later₄.grows)
        (.inr rfl) run
    refine ⟨w₅, e' :: new, O', by simp, fits₅, (later.trans later₄).trans later₅, kindedT, memberT,
      ?_⟩
    refine way₅.weaken scope.kinded subset_rfl subset_rfl ?_
    rintro f before ⟨⟨⟨claim, holds⟩, same⟩, rest, split⟩
    simp only [List.forall_mem_cons]
    refine ⟨claim, ⟨holds, rest⟩, ?_⟩
    rw [same, Ty.assign, split]
    rfl

end Lists

theorem inferParts_spec {O : Set Ty} {w₁ : Stage} {claim : Stage → Prop}
    {parts : List (Part Position)} {done parts' : List (Part Typed)}
    (each : ∀ e, .hole e ∈ parts → Sound host ctors e)
    (way : Reaches N (visible env ctors) w w₁ O claim) (scope : Scope w (visible env ctors))
    (fits : Fits ctors w₁ s) (run : inferParts host env done parts s = .ok parts' s') :
    ∃ w₂ new, parts' = done.reverse ++ new ∧ Fits ctors w₂ s' ∧
      Reaches N (visible env ctors) w w₂ O fun f =>
        claim f ∧ ∀ e, .hole e ∈ new → Holds host ctors env e f := by
  induction parts generalizing done w₁ O claim s with
  | nil =>
    simp only [inferParts] at run
    cases run
    refine ⟨w₁, [], by simp, fits, ?_⟩
    exact way.weaken scope.kinded subset_rfl subset_rfl fun _ _ h => ⟨h, by simp⟩
  | cons part parts ih =>
    have later : ∀ e, .hole e ∈ parts → Sound host ctors e := fun e member =>
      each e (List.mem_cons_of_mem _ member)
    cases part with
    | text t =>
      simp only [inferParts] at run
      obtain ⟨w₂, new, rfl, fits₂, way₂⟩ := ih later way fits run
      refine ⟨w₂, .text t :: new, by simp, fits₂, ?_⟩
      exact way₂.weaken scope.kinded subset_rfl subset_rfl fun _ _ h => by simpa using h
    | hole e =>
      simp only [inferParts] at run
      obtain ⟨e', s₁, runE, run⟩ := bind_ok run
      obtain ⟨w₂, fits₂, -, -, way₂⟩ := way.infer scope fits (each e (by simp)) runE
      obtain ⟨w₃, new, rfl, fits₃, way₃⟩ := ih later way₂ fits₂ run
      refine ⟨w₃, .hole e' :: new, by simp, fits₃, ?_⟩
      refine way₃.weaken scope.kinded subset_rfl Set.subset_union_left fun f _ h => ⟨h.1.1, ?_⟩
      intro x member
      rcases List.mem_cons.1 member with same | rest
      · cases same
        exact h.1.2
      · exact h.2 x rest

theorem sound_interp {p : Position} {parts : List (Part Position)}
    (each : ∀ e, .hole e ∈ parts → Sound host ctors e) : Sound host ctors (.interp p parts) := by
  intro N env w s s' e' fits scope run
  simp only [infer] at run
  obtain ⟨parts', s₁, runP, run⟩ := bind_ok run
  obtain ⟨w₁, _, rfl, fits₁, way₁⟩ :=
    inferParts_spec each (Reaches.here (N := N) scope.kinded) scope fits runP
  obtain ⟨rfl, rfl⟩ := pure_ok run
  refine ⟨w₁, fits₁, .of_closed rfl rfl, (way₁.adjoin (t := .string) (.of_closed rfl rfl)
    (by simp)).weaken scope.kinded subset_rfl (by simp [Expr.note]) ?_⟩
  rintro f before ⟨-, holds⟩
  refine ⟨?_, fun own θ good => ?_⟩
  · simp only [Expr.notes, List.forall_mem_cons, Expr.mem_notesOfParts]
    refine ⟨.of_closed rfl rfl, fun n inside => ?_⟩
    obtain ⟨e, member, inside⟩ := inside
    exact (holds e member).kinded n inside
  · rw [Expr.mapNotes, Expr.mapParts_eq]
    refine .interp rfl fun e member => ?_
    simp only [List.reverse_nil, List.nil_append, List.mem_map] at member
    obtain ⟨part, member, same⟩ := member
    cases part with
    | text t => cases same
    | hole e =>
      cases same
      exact (holds e member).derives own θ good

theorem sound_sequence {p : Position} {es : List (Expr Position)}
    (each : ∀ e ∈ es, Sound host ctors e) : Sound host ctors (.sequence p es) := by
  intro N env w s s' e' fits scope run
  simp only [infer] at run
  obtain ⟨es', s₁, runE, run⟩ := bind_ok run
  obtain ⟨w₁, _, rfl, fits₁, -, kinded, way₁⟩ :=
    inferAll_spec each (Reaches.here (N := N) scope.kinded) scope fits runE
  obtain ⟨rfl, rfl⟩ := pure_ok run
  have last : (lastType es').WellKinded w₁.supply ∧
      Covers (visible env ctors ∪ (∅ ∪ typesIn es')) {lastType es'} := by
    unfold lastType
    cases found : es'.getLast? with
    | none => exact ⟨.of_closed rfl rfl, by simp⟩
    | some e =>
      have member := List.mem_of_getLast? found
      exact ⟨kinded e member, .of_mem (.inr (.inr ⟨e, member, rfl⟩))⟩
  refine ⟨w₁, fits₁, last.1, (way₁.adjoin last.1 last.2).weaken scope.kinded subset_rfl
    (by simp [Expr.note]) ?_⟩
  rintro f before ⟨-, holds⟩
  refine ⟨?_, fun own θ good => ?_⟩
  · simp only [Expr.notes, List.forall_mem_cons, Expr.mem_notesOfAll]
    refine ⟨last.1.grow before.grows, fun n inside => ?_⟩
    obtain ⟨e, member, inside⟩ := inside
    exact (holds e member).kinded n inside
  · rw [Expr.mapNotes, Expr.mapAll_eq]
    refine .sequence (fun e member => ?_) ?_
    · simp only [List.reverse_nil, List.nil_append, List.mem_map] at member
      obtain ⟨e, member, rfl⟩ := member
      exact (holds e member).derives own θ good
    · simp only [Typed.close_type, lastType, List.reverse_nil, List.nil_append, List.getLast?_map]
      cases es'.getLast? <;> simp [Ty.assign]

theorem sound_print {p : Position} {e : Expr Position} (sound : Sound host ctors e) :
    Sound host ctors (.print p e) := by
  intro N env w s s' e' fits scope run
  simp only [infer] at run
  obtain ⟨e'', s₁, runE, run⟩ := bind_ok run
  obtain ⟨w₁, fits₁, -, way₁⟩ := sound (N := N) fits scope runE
  obtain ⟨rfl, rfl⟩ := pure_ok run
  refine ⟨w₁, fits₁, .of_closed rfl rfl, (way₁.adjoin (t := .unit) (.of_closed rfl rfl)
    (by simp)).weaken scope.kinded subset_rfl (by simp [Expr.note]) ?_⟩
  intro f before holds
  refine ⟨?_, fun own θ good => .print (holds.derives own θ good) rfl⟩
  simp only [Expr.notes, List.forall_mem_cons]
  exact ⟨.of_closed rfl rfl, holds.kinded⟩

theorem sound_list {p : Position} {es : List (Expr Position)}
    (each : ∀ e ∈ es, Sound host ctors e) : Sound host ctors (.list p es) := by
  intro N env w s s' e' fits scope run
  simp only [infer] at run
  obtain ⟨elem, s₁, runT, run⟩ := bind_ok run
  obtain ⟨w₁, fits₁, -, kindedElem, way₁⟩ :=
    (Reaches.here (N := N) scope.kinded).fresh fits runT
  obtain ⟨es', s₂, runE, run⟩ := bind_ok run
  obtain ⟨w₂, _, rfl, fits₂, later₂, way₂⟩ :=
    inferElems_spec each way₁ scope fits₁ kindedElem (by simp) runE
  obtain ⟨rfl, rfl⟩ := pure_ok run
  have kinded := Ty.WellKinded.list_iff.2 (kindedElem.grow later₂.grows)
  refine ⟨w₂, fits₂, kinded, (way₂.adjoin kinded (by simp [Covers.of_mem])).weaken scope.kinded
    subset_rfl (by simp [Expr.note]) ?_⟩
  rintro f before ⟨-, holds⟩
  refine ⟨?_, fun own θ good => ?_⟩
  · simp only [Expr.notes, List.forall_mem_cons, Expr.mem_notesOfAll]
    refine ⟨kinded.grow before.grows, fun n inside => ?_⟩
    obtain ⟨e, member, inside⟩ := inside
    exact (holds e member).1.kinded n inside
  · rw [Expr.mapNotes, Expr.mapAll_eq]
    refine .list (fun e member => ?_) rfl fun e member => ?_
    all_goals
      simp only [List.reverse_nil, List.nil_append, List.mem_map] at member
      obtain ⟨e, member, rfl⟩ := member
    · exact (holds e member).1.derives own θ good
    · simp [(holds e member).2]

theorem sound_cons {p : Position} {h t : Expr Position} (soundH : Sound host ctors h)
    (soundT : Sound host ctors t) : Sound host ctors (.cons p h t) := by
  intro N env w s s' e' fits scope run
  simp only [infer] at run
  obtain ⟨h', s₁, runH, run⟩ := bind_ok run
  obtain ⟨w₁, fits₁, kindedH, way₁⟩ := soundH (N := N) fits scope runH
  obtain ⟨t', s₂, runT, run⟩ := bind_ok run
  obtain ⟨w₂, fits₂, later₂, kindedT, way₂⟩ := way₁.infer scope fits₁ soundT runT
  obtain ⟨_, s₃, runSame, run⟩ := bind_ok run
  obtain ⟨w₃, fits₃, later₃, way₃⟩ := way₂.unify fits₂ kindedT
    (Ty.WellKinded.list_iff.2 (kindedH.grow later₂.grows)) (by simp [Covers.of_mem]) runSame
  obtain ⟨rfl, rfl⟩ := pure_ok run
  have kinded := kindedT.grow later₃.grows
  refine ⟨w₃, fits₃, kinded, way₃.weaken scope.kinded subset_rfl (by simp [Expr.note]) ?_⟩
  rintro f before ⟨⟨holdsH, holdsT⟩, same⟩
  refine ⟨?_, fun own θ good => ?_⟩
  · simp only [Expr.notes, List.forall_mem_cons, List.forall_mem_append]
    exact ⟨kinded.grow before.grows, holdsH.kinded, holdsT.kinded⟩
  · refine .cons (holdsH.derives own θ good) (holdsT.derives own θ good) ?_ (by simp)
    simp [same, Ty.assign]

theorem recordUse_spec {callee : Expr Position} {t : Ty} {u : Unit} (fits : Fits ctors w s)
    (kinded : t.WellKinded w.supply) (run : recordUse env callee t s = .ok u s') :
    Fits ctors w s' := by
  cases callee with
  | var p name =>
    simp only [recordUse] at run
    obtain ⟨_, _, ⟨⟩, run⟩ := bind_ok run
    cases used : s.uses.get? name with
    | none =>
      simp only [used] at run
      cases run
      exact fits
    | some seen =>
      cases found : env.get? name with
      | none =>
        simp only [used, found] at run
        cases run
        exact fits
      | some b =>
        simp only [used, found] at run
        split at run
        · obtain ⟨t', s₁, runT, run⟩ := bind_ok run
          obtain ⟨-, fits₁⟩ := resolve_spec fits kinded runT
          split at run
          · cases run
            exact ⟨fits₁.denotes, fits₁.last, fits₁.ctors_eq⟩
          · cases run
            exact fits₁
        · cases run
          exact fits
  | _ =>
    cases run
    exact fits

theorem sound_apply {p : Position} {callee : Expr Position} {args : List (Expr Position)}
    (soundC : Sound host ctors callee) (each : ∀ e ∈ args, Sound host ctors e) :
    Sound host ctors (.apply p callee args) := by
  intro N env w s s' e' fits scope run
  simp only [infer] at run
  obtain ⟨c, s₁, runC, run⟩ := bind_ok run
  obtain ⟨w₁, fits₁, kindedC, way₁⟩ := soundC (N := N) fits scope runC
  obtain ⟨⟨t, args'⟩, s₂, runA, run⟩ := bind_ok run
  obtain ⟨w₂, _, O, rfl, fits₂, later₂, kinded, member, way₂⟩ :=
    inferArgs_spec each way₁ scope fits₁ kindedC rfl runA
  obtain ⟨_, s₃, runUse, run⟩ := bind_ok run
  have fits₃ := recordUse_spec fits₂ (kindedC.grow later₂.grows) runUse
  obtain ⟨rfl, rfl⟩ := pure_ok run
  refine ⟨w₂, fits₃, kinded, way₂.weaken scope.kinded subset_rfl
    (Set.singleton_subset_iff.2 member) ?_⟩
  rintro f before ⟨holdsC, holds, split⟩
  refine ⟨?_, fun own θ good => ?_⟩
  · simp only [Expr.notes, List.forall_mem_cons, List.forall_mem_append, Expr.mem_notesOfAll]
    refine ⟨kinded.grow before.grows, holdsC.kinded, fun n inside => ?_⟩
    obtain ⟨e, member, inside⟩ := inside
    exact (holds e member).kinded n inside
  · rw [Expr.mapNotes, Expr.mapAll_eq]
    refine .apply (holdsC.derives own θ good) (fun e member => ?_) ?_
    · simp only [List.reverse_nil, List.nil_append, List.mem_map] at member
      obtain ⟨e, member, rfl⟩ := member
      exact (holds e member).derives own θ good
    · simp [split, assign_fns, Function.comp_def]

/-! ### Host members -/

section Host

variable {T O : Set Ty} {w₁ : Stage} {claim : Stage → Prop} (es : List (Expr Typed))

theorem assign_of_closed {t : Ty} (closed : t.occurrences = []) (R : Assignment) :
    t.assign R = t := by
  refine (Ty.assign_congr fun o occurs => ?_).trans (Ty.assign_default t)
  simp [closed] at occurs

theorem unifyArgs_spec {params : List Ty} {u : Unit} (way : Reaches N T w w₁ O claim)
    (fits : Fits ctors w₁ s) (kinded : ∀ e ∈ es, e.note.type.WellKinded w₁.supply)
    (closed : ∀ t ∈ params, t.isMono ∧ t.occurrences = []) (cover : Covers (T ∪ O) (typesIn es))
    (lengths : params.length = es.length) (run : unifyArgs (typesOf es) params s = .ok u s') :
    ∃ w₂, Fits ctors w₂ s' ∧ w₁.Before w₂ ∧ Reaches N T w w₂ O fun f => claim f ∧
      es.map (fun e => e.note.type.assign f.meaning) = params := by
  induction es generalizing params w₁ claim s with
  | nil =>
    cases params with
    | nil =>
      cases run
      refine ⟨w₁, fits, .refl w₁, ?_⟩
      exact way.weaken way.inView subset_rfl subset_rfl fun _ _ h => ⟨h, rfl⟩
    | cons p params => simp at lengths
  | cons e es ih =>
    cases params with
    | nil => simp at lengths
    | cons t params =>
      simp only [List.forall_mem_cons] at closed kinded
      rw [typesIn_cons, Covers.union_iff] at cover
      obtain ⟨_, s₁, runE, run⟩ := bind_ok run
      have coverT : Covers (T ∪ O) {t} := .of_occurrences (by simp [closed.1.2])
      obtain ⟨w₂, fits₂, later₂, way₂⟩ := way.unify fits kinded.1
        (.of_closed closed.1.1 closed.1.2) (Covers.insert_iff.2 ⟨cover.1, coverT⟩) runE
      obtain ⟨w₃, fits₃, later₃, way₃⟩ := ih way₂ fits₂
        (fun e m => (kinded.2 e m).grow later₂.grows) closed.2 cover.2 (by simpa using lengths) run
      refine ⟨w₃, fits₃, later₂.trans later₃, way₃.weaken way.inView subset_rfl subset_rfl ?_⟩
      rintro f before ⟨⟨claim, same⟩, rest⟩
      exact ⟨claim, by rw [List.map_cons, same, rest, assign_of_closed closed.1.2]⟩

theorem hostMember_spec {p : Position} {owner member : String} {kind : Host.MemberKind} {n : Typed}
    (hostClosed : HostClosed host) (way : Reaches N T w w₁ O claim) (fits : Fits ctors w₁ s)
    (kinded : ∀ e ∈ es, e.note.type.WellKinded w₁.supply) (cover : Covers (T ∪ O) (typesIn es))
    (run : hostMember host p owner member kind (typesOf es) s = .ok n s') :
    ∃ w₂, Fits ctors w₂ s' ∧ w₁.Before w₂ ∧ n.type.isMono ∧ n.type.occurrences = [] ∧
      Reaches N T w w₂ (O ∪ {n.type}) fun f => claim f ∧ ∀ θ : Assignment,
        HostFits host θ (n.close f.meaning) owner member kind
          (es.map (Expr.mapNotes (Typed.close f.meaning))) := by
  cases found : host owner member kind with
  | error u =>
    simp only [hostMember, found] at run
    exact (not_refuse_ok run).elim
  | ok sig =>
    have closed := hostClosed owner member kind sig found
    simp only [List.forall_mem_cons] at closed
    simp only [hostMember, found] at run
    split at run
    · obtain ⟨_, _, failed, -⟩ := bind_ok run
      exact (not_refuse_ok failed).elim
    · next lengths =>
      obtain ⟨_, s₁, runArgs, run⟩ := bind_ok run
      obtain ⟨rfl, rfl⟩ := pure_ok run
      have lengths : sig.params.length = es.length := by simpa [typesOf] using lengths
      obtain ⟨w₂, fits₂, later₂, way₂⟩ :=
        unifyArgs_spec es way fits kinded closed.2 cover lengths runArgs
      refine ⟨w₂, fits₂, later₂, closed.1.1, closed.1.2, ?_⟩
      have made : Covers (T ∪ O) {sig.result} := .of_occurrences (by simp [closed.1.2])
      refine (way₂.adjoin (.of_closed closed.1.1 closed.1.2) made).weaken way.inView subset_rfl
        subset_rfl ?_
      rintro f before ⟨claim, same⟩
      refine ⟨claim, fun θ => ⟨sig, found, rfl, assign_of_closed closed.1.2 _, ?_⟩⟩
      have fixed : sig.params.map (Ty.assign θ) = sig.params :=
        (List.map_congr_left fun t m => assign_of_closed (closed.2 t m).2 θ).trans (List.map_id _)
      rw [← same, List.map_map] at fixed
      simpa [Function.comp_def, same] using fixed

end Host

theorem sound_hostCall {p : Position} {owner member : String} {args : List (Expr Position)}
    (hostClosed : HostClosed host) (each : ∀ e ∈ args, Sound host ctors e) :
    Sound host ctors (.hostCall p owner member args) := by
  intro N env w s s' e' fits scope run
  simp only [infer] at run
  obtain ⟨args', s₁, runA, run⟩ := bind_ok run
  obtain ⟨w₁, _, rfl, fits₁, -, kinded, way₁⟩ :=
    inferAll_spec each (Reaches.here (N := N) scope.kinded) scope fits runA
  obtain ⟨n, s₂, runH, run⟩ := bind_ok run
  obtain ⟨w₂, fits₂, -, mono, closed, way₂⟩ :=
    hostMember_spec args' hostClosed way₁ fits₁ kinded (.of_subset fun t m => .inr (.inr m)) runH
  obtain ⟨rfl, rfl⟩ := pure_ok run
  refine ⟨w₂, fits₂, .of_closed mono closed, way₂.weaken scope.kinded subset_rfl
    (by simp [Expr.note]) ?_⟩
  rintro f before ⟨⟨-, holds⟩, hostFits⟩
  refine ⟨?_, fun own θ good => ?_⟩
  · simp only [Expr.notes, List.forall_mem_cons, Expr.mem_notesOfAll]
    refine ⟨.of_closed mono closed, fun n inside => ?_⟩
    obtain ⟨e, member, inside⟩ := inside
    exact (holds e member).kinded n inside
  · rw [Expr.mapNotes, Expr.mapAll_eq]
    refine .hostCall (fun e member => ?_) (hostFits θ)
    simp only [List.reverse_nil, List.nil_append, List.mem_map] at member
    obtain ⟨e, member, rfl⟩ := member
    exact (holds e member).derives own θ good

theorem ownerOf?_assign {t : Ty} {owner : String} (h : Host.ownerOf? t = some owner)
    (R : Assignment) : Host.ownerOf? (t.assign R) = some owner := by
  cases t <;> simp [Host.ownerOf?] at h
  · exact congrArg some h
  · exact congrArg some h

theorem sound_hostMethod {p : Position} {r : Expr Position} {member : String}
    {args : List (Expr Position)} (hostClosed : HostClosed host) (soundR : Sound host ctors r)
    (each : ∀ e ∈ args, Sound host ctors e) :
    Sound host ctors (.hostMethod p r member args) := by
  intro N env w s s' e' fits scope run
  simp only [infer] at run
  obtain ⟨r', s₁, runR, run⟩ := bind_ok run
  obtain ⟨w₁, fits₁, kindedR, way₁⟩ := soundR (N := N) fits scope runR
  obtain ⟨t, s₂, runT, run⟩ := bind_ok run
  obtain ⟨rfl, fits₂⟩ := resolve_spec fits₁ kindedR runT
  cases found : Host.ownerOf? (r'.note.type.assign w₁.meaning) with
  | none =>
    simp only [found] at run
    exact (not_refuse_ok run).elim
  | some owner =>
    simp only [found] at run
    obtain ⟨args', s₃, runA, run⟩ := bind_ok run
    obtain ⟨w₃, _, rfl, fits₃, later₃, kinded, way₃⟩ := inferAll_spec each way₁ scope fits₂ runA
    obtain ⟨n, s₄, runH, run⟩ := bind_ok run
    obtain ⟨w₄, fits₄, later₄, mono, closed, way₄⟩ :=
      hostMember_spec args' hostClosed way₃ fits₃ kinded (.of_subset fun t m => .inr (.inr m)) runH
    obtain ⟨rfl, rfl⟩ := pure_ok run
    refine ⟨w₄, fits₄, .of_closed mono closed, way₄.weaken scope.kinded subset_rfl
      (by simp [Expr.note]) ?_⟩
    rintro f before ⟨⟨holdsR, holds⟩, hostFits⟩
    refine ⟨?_, fun own θ good => ?_⟩
    · simp only [Expr.notes, List.forall_mem_cons, List.forall_mem_append, Expr.mem_notesOfAll]
      refine ⟨.of_closed mono closed, holdsR.kinded, fun n inside => ?_⟩
      obtain ⟨e, member, inside⟩ := inside
      exact (holds e member).kinded n inside
    · rw [Expr.mapNotes, Expr.mapAll_eq]
      have later := ((later₃.trans later₄).trans before).refines
      refine .hostMethod (holdsR.derives own θ good) ?_ (fun e member => ?_) (hostFits θ)
      · rw [Expr.note_mapNotes, Typed.close_type, ← later.assign kindedR.mono]
        exact ownerOf?_assign (ownerOf?_assign found _) θ
      · simp only [List.reverse_nil, List.nil_append, List.mem_map] at member
        obtain ⟨e, member, rfl⟩ := member
        exact (holds e member).derives own θ good

theorem sound_hostField {p : Position} {owner name : String} (hostClosed : HostClosed host) :
    Sound host ctors (.hostField p owner name) := by
  intro N env w s s' e' fits scope run
  simp only [infer] at run
  obtain ⟨n, s₁, runH, run⟩ := bind_ok run
  obtain ⟨w₁, fits₁, -, mono, closed, way₁⟩ := hostMember_spec [] hostClosed
    (Reaches.here (N := N) scope.kinded) fits (by simp) (by simp [typesIn]) runH
  obtain ⟨rfl, rfl⟩ := pure_ok run
  refine ⟨w₁, fits₁, .of_closed mono closed, way₁.weaken scope.kinded subset_rfl
    (by simp [Expr.note]) ?_⟩
  rintro f before ⟨-, hostFits⟩
  refine ⟨?_, fun own θ good => .hostField (hostFits θ)⟩
  simpa [Expr.notes] using Ty.WellKinded.of_closed mono closed

theorem sound_hostNew {p : Position} {owner : String} (hostClosed : HostClosed host) :
    Sound host ctors (.hostNew p owner) := by
  intro N env w s s' e' fits scope run
  simp only [infer] at run
  obtain ⟨n, s₁, runH, run⟩ := bind_ok run
  obtain ⟨w₁, fits₁, -, mono, closed, way₁⟩ := hostMember_spec [] hostClosed
    (Reaches.here (N := N) scope.kinded) fits (by simp) (by simp [typesIn]) runH
  obtain ⟨rfl, rfl⟩ := pure_ok run
  refine ⟨w₁, fits₁, .of_closed mono closed, way₁.weaken scope.kinded subset_rfl
    (by simp [Expr.note]) ?_⟩
  rintro f before ⟨-, hostFits⟩
  refine ⟨?_, fun own θ good => .hostNew (hostFits θ)⟩
  simpa [Expr.notes] using Ty.WellKinded.of_closed mono closed

end StackML.Typing
