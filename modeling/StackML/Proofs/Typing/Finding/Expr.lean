import StackML.Proofs.Typing.Finding.Rules

/-!
Inference of patterns and expressions finds the types of all their nodes.
-/

namespace StackML.Typing

variable {host : Host.Resolver} {ctors : NameMap Constructor} {env scope inner : Env} {O : Set Ty}
  {t : Ty} {α β : Type}

theorem Locally.trans (first : Locally env scope) (second : Locally scope inner) :
    Locally env inner :=
  fun name b found isGlobal => first name b (second name b found isGlobal) isGlobal

@[simp] theorem noted_reverse_all (es : List (Expr Typed)) :
    noted (Expr.notesOfAll es.reverse) = noted (Expr.notesOfAll es) := by
  simp [noted, Expr.mem_notesOfAll]

@[simp] theorem noted_reverse_parts (ps : List (Part Typed)) :
    noted (Expr.notesOfParts ps.reverse) = noted (Expr.notesOfParts ps) := by
  simp [noted, Expr.mem_notesOfParts]

@[simp] theorem noted_reverse_arms (arms : List (Arm Typed)) :
    noted (Expr.notesOfArms arms.reverse) = noted (Expr.notesOfArms arms) := by
  simp [noted, Expr.mem_notesOfArms]

def FindsNotes (host : Host.Resolver) (ctors : NameMap Constructor) (e : Expr Position) : Prop :=
  ∀ env O, Finds ctors env O (infer host env e) (fun e' => noted e'.notes)
    fun e' => Opens env e e'.note.type

namespace Finds

variable {made : α → Set Ty} {known : α → Prop}

theorem refuse_bind {place : Position} {issue : Issue} {f : β → Infer α} :
    Finds ctors env O (Typing.refuse place issue >>= f) made known := by
  intro w s w₁ s₁ a s₂ _ run
  obtain ⟨_, _, failed, -⟩ := bind_ok run
  exact (not_refuse_ok failed).elim

theorem node {e : Expr Position} {e' : Expr Typed} {n : Typed} {rest : List Typed}
    (shape : e'.notes = n :: rest) (plain : ∀ p name, e ≠ .var p name)
    (root : Made (visible env ctors) O n.type) (others : noted rest ⊆ O) :
    Finds ctors env O (Pure.pure e') (fun e' => noted e'.notes)
      fun e' => Opens env e e'.note.type := by
  refine pure ?_ fun p name same => (plain p name same).elim
  rw [shape, noted_cons]
  rintro t (rfl | member)
  · exact root
  · exact .of_mem (others member)

/-! ### Steps -/

theorem binaryType {place : Position} {op : BinaryOp} {l r : Typed} (left : l.type ∈ O)
    (right : r.type ∈ O) :
    Finds ctors env O (Typing.binaryType place op l r) (fun t => {t}) fun _ => True := by
  have closed : ∀ {O : Set Ty} {c : Ty}, c.isMono → c.occurrences = [] →
      ∀ t ∈ ({c} : Set Ty), Made (visible env ctors) O t := by
    rintro O c mono closed _ rfl
    exact .of_closed mono closed
  unfold Typing.binaryType
  split
  · refine freshOf.bind fun v _ => (unify (.of_mem (by simp [left])) (.of_mem (by simp))).bind
      fun _ _ => freshOf.bind fun u _ => (unify (.of_mem (by simp [right])) (.of_mem (by simp))).bind
      fun _ _ => (prune (.of_mem (by simp [left]))).bind fun _ _ =>
      (prune (.of_mem (by simp [right]))).bind fun _ _ => ?_
    split
    · exact pure (closed rfl rfl) trivial
    · refine (unify (.of_mem (by simp [left])) (.of_mem (by simp [right]))).bind fun _ _ =>
        pure ?_ trivial
      rintro _ rfl
      exact .of_mem (by simp [left])
  · split
    · exact (unify (.of_mem left) (.of_mem right)).bind fun _ _ => pure (closed rfl rfl) trivial
    · exact (unify (.of_mem left) (.of_closed rfl rfl)).bind fun _ _ =>
        (unify (.of_mem (by simp [right])) (.of_closed rfl rfl)).bind fun _ _ =>
          pure (closed rfl rfl) trivial

theorem bindParams {names : List String} :
    Finds ctors env O (Typing.bindParams scope names) (fun r => {t | t ∈ r.1}) fun r =>
      visible r.2 ctors ⊆ visible scope ctors ∪ {t | t ∈ r.1} ∧ Locally scope r.2 := by
  induction names generalizing scope O with
  | nil => exact pure (by simp) ⟨by simp, .refl scope⟩
  | cons name names ih =>
    refine freshOf.bind fun v _ => ih.bind fun r known => pure (fun t member => .of_mem ?_) ⟨?_, ?_⟩
    · rcases List.mem_cons.1 member with rfl | later
      · simp
      · exact .inr later
    · intro t seen
      rcases known.1 seen with old | new
      · rcases visible_insert scope ctors name { type := v } old with outer | rfl
        · exact .inl outer
        · exact .inr List.mem_cons_self
      · exact .inr (List.mem_cons_of_mem _ new)
    · exact ((Locally.refl scope).extend name v).trans known.2

theorem unifyArgs {args : List (Position × Ty)} {params : List Ty} (found : ∀ a ∈ args, a.2 ∈ O)
    (closed : ∀ t ∈ params, t.isMono ∧ t.occurrences = []) :
    Finds ctors env O (Typing.unifyArgs args params) (fun _ => ∅) fun _ => True := by
  induction args generalizing params O with
  | nil => exact pure (by simp) trivial
  | cons a args ih =>
    cases params with
    | nil => exact pure (by simp) trivial
    | cons p params =>
      rw [List.forall_mem_cons] at found closed
      exact (unify (.of_mem found.1) (.of_closed closed.1.1 closed.1.2)).bind fun _ _ =>
        ih (fun a member => .inl (found.2 a member)) closed.2

theorem hostMember {place : Position} {owner member : String} {kind : Host.MemberKind}
    {args : List (Position × Ty)} (hostClosed : HostClosed host) (found : ∀ a ∈ args, a.2 ∈ O) :
    Finds ctors env O (Typing.hostMember host place owner member kind args) (fun n => {n.type})
      fun _ => True := by
  unfold Typing.hostMember
  split
  · exact refuse
  · next sig resolved =>
    have closed := hostClosed owner member kind sig resolved
    rw [List.forall_mem_cons] at closed
    dsimp only
    split
    · exact refuse_bind
    · refine (unifyArgs found closed.2).bind fun _ _ => pure ?_ trivial
      rintro _ rfl
      exact .of_closed closed.1.1 closed.1.2

/-! ### Patterns -/

def Binds (ctors : NameMap Constructor) (scope : Env) (r : Pattern Typed × Env) : Prop :=
  visible r.2 ctors ⊆ visible scope ctors ∪ noted r.1.notes ∧ Locally scope r.2

theorem leaf {p : Pattern Typed} {n : Typed} (shape : p.notes = [n]) (found : n.type ∈ O) :
    Finds ctors env O (Pure.pure (p, scope)) (fun r => noted r.1.notes) (Binds ctors scope) := by
  refine pure ?_ ⟨Set.subset_union_left, .refl scope⟩
  rw [shape]
  simpa using .of_mem found

theorem checkPattern {p : Pattern Position} (found : t ∈ O) :
    Finds ctors env O (Typing.checkPattern scope t p) (fun r => noted r.1.notes)
      (Binds ctors scope) := by
  induction p generalizing scope t O with
  | wild => exact leaf rfl found
  | var p name =>
    refine pure ?_ ⟨?_, (Locally.refl scope).extend name t⟩
    · simpa [Pattern.notes] using .of_mem found
    · simpa [Pattern.notes, Env.extend] using visible_insert scope ctors name { type := t }
  | int | bool | str =>
    exact (unify (.of_mem found) (.of_closed rfl rfl)).bind fun _ _ => leaf rfl (by simp [found])
  | nil =>
    exact freshOf.bind fun v _ =>
      (unify (.of_mem (by simp [found])) (.list (.of_mem (by simp)))).bind fun _ _ =>
        leaf rfl (by simp [found])
  | cons p head tail ihHead ihTail =>
    refine freshOf.bind fun v _ =>
      (unify (.of_mem (by simp [found])) (.list (.of_mem (by simp)))).bind fun _ _ =>
      (ihHead (by simp)).bind fun h knownH => (ihTail (by simp [found])).bind fun l knownL =>
      pure ?_ ⟨?_, knownH.2.trans knownL.2⟩
    · simp only [Pattern.notes, noted_cons, noted_append]
      rintro u (rfl | inHead | inTail)
      · exact .of_mem (by simp [found])
      · exact .of_mem (by simp [inHead])
      · exact .of_mem (by simp [inTail])
    · simp only [Pattern.notes, noted_cons, noted_append]
      intro u seen
      rcases knownL.1 seen with old | new
      · exact (knownH.1 old).imp_right fun inHead => .inr (.inl inHead)
      · exact .inr (.inr (.inr new))
  | tag =>
    refine findCtor.bind fun c known => (instantiate (ctor_mem_visible known)).bind fun ct _ => ?_
    dsimp only
    split
    · exact freshOf.bind fun v _ => (unify (.of_mem (by simp)) (.fn (.of_mem (by simp))
        (.of_mem (by simp [found])))).bind fun _ _ => leaf rfl (by simp [found])
    · exact (unify (.of_mem (by simp [found])) (.of_mem (by simp))).bind fun _ _ =>
        leaf rfl (by simp [found])
  | build p name arg ih =>
    refine findCtor.bind fun c known => (instantiate (ctor_mem_visible known)).bind fun ct _ => ?_
    dsimp only
    split
    · exact refuse_bind
    · refine freshOf.bind fun v _ => (unify (.of_mem (by simp)) (.fn (.of_mem (by simp))
        (.of_mem (by simp [found])))).bind fun _ _ => (ih (by simp)).bind fun r knownR =>
        pure ?_ ⟨?_, knownR.2⟩
      · simp only [Pattern.notes, noted_cons]
        rintro u (rfl | inArg)
        · exact .of_mem (by simp [found])
        · exact .of_mem (by simp [inArg])
      · simp only [Pattern.notes, noted_cons]
        exact knownR.1.trans (Set.union_subset_union_right _ (Set.subset_insert _ _))

/-! ### Lists of expressions -/

section Lists

variable {es : List (Expr Position)} {done : List (Expr Typed)}

theorem inferAll (each : ∀ e ∈ es, FindsNotes host ctors e)
    (before : noted (Expr.notesOfAll done) ⊆ O) :
    Finds ctors env O (Typing.inferAll host env done es) (fun es' => noted (Expr.notesOfAll es'))
      fun _ => True := by
  induction es generalizing done O with
  | nil =>
    refine pure (fun t member => .of_mem (before ?_)) trivial
    simpa using member
  | cons e es ih =>
    rw [List.forall_mem_cons] at each
    refine (each.1 env O).bind fun e' _ => ih each.2 ?_
    simp only [Expr.notesOfAll, noted_append]
    exact Set.union_subset Set.subset_union_right (before.trans Set.subset_union_left)

theorem typesOf_found {args : List (Expr Typed)} (found : noted (Expr.notesOfAll args) ⊆ O) :
    ∀ a ∈ typesOf args, a.2 ∈ O := by
  intro a member
  obtain ⟨e, inside, rfl⟩ := List.mem_map.1 member
  exact found (mem_noted (Expr.mem_notesOfAll.2 ⟨e, inside, e.note_mem_notes⟩))

theorem inferElems {elem : Ty} (each : ∀ e ∈ es, FindsNotes host ctors e) (found : elem ∈ O)
    (before : noted (Expr.notesOfAll done) ⊆ O) :
    Finds ctors env O (Typing.inferElems host env elem done es)
      (fun es' => noted (Expr.notesOfAll es')) fun _ => True := by
  induction es generalizing done O with
  | nil =>
    refine pure (fun t member => .of_mem (before ?_)) trivial
    simpa using member
  | cons e es ih =>
    rw [List.forall_mem_cons] at each
    refine (each.1 env O).bind fun e' _ =>
      (unify (.of_mem (by simp [found])) (.of_mem (by simp))).bind fun _ _ =>
      ih each.2 (by simp [found]) ?_
    simp only [Expr.notesOfAll, noted_append, Set.union_empty]
    exact Set.union_subset Set.subset_union_right (before.trans Set.subset_union_left)

theorem inferArgs {fn : Ty} (each : ∀ e ∈ es, FindsNotes host ctors e) (found : fn ∈ O)
    (before : noted (Expr.notesOfAll done) ⊆ O) :
    Finds ctors env O (Typing.inferArgs host env fn done es)
      (fun r => insert r.1 (noted (Expr.notesOfAll r.2))) fun _ => True := by
  induction es generalizing done fn O with
  | nil =>
    refine pure ?_ trivial
    simp only [noted_reverse_all]
    rintro t (rfl | member)
    · exact .of_mem found
    · exact .of_mem (before member)
  | cons e es ih =>
    rw [List.forall_mem_cons] at each
    refine (each.1 env O).bind fun e' _ => freshOf.bind fun v _ =>
      (unify (.of_mem (by simp [found])) (.fn (.of_mem (by simp)) (.of_mem (by simp)))).bind
      fun _ _ => ih each.2 (by simp) ?_
    simp only [Expr.notesOfAll, noted_append, Set.union_empty]
    exact Set.union_subset (Set.subset_union_right.trans Set.subset_union_left)
      ((before.trans Set.subset_union_left).trans Set.subset_union_left)

theorem inferParts {ps : List (Part Position)} {done : List (Part Typed)}
    (each : ∀ e, .hole e ∈ ps → FindsNotes host ctors e)
    (before : noted (Expr.notesOfParts done) ⊆ O) :
    Finds ctors env O (Typing.inferParts host env done ps)
      (fun ps' => noted (Expr.notesOfParts ps')) fun _ => True := by
  induction ps generalizing done O with
  | nil =>
    refine pure (fun t member => .of_mem (before ?_)) trivial
    simpa using member
  | cons part ps ih =>
    have rest : ∀ e, .hole e ∈ ps → FindsNotes host ctors e := fun e member =>
      each e (List.mem_cons_of_mem _ member)
    cases part with
    | text t => exact ih rest (by simpa [Expr.notesOfParts] using before)
    | hole e =>
      refine (each e List.mem_cons_self env O).bind fun e' _ => ih rest ?_
      simp only [Expr.notesOfParts, noted_append]
      exact Set.union_subset Set.subset_union_right (before.trans Set.subset_union_left)

theorem inferArms {arms : List (Arm Position)} {scrutinee result : Ty} {done : List (Arm Typed)}
    (each : ∀ p b, .mk p b ∈ arms → FindsNotes host ctors b) (foundS : scrutinee ∈ O)
    (foundR : result ∈ O) (before : noted (Expr.notesOfArms done) ⊆ O) :
    Finds ctors env O (Typing.inferArms host env scrutinee result done arms)
      (fun arms' => noted (Expr.notesOfArms arms')) fun _ => True := by
  induction arms generalizing done O with
  | nil =>
    refine pure (fun t member => .of_mem (before ?_)) trivial
    simpa using member
  | cons arm arms ih =>
    obtain ⟨p, b⟩ := arm
    refine (checkPattern foundS).bind fun r known => ?_
    have cover : visible r.2 ctors ⊆ visible env ctors ∪ (O ∪ noted r.1.notes) :=
      known.1.trans (Set.union_subset_union_right _ Set.subset_union_right)
    refine (enter cover known.2 (each p b List.mem_cons_self r.2 ∅)).bind fun b' _ =>
      (unify (.of_mem (by simp [foundR])) (.of_mem (by simp))).bind fun _ _ =>
      ih (fun p b member => each p b (List.mem_cons_of_mem _ member)) (by simp [foundS])
        (by simp [foundR]) ?_
    simp only [Expr.notesOfArms, noted_append, Set.union_empty]
    rintro t (inPattern | inBody | old)
    · exact .inl (.inr inPattern)
    · exact .inr inBody
    · exact .inl (.inl (before old))

end Lists

/-! ### Expressions -/

theorem infer (hostClosed : HostClosed host) (closed : CtorsClosed ctors) (e : Expr Position) :
    FindsNotes host ctors e := by
  induction e using Expr.induct with
  | int | float | bool | str | unit =>
    intro env O
    simp only [Typing.infer]
    exact node rfl (by simp) (.of_closed rfl rfl) (by simp)
  | interp _ _ ih =>
    intro env O
    simp only [Typing.infer]
    exact (inferParts ih (by simp [Expr.notesOfParts])).bind fun _ _ =>
      node rfl (by simp) (.of_closed rfl rfl) (by simp)
  | var p name =>
    intro env O
    simp only [Typing.infer]
    refine lookup.bind fun t known => pure ?_ ?_
    · simpa [Expr.notes] using .of_mem (by simp)
    · rintro _ _ ⟨⟩
      exact known
  | qualified =>
    intro env O
    simp only [Typing.infer]
    exact lookup.bind fun t _ => node rfl (by simp) (.of_mem (by simp)) (by simp)
  | unary _ op _ ih =>
    intro env O
    simp only [Typing.infer]
    refine (ih env O).bind fun e' _ => ?_
    cases op with
    | not =>
      exact (unify (.of_mem (by simp)) (.of_closed rfl rfl)).bind fun _ _ =>
        node rfl (by simp) (.of_closed rfl rfl) (by simp)
    | neg =>
      refine freshOf.bind fun v _ => (unify (.of_mem (by simp)) (.of_mem (by simp))).bind fun _ _ =>
        node rfl (by simp) (.of_mem (by simp)) fun t member => ?_
      simp [member]
  | binary _ _ _ _ ihL ihR =>
    intro env O
    simp only [Typing.infer]
    refine (ihL env _).bind fun l _ => (ihR env _).bind fun r _ =>
      (binaryType (by simp) (by simp)).bind fun t _ =>
      node rfl (by simp) (.of_mem (by simp)) fun u member => ?_
    simp only [noted_append, Set.mem_union] at member ⊢
    grind
  | cond _ _ _ _ ihC ihT ihE =>
    intro env O
    simp only [Typing.infer]
    refine (ihC env _).bind fun c _ => (unify (.of_mem (by simp)) (.of_closed rfl rfl)).bind fun _ _ =>
      (ihT env _).bind fun t _ => (ihE env _).bind fun e _ =>
      (unify (.of_mem (by simp)) (.of_mem (by simp))).bind fun _ _ =>
      node rfl (by simp) (.of_mem (by simp)) fun u member => ?_
    simp only [noted_append, Set.mem_union] at member ⊢
    grind
  | letIn _ name _ _ ihV ihB =>
    intro env O
    simp only [Typing.infer]
    refine (ihV env _).bind fun v _ => generalizeLocal name closed (.of_mem (by simp))
      (fun u => ihB (env.extend name u) ∅) fun b =>
      node rfl (by simp) (.of_mem (by simp)) fun u member => ?_
    simp only [noted_append, Set.mem_union] at member ⊢
    grind
  | letRec _ name _ _ _ _ ihF ihB =>
    intro env O
    simp only [Typing.infer]
    refine freshOf.bind fun self _ => bindParams.bind fun r known => ?_
    have cover : visible r.2 ctors ⊆ visible env ctors ∪ (O ∪ {self} ∪ {t | t ∈ r.1}) := by
      intro t seen
      rcases known.1 seen with old | new
      · exact (visible_insert env ctors name { type := self } old).imp_right fun h => .inl (.inr h)
      · exact .inr (.inr new)
    have same : Locally env r.2 := ((Locally.refl env).extend name self).trans known.2
    refine (enter cover same (ihF r.2 ∅)).bind fun fb _ => ?_
    have function : ∀ {O' : Set Ty}, O ∪ {self} ∪ {t | t ∈ r.1} ∪ noted fb.notes ⊆ O' →
        Made (visible env ctors) O' (lambdaType r.1 fb.note.type) := fun sub =>
      .lambdaType (fun p member => .of_mem (sub (.inl (.inr member)))) (.of_mem (sub (by simp)))
    refine (unify (.of_mem (by simp)) (function subset_rfl)).bind fun _ _ =>
      generalizeLocal name closed (function Set.subset_union_left)
      (fun u => ihB (env.extend name u) ∅) fun b => pure ?_ (by rintro _ _ ⟨⟩)
    simp only [Expr.notes, noted_cons, noted_append]
    rintro u (rfl | rfl | inF | inB)
    · exact .of_mem (by simp)
    · exact function (Set.subset_union_left.trans Set.subset_union_left)
    · exact .of_mem (by simp [inF])
    · exact .of_mem (by simp [inB])
  | lambda _ params _ ih =>
    intro env O
    simp only [Typing.infer]
    refine bindParams.bind fun r known => ?_
    have cover : visible r.2 ctors ⊆ visible env ctors ∪ (O ∪ {t | t ∈ r.1}) :=
      known.1.trans (Set.union_subset_union_right _ Set.subset_union_right)
    exact (enter cover known.2 (ih r.2 ∅)).bind fun b _ => node rfl (by simp)
      (.lambdaType (fun p member => .of_mem (.inl (.inr member))) (.of_mem (by simp))) (by simp)
  | apply _ _ _ ihC ih =>
    intro env O
    simp only [Typing.infer]
    refine (ihC env _).bind fun c opens =>
      (inferArgs ih (by simp) (by simp [Expr.notesOfAll])).bind fun r _ =>
      (recordUse (.of_mem (by simp)) opens).bind fun _ _ =>
      node rfl (by simp) (.of_mem (by simp)) fun u member => ?_
    simp only [noted_append, Set.mem_union, Set.mem_insert_iff] at member ⊢
    grind
  | sequence _ _ ih =>
    intro env O
    simp only [Typing.infer]
    refine (inferAll ih (by simp [Expr.notesOfAll])).bind fun es _ =>
      node rfl (by simp) ?_ (by simp)
    unfold lastType
    split
    · next e last =>
      refine .of_mem (.inr ⟨e.note, ?_, rfl⟩)
      exact Expr.mem_notesOfAll.2 ⟨e, List.mem_of_getLast? last, e.note_mem_notes⟩
    · exact .of_closed rfl rfl
  | print _ _ ih =>
    intro env O
    simp only [Typing.infer]
    exact (ih env _).bind fun _ _ => node rfl (by simp) (.of_closed rfl rfl) (by simp)
  | list _ _ ih =>
    intro env O
    simp only [Typing.infer]
    exact freshOf.bind fun v _ =>
      (inferElems ih (by simp) (by simp [Expr.notesOfAll])).bind fun es _ =>
      node rfl (by simp) (.list (.of_mem (by simp))) (by simp)
  | cons _ _ _ ihH ihT =>
    intro env O
    simp only [Typing.infer]
    refine (ihH env _).bind fun h _ => (ihT env _).bind fun t _ =>
      (unify (.of_mem (by simp)) (.list (.of_mem (by simp)))).bind fun _ _ =>
      node rfl (by simp) (.of_mem (by simp)) fun u member => ?_
    simp only [noted_append, Set.mem_union] at member ⊢
    grind
  | matchOn _ _ _ ihE ihArms =>
    intro env O
    simp only [Typing.infer]
    refine (ihE env _).bind fun e _ => ?_
    split
    · exact refuse_bind
    · refine freshOf.bind fun v _ =>
        (inferArms ihArms (by simp) (by simp) (by simp [Expr.notesOfArms])).bind fun arms _ =>
        node rfl (by simp) (.of_mem (by simp)) fun u member => ?_
      simp only [noted_append, Set.mem_union] at member ⊢
      grind
  | tag =>
    intro env O
    simp only [Typing.infer]
    refine findCtor.bind fun c known => (instantiate (ctor_mem_visible known)).bind fun ct _ => ?_
    split
    · exact refuse_bind
    · exact node rfl (by simp) (.of_mem (by simp)) (by simp)
  | build _ _ _ ih =>
    intro env O
    simp only [Typing.infer]
    refine findCtor.bind fun c known => (instantiate (ctor_mem_visible known)).bind fun ct _ => ?_
    split
    · exact refuse_bind
    · refine (ih env _).bind fun e _ => freshOf.bind fun v _ =>
        (unify (.of_mem (by simp)) (.fn (.of_mem (by simp)) (.of_mem (by simp)))).bind fun _ _ =>
        node rfl (by simp) (.of_mem (by simp)) fun u member => ?_
      simp [member]
  | hostCall _ _ _ _ ih =>
    intro env O
    simp only [Typing.infer]
    exact (inferAll ih (by simp [Expr.notesOfAll])).bind fun es _ =>
      (hostMember hostClosed (typesOf_found Set.subset_union_right)).bind fun n _ =>
      node rfl (by simp) (.of_mem (by simp)) fun u member => .inl (.inr member)
  | hostMethod _ _ _ _ ihR ih =>
    intro env O
    simp only [Typing.infer]
    refine (ihR env _).bind fun r _ => (resolve (.of_mem (by simp))).bind fun t _ => ?_
    split
    · exact refuse
    · refine (inferAll ih (by simp [Expr.notesOfAll])).bind fun es _ =>
        (hostMember hostClosed (typesOf_found Set.subset_union_right)).bind fun n _ =>
        node rfl (by simp) (.of_mem (by simp)) fun u member => ?_
      simp only [noted_append, Set.mem_union] at member ⊢
      grind
  | hostField | hostNew =>
    intro env O
    simp only [Typing.infer]
    exact (hostMember hostClosed (by simp)).bind fun n _ =>
      node rfl (by simp) (.of_mem (by simp)) (by simp)

end Finds
end StackML.Typing
