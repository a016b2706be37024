import StackML.Proofs.Typing.Infer.Binding

/-!
Closing: numeric variables that no function quantifies become `int`, and then all types are
resolved. The first is one more step of inference, which leaves alone what is private; after it the
closed types are those that the last stage gives.
-/

namespace StackML.Typing

open Assignment Subst

/-! ### Numeric variables -/

def Defaulting (R : Assignment) (id : VarId) : Prop :=
  R.Unbound id ∨ R.var id = .int ∧ R.num id = .int

structure Defaults (keep : List VarId) (g : Supply) (R R' : Assignment) (s' : Subst) : Prop where
  denotes : Denotes g s' R'
  refines : R'.Refines R
  keeps : ∀ D : Set VarId, (∀ d ∈ D, d ∈ g.numeric → d ∈ keep) → Keeps D R R'
  fewer : ∀ o, ∀ v ∈ (R'.get o).occurrences, v ∈ (R.get o).occurrences

theorem Defaults.refl {keep : List VarId} {g : Supply} {R : Assignment} {s : Subst}
    (denotes : Denotes g s R) : Defaults keep g R R s :=
  ⟨denotes, denotes.comp_self, fun D _ => .refl D R, fun _ _ => id⟩

theorem Defaults.trans {keep : List VarId} {g : Supply} {R R' R'' : Assignment} {s s' s'' : Subst}
    (start : Denotes g s R) (first : Defaults keep g R R' s') (second : Defaults keep g R' R'' s'') :
    Defaults keep g R R'' s'' :=
  ⟨second.denotes, first.refines.trans start.isMono_get second.refines, fun D apart =>
    (first.keeps D apart).trans (second.keeps D apart), fun o v inside =>
    first.fewer o v (second.fewer o v inside)⟩

theorem Defaults.fewer_assign {keep : List VarId} {g : Supply} {R R' : Assignment} {s' : Subst}
    {t : Ty} (defaults : Defaults keep g R R' s') (mono : t.isMono) {v : VarId × Bool}
    (inside : v ∈ (t.assign R').occurrences) : v ∈ (t.assign R).occurrences := by
  obtain ⟨o, occurs, inside⟩ := (Ty.mem_occurrences_assign mono R' v).1 inside
  exact (Ty.mem_occurrences_assign mono R v).2 ⟨o, occurs, defaults.fewer o v inside⟩

theorem Defaulting.comp_single {R : Assignment} {id other : VarId} (h : Defaulting R other) :
    Defaulting (R.comp (single id .int)) other := by
  rcases h with unbound | already
  · by_cases same : other = id
    · subst same
      exact .inr (by simp [comp, unbound.1, unbound.2, Ty.assign, single])
    · exact .inl (by simp [Unbound, comp, unbound.1, unbound.2, Ty.assign, single, same])
  · exact .inr (by simp [comp, already.1, already.2, Ty.assign])

theorem bindInt_spec {keep : List VarId} {g : Supply} {R : Assignment} {s : Subst} {id : VarId}
    (denotes : Denotes g s R) (known : g.Knows (id, true)) (outside : id ∉ keep)
    (waiting : Defaulting R id) : ∃ R', Defaults keep g R R' (s.bind id .int) ∧
      R'.num id = .int ∧ ∀ other, Defaulting R other → Defaulting R' other := by
  have start := denotes
  have closedInt : Ty.int.WellKinded g := .of_closed rfl rfl
  obtain ⟨dom, rank, size, walk⟩ := denotes
  rcases waiting with unbound | already
  · have free := walk.not_mem_of_unbound unbound
    have numeric : id ∈ g.numeric := known.2.1 rfl
    refine ⟨R.comp (single id .int), ⟨?_, ?_, fun D apart => ?_, fun o v inside => ?_⟩, ?_,
      fun _ => .comp_single⟩
    · exact walk.denotes_bind free known.1 closedInt (by simp [Mentions, Ty.assign, Ty.occurrences])
        fun _ => rfl
    · unfold Refines
      rw [← comp_assoc walk.isMono_get, walk.comp_self]
    · exact walk.keeps_bind (t := .int) (fun inside => outside (apart id inside numeric)) rfl
        (by simp [Ty.Avoids, Ty.occurrences])
    · rw [get_comp, Ty.mem_occurrences_assign (walk.isMono_get o)] at inside
      obtain ⟨u, occurs, inside⟩ := inside
      have other : u.1 ≠ id := by
        rintro rfl
        rcases u with ⟨_, _ | _⟩ <;> simp [single, Ty.occurrences] at inside
      rw [get_single_of_ne other, ← Ty.assign_ofVar, Ty.assign_default, Ty.occurrences_ofVar,
        List.mem_singleton] at inside
      exact inside ▸ occurs
    · simp [comp, unbound.2, Ty.assign, single]
  · have bound : id ∈ dom := by
      by_contra free
      have := (walk.free free).1
      rw [already.1] at this
      cases this
    have again := walk.rebind (u := .int) bound already closedInt (fun _ => rfl)
      (by simp [Ty.occurrences])
    exact ⟨R, .refl ⟨dom, rank, size, again⟩, already.2, fun _ still => still⟩

theorem bindInts_spec (keep : List VarId) {ids : List VarId} {g : Supply} {R : Assignment} {s : Subst}
    (denotes : Denotes g s R) (known : ∀ id ∈ ids, g.Knows (id, true))
    (waiting : ∀ id ∈ ids, Defaulting R id) : ∃ R', Defaults keep g R R'
      (ids.foldl (fun s id => if keep.contains id then s else s.bind id .int) s) ∧
      ∀ id ∈ ids, id ∉ keep → R'.num id = .int := by
  induction ids generalizing s R with
  | nil => exact ⟨R, .refl denotes, by simp⟩
  | cons id ids ih =>
    simp only [List.forall_mem_cons] at known waiting
    simp only [List.foldl_cons]
    simp only [List.forall_mem_cons]
    split
    · next kept =>
      obtain ⟨R', rest, each⟩ := ih denotes known.2 waiting.2
      exact ⟨R', rest, fun outside => (outside (by simpa using kept)).elim, each⟩
    · next outside =>
      obtain ⟨R₁, first, int, still⟩ :=
        bindInt_spec denotes known.1 (by simpa using outside) waiting.1
      obtain ⟨R', rest, each⟩ := ih first.denotes known.2 fun other member =>
        still other (waiting.2 other member)
      refine ⟨R', first.trans denotes rest, fun _ => ?_, each⟩
      have later := congrArg (fun σ => σ.num id) rest.refines
      simpa [comp, int, Ty.assign] using later.symm

theorem defaultNumeric_spec (keep : List VarId) {g : Supply} {R : Assignment} {s : Subst} {t : Ty}
    (denotes : Denotes g s R) (kinded : t.WellKinded g) :
    ∃ R', Defaults keep g R R' (defaultNumeric keep s t) ∧
      ∀ o ∈ (t.assign R').occurrences, o.2 = true → o.1 ∈ keep := by
  obtain ⟨dom, rank, size, walk⟩ := denotes
  obtain ⟨s₁, resolved, walk₁⟩ := Subst.resolve_spec walk kinded
  have start : Denotes g s₁ R := ⟨dom, rank, size, walk₁⟩
  have known : ∀ o ∈ (t.assign R).occurrences, g.Knows o ∧ R.Unbound o.1 := by
    intro o occurs
    obtain ⟨v, member, inside⟩ := (Ty.mem_occurrences_assign kinded.mono R o).1 occurs
    exact ⟨(walk.wellKinded_get v (kinded.kinds v member)).kinds o inside,
      walk.free (walk.occurrences_free v o inside)⟩
  unfold defaultNumeric
  rw [resolved]
  obtain ⟨R', defaults, int⟩ := bindInts_spec keep start
    (fun id member => (known (id, true) (Ty.mem_numericIds.1 member)).1)
    fun id member => .inl (known (id, true) (Ty.mem_numericIds.1 member)).2
  refine ⟨R', defaults, ?_⟩
  rintro ⟨id, _⟩ occurs rfl
  by_contra outside
  have bound := int id (Ty.mem_numericIds.2 (defaults.fewer_assign kinded.mono occurs)) outside
  obtain ⟨dom', rank', size', walk'⟩ := defaults.denotes
  obtain ⟨v, -, inside⟩ := (Ty.mem_occurrences_assign kinded.mono R' _).1 occurs
  have unbound := (walk'.free (walk'.occurrences_free v _ inside)).2
  rw [bound] at unbound
  cases unbound

theorem defaultNotes_spec (keep : List VarId) {g : Supply} {R : Assignment} {s : Subst}
    {notes : List Typed} (denotes : Denotes g s R) (kinded : ∀ n ∈ notes, n.type.WellKinded g) :
    ∃ R', Defaults keep g R R' (notes.foldl (fun s n => defaultNumeric keep s n.type) s) ∧
      ∀ n ∈ notes, ∀ o ∈ (n.type.assign R').occurrences, o.2 = true → o.1 ∈ keep := by
  induction notes generalizing s R with
  | nil => exact ⟨R, .refl denotes, by simp⟩
  | cons n notes ih =>
    simp only [List.forall_mem_cons] at kinded ⊢
    obtain ⟨R₁, first, kept⟩ := defaultNumeric_spec keep denotes kinded.1
    obtain ⟨R', rest, each⟩ := ih first.denotes kinded.2
    exact ⟨R', first.trans denotes rest, fun o occurs =>
      kept o (rest.fewer_assign kinded.1.mono occurs), each⟩

/-! ### Types as the result shows them -/

theorem closeType_quantify {g : Supply} {R : Assignment} {s : Subst} {t : Ty} (vars : List VarId)
    (denotes : Denotes g s R) (kinded : t.WellKinded g) (unbound : ∀ a ∈ vars, R.Unbound a)
    (occur : ∀ a ∈ vars, ∃ o ∈ t.occurrences, o.1 = a) :
    closeType s (t.quantify vars) = (t.assign R).quantify vars := by
  obtain ⟨dom, rank, size, walk⟩ := denotes
  obtain ⟨s', resolved, -⟩ := Subst.resolve_spec walk kinded
  cases vars with
  | nil =>
    have mono := Ty.isMono_assign kinded.mono fun o _ => walk.isMono_get o
    simp only [Ty.quantify, closeType, resolved]
    cases h : t.assign R with
    | scheme vars a => simp [h, Ty.isMono] at mono
    | _ => rfl
  | cons a rest =>
    have still : ∀ b ∈ a :: rest, b ∈ (t.assign R).freeVars := by
      intro b member
      obtain ⟨o, occurs, rfl⟩ := occur b member
      refine Ty.mem_freeVars.2 ⟨o, (Ty.mem_occurrences_assign kinded.mono R o).2 ⟨o, occurs, ?_⟩, rfl⟩
      rw [(unbound o.1 member).get, Ty.occurrences_ofVar]
      exact List.mem_singleton_self _
    have shape : s.resolve (.scheme (a :: rest) t) =
        (.scheme (a :: rest) (s.resolve t).1, (s.resolve t).2) := rfl
    have all : (a :: rest).filter (t.assign R).freeVars.contains = a :: rest := by
      rw [List.filter_eq_self]
      intro b member
      simpa using still b member
    simp only [Ty.quantify, closeType, shape, resolved, Ty.dropIdle, all]

theorem closeType_of_wellKinded {g : Supply} {R : Assignment} {s : Subst} {t : Ty}
    (denotes : Denotes g s R) (kinded : t.WellKinded g) : closeType s t = t.assign R :=
  closeType_quantify [] denotes kinded (by simp) (by simp)

def Typed.shut (s : Subst) (n : Typed) : Typed := { n with type := closeType s n.type }

theorem Typed.shut_eq {g : Supply} {R : Assignment} {s : Subst} {n : Typed}
    (denotes : Denotes g s R) (kinded : n.type.WellKinded g) : n.shut s = n.close R := by
  rw [Typed.shut, Typed.close, closeType_of_wellKinded denotes kinded]

theorem mapNotes_shut {g : Supply} {R : Assignment} {s : Subst} {e : Expr Typed}
    (denotes : Denotes g s R) (kinded : ∀ n ∈ e.notes, n.type.WellKinded g) :
    e.mapNotes (Typed.shut s) = e.mapNotes (Typed.close R) :=
  Expr.mapNotes_congr fun n member => Typed.shut_eq denotes (kinded n member)

def Function.shut (s : Subst) (f : Function) : Function where
  decl := { f.decl with note := f.decl.note.shut s, body := f.decl.body.mapNotes (Typed.shut s) }
  type := closeType s f.type

end StackML.Typing
