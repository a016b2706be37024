import StackML.Proofs.Ty.Filling

/-!
The operations on substitutions without bounds. The library's walks carry a number of steps; the
relations here are the same walks without one, so that a derivation is a walk that ends. A
derivation says nothing about the bindings it starts from: that there is one for every type is
what acyclic bindings give.
-/

namespace StackML

/-- Whether two types that are no variables have one outermost form, so that they are equal once
their parts are. Schemes are not compared. -/
def Ty.sameHead : Ty → Ty → Bool
  | .fn _ _, .fn _ _ | .list _, .list _ | .result _ _, .result _ _ => true
  | .app m as, .app n bs => m = n ∧ as.length = bs.length
  | .named m, .named n => m = n
  | .host m, .host n => m = n
  | .int, .int | .double, .double | .string, .string | .bool, .bool | .unit, .unit => true
  | _, _ => false

namespace Subst

inductive PruneRun : Subst → Ty → Ty → Subst → Prop
  | plain {s : Subst} {t : Ty} (none : t.varId? = none) : PruneRun s t t s
  | unbound {s : Subst} {t : Ty} {id : VarId} (isVar : t.varId? = some id)
      (free : s.get? id = none) : PruneRun s t t s
  | bound {s s' : Subst} {t next root : Ty} {id : VarId} (isVar : t.varId? = some id)
      (found : s.get? id = some next) (rest : PruneRun s next root s') :
      PruneRun s t root (if root = next then s' else s'.bind id root)

mutual
inductive ResolveRun : Subst → Ty → Ty → Subst → Prop
  | node {s s₁ s' : Subst} {t u : Ty} {ps : List Ty} (first : PruneRun s t u s₁)
      (parts : ResolveAllRun s₁ u.parts ps s') : ResolveRun s t (u.withParts ps) s'

inductive ResolveAllRun : Subst → List Ty → List Ty → Subst → Prop
  | nil {s : Subst} : ResolveAllRun s [] [] s
  | cons {s s₁ s' : Subst} {t u : Ty} {ts us : List Ty} (first : ResolveRun s t u s₁)
      (rest : ResolveAllRun s₁ ts us s') : ResolveAllRun s (t :: ts) (u :: us) s'
end

mutual
inductive OccursRun (id : VarId) : Subst → Ty → Bool → Subst → Prop
  | leaf {s s' : Subst} {t u : Ty} {other : VarId} (first : PruneRun s t u s')
      (isVar : u.varId? = some other) : OccursRun id s t (other == id) s'
  | node {s s₁ s' : Subst} {t u : Ty} {b : Bool} (first : PruneRun s t u s₁)
      (plain : u.varId? = none) (parts : OccursAnyRun id s₁ u.parts b s') : OccursRun id s t b s'

inductive OccursAnyRun (id : VarId) : Subst → List Ty → Bool → Subst → Prop
  | nil {s : Subst} : OccursAnyRun id s [] false s
  | found {s s' : Subst} {t : Ty} {ts : List Ty} (first : OccursRun id s t true s') :
      OccursAnyRun id s (t :: ts) true s'
  | next {s s₁ s' : Subst} {t : Ty} {ts : List Ty} {b : Bool} (first : OccursRun id s t false s₁)
      (rest : OccursAnyRun id s₁ ts b s') : OccursAnyRun id s (t :: ts) b s'
end

inductive BindRun : Subst → VarId → Ty → Unified → Prop
  | same {s : Subst} {id : VarId} : BindRun s id (.var id) (none, s)
  | recursive {s s₁ s' : Subst} {id : VarId} {t u : Ty} (other : t ≠ .var id)
      (asked : OccursRun id s t true s₁) (shown : ResolveRun s₁ t u s') :
      BindRun s id t (some (.recursive (.var id) u), s')
  | bound {s s₁ : Subst} {id : VarId} {t : Ty} (other : t ≠ .var id)
      (asked : OccursRun id s t false s₁) : BindRun s id t (none, s₁.bind id t)

mutual
inductive UnifyRun : Subst → Ty → Ty → Unified → Prop
  | left {s s₁ s₂ : Subst} {a b u : Ty} {id : VarId} {r : Unified}
      (first : PruneRun s a (.var id) s₁) (second : PruneRun s₁ b u s₂) (made : BindRun s₂ id u r) :
      UnifyRun s a b r
  | right {s s₁ s₂ : Subst} {a b t : Ty} {id : VarId} {r : Unified} (first : PruneRun s a t s₁)
      (second : PruneRun s₁ b (.var id) s₂) (other : ∀ id, t ≠ .var id) (made : BindRun s₂ id t r) :
      UnifyRun s a b r
  | numericLeft {s s₁ s₂ : Subst} {a b u : Ty} {id : VarId} (first : PruneRun s a (.num id) s₁)
      (second : PruneRun s₁ b u s₂) (other : ∀ id, u ≠ .var id) :
      UnifyRun s a b (s₂.bindNumeric id u)
  | numericRight {s s₁ s₂ : Subst} {a b t : Ty} {id : VarId} (first : PruneRun s a t s₁)
      (second : PruneRun s₁ b (.num id) s₂) (other : t.varId? = none) :
      UnifyRun s a b (s₂.bindNumeric id t)
  | parts {s s₁ s₂ : Subst} {a b t u : Ty} {r : Unified} (first : PruneRun s a t s₁)
      (second : PruneRun s₁ b u s₂) (plain : t.varId? = none ∧ u.varId? = none)
      (same : t.sameHead u = true) (rest : UnifyAllRun s₂ t.parts u.parts r) : UnifyRun s a b r
  | mismatch {s s₁ s₂ : Subst} {a b t u : Ty} (first : PruneRun s a t s₁)
      (second : PruneRun s₁ b u s₂) (plain : t.varId? = none ∧ u.varId? = none)
      (apart : t.sameHead u = false) : UnifyRun s a b (some (.mismatch t u), s₂)

inductive UnifyAllRun : Subst → List Ty → List Ty → Unified → Prop
  | nil {s : Subst} : UnifyAllRun s [] [] (none, s)
  | failed {s s' : Subst} {a b : Ty} {as bs : List Ty} {e : UnifyError}
      (first : UnifyRun s a b (some e, s')) : UnifyAllRun s (a :: as) (b :: bs) (some e, s')
  | next {s s₁ : Subst} {a b : Ty} {as bs : List Ty} {r : Unified}
      (first : UnifyRun s a b (none, s₁)) (rest : UnifyAllRun s₁ as bs r) :
      UnifyAllRun s (a :: as) (b :: bs) r
end

/-! ### What the bindings amount to -/

def Refers (s : Subst) (a b : VarId) : Prop := ∃ t, s.get? a = some t ∧ ∃ o ∈ t.leaves, o.1 = b

/-- The substitution during a walk: its bindings amount to the assignment `R`, the bound variables
are those in `dom`, and a variable ranks above those in its binding. -/
structure Leads (R : Assignment) (dom : Set VarId) (rank : VarId → Nat) (size : Nat) (s : Subst) :
    Prop where
  bound : ∀ {id t}, s.get? id = some t → ∀ numeric, R.get (id, numeric) = t.fill R
  free : ∀ {id}, id ∉ dom → ∀ numeric, R.get (id, numeric) = .ofVar id numeric
  dom_iff : ∀ {id}, id ∈ dom ↔ (s.get? id).isSome
  ranked : ∀ {id t}, s.get? id = some t → ∀ o ∈ t.leaves, rank o.1 < rank id
  small : ∀ id, rank id ≤ size
  size_eq : s.size = size

def Means (s : Subst) (R : Assignment) : Prop := ∃ dom rank size, Leads R dom rank size s

theorem means_empty : Means .empty {} := by
  have none : ∀ id, Subst.empty.get? id = none := fun id => by
    simp [empty, get?, Std.TreeMap.get?_eq_getElem?]
  refine ⟨∅, fun _ => 0, 0, ?_⟩
  constructor
  case free => rintro id - (_ | _) <;> rfl
  case size_eq => rfl
  all_goals simp [none]

section Leads

variable {R : Assignment} {dom : Set VarId} {rank : VarId → Nat} {size : Nat} {s s' : Subst}
  {t u : Ty}

theorem Leads.get_of_free (leads : Leads R dom rank size s) {o : VarId × Bool} (h : o.1 ∉ dom) :
    R.get o = .ofVar o.1 o.2 := leads.free h o.2

theorem Leads.get_of_bound (leads : Leads R dom rank size s) {o : VarId × Bool}
    (h : s.get? o.1 = some t) : R.get o = t.fill R := leads.bound h o.2

theorem Leads.leaves_free (leads : Leads R dom rank size s) (o : VarId × Bool) :
    ∀ v ∈ (R.get o).leaves, v.1 ∉ dom := by
  induction h : rank o.1 using Nat.strong_induction_on generalizing o with
  | _ n ih =>
    cases found : s.get? o.1 with
    | none =>
      have outside : o.1 ∉ dom := by simp [leads.dom_iff, found]
      rw [leads.get_of_free outside]
      simpa using outside
    | some t =>
      intro v member
      rw [leads.get_of_bound found, Ty.mem_leaves_fill] at member
      obtain ⟨w, inside, occurs⟩ := member
      exact ih (rank w.1) (h ▸ leads.ranked found w inside) w rfl v occurs

/-- A path leads to an unbound variable or to another type, which stands for the same and ranks
below where the path began; what the bindings amount to does not change. -/
theorem PruneRun.spec (run : PruneRun s t u s') (leads : Leads R dom rank size s) :
    Leads R dom rank size s' ∧ u.fill R = t.fill R ∧ (∀ id, u.varId? = some id → id ∉ dom) ∧
      (u = t ∨ ∃ id, t.varId? = some id ∧ ∀ o ∈ u.leaves, rank o.1 < rank id) := by
  induction run with
  | plain none => exact ⟨leads, rfl, by simp [none], .inl rfl⟩
  | unbound isVar free =>
    refine ⟨leads, rfl, fun other same => ?_, .inl rfl⟩
    cases isVar.symm.trans same
    simp [leads.dom_iff, free]
  | @bound s' t next root id isVar found rest ih =>
    obtain ⟨leads', same, free, ranks⟩ := ih
    have below : ∀ o ∈ root.leaves, rank o.1 < rank id := by
      rcases ranks with rfl | ⟨other, nextVar, lower⟩
      · exact leads.ranked found
      · obtain ⟨numeric, rfl⟩ := Ty.eq_ofVar_of_varId? nextVar
        have first := leads.ranked found (other, numeric) (by simp)
        exact fun o member => (lower o member).trans first
    have target : next.fill R = t.fill R := by
      obtain ⟨numeric, rfl⟩ := Ty.eq_ofVar_of_varId? isVar
      rw [Ty.fill_ofVar, leads.bound found]
    refine ⟨?_, same.trans target, free, .inr ⟨id, isVar, below⟩⟩
    have inDom : id ∈ dom := by simp [leads.dom_iff, found]
    split
    · exact leads'
    · refine ⟨fun {other u} h numeric => ?_, leads'.free, fun {other} => ?_, fun {other u} h => ?_,
        leads'.small, ?_⟩
      · rw [get?_bind] at h
        split at h
        · next equal =>
          cases h
          subst equal
          rw [leads.bound found, same]
        · exact leads'.bound h numeric
      · rw [get?_bind]
        split
        · next equal => simp [equal, inDom]
        · exact leads'.dom_iff
      · rw [get?_bind] at h
        split at h
        · next equal =>
          cases h
          exact equal ▸ below
        · exact leads'.ranked h
      · rw [size_bind, if_pos (leads'.dom_iff.1 inDom), leads'.size_eq]

mutual
theorem ResolveRun.spec {s s' : Subst} {t u : Ty} (leads : Leads R dom rank size s) :
    ResolveRun s t u s' → Leads R dom rank size s' ∧ u = t.fill R
  | .node (u := u) first parts => by
    obtain ⟨leads₁, same, free, -⟩ := first.spec leads
    obtain ⟨leads', rfl⟩ := parts.spec leads₁
    refine ⟨leads', ?_⟩
    rw [← same]
    rcases u.cases_parts with ⟨id, numeric, rfl⟩ | plain
    · rw [Ty.parts_ofVar, List.map_nil, Ty.withParts_nil _ (Ty.parts_ofVar id numeric), Ty.fill_ofVar,
        leads.free (free id (Ty.varId?_ofVar id numeric))]
    · exact (Ty.fill_of_plain plain R).symm

theorem ResolveAllRun.spec {s s' : Subst} {ts us : List Ty} (leads : Leads R dom rank size s) :
    ResolveAllRun s ts us s' → Leads R dom rank size s' ∧ us = ts.map (Ty.fill R)
  | .nil => ⟨leads, rfl⟩
  | .cons first rest => by
    obtain ⟨leads₁, rfl⟩ := first.spec leads
    obtain ⟨leads', rfl⟩ := rest.spec leads₁
    exact ⟨leads', rfl⟩
end

mutual
theorem OccursRun.spec {s s' : Subst} {t : Ty} {b : Bool} {id : VarId}
    (leads : Leads R dom rank size s) : OccursRun id s t b s' →
    Leads R dom rank size s' ∧ (b = true ↔ ∃ o ∈ (t.fill R).leaves, o.1 = id)
  | .leaf (u := u) first isVar => by
    obtain ⟨leads', same, free, -⟩ := first.spec leads
    refine ⟨leads', ?_⟩
    obtain ⟨numeric, rfl⟩ := Ty.eq_ofVar_of_varId? isVar
    rw [← same, Ty.fill_ofVar, leads.free (free _ isVar), Ty.leaves_ofVar]
    simp
  | .node (u := u) first plain parts => by
    obtain ⟨leads₁, same, -⟩ := first.spec leads
    obtain ⟨leads', answer⟩ := parts.spec leads₁
    refine ⟨leads', ?_⟩
    rw [← same, Ty.leaves_of_plain (Ty.varId?_fill plain R), Ty.parts_fill plain, answer]
    simp only [List.mem_flatMap, List.mem_map, exists_exists_and_eq_and]
    grind

theorem OccursAnyRun.spec {s s' : Subst} {ts : List Ty} {b : Bool} {id : VarId}
    (leads : Leads R dom rank size s) : OccursAnyRun id s ts b s' →
    Leads R dom rank size s' ∧ (b = true ↔ ∃ t ∈ ts, ∃ o ∈ (t.fill R).leaves, o.1 = id)
  | .nil => ⟨leads, by simp⟩
  | .found first => by
    obtain ⟨leads', answer⟩ := first.spec leads
    exact ⟨leads', fun _ => ⟨_, List.mem_cons_self, answer.1 rfl⟩, fun _ => rfl⟩
  | .next first rest => by
    obtain ⟨leads₁, no⟩ := first.spec leads
    obtain ⟨leads', answer⟩ := rest.spec leads₁
    refine ⟨leads', answer.trans ?_⟩
    simp only [List.exists_mem_cons_iff, ← no, Bool.false_eq_true, false_or]
end

/-! ### Walks that end -/

theorem follow_runs (hops : Nat) (leads : Leads R dom rank size s)
    (enough : ∀ id, t.varId? = some id → rank id < hops) :
    PruneRun s t (follow hops s t).1 (follow hops s t).2 := by
  induction hops generalizing t with
  | zero =>
    cases isVar : t.varId? with
    | none => exact .plain isVar
    | some id => exact absurd (enough id isVar) (Nat.not_lt_zero _)
  | succ hops ih =>
    cases isVar : t.varId? with
    | none =>
      simp only [follow, isVar]
      exact .plain isVar
    | some id =>
      cases found : s.get? id with
      | none =>
        simp only [follow, isVar, found]
        exact .unbound isVar found
      | some next =>
        simp only [follow, isVar, found]
        refine .bound isVar found (ih fun other nextVar => ?_)
        obtain ⟨numeric, rfl⟩ := Ty.eq_ofVar_of_varId? nextVar
        have below := leads.ranked found (other, numeric) (by simp)
        have first := enough id isVar
        simp only at below
        omega

theorem Leads.rank_lt (leads : Leads R dom rank size s) (id : VarId) : rank id < s.size + 1 := by
  have small := leads.small id
  rw [leads.size_eq]
  omega

theorem Leads.prune_runs (leads : Leads R dom rank size s) (t : Ty) :
    PruneRun s t (s.prune t).1 (s.prune t).2 :=
  follow_runs _ leads fun id _ => leads.rank_lt id

/-- From a variable a walk goes on with an unbound variable, or with a type whose variables rank
below it. -/
theorem Leads.prune_leaf (leads : Leads R dom rank size s) (id : VarId) (numeric : Bool) :
    ∃ u s', s.prune (.ofVar id numeric) = (u, s') ∧ PruneRun s (.ofVar id numeric) u s' ∧
      Leads R dom rank size s' ∧ (u.varId? = none → ∀ v ∈ u.leaves, rank v.1 < rank id) := by
  have run := leads.prune_runs (.ofVar id numeric)
  rcases pruned : s.prune (.ofVar id numeric) with ⟨u, s'⟩
  rw [pruned] at run
  obtain ⟨leads', -, -, ranks⟩ := run.spec leads
  refine ⟨u, s', rfl, run, leads', fun plain => ?_⟩
  rcases ranks with rfl | ⟨other, isVar, below⟩
  · cases plain.symm.trans (Ty.varId?_ofVar id numeric)
  · cases isVar.symm.trans (Ty.varId?_ofVar id numeric)
    exact below

theorem ResolveAllRun.of_self {ts : List Ty} (each : ∀ t ∈ ts, ResolveRun s t t s) :
    ResolveAllRun s ts ts s := by
  induction ts with
  | nil => exact .nil
  | cons t ts ih =>
    rw [List.forall_mem_cons] at each
    exact .cons each.1 (ih each.2)

theorem ResolveRun.of_closed (closed : t.leaves = []) : ResolveRun s t t s := by
  induction t using Ty.inductParts with
  | step t ih =>
    rcases t.cases_parts with ⟨id, numeric, rfl⟩ | plain
    · simp at closed
    · have parts : ResolveAllRun s t.parts t.parts s := by
        refine .of_self fun p part => ih p part ?_
        rw [Ty.leaves_of_plain plain, List.flatMap_eq_nil_iff] at closed
        exact closed p part
      have run : ResolveRun s t (t.withParts t.parts) s := .node (.plain plain) parts
      rwa [Ty.withParts_parts] at run

theorem ResolveRun.of_prune {s₁ : Subst} {v : Ty} (first : PruneRun s t u s₁) (plain : u.varId? = none)
    (rest : ResolveRun s₁ u v s') : ResolveRun s t v s' := by
  cases rest with
  | node again parts =>
    cases again with
    | plain => exact .node first parts
    | unbound isVar | bound isVar => cases plain.symm.trans isVar

theorem mapVarsAll_runs {f : Subst → Ty → Ty × Subst} {ts : List Ty}
    (each : ∀ t ∈ ts, ∀ s, Leads R dom rank size s →
      ResolveRun s t (Ty.mapVars f s t).1 (Ty.mapVars f s t).2) (leads : Leads R dom rank size s) :
    ResolveAllRun s ts (Ty.mapVarsAll f s ts).1 (Ty.mapVarsAll f s ts).2 := by
  induction ts generalizing s with
  | nil => exact .nil
  | cons t ts ih =>
    rw [List.forall_mem_cons] at each
    have first := each.1 s leads
    exact .cons first (ih each.2 (first.spec leads).1)

theorem resolveWithin_runs (hops : Nat) (leads : Leads R dom rank size s)
    (enough : ∀ o ∈ t.leaves, rank o.1 < hops) :
    ResolveRun s t (resolveWithin hops s t).1 (resolveWithin hops s t).2 := by
  induction hops generalizing s t with
  | zero =>
    refine .of_closed (List.eq_nil_iff_forall_not_mem.2 fun o member => ?_)
    exact absurd (enough o member) (Nat.not_lt_zero _)
  | succ hops ih =>
    unfold resolveWithin
    induction t using Ty.inductParts generalizing s with
    | step t ihParts =>
      rcases t.cases_parts with ⟨id, numeric, rfl⟩ | plain
      · -- a variable goes on with what it was pruned to
        rw [Ty.mapVars_ofVar]
        obtain ⟨u, s₁, run, first, leads₁, below⟩ := leads.prune_leaf id numeric
        simp only [run]
        rcases u.cases_parts with ⟨other, numeric', rfl⟩ | plain
        · rw [if_pos (Ty.isVar_of_varId? (Ty.varId?_ofVar other numeric'))]
          have last : ResolveRun s (.ofVar id numeric) ((Ty.ofVar other numeric').withParts []) s₁ :=
            .node first (by rw [Ty.parts_ofVar]; exact .nil)
          rwa [Ty.withParts_nil _ (Ty.parts_ofVar other numeric')] at last
        · rw [if_neg (by simp [Ty.isVar_of_varId?_none plain])]
          refine .of_prune first plain (ih leads₁ fun v inside => ?_)
          have lower := below plain v inside
          have first := enough (id, numeric) (by simp)
          simp only at first
          omega
      · rw [Ty.mapVars_of_plain _ _ plain]
        refine .node (.plain plain) (mapVarsAll_runs (fun p part s leads => ?_) leads)
        exact ihParts p part leads fun o member => enough o (Ty.mem_leaves_of_part part member)

theorem OccursAnyRun.of_none {id : VarId} {ts : List Ty}
    (each : ∀ t ∈ ts, OccursRun id s t false s) : OccursAnyRun id s ts false s := by
  induction ts with
  | nil => exact .nil
  | cons t ts ih =>
    rw [List.forall_mem_cons] at each
    exact .next each.1 (ih each.2)

theorem OccursRun.of_closed {id : VarId} (closed : t.leaves = []) : OccursRun id s t false s := by
  induction t using Ty.inductParts with
  | step t ih =>
    rcases t.cases_parts with ⟨id, numeric, rfl⟩ | plain
    · simp at closed
    · refine .node (.plain plain) plain (.of_none fun p part => ih p part ?_)
      rw [Ty.leaves_of_plain plain, List.flatMap_eq_nil_iff] at closed
      exact closed p part

theorem OccursRun.of_prune {s₁ : Subst} {id : VarId} {b : Bool} (first : PruneRun s t u s₁)
    (plain : u.varId? = none) (rest : OccursRun id s₁ u b s') : OccursRun id s t b s' := by
  cases rest with
  | leaf again isVar =>
    cases again with
    | plain => cases plain.symm.trans isVar
    | unbound isVar | bound isVar => cases plain.symm.trans isVar
  | node again _ parts =>
    cases again with
    | plain => exact .node first plain parts
    | unbound isVar | bound isVar => cases plain.symm.trans isVar

theorem anyVarAll_runs {id : VarId} {f : Subst → Ty → Bool × Subst} {ts : List Ty}
    (each : ∀ t ∈ ts, ∀ s, Leads R dom rank size s →
      OccursRun id s t (Ty.anyVar f s t).1 (Ty.anyVar f s t).2) (leads : Leads R dom rank size s) :
    OccursAnyRun id s ts (Ty.anyVarAll f s ts).1 (Ty.anyVarAll f s ts).2 := by
  induction ts generalizing s with
  | nil => exact .nil
  | cons t ts ih =>
    rw [List.forall_mem_cons] at each
    have first := each.1 s leads
    simp only [Ty.anyVarAll]
    rcases run : Ty.anyVar f s t with ⟨_ | _, s₁⟩
    · rw [run] at first
      exact .next first (ih each.2 (first.spec leads).1)
    · rw [run] at first
      exact .found first

theorem occursWithin_runs (hops : Nat) {id : VarId} (leads : Leads R dom rank size s)
    (enough : ∀ o ∈ t.leaves, rank o.1 < hops) :
    OccursRun id s t (occursWithin hops id s t).1 (occursWithin hops id s t).2 := by
  induction hops generalizing s t with
  | zero =>
    refine .of_closed (List.eq_nil_iff_forall_not_mem.2 fun o member => ?_)
    exact absurd (enough o member) (Nat.not_lt_zero _)
  | succ hops ih =>
    unfold occursWithin
    induction t using Ty.inductParts generalizing s with
    | step t ihParts =>
      rcases t.cases_parts with ⟨other, numeric, rfl⟩ | plain
      · rw [Ty.anyVar_ofVar]
        obtain ⟨u, s₁, run, first, leads₁, below⟩ := leads.prune_leaf other numeric
        simp only [run]
        cases isVar : u.varId? with
        | some root => exact .leaf first isVar
        | none =>
          refine .of_prune first isVar (ih leads₁ fun v inside => ?_)
          have lower := below isVar v inside
          have first := enough (other, numeric) (by simp)
          simp only at first
          omega
      · rw [Ty.anyVar_of_plain _ _ plain]
        refine .node (.plain plain) plain (anyVarAll_runs (fun p part s leads => ?_) leads)
        exact ihParts p part leads fun o member => enough o (Ty.mem_leaves_of_part part member)

theorem Leads.resolve_runs (leads : Leads R dom rank size s) (t : Ty) :
    ResolveRun s t (s.resolve t).1 (s.resolve t).2 :=
  resolveWithin_runs _ leads fun o _ => leads.rank_lt o.1

theorem Leads.occurs_runs (leads : Leads R dom rank size s) (id : VarId) (t : Ty) :
    OccursRun id s t (s.occurs id t).1 (s.occurs id t).2 :=
  occursWithin_runs _ leads fun o _ => leads.rank_lt o.1

theorem Leads.resolve_eq (leads : Leads R dom rank size s) (t : Ty) : (s.resolve t).1 = t.fill R :=
  ((leads.resolve_runs t).spec leads).2

end Leads
end Subst
end StackML
