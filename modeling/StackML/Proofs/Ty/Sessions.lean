import StackML.Proofs.Ty.Runs

/-!
Substitutions over whole runs. Whatever unifications, successful or not, prunings, resolutions and
occurs checks came before, the bindings are acyclic, so that every further operation ends on every
type; numeric variables are bound to numeric types only; pruning and the occurs check do not change
what types resolve to; and a type that resolves to one without variables resolves to it ever after.
-/

namespace StackML

def Assignment.Extends (R' R : Assignment) : Prop := ∀ o, (R.get o).fill R' = R'.get o

theorem Assignment.Extends.fill {R R' : Assignment} (h : R'.Extends R) (t : Ty) :
    (t.fill R).fill R' = t.fill R' := Ty.fill_fill h t

theorem Assignment.Extends.trans {R S T : Assignment} (first : S.Extends R) (second : T.Extends S) :
    T.Extends R := by
  intro o
  rw [← second o, ← first o, second.fill]

namespace Subst

variable {R : Assignment} {dom : Set VarId} {rank : VarId → Nat} {size : Nat} {s s' : Subst}
  {t u : Ty} {id : VarId}

theorem Leads.extends_self (leads : Leads R dom rank size s) : R.Extends R := by
  intro o
  have fixed : ∀ v ∈ (R.get o).leaves, R.get v = ({} : Assignment).get v := by
    intro v member
    rw [leads.get_of_free (leads.leaves_free o v member)]
    obtain ⟨id, _ | _⟩ := v <;> rfl
  rw [Ty.fill_congr fixed, Ty.fill_default]

/-! ### Binding a variable -/

/-- Some occurrence of a variable stands for a type with the other variable in it. -/
def ReachesVar (R : Assignment) (id v : VarId) : Prop :=
  ∃ numeric, ∃ o ∈ (R.get (v, numeric)).leaves, o.1 = id

theorem Leads.reaches_iff (leads : Leads R dom rank size s) (o : VarId × Bool) :
    ReachesVar R id o.1 ↔ ∃ w ∈ (R.get o).leaves, w.1 = id := by
  refine ⟨?_, fun h => ⟨o.2, h⟩⟩
  rintro ⟨numeric, w, inside, same⟩
  cases below : s.get? o.1 with
  | some next =>
    rw [leads.bound below] at inside
    rw [leads.get_of_bound below]
    exact ⟨w, inside, same⟩
  | none =>
    have free : o.1 ∉ dom := by simp [leads.dom_iff, below]
    rw [leads.free free, Ty.leaves_ofVar, List.mem_singleton] at inside
    subst inside
    rw [leads.get_of_free free]
    exact ⟨o, by simp, same⟩

theorem Leads.ranked_bind (leads : Leads R dom rank size s) (unbound : id ∉ dom)
    (fresh : ∀ o ∈ (t.fill R).leaves, o.1 ≠ id) :
    ∃ higher : VarId → Nat, ∀ v w, (s.bind id t).Refers v w → higher w < higher v := by
  classical
  refine ⟨fun v => if ReachesVar R id v then rank v + size + 1 else rank v, ?_⟩
  rintro v _ ⟨u, found, o, member, rfl⟩
  rw [get?_bind] at found
  have small := leads.small o.1
  split at found
  · next same =>
    subst same
    cases found
    have self : ReachesVar R v v := ⟨false, (v, false), by rw [leads.free unbound]; simp, rfl⟩
    have other : ¬ReachesVar R v o.1 := by
      rw [leads.reaches_iff]
      rintro ⟨w, inside, same⟩
      exact fresh w (Ty.mem_leaves_fill.2 ⟨o, member, inside⟩) same
    simp only [if_pos self, if_neg other]
    omega
  · have below := leads.ranked found o member
    by_cases reaches : ReachesVar R id o.1
    · have above : ReachesVar R id v := by
        obtain ⟨w, inside, same⟩ := (leads.reaches_iff o).1 reaches
        refine ⟨false, w, ?_, same⟩
        rw [leads.bound found]
        exact Ty.mem_leaves_fill.2 ⟨o, member, inside⟩
      simp only [if_pos reaches, if_pos above]
      omega
    · simp only [if_neg reaches]
      split <;> omega

theorem Leads.bind (leads : Leads R dom rank size s) (unbound : id ∉ dom)
    (fresh : ∀ o ∈ (t.fill R).leaves, o.1 ≠ id) :
    ∃ R', Means (s.bind id t) R' ∧ R'.Extends R := by
  let S : Assignment := .single id (t.fill R)
  let R' : Assignment := ⟨fun v => (R.var v).fill S, fun v => (R.num v).fill S⟩
  have get : ∀ o, (R.get o).fill S = R'.get o := by rintro ⟨v, _ | _⟩ <;> rfl
  have single : ∀ numeric, S.get (id, numeric) = t.fill R := by
    rintro (_ | _) <;> simp [S, Assignment.single, Assignment.get]
  have fixed : ∀ w : Ty, (∀ o ∈ w.leaves, o.1 ≠ id) → w.fill S = w := by
    intro w apart
    refine (Ty.fill_congr fun o member => ?_).trans w.fill_default
    exact Assignment.get_single_of_ne (apart o member)
  have self : t.fill R = t.fill R' := by rw [← Ty.fill_fill get t, fixed _ fresh]
  obtain ⟨higher, ranked⟩ := leads.ranked_bind unbound fresh
  obtain ⟨small, ranked, bounded⟩ := exists_rank_le_card (s.bind id t).bindings.keys.toFinset
    (fun a b edge => by
      obtain ⟨u, found, -⟩ := edge
      rw [List.mem_toFinset, mem_keys, found]
      rfl) ranked
  refine ⟨R', ⟨insert id dom, small, (s.bind id t).size, ?_⟩, fun o => ?_⟩
  · refine ⟨fun {v u} found numeric => ?_, fun {v} outside numeric => ?_, fun {v} => ?_,
      fun {v u} found o member => ?_, fun v => ?_, rfl⟩
    · rw [get?_bind] at found
      split at found
      · next same =>
        subst same
        cases found
        rw [← get, leads.free unbound, Ty.fill_ofVar, single, self]
      · rw [← get, leads.bound found, Ty.fill_fill get]
    · rw [Set.mem_insert_iff, not_or] at outside
      rw [← get, leads.free outside.2]
      exact fixed _ (by simpa using outside.1)
    · rw [get?_bind]
      split
      · next same => simp [same]
      · next other => simp [other, leads.dom_iff]
    · exact ranked v o.1 ⟨u, found, o, member, rfl⟩
    · refine (bounded v).trans ((List.toFinset_card_le _).trans ?_)
      rw [Std.TreeMap.length_keys]
      rfl
  · -- what the old assignment gives holds no bound variable, so the new one replaces one variable
    rw [← get o]
    refine Ty.fill_congr fun v member => ?_
    rw [← get v, leads.get_of_free (leads.leaves_free o v member), Ty.fill_ofVar]

/-! ### What unifying leaves -/

/-- The bindings still amount to an assignment, and it decides at most what was open before. -/
def Advances (R : Assignment) (s' : Subst) : Prop := ∃ R', Means s' R' ∧ R'.Extends R

theorem Leads.advances (leads : Leads R dom rank size s) : Advances R s :=
  ⟨R, ⟨dom, rank, size, leads⟩, leads.extends_self⟩

theorem BindRun.advances {r : Unified} (run : BindRun s id t r) (leads : Leads R dom rank size s)
    (unbound : id ∉ dom) : Advances R r.2 := by
  cases run with
  | same => exact leads.advances
  | recursive other asked shown =>
    obtain ⟨leads₁, -⟩ := asked.spec leads
    exact (shown.spec leads₁).1.advances
  | bound other asked =>
    obtain ⟨leads₁, answer⟩ := asked.spec leads
    refine leads₁.bind unbound fun o member same => ?_
    cases answer.2 ⟨o, member, same⟩

theorem Leads.bindNumeric_advances (leads : Leads R dom rank size s) (unbound : id ∉ dom)
    (root : ∀ other, t.varId? = some other → other ∉ dom) :
    Advances R (s.bindNumeric id t).2 := by
  unfold bindNumeric
  split
  · next other =>
    dsimp only
    split
    · exact leads.advances
    · next apart =>
      refine leads.bind unbound fun o member => ?_
      rw [show Ty.num other = .ofVar other true from rfl, Ty.fill_ofVar, leads.free (root other rfl),
        Ty.leaves_ofVar, List.mem_singleton] at member
      subst member
      exact apart
  · exact leads.bind unbound (by simp [Ty.fill, Ty.leaves])
  · exact leads.bind unbound (by simp [Ty.fill, Ty.leaves])
  · exact leads.advances

mutual
theorem UnifyRun.advances {R : Assignment} {s : Subst} {a b : Ty} {r : Unified} (h : Means s R) :
    UnifyRun s a b r → Advances R r.2
  | .left first second made => by
    obtain ⟨dom, rank, size, leads⟩ := h
    obtain ⟨leads₁, -, free, -⟩ := first.spec leads
    exact made.advances (second.spec leads₁).1 (free _ rfl)
  | .right first second other made => by
    obtain ⟨dom, rank, size, leads⟩ := h
    obtain ⟨leads₁, -⟩ := first.spec leads
    obtain ⟨leads₂, -, free, -⟩ := second.spec leads₁
    exact made.advances leads₂ (free _ rfl)
  | .numericLeft first second other => by
    obtain ⟨dom, rank, size, leads⟩ := h
    obtain ⟨leads₁, -, free, -⟩ := first.spec leads
    obtain ⟨leads₂, -, root, -⟩ := second.spec leads₁
    exact leads₂.bindNumeric_advances (free _ rfl) root
  | .numericRight first second other => by
    obtain ⟨dom, rank, size, leads⟩ := h
    obtain ⟨leads₁, -⟩ := first.spec leads
    obtain ⟨leads₂, -, free, -⟩ := second.spec leads₁
    exact leads₂.bindNumeric_advances (free _ rfl) (by simp [other])
  | .parts first second plain same rest => by
    obtain ⟨dom, rank, size, leads⟩ := h
    obtain ⟨leads₁, -⟩ := first.spec leads
    exact rest.advances ⟨dom, rank, size, (second.spec leads₁).1⟩
  | .mismatch first second plain apart => by
    obtain ⟨dom, rank, size, leads⟩ := h
    obtain ⟨leads₁, -⟩ := first.spec leads
    exact (second.spec leads₁).1.advances

theorem UnifyAllRun.advances {R : Assignment} {s : Subst} {as bs : List Ty} {r : Unified}
    (h : Means s R) : UnifyAllRun s as bs r → Advances R r.2
  | .nil => by
    obtain ⟨dom, rank, size, leads⟩ := h
    exact leads.advances
  | .failed first => first.advances h
  | .next first rest => by
    obtain ⟨R₁, means₁, extends₁⟩ := first.advances h
    obtain ⟨R', means', extends'⟩ := rest.advances means₁
    exact ⟨R', means', extends₁.trans extends'⟩
end

/-! ### The types that bindings are made of -/

section Within

variable {U : Set Ty}

theorem PruneRun.within (run : PruneRun s t u s') (within : s.Within U) (inside : t ∈ U) :
    u ∈ U ∧ s'.Within U := by
  induction run with
  | plain | unbound => exact ⟨inside, within⟩
  | bound isVar found rest ih =>
    obtain ⟨root, within'⟩ := ih (within _ _ found)
    refine ⟨root, ?_⟩
    split
    · exact within'
    · exact within'.bind root _

mutual
theorem OccursRun.within {s s' : Subst} {t : Ty} {b : Bool} {id : VarId} (closed : Ty.Closed U)
    (within : s.Within U) (inside : t ∈ U) : OccursRun id s t b s' → s'.Within U
  | .leaf first _ => (first.within within inside).2
  | .node first _ parts => by
    obtain ⟨root, within₁⟩ := first.within within inside
    exact parts.within closed within₁ (closed _ root)

theorem OccursAnyRun.within {s s' : Subst} {ts : List Ty} {b : Bool} {id : VarId}
    (closed : Ty.Closed U) (within : s.Within U) (inside : ∀ t ∈ ts, t ∈ U) :
    OccursAnyRun id s ts b s' → s'.Within U
  | .nil => within
  | .found first => first.within closed within (inside _ List.mem_cons_self)
  | .next first rest => by
    rw [List.forall_mem_cons] at inside
    exact rest.within closed (first.within closed within inside.1) inside.2
end

theorem BindRun.within (closed : Ty.Closed U) (within : s.Within U) (inside : t ∈ U)
    (run : BindRun s id t (none, s')) : s'.Within U := by
  cases run with
  | same => exact within
  | bound other asked => exact (asked.within closed within inside).bind inside id

theorem bindNumeric_within (within : s.Within U) (inside : t ∈ U) :
    (s.bindNumeric id t).2.Within U := by
  unfold bindNumeric
  split
  · dsimp only
    split
    · exact within
    · exact within.bind inside id
  · exact within.bind inside id
  · exact within.bind inside id
  · exact within

mutual
theorem UnifyRun.within {s s' : Subst} {a b : Ty} {r : Unified} (closed : Ty.Closed U)
    (within : s.Within U) (insideA : a ∈ U) (insideB : b ∈ U) (ok : r = (none, s')) :
    UnifyRun s a b r → s'.Within U
  | .left first second made => by
    obtain ⟨-, within₁⟩ := first.within within insideA
    obtain ⟨root, within₂⟩ := second.within within₁ insideB
    exact (ok ▸ made).within closed within₂ root
  | .right first second other made => by
    obtain ⟨root, within₁⟩ := first.within within insideA
    obtain ⟨-, within₂⟩ := second.within within₁ insideB
    exact (ok ▸ made).within closed within₂ root
  | .numericLeft first second other => by
    obtain ⟨-, within₁⟩ := first.within within insideA
    obtain ⟨root, within₂⟩ := second.within within₁ insideB
    exact (congrArg (fun r : Unified => r.2.Within U) ok).mp (bindNumeric_within within₂ root)
  | .numericRight first second other => by
    obtain ⟨root, within₁⟩ := first.within within insideA
    obtain ⟨-, within₂⟩ := second.within within₁ insideB
    exact (congrArg (fun r : Unified => r.2.Within U) ok).mp (bindNumeric_within within₂ root)
  | .parts first second plain same rest => by
    obtain ⟨rootA, within₁⟩ := first.within within insideA
    obtain ⟨rootB, within₂⟩ := second.within within₁ insideB
    exact rest.within closed within₂ (closed _ rootA) (closed _ rootB) ok
  | .mismatch first second plain apart => by cases ok

theorem UnifyAllRun.within {s s' : Subst} {as bs : List Ty} {r : Unified} (closed : Ty.Closed U)
    (within : s.Within U) (insideA : ∀ a ∈ as, a ∈ U) (insideB : ∀ b ∈ bs, b ∈ U)
    (ok : r = (none, s')) : UnifyAllRun s as bs r → s'.Within U
  | .nil => by
    cases ok
    exact within
  | .failed first => by cases ok
  | .next first rest => by
    rw [List.forall_mem_cons] at insideA insideB
    exact rest.within closed (first.within closed within insideA.1 insideB.1 rfl) insideA.2 insideB.2 ok
end

end Within

/-! ### Every unification ends -/

theorem Leads.bindVar_runs (leads : Leads R dom rank size s) (id : VarId) (t : Ty) :
    BindRun s id t (s.bindVar id t) := by
  unfold bindVar
  split
  · next same =>
    subst same
    exact .same
  · next other =>
    have asked := leads.occurs_runs id t
    rcases run : s.occurs id t with ⟨_ | _, s₁⟩
    · rw [run] at asked
      exact .bound other asked
    · rw [run] at asked
      exact .recursive other asked ((asked.spec leads).1.resolve_runs t)

theorem andThen_none (r : Unified) : (r.andThen fun s => (none, s)) = r := by
  obtain ⟨_ | e, s⟩ := r <;> rfl

/-- Two pruned types that are no variables: their outermost forms decide whether their parts are
unified in turn. -/
theorem unifyWithin_of_plain (depth : Nat) {s₁ s₂ : Subst} {a b : Ty} (first : s.prune a = (t, s₁))
    (second : s₁.prune b = (u, s₂)) (plain : t.varId? = none ∧ u.varId? = none) :
    unifyWithin (depth + 1) s a b =
      if t.sameHead u then unifyPairs (unifyWithin depth) s₂ t.parts u.parts
      else (some (.mismatch t u), s₂) := by
  simp only [unifyWithin, first, second]
  cases t <;> cases u <;>
    simp_all [Ty.varId?, Ty.sameHead, Ty.parts, unifyPairs, andThen_none]

theorem unifyPairs_runs {unify : Subst → Ty → Ty → Unified} {U : Set Ty} (closed : Ty.Closed U)
    {as bs : List Ty} (lengths : as.length = bs.length)
    (each : ∀ a ∈ as, ∀ b ∈ bs, ∀ s R', Means s R' → R'.Extends R → s.Within U →
      UnifyRun s a b (unify s a b)) (insideA : ∀ a ∈ as, a ∈ U) (insideB : ∀ b ∈ bs, b ∈ U)
    {R₁ : Assignment} (means : Means s R₁) (above : R₁.Extends R) (within : s.Within U) :
    UnifyAllRun s as bs (unifyPairs unify s as bs) := by
  induction as generalizing s bs R₁ with
  | nil =>
    rw [List.length_nil, eq_comm, List.length_eq_zero_iff] at lengths
    subst lengths
    exact .nil
  | cons a as ih =>
    cases bs with
    | nil => simp at lengths
    | cons b bs =>
      rw [List.length_cons, List.length_cons, Nat.add_right_cancel_iff] at lengths
      rw [List.forall_mem_cons] at insideA insideB
      have first := each a List.mem_cons_self b List.mem_cons_self s R₁ means above within
      simp only [unifyPairs]
      rcases run : unify s a b with ⟨_ | e, s₁⟩
      · rw [run] at first
        obtain ⟨R₂, means₂, above₂⟩ := first.advances means
        refine .next first (ih lengths (fun a inA b inB => ?_) insideA.2 insideB.2 means₂
          (above.trans above₂) (first.within closed within insideA.1 insideB.1 rfl))
        exact each a (List.mem_cons_of_mem _ inA) b (List.mem_cons_of_mem _ inB)
      · rw [run] at first
        exact .failed first

theorem Ty.length_parts_of_sameHead {t u : Ty} (same : t.sameHead u = true) :
    t.parts.length = u.parts.length := by
  unfold Ty.sameHead at same
  split at same <;> simp_all [Ty.parts]

/-- A type met on the way down is not one of those above it, whatever variables will stand for, so
that there are always steps left. -/
theorem unifyWithin_runs {U : Finset Ty} (closed : Ty.Closed U) (depth : Nat) {above : Finset Ty}
    {a b : Ty} (means : Means s R) (within : s.Within U) (insideA : a ∈ U) (insideB : b ∈ U)
    (subset : above ⊆ U)
    (larger : ∀ c ∈ above, ∀ S : Assignment, S.Extends R → (a.fill S).size < (c.fill S).size)
    (enough : U.card < above.card + depth) : UnifyRun s a b (unifyWithin depth s a b) := by
  induction depth generalizing s R above a b with
  | zero =>
    have few := Finset.card_le_card subset
    omega
  | succ depth ih =>
    obtain ⟨dom, rank, size, leads⟩ := means
    have first := leads.prune_runs a
    rcases pruneA : s.prune a with ⟨t, s₁⟩
    rw [pruneA] at first
    obtain ⟨leads₁, sameA, -⟩ := first.spec leads
    obtain ⟨rootA, within₁⟩ := first.within within insideA
    have second := leads₁.prune_runs b
    rcases pruneB : s₁.prune b with ⟨u, s₂⟩
    rw [pruneB] at second
    obtain ⟨leads₂, -⟩ := second.spec leads₁
    obtain ⟨rootB, within₂⟩ := second.within within₁ insideB
    have sizes : ∀ S : Assignment, S.Extends R → t.fill S = a.fill S := by
      intro S h
      rw [← h.fill, sameA, h.fill]
    by_cases plain : t.varId? = none ∧ u.varId? = none
    · rw [unifyWithin_of_plain depth pruneA pruneB plain]
      split
      · next same =>
        -- the type at hand joins those above its parts
        have new : t ∉ above := by
          intro member
          have less := larger t member R leads.extends_self
          rw [sizes R leads.extends_self] at less
          exact Nat.lt_irrefl _ less
        have wider : insert t above ⊆ U := Finset.insert_subset rootA subset
        refine .parts first second plain same (unifyPairs_runs (R := R) closed
          (Ty.length_parts_of_sameHead same) (fun p partA q partB s R' means' above' within' => ?_)
          (closed t rootA) (closed u rootB) ⟨dom, rank, size, leads₂⟩ leads.extends_self within₂)
        refine ih means' within' (closed t rootA p partA) (closed u rootB q partB) wider ?_ ?_
        · intro c member S extends'
          have less := Ty.size_fill_part plain.1 partA S
          rcases Finset.mem_insert.1 member with rfl | member
          · exact less
          · rw [sizes S (above'.trans extends')] at less
            exact less.trans (larger c member S (above'.trans extends'))
        · rw [Finset.card_insert_of_notMem new]
          omega
      · next apart => exact .mismatch first second plain (by simpa using apart)
    · simp only [unifyWithin, pruneA, pruneB]
      split
      · exact .left first second (leads₂.bindVar_runs _ _)
      · next other => exact .right first second other (leads₂.bindVar_runs _ _)
      · next other => exact .numericLeft first second other
      · next other notNum => exact .numericRight first second (Ty.varId?_eq_none other notNum)
      case h_16 varA numA varB numB _ _ _ _ _ _ _ _ _ _ _ =>
        exact (plain ⟨Ty.varId?_eq_none varA numA, Ty.varId?_eq_none varB numB⟩).elim
      all_goals exact (plain ⟨rfl, rfl⟩).elim

theorem Means.unify_runs (means : Means s R) (weighs : s.Weighs) (a b : Ty) :
    UnifyRun s a b (s.unify a b) := by
  obtain ⟨U, closedU, within, weight⟩ := weighs
  obtain ⟨A, closedA, insideA, sizeA⟩ := Ty.exists_closed a
  obtain ⟨B, closedB, insideB, sizeB⟩ := Ty.exists_closed b
  have count : (U ∪ A ∪ B).card ≤ s.weight + a.size + b.size := by
    have first := Finset.card_union_le (U ∪ A) B
    have second := Finset.card_union_le U A
    omega
  have all : s.Within ↑(U ∪ A ∪ B) := fun id t found => by
    simp only [Finset.mem_coe, Finset.mem_union]
    exact .inl (.inl (within id t found))
  exact unifyWithin_runs ((closedU.union closedA).union closedB) _ means all (by simp [insideA])
    (by simp [insideB]) (Finset.empty_subset _) (by simp) (by rw [Finset.card_empty]; omega)

/-! ### Kinds -/

/-- In the type the variables of the set, and no others, are numeric. -/
def Consistent (K : Set VarId) (t : Ty) : Prop := ∀ o ∈ t.leaves, o.2 = true ↔ o.1 ∈ K

def Kinds (K : Set VarId) (s : Subst) : Prop :=
  ∀ id t, s.get? id = some t → Consistent K t ∧ (id ∈ K → t.fitsNumeric)

section Kinds

variable {K : Set VarId}

theorem Consistent.part (h : Consistent K t) {p : Ty} (part : p ∈ t.parts) : Consistent K p :=
  fun o member => h o (Ty.mem_leaves_of_part part member)

theorem Kinds.bind (kinds : Kinds K s) (consistent : Consistent K t)
    (fits : id ∈ K → t.fitsNumeric) : Kinds K (s.bind id t) := by
  intro other u found
  rw [get?_bind] at found
  split at found
  · next same =>
    subst same
    cases found
    exact ⟨consistent, fits⟩
  · exact kinds other u found

theorem PruneRun.kinds (run : PruneRun s t u s') (kinds : Kinds K s) (consistent : Consistent K t) :
    Kinds K s' ∧ Consistent K u ∧ (t.fitsNumeric → u.fitsNumeric) := by
  induction run with
  | plain | unbound => exact ⟨kinds, consistent, fun fits => fits⟩
  | @bound s' t next root id isVar found rest ih =>
    obtain ⟨consistent', fits⟩ := kinds id next found
    obtain ⟨kinds', rootConsistent, rootFits⟩ := ih consistent'
    refine ⟨?_, rootConsistent, fun numeric => ?_⟩
    · split
      · exact kinds'
      · exact kinds'.bind rootConsistent fun inside => rootFits (fits inside)
    · rcases Ty.fitsNumeric_cases numeric with rfl | rfl | ⟨other, rfl⟩
      · cases isVar
      · cases isVar
      · cases isVar
        exact rootFits (fits ((consistent (id, true) (by simp [Ty.leaves])).1 rfl))

mutual
theorem ResolveRun.kinds {s s' : Subst} {t u : Ty} (kinds : Kinds K s) (consistent : Consistent K t) :
    ResolveRun s t u s' → Kinds K s'
  | .node first parts => by
    obtain ⟨kinds₁, consistent₁, -⟩ := first.kinds kinds consistent
    exact parts.kinds kinds₁ fun p part => consistent₁.part part

theorem ResolveAllRun.kinds {s s' : Subst} {ts us : List Ty} (kinds : Kinds K s)
    (consistent : ∀ t ∈ ts, Consistent K t) : ResolveAllRun s ts us s' → Kinds K s'
  | .nil => kinds
  | .cons first rest => by
    rw [List.forall_mem_cons] at consistent
    exact rest.kinds (first.kinds kinds consistent.1) consistent.2
end

mutual
theorem OccursRun.kinds {s s' : Subst} {t : Ty} {b : Bool} {id : VarId} (kinds : Kinds K s)
    (consistent : Consistent K t) : OccursRun id s t b s' → Kinds K s'
  | .leaf first _ => (first.kinds kinds consistent).1
  | .node first _ parts => by
    obtain ⟨kinds₁, consistent₁, -⟩ := first.kinds kinds consistent
    exact parts.kinds kinds₁ fun p part => consistent₁.part part

theorem OccursAnyRun.kinds {s s' : Subst} {ts : List Ty} {b : Bool} {id : VarId} (kinds : Kinds K s)
    (consistent : ∀ t ∈ ts, Consistent K t) : OccursAnyRun id s ts b s' → Kinds K s'
  | .nil => kinds
  | .found first => first.kinds kinds (consistent _ List.mem_cons_self)
  | .next first rest => by
    rw [List.forall_mem_cons] at consistent
    exact rest.kinds (first.kinds kinds consistent.1) consistent.2
end

theorem BindRun.kinds {r : Unified} (run : BindRun s id t r) (kinds : Kinds K s)
    (consistent : Consistent K t) (plain : id ∉ K) : Kinds K r.2 := by
  cases run with
  | same => exact kinds
  | recursive other asked shown => exact shown.kinds (asked.kinds kinds consistent) consistent
  | bound other asked =>
    exact (asked.kinds kinds consistent).bind consistent fun inside => (plain inside).elim

theorem Kinds.bindNumeric (kinds : Kinds K s) (consistent : Consistent K t) :
    Kinds K (s.bindNumeric id t).2 := by
  unfold Subst.bindNumeric
  split
  · dsimp only
    split
    · exact kinds
    · exact kinds.bind consistent fun _ => rfl
  · exact kinds.bind consistent fun _ => rfl
  · exact kinds.bind consistent fun _ => rfl
  · exact kinds

theorem Consistent.not_numeric (h : Consistent K (.var id)) : id ∉ K := fun inside => by
  cases (h (id, false) (by simp [Ty.leaves])).2 inside

mutual
theorem UnifyRun.kinds {s : Subst} {a b : Ty} {r : Unified} (kinds : Kinds K s)
    (consistentA : Consistent K a) (consistentB : Consistent K b) : UnifyRun s a b r → Kinds K r.2
  | .left first second made => by
    obtain ⟨kinds₁, var, -⟩ := first.kinds kinds consistentA
    obtain ⟨kinds₂, type, -⟩ := second.kinds kinds₁ consistentB
    exact made.kinds kinds₂ type var.not_numeric
  | .right first second other made => by
    obtain ⟨kinds₁, type, -⟩ := first.kinds kinds consistentA
    obtain ⟨kinds₂, var, -⟩ := second.kinds kinds₁ consistentB
    exact made.kinds kinds₂ type var.not_numeric
  | .numericLeft first second other => by
    obtain ⟨kinds₁, -⟩ := first.kinds kinds consistentA
    obtain ⟨kinds₂, type, -⟩ := second.kinds kinds₁ consistentB
    exact kinds₂.bindNumeric type
  | .numericRight first second other => by
    obtain ⟨kinds₁, type, -⟩ := first.kinds kinds consistentA
    obtain ⟨kinds₂, -⟩ := second.kinds kinds₁ consistentB
    exact kinds₂.bindNumeric type
  | .parts first second plain same rest => by
    obtain ⟨kinds₁, typeA, -⟩ := first.kinds kinds consistentA
    obtain ⟨kinds₂, typeB, -⟩ := second.kinds kinds₁ consistentB
    exact rest.kinds kinds₂ (fun p part => typeA.part part) fun p part => typeB.part part
  | .mismatch first second plain apart => by
    obtain ⟨kinds₁, -⟩ := first.kinds kinds consistentA
    exact (second.kinds kinds₁ consistentB).1

theorem UnifyAllRun.kinds {s : Subst} {as bs : List Ty} {r : Unified} (kinds : Kinds K s)
    (consistentA : ∀ a ∈ as, Consistent K a) (consistentB : ∀ b ∈ bs, Consistent K b) :
    UnifyAllRun s as bs r → Kinds K r.2
  | .nil => kinds
  | .failed first =>
    first.kinds kinds (consistentA _ List.mem_cons_self) (consistentB _ List.mem_cons_self)
  | .next first rest => by
    rw [List.forall_mem_cons] at consistentA consistentB
    exact rest.kinds (first.kinds kinds consistentA.1 consistentB.1) consistentA.2 consistentB.2
end

end Kinds

/-! ### Sequences of operations -/

inductive Request where
  | unify (a b : Ty)
  | prune (t : Ty)
  | resolve (t : Ty)
  | occurs (id : VarId) (t : Ty)

namespace Request

/-- The types that the operation is about. -/
def types : Request → List Ty
  | unify a b => [a, b]
  | prune t | resolve t | occurs _ t => [t]

def apply (s : Subst) : Request → Subst
  | unify a b => (s.unify a b).2
  | prune t => (s.prune t).2
  | resolve t => (s.resolve t).2
  | occurs id t => (s.occurs id t).2

end Request

def after (start : Subst) (requests : List Request) : Subst := requests.foldl Request.apply start

structure Regular (K : Set VarId) (s : Subst) (R : Assignment) : Prop where
  means : Means s R
  weighs : s.Weighs
  kinds : Kinds K s

theorem regular_empty (K : Set VarId) : Regular K .empty {} :=
  ⟨means_empty, weighs_empty, fun id t found => by
    simp [empty, get?, Std.TreeMap.get?_eq_getElem?] at found⟩

theorem Regular.apply {K : Set VarId} (regular : Regular K s R) {r : Request}
    (consistent : ∀ t ∈ r.types, Consistent K t) :
    ∃ R', Regular K (r.apply s) R' ∧ R'.Extends R := by
  obtain ⟨⟨dom, rank, size, leads⟩, weighs, kinds⟩ := regular
  have step : ∀ s id t, Weighs s → Weighs (s.bind id t) := fun _ id t good => good.bind id t
  cases r with
  | unify a b =>
    have run := Means.unify_runs ⟨dom, rank, size, leads⟩ weighs a b
    obtain ⟨R', means', extends'⟩ := run.advances ⟨dom, rank, size, leads⟩
    exact ⟨R', ⟨means', unifyWithin_preserves step _ a b weighs,
      run.kinds kinds (consistent a (by simp [Request.types])) (consistent b (by simp [Request.types]))⟩,
      extends'⟩
  | prune t =>
    have run := leads.prune_runs t
    exact ⟨R, ⟨⟨dom, rank, size, (run.spec leads).1⟩, prune_preserves step t weighs,
      (run.kinds kinds (consistent t List.mem_cons_self)).1⟩, leads.extends_self⟩
  | resolve t =>
    have run := leads.resolve_runs t
    exact ⟨R, ⟨⟨dom, rank, size, (run.spec leads).1⟩, resolveWithin_preserves step _ t weighs,
      run.kinds kinds (consistent t List.mem_cons_self)⟩, leads.extends_self⟩
  | occurs id t =>
    have run := leads.occurs_runs id t
    exact ⟨R, ⟨⟨dom, rank, size, (run.spec leads).1⟩, occursWithin_preserves step _ id t weighs,
      run.kinds kinds (consistent t List.mem_cons_self)⟩, leads.extends_self⟩

theorem Regular.after {K : Set VarId} (regular : Regular K s R) {requests : List Request}
    (consistent : ∀ r ∈ requests, ∀ t ∈ r.types, Consistent K t) :
    ∃ R', Regular K (s.after requests) R' ∧ R'.Extends R := by
  induction requests generalizing s R with
  | nil =>
    obtain ⟨dom, rank, size, leads⟩ := regular.means
    exact ⟨R, regular, leads.extends_self⟩
  | cons r requests ih =>
    rw [List.forall_mem_cons] at consistent
    obtain ⟨R₁, regular₁, extends₁⟩ := regular.apply consistent.1
    obtain ⟨R', regular', extends'⟩ := ih regular₁ consistent.2
    exact ⟨R', regular', extends₁.trans extends'⟩

theorem Leads.acyclic (leads : Leads R dom rank size s) (id : VarId) :
    ¬Relation.TransGen s.Refers id id := by
  have down : ∀ a b, Relation.TransGen s.Refers a b → rank b < rank a := by
    intro a b path
    induction path with
    | single edge =>
      obtain ⟨t, found, o, member, rfl⟩ := edge
      exact leads.ranked found o member
    | tail _ edge ih =>
      obtain ⟨t, found, o, member, rfl⟩ := edge
      exact (leads.ranked found o member).trans ih
  exact fun cycle => Nat.lt_irrefl _ (down id id cycle)

/-- The invariant of substitutions over whole runs: after any operations on types in which the
variables of `K`, and no others, are numeric, whether they succeed or fail,
* no variable leads back to itself, and every operation ends on every type;
* a numeric variable is unbound, or bound to `int`, `double` or a numeric variable;
* neither pruning nor the occurs check changes what a type resolves to, and what a type resolves to
  resolves to itself;
* a type that resolves to one without variables does so after any further operations. -/
theorem after_invariant {K : Set VarId} {requests : List Request}
    (consistent : ∀ r ∈ requests, ∀ t ∈ r.types, Consistent K t) :
    let s := Subst.empty.after requests
    (∀ id, ¬Relation.TransGen s.Refers id id) ∧
    (∀ t, PruneRun s t (s.prune t).1 (s.prune t).2 ∧
      ResolveRun s t (s.resolve t).1 (s.resolve t).2 ∧
      (∀ id, OccursRun id s t (s.occurs id t).1 (s.occurs id t).2) ∧
      ∀ u, UnifyRun s t u (s.unify t u)) ∧
    (∀ id ∈ K, s.get? id = none ∨ s.get? id = some .int ∨ s.get? id = some .double ∨
      ∃ other ∈ K, s.get? id = some (.num other)) ∧
    (∀ t u, ((s.prune u).2.resolve t).1 = (s.resolve t).1 ∧
      ∀ id, ((s.occurs id u).2.resolve t).1 = (s.resolve t).1) ∧
    (∀ t, (s.resolve (s.resolve t).1).1 = (s.resolve t).1 ∧
      ((s.resolve t).2.resolve (s.resolve t).1).1 = (s.resolve t).1) ∧
    ∀ t, (s.resolve t).1.leaves = [] → ∀ more : List Request,
      (∀ r ∈ more, ∀ t ∈ r.types, Consistent K t) →
      ((s.after more).resolve t).1 = (s.resolve t).1 := by
  intro s
  obtain ⟨R, regular, -⟩ := (regular_empty K).after consistent
  obtain ⟨dom, rank, size, leads⟩ := regular.means
  refine ⟨leads.acyclic, fun t => ?_, fun id inside => ?_, fun t u => ?_, fun t => ?_,
    fun t closed more consistent => ?_⟩
  · exact ⟨leads.prune_runs t, leads.resolve_runs t, fun id => leads.occurs_runs id t,
      regular.means.unify_runs regular.weighs t⟩
  · cases found : s.get? id with
    | none => exact .inl rfl
    | some t =>
      right
      obtain ⟨kind, fits⟩ := regular.kinds id t found
      rcases Ty.fitsNumeric_cases (fits inside) with rfl | rfl | ⟨other, rfl⟩
      · exact .inl rfl
      · exact .inr (.inl rfl)
      · exact .inr (.inr ⟨other, (kind (other, true) (by simp [Ty.leaves])).1 rfl, rfl⟩)
  · have pruned := ((leads.prune_runs u).spec leads).1
    refine ⟨by rw [pruned.resolve_eq, leads.resolve_eq], fun id => ?_⟩
    have asked := ((leads.occurs_runs id u).spec leads).1
    rw [asked.resolve_eq, leads.resolve_eq]
  · have resolved := ((leads.resolve_runs t).spec leads).1
    rw [resolved.resolve_eq, leads.resolve_eq, leads.resolve_eq, leads.extends_self.fill]
    exact ⟨rfl, rfl⟩
  · obtain ⟨R', regular', extends'⟩ := regular.after consistent
    obtain ⟨dom', rank', size', leads'⟩ := regular'.means
    rw [leads.resolve_eq] at closed ⊢
    rw [leads'.resolve_eq, ← extends'.fill, Ty.fill_of_closed closed]

/-- Once `'t1` is a list of doubles, neither a failure nor a later unification makes it another
type. -/
theorem after_invariant_list :
    let s := Subst.empty.after
      [.unify (.var 1) (.list (.num 2)), .unify (.num 2) .double, .unify (.list (.num 2)) .string]
    (∀ id, ¬Relation.TransGen s.Refers id id) ∧
      ((s.after [.unify (.var 3) (.fn (.var 1) (.var 4)), .occurs 4 (.var 3)]).resolve (.var 1)).1 =
        .list .double := by
  intro s
  have before : ∀ r ∈ [Request.unify (.var 1) (.list (.num 2)), .unify (.num 2) .double,
      .unify (.list (.num 2)) .string], ∀ t ∈ r.types, Consistent {2} t := by
    simp [Request.types, Consistent, Ty.leaves]
  have later : ∀ r ∈ [Request.unify (.var 3) (.fn (.var 1) (.var 4)), .occurs 4 (.var 3)],
      ∀ t ∈ r.types, Consistent {2} t := by
    simp [Request.types, Consistent, Ty.leaves]
  have resolved : (s.resolve (.var 1)).1 = .list .double := by decide +kernel
  obtain ⟨acyclic, -, -, -, -, final⟩ := after_invariant before
  refine ⟨acyclic, ?_⟩
  rw [final (.var 1) (by rw [resolved]; rfl) _ later, resolved]

end Subst
end StackML
