import StackML.Proofs.Ty.Generality
import StackML.Proofs.Ty.Resolution

/-!
Matching finds what a pattern was instantiated with: on an instance of the pattern it succeeds, and
what it writes down is what the variables stand for. So it inverts replacement. A pattern matches a type
exactly if some mapping that has the entries found so far turns the pattern into the type, and what a
successful match writes down is such a mapping, the only one on the variables of the pattern.
-/

namespace StackML

/-! ### Instances -/

def Mapping.Follows (m : Mapping) (u : Valuation) : Prop :=
  ∀ id t, m.get? id = some t → u id = t

theorem Mapping.follows_nil (u : Valuation) : Mapping.Follows [] u := by
  intro id t found
  simp [get?] at found

theorem Mapping.Follows.cons {m : Mapping} {u : Valuation} (follows : m.Follows u) (id : VarId) :
    Follows ((id, u id) :: m) u := by
  intro other t found
  simp only [get?, List.lookup_cons] at found
  split at found
  · next same =>
    cases found
    rw [beq_iff_eq.1 same]
  · exact follows other t found

namespace Ty

def Matched (u : Valuation) (r : Bool × Mapping) : Prop := r.1 = true ∧ r.2.Follows u

variable {u : Valuation} {m : Mapping}

theorem Matched.thenMatch {r : Bool × Mapping} {next : Mapping → Bool × Mapping}
    (first : Matched u r) (rest : ∀ m : Mapping, m.Follows u → Matched u (next m)) :
    Matched u (Ty.thenMatch r next) := by
  rw [Ty.thenMatch, if_pos first.1]
  exact rest r.2 first.2

theorem matched_matchVar (id : VarId) (follows : m.Follows u) :
    Matched u (matchVar id (u id) m) := by
  unfold matchVar
  split
  · next previous found => exact ⟨by simp [follows id previous found], follows⟩
  · exact ⟨rfl, follows.cons id⟩

theorem matched_matchAll {ps : List Ty} (each : ∀ p ∈ ps, ∀ m : Mapping, m.Follows u →
    Matched u (p.matchWith (p.assign u.assignment) m)) (follows : m.Follows u) :
    Matched u (matchAll ps (ps.map (assign u.assignment)) m) := by
  induction ps generalizing m with
  | nil => exact ⟨rfl, follows⟩
  | cons p ps ih =>
    rw [List.forall_mem_cons] at each
    exact (each.1 m follows).thenMatch fun _ => ih each.2

theorem matched_matchWith {p : Ty} (mono : p.isMono)
    (numeric : ∀ o ∈ p.occurrences, o.2 = true → (u o.1).fitsNumeric) (follows : m.Follows u) :
    Matched u (p.matchWith (p.assign u.assignment) m) := by
  induction p using induct generalizing m with
  | int | double | string | bool | unit | named | host =>
    exact ⟨by simp [matchWith, assign], follows⟩
  | var id => exact matched_matchVar id follows
  | num id =>
    have fits : (u id).fitsNumeric := numeric (id, true) (by simp [occurrences]) rfl
    simpa [matchWith, assign, Valuation.assignment, fits] using matched_matchVar id follows
  | list a ih => exact ih mono numeric follows
  | result a b ihA ihB | fn a b ihA ihB =>
    simp only [isMono, Bool.and_eq_true] at mono
    simp only [occurrences, List.mem_append, or_imp, forall_and] at numeric
    exact (ihA mono.1 numeric.1 follows).thenMatch fun _ => ihB mono.2 numeric.2
  | scheme vars a => simp [isMono] at mono
  | app name ps ih =>
    simp only [isMono, isMonoAll_eq, List.all_eq_true] at mono
    simp only [occurrences, occurrencesAll_eq, List.mem_flatMap] at numeric
    simp only [matchWith, assign, assignAll_eq, List.length_map, and_self, if_true]
    exact matched_matchAll (fun p member m follows => ih p member (mono p member)
      (fun o occurs => numeric o ⟨p, member, occurs⟩) follows) follows

/-- The same for an assignment that keeps the two kinds of variables apart, as long as each variable
of the pattern is of one kind. -/
theorem WellKinded.matchWith_assign {g : Supply} {p : Ty} (kinded : p.WellKinded g) {ρ : Assignment}
    (numeric : ∀ o ∈ p.occurrences, o.2 = true → (ρ.get o).fitsNumeric) :
    (p.matchWith (p.assign ρ) []).1 = true := by
  classical
  let u : Valuation := fun id => if id ∈ g.numeric then ρ.num id else ρ.var id
  have get : ∀ o ∈ p.occurrences, ρ.get o = u o.1 := by
    rintro ⟨id, _ | _⟩ occurs
    · have plain : id ∉ g.numeric := fun inside =>
        Bool.false_ne_true ((kinded.kinds _ occurs).2.2 inside)
      simp [u, plain]
    · simp [u, (kinded.kinds _ occurs).2.1 rfl]
  rw [assign_congr fun o occurs => (get o occurs).trans (u.get_assignment o).symm]
  exact (matched_matchWith kinded.mono (fun o occurs kind => get o occurs ▸ numeric o occurs kind)
    (Mapping.follows_nil u)).1

end Ty

/-! ### Mappings that extend another -/

def Mapping.Extends (s m : Mapping) : Prop := ∀ id t, m.get? id = some t → s.get? id = some t

theorem Mapping.Extends.refl (m : Mapping) : m.Extends m := fun _ _ found => found

theorem Mapping.Extends.trans {s n m : Mapping} (h : s.Extends n) (h' : n.Extends m) : s.Extends m :=
  fun id t found => h id t (h' id t found)

theorem Mapping.extends_cons {m : Mapping} {id : VarId} (new : m.get? id = none) (c : Ty) :
    Extends ((id, c) :: m) m := by
  intro other t found
  have apart : (other == id) = false := beq_eq_false_iff_ne.2 fun same => by
    rw [same, new] at found
    cases found
  rwa [get?, List.lookup_cons, apart]

namespace Ty

/-! ### What a successful match writes down -/

structure Found (p c : Ty) (m m' : Mapping) : Prop where
  extends_ : m'.Extends m
  known : ∀ id, (m'.get? id).isSome ↔ (m.get? id).isSome ∨ id ∈ p.freeVars
  numeric : ∀ id ∈ p.numericIds, ∃ t, m'.get? id = some t ∧ t.fitsNumeric
  replaced : p.replace m' = c

variable {p q c a b : Ty} {m m' m'' : Mapping}

theorem Found.replace_eq (found : Found p c m m') (more : m''.Extends m') : p.replace m'' = c := by
  rw [← found.replaced, replace_eq_assign, replace_eq_assign]
  refine assign_congr fun o occurs => ?_
  have known := (found.known o.1).2 (.inr (mem_freeVars.2 ⟨o, occurs, rfl⟩))
  obtain ⟨t, here⟩ := Option.isSome_iff_exists.1 known
  simp only [Assignment.get, Assignment.ofMapping, here, more o.1 t here]

theorem found_closed (closed : p.occurrences = []) (same : p.replace m = c) : Found p c m m where
  extends_ := .refl m
  known id := by simp [freeVars, closed]
  numeric id inside := by
    rw [mem_numericIds, closed] at inside
    cases inside
  replaced := same

theorem found_matchVar {id : VarId} {k : Bool} (fits : k = true → c.fitsNumeric)
    (success : (matchVar id c m).1 = true) :
    Found (ofVar id k) c m (matchVar id c m).2 := by
  have occurrences : (ofVar id k).occurrences = [(id, k)] := by cases k <;> rfl
  have replaced : ∀ m : Mapping, m.get? id = some c → (ofVar id k).replace m = c := by
    intro m here
    cases k <;> simp [ofVar, replace, here]
  have free : ∀ other, other ∈ (ofVar id k).freeVars ↔ id = other := by
    simp [mem_freeVars, occurrences]
  have numeric : ∀ m : Mapping, m.get? id = some c → ∀ other ∈ (ofVar id k).numericIds,
      ∃ t, m.get? other = some t ∧ t.fitsNumeric := by
    intro m here other inside
    rw [mem_numericIds, occurrences, List.mem_singleton, Prod.mk.injEq] at inside
    obtain ⟨rfl, kind⟩ := inside
    exact ⟨c, here, fits kind.symm⟩
  unfold matchVar at success ⊢
  cases here : m.get? id with
  | some previous =>
    rw [here] at success
    obtain rfl : previous = c := of_decide_eq_true success
    refine ⟨.refl m, fun other => ?_, numeric m here, replaced m here⟩
    rw [free]
    constructor
    · exact .inl
    · rintro (known | rfl)
      · exact known
      · rw [here]
        rfl
  | none =>
    have first : Mapping.get? ((id, c) :: m) id = some c := by simp [Mapping.get?]
    refine ⟨Mapping.extends_cons here c, fun other => ?_, numeric _ first, replaced _ first⟩
    rw [free]
    by_cases same : other = id
    · simp [same, first]
    · have apart : (other == id) = false := beq_eq_false_iff_ne.2 same
      simp only [Mapping.get?, List.lookup_cons, apart, Ne.symm same, or_false]

theorem Found.both {whole : Ty} (first : Found p a m m') (second : Found q b m' m'')
    (parts : whole.occurrences = p.occurrences ++ q.occurrences)
    (replaced : p.replace m'' = a → q.replace m'' = b → whole.replace m'' = c) :
    Found whole c m m'' where
  extends_ := second.extends_.trans first.extends_
  known id := by
    simp only [second.known, first.known, mem_freeVars, parts, List.mem_append, or_and_right,
      exists_or, or_assoc]
  numeric id inside := by
    rw [mem_numericIds, parts, List.mem_append, ← mem_numericIds, ← mem_numericIds] at inside
    rcases inside with inside | inside
    · obtain ⟨t, here, fits⟩ := first.numeric id inside
      exact ⟨t, second.extends_ id t here, fits⟩
    · exact second.numeric id inside
  replaced := replaced (first.replace_eq second.extends_) second.replaced

theorem thenMatch_success {r : Bool × Mapping} {next : Mapping → Bool × Mapping}
    (success : (thenMatch r next).1 = true) :
    r.1 = true ∧ (next r.2).1 = true ∧ (thenMatch r next).2 = (next r.2).2 := by
  unfold thenMatch at success ⊢
  split
  · next first =>
    rw [if_pos first] at success
    exact ⟨first, success, rfl⟩
  · next failed =>
    rw [if_neg failed] at success
    exact absurd success failed

theorem found_matchAll {ps as : List Ty} {m : Mapping} (lengths : as.length = ps.length)
    (each : ∀ p ∈ ps, ∀ a m, (p.matchWith a m).1 = true → Found p a m (p.matchWith a m).2)
    (success : (matchAll ps as m).1 = true) (name : String) :
    Found (app name ps) (app name as) m (matchAll ps as m).2 := by
  induction ps generalizing as m with
  | nil =>
    obtain rfl : as = [] := List.length_eq_zero_iff.1 lengths
    exact found_closed rfl rfl
  | cons p ps ih =>
    cases as with
    | nil => cases lengths
    | cons a as =>
      rw [List.forall_mem_cons] at each
      obtain ⟨head, tail, left⟩ := thenMatch_success success
      have first := each.1 a m head
      have rest := ih (Nat.succ.inj lengths) each.2 tail
      refine left ▸ first.both rest rfl fun replacedHead replacedTail => ?_
      simp only [replace, app.injEq, true_and] at replacedTail
      rw [replace, replaceAll, replacedHead, replacedTail]

theorem found_matchWith (mono : p.isMono) {m : Mapping} (success : (p.matchWith c m).1 = true) :
    Found p c m (p.matchWith c m).2 := by
  induction p using induct generalizing c m with
  | int | double | string | bool | unit | named | host =>
    exact found_closed rfl (of_decide_eq_true success)
  | var id => exact found_matchVar (k := false) nofun success
  | num id =>
    rw [matchWith] at success ⊢
    split
    · next fits =>
      rw [if_pos fits] at success
      exact found_matchVar (k := true) (fun _ => fits) success
    · next unfit =>
      rw [if_neg unfit] at success
      cases success
  | list p ih =>
    cases c with
    | list a =>
      have inner := ih mono success
      exact ⟨inner.extends_, inner.known, inner.numeric, congrArg list inner.replaced⟩
    | _ => cases success
  | result p q ihP ihQ =>
    simp only [isMono, Bool.and_eq_true] at mono
    cases c with
    | result a b =>
      obtain ⟨head, tail, left⟩ := thenMatch_success success
      refine left ▸ (ihP mono.1 head).both (ihQ mono.2 tail) rfl fun first second => ?_
      rw [replace, first, second]
    | _ => cases success
  | fn p q ihP ihQ =>
    simp only [isMono, Bool.and_eq_true] at mono
    cases c with
    | fn a b =>
      obtain ⟨head, tail, left⟩ := thenMatch_success success
      refine left ▸ (ihP mono.1 head).both (ihQ mono.2 tail) rfl fun first second => ?_
      rw [replace, first, second]
    | _ => cases success
  | scheme vars a => simp [isMono] at mono
  | app name ps ih =>
    simp only [isMono, isMonoAll_eq, List.all_eq_true] at mono
    cases c with
    | app other as =>
      rw [matchWith] at success ⊢
      split
      · next heads =>
        rw [if_pos heads] at success
        obtain ⟨rfl, lengths⟩ := heads
        exact found_matchAll lengths (fun p member a m => ih p member (mono p member)) success _
      · next heads =>
        rw [if_neg heads] at success
        cases success
    | _ => cases success

end Ty

/-! ### Matching against replacement -/

structure Mapping.Instantiates (s m : Mapping) (p c : Ty) : Prop where
  extends_ : s.Extends m
  numeric : ∀ id ∈ p.numericIds,
    Ty.replace s (.num id) = .int ∨ Ty.replace s (.num id) = .double ∨
      ∃ other, Ty.replace s (.num id) = .num other
  replaced : p.replace s = c

namespace Ty

variable {p c : Ty} {m m' : Mapping}

/-- A free variable of a type by its number. -/
def freeVar (p : Ty) (id : VarId) : Ty := ofVar id (p.numericIds.contains id)

theorem fitsNumeric_iff {t : Ty} :
    t.fitsNumeric = true ↔ t = int ∨ t = double ∨ ∃ other, t = num other := by
  cases t <;> simp [fitsNumeric]

theorem Sorted.get_ofMapping {K : Set VarId} (sorted : p.Sorted K) (s : Mapping) :
    ∀ o ∈ p.occurrences, (Assignment.ofMapping s).get o = (p.freeVar o.1).replace s := by
  rintro ⟨id, k⟩ occurs
  have kind : p.numericIds.contains id = k := by
    rw [Bool.eq_iff_iff, List.contains_iff_mem, mem_numericIds]
    refine ⟨fun numeric => ?_, fun isTrue => isTrue ▸ occurs⟩
    exact (sorted.kinds _ occurs).2 ((sorted.kinds _ numeric).1 rfl)
  rw [freeVar, kind]
  cases k <;> rfl

/-- A pattern matches what a mapping turns it into, and only what the mapping replaces its variables
by is written down. -/
theorem Sorted.matched {K : Set VarId} (sorted : p.Sorted K) {s : Mapping}
    (instantiates : s.Instantiates m p c) :
    Matched (fun id => (p.freeVar id).replace s) (p.matchWith c m) := by
  obtain ⟨more, numeric, rfl⟩ := instantiates
  have whole : p.replace s =
      p.assign (Valuation.assignment fun id => (p.freeVar id).replace s) := by
    rw [replace_eq_assign]
    exact assign_congr fun o occurs => by
      rw [sorted.get_ofMapping s o occurs, Valuation.get_assignment]
  rw [whole]
  refine matched_matchWith sorted.mono (fun o occurs kind => ?_) fun id t known => ?_
  · have inside : o.1 ∈ p.numericIds := mem_numericIds.2 (kind ▸ occurs)
    have var : p.freeVar o.1 = num o.1 := by
      simp [freeVar, inside, ofVar]
    rw [var]
    exact fitsNumeric_iff.2 (numeric o.1 inside)
  · unfold freeVar
    cases p.numericIds.contains id <;> simp [ofVar, replace, more id t known]

theorem Found.instantiates (found : Found p c m m') : m'.Instantiates m p c where
  extends_ := found.extends_
  numeric id inside := by
    obtain ⟨t, here, fits⟩ := found.numeric id inside
    simpa only [replace, here, Option.getD_some] using fitsNumeric_iff.1 fits
  replaced := found.replaced

/-- A pattern whose variables are each of one kind matches a type exactly if it can be turned into it.
What is then written down has entries for the old variables and those of the pattern, it turns the
pattern into the type, and every mapping that does so replaces the variables of the pattern by the same
types. -/
theorem matchWith_inverts {K : Set VarId} {p : Ty} (sorted : p.Sorted K) (c : Ty) (m : Mapping) :
    ((p.matchWith c m).1 = true ↔ ∃ s : Mapping, s.Instantiates m p c) ∧
    ((p.matchWith c m).1 = true →
      (∀ id, ((p.matchWith c m).2.get? id).isSome ↔ (m.get? id).isSome ∨ id ∈ p.freeVars) ∧
      (p.matchWith c m).2.Instantiates m p c ∧
      ∀ s : Mapping, s.Instantiates m p c → ∀ id ∈ p.freeVars,
        (p.matchWith c m).2.get? id = some ((p.freeVar id).replace s)) := by
  constructor
  · constructor
    · exact fun success => ⟨_, (found_matchWith sorted.mono success).instantiates⟩
    · rintro ⟨s, instantiates⟩
      exact (sorted.matched instantiates).1
  · intro success
    have found := found_matchWith sorted.mono success
    refine ⟨found.known, found.instantiates, fun s instantiates id free => ?_⟩
    obtain ⟨t, here⟩ := Option.isSome_iff_exists.1 ((found.known id).2 (.inr free))
    exact here.trans (congrArg some ((sorted.matched instantiates).2 id t here).symm)

/-- A numeric variable of the pattern stands for another one, and a variable that already has a type
occurs twice. -/
theorem matchWith_inverts_app :
    Sorted {2} (fn (var 1) (app "pair" [num 2, list (var 1)])) ∧
    (∃ s : Mapping, s.Instantiates [(1, string), (7, bool)]
        (fn (var 1) (app "pair" [num 2, list (var 1)]))
        (fn string (app "pair" [num 5, list string]))) ∧
    ¬ ∃ s : Mapping, s.Instantiates [(1, string), (7, bool)]
        (fn (var 1) (app "pair" [num 2, list (var 1)])) (fn string (app "pair" [string, list string])) := by
  have sorted : Sorted {2} (fn (var 1) (app "pair" [num 2, list (var 1)])) :=
    ⟨rfl, by simp [occurrences, occurrencesAll]⟩
  refine ⟨sorted, (matchWith_inverts sorted _ _).1.1 (by decide), fun h => ?_⟩
  have success := (matchWith_inverts sorted _ _).1.2 h
  revert success
  decide

end Ty
end StackML
