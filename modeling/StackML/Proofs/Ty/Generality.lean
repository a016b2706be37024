import StackML.Proofs.Ty.Unification

/-!
Unification is most general. A solution gives every variable a type, numeric ones `int` or
`double`; whatever solves the bindings of a substitution and makes two types equal also solves the
bindings that unifying the two leads to, and unification fails only if there is no solution.

A walk of two types cannot go too deep: every type it meets is a part of the two types or of a
binding, and under a solution each is smaller than the ones it was met in.
-/

namespace StackML

/-! ### Parts of types -/

namespace Ty

def parts : Ty → List Ty
  | list a => [a]
  | result a b => [a, b]
  | fn a b => [a, b]
  | scheme _ a => [a]
  | app _ as => as
  | _ => []

def Closed (U : Set Ty) : Prop := ∀ t ∈ U, ∀ p ∈ t.parts, p ∈ U

theorem closed_univ : Closed Set.univ := fun _ _ _ _ => trivial

theorem Closed.union {U V : Finset Ty} (first : Closed U) (second : Closed V) :
    Closed ↑(U ∪ V) := by
  intro t inside p part
  rw [Finset.mem_coe, Finset.mem_union] at inside ⊢
  exact inside.imp (first t · p part) (second t · p part)

theorem Closed.insert {U : Finset Ty} (closed : Closed U) {t : Ty} (parts : ∀ p ∈ t.parts, p ∈ U) :
    Closed ↑(Insert.insert t U) := by
  intro u inside p part
  rw [Finset.mem_coe, Finset.mem_insert] at inside ⊢
  rcases inside with rfl | inside
  · exact .inr (parts p part)
  · exact .inr (closed u inside p part)

theorem exists_closed_all {as : List Ty}
    (each : ∀ a ∈ as, ∃ U : Finset Ty, Closed U ∧ a ∈ U ∧ U.card ≤ a.size) :
    ∃ U : Finset Ty, Closed U ∧ (∀ a ∈ as, a ∈ U) ∧ U.card ≤ sizeAll as := by
  induction as with
  | nil => exact ⟨∅, by simp [Closed], by simp, by simp [sizeAll]⟩
  | cons a as ih =>
    rw [List.forall_mem_cons] at each
    obtain ⟨U, closedU, inside, small⟩ := each.1
    obtain ⟨V, closedV, rest, smallV⟩ := ih each.2
    refine ⟨U ∪ V, closedU.union closedV, ?_, ?_⟩
    · simp only [List.forall_mem_cons, Finset.mem_union]
      exact ⟨.inl inside, fun b member => .inr (rest b member)⟩
    · have := Finset.card_union_le U V
      simp only [sizeAll]
      omega

theorem exists_closed (t : Ty) : ∃ U : Finset Ty, Closed U ∧ t ∈ U ∧ U.card ≤ t.size := by
  have above : ∀ (t : Ty) (U : Finset Ty), Closed U → (∀ p ∈ t.parts, p ∈ U) →
      U.card + 1 ≤ t.size → ∃ U : Finset Ty, Closed U ∧ t ∈ U ∧ U.card ≤ t.size := by
    intro t U closed parts small
    exact ⟨insert t U, closed.insert parts, Finset.mem_insert_self t U,
      (Finset.card_insert_le t U).trans small⟩
  induction t using induct with
  | int | double | string | bool | unit | named | host | var | num =>
    exact above _ ∅ (by simp [Closed]) (by simp [parts]) (by simp [size])
  | list a ih | scheme vars a ih =>
    obtain ⟨U, closed, inside, small⟩ := ih
    exact above _ U closed (by simpa [parts] using inside) (by simpa [size] using small)
  | result a b iha ihb | fn a b iha ihb =>
    obtain ⟨U, closedU, insideU, smallU⟩ := iha
    obtain ⟨V, closedV, insideV, smallV⟩ := ihb
    have := Finset.card_union_le U V
    exact above _ (U ∪ V) (closedU.union closedV) (by simp [parts, insideU, insideV])
      (by simp only [size]; omega)
  | app name as ih =>
    obtain ⟨U, closed, inside, small⟩ := exists_closed_all ih
    exact above _ U closed (by simpa [parts] using inside) (by simpa [size] using small)

theorem size_lt_of_mem {as : List Ty} {a : Ty} (member : a ∈ as) : a.size < sizeAll as + 1 := by
  induction as with
  | nil => cases member
  | cons b as ih =>
    simp only [sizeAll]
    rcases List.mem_cons.1 member with rfl | member
    · omega
    · have := ih member
      omega

theorem inductParts {P : Ty → Prop} (step : ∀ t, (∀ p ∈ t.parts, P p) → P t) (t : Ty) : P t := by
  induction t using induct with
  | int | double | string | bool | unit | named | host | var | num => exact step _ (by simp [parts])
  | list a ih | scheme vars a ih => exact step _ (by simpa [parts] using ih)
  | result a b iha ihb | fn a b iha ihb => exact step _ (by simp [parts, iha, ihb])
  | app name as ih => exact step _ ih

theorem isMono_part {t p : Ty} (mono : t.isMono) (part : p ∈ t.parts) : p.isMono := by
  cases t with
  | list a =>
    rw [List.mem_singleton.1 part]
    exact mono
  | result a b | fn a b =>
    simp only [isMono, Bool.and_eq_true] at mono
    simp only [parts, List.mem_cons, List.not_mem_nil, or_false] at part
    rcases part with rfl | rfl
    · exact mono.1
    · exact mono.2
  | scheme vars a => simp [isMono] at mono
  | app name as =>
    simp only [isMono, isMonoAll_eq, List.all_eq_true] at mono
    exact mono p part
  | _ => simp [parts] at part

theorem varId?_assign {t : Ty} (plain : t.varId? = none) (σ : Assignment) :
    (t.assign σ).varId? = none := by
  cases t with
  | var id | num id => simp [varId?] at plain
  | _ => rfl

theorem size_assign_part {t p : Ty} (mono : t.isMono) (part : p ∈ t.parts) (σ : Assignment) :
    (p.assign σ).size < (t.assign σ).size := by
  cases t with
  | list a =>
    rw [List.mem_singleton.1 part]
    simp only [assign, size]
    omega
  | result a b | fn a b =>
    simp only [parts, List.mem_cons, List.not_mem_nil, or_false] at part
    rcases part with rfl | rfl <;> simp only [assign, size] <;> omega
  | scheme vars a => simp [isMono] at mono
  | app name as =>
    simp only [assign, assignAll_eq, size]
    exact size_lt_of_mem (List.mem_map_of_mem part)
  | _ => simp [parts] at part

inductive Alike : Ty → Ty → Prop where
  | int : Alike int int
  | double : Alike double double
  | string : Alike string string
  | bool : Alike bool bool
  | unit : Alike unit unit
  | list {a b} : Alike (list a) (list b)
  | result {a b c d} : Alike (result a b) (result c d)
  | fn {a b c d} : Alike (fn a b) (fn c d)
  | scheme {vs a ws b} : Alike (scheme vs a) (scheme ws b)
  | named {m n} : Alike (named m) (named n)
  | app {m as n bs} : Alike (app m as) (app n bs)
  | host {m n} : Alike (host m) (host n)

theorem varId?_eq_none {t : Ty} (var : ∀ id, t ≠ var id) (num : ∀ id, t ≠ num id) :
    t.varId? = none := by
  cases t with
  | var id => exact (var id rfl).elim
  | num id => exact (num id rfl).elim
  | _ => rfl

theorem alike_of_assign_eq {a b : Ty} {σ : Assignment} (plainA : a.varId? = none)
    (plainB : b.varId? = none) (same : a.assign σ = b.assign σ) : Alike a b := by
  cases a <;> cases b <;> first
    | constructor
    | simp only [varId?, assign, reduceCtorEq] at plainA plainB same

theorem anyVar_preserves {σ : Type} {f : σ → Ty → Bool × σ} {ok : σ → Prop} {U : Set Ty}
    (closed : Closed U) (each : ∀ s, ∀ v ∈ U, ok s → ok (f s v).2) {t : Ty} (inside : t ∈ U) {s : σ}
    (start : ok s) : ok (anyVar f s t).2 := by
  induction t using induct generalizing s with
  | int | double | string | bool | unit | named | host => exact start
  | var id | num id => exact each s _ inside start
  | list a ih | scheme vars a ih => exact ih (closed _ inside a (by simp [parts])) start
  | result a b iha ihb | fn a b iha ihb =>
    have first := iha (closed _ inside a (by simp [parts])) start
    simp only [anyVar, orElse]
    split
    · exact first
    · exact ihb (closed _ inside b (by simp [parts])) first
  | app name as ih =>
    have all : ∀ bs : List Ty, (∀ b ∈ bs, b ∈ as) → ∀ {s}, ok s → ok (anyVarAll f s bs).2 := by
      intro bs
      induction bs with
      | nil => exact fun _ _ good => good
      | cons b bs rest =>
        intro members s good
        rw [List.forall_mem_cons] at members
        have first := ih b members.1 (closed _ inside b members.1) good
        simp only [anyVarAll, orElse]
        split
        · exact first
        · exact rest members.2 first
    exact all as (fun _ member => member) start

theorem mapVars_preserves {σ : Type} {f : σ → Ty → Ty × σ} {ok : σ → Prop}
    (each : ∀ s v, ok s → ok (f s v).2) (t : Ty) {s : σ} (start : ok s) :
    ok (mapVars f s t).2 := by
  induction t using induct generalizing s with
  | int | double | string | bool | unit | named | host => exact start
  | var id | num id => exact each s _ start
  | list a ih | scheme vars a ih => exact ih start
  | result a b iha ihb | fn a b iha ihb => exact ihb (iha start)
  | app name as ih =>
    have all : ∀ bs : List Ty, (∀ b ∈ bs, b ∈ as) → ∀ {s}, ok s → ok (mapVarsAll f s bs).2 := by
      intro bs
      induction bs with
      | nil => exact fun _ _ good => good
      | cons b bs rest =>
        intro members s good
        rw [List.forall_mem_cons] at members
        exact rest members.2 (ih b members.1 good)
    exact all as (fun _ member => member) start

end Ty

theorem Subst.Mentions.part {id : VarId} {t : Ty} (mentioned : Mentions id t) (mono : t.isMono)
    (plain : t.varId? = none) : ∃ p ∈ t.parts, Mentions id p := by
  obtain ⟨o, member, same⟩ := mentioned
  cases t with
  | list a => exact ⟨a, by simp [Ty.parts], o, member, same⟩
  | result a b | fn a b =>
    rcases List.mem_append.1 member with member | member
    · exact ⟨a, by simp [Ty.parts], o, member, same⟩
    · exact ⟨b, by simp [Ty.parts], o, member, same⟩
  | scheme vars a => simp [Ty.isMono] at mono
  | app name as =>
    simp only [Ty.occurrences, Ty.occurrencesAll_eq, List.mem_flatMap] at member
    obtain ⟨a, inside, member⟩ := member
    exact ⟨a, inside, o, member, same⟩
  | var other | num other => simp [Ty.varId?] at plain
  | _ => simp [Ty.occurrences] at member

/-! ### Solutions -/

/-- A type for every variable. -/
abbrev Valuation := VarId → Ty

namespace Valuation

/-- Both kinds of a variable stand for its type. -/
def assignment (v : Valuation) : Assignment := ⟨v, v⟩

@[simp] theorem get_assignment (v : Valuation) (o : VarId × Bool) : v.assignment.get o = v o.1 := by
  obtain ⟨id, _ | _⟩ := o <;> rfl

/-- The given variables stand for integers or doubles. -/
def Numeric (K : Set VarId) (v : Valuation) : Prop := ∀ id ∈ K, v id = .int ∨ v id = .double

theorem size_le_of_mentions {v : Valuation} {id : VarId} {t : Ty} (mono : t.isMono)
    (mentioned : Subst.Mentions id t) : (v id).size ≤ (t.assign v.assignment).size := by
  induction t using Ty.inductParts with
  | step t ih =>
    cases isVar : t.varId? with
    | some other =>
      obtain ⟨numeric, rfl⟩ := Ty.eq_ofVar_of_varId? isVar
      obtain ⟨o, member, rfl⟩ := mentioned
      rw [Ty.occurrences_ofVar, List.mem_singleton] at member
      subst member
      rw [Ty.assign_ofVar _ (other, numeric), get_assignment]
    | none =>
      obtain ⟨p, part, inside⟩ := mentioned.part mono isVar
      have small := ih p part (Ty.isMono_part mono part) inside
      have := Ty.size_assign_part mono part v.assignment
      omega

end Valuation

namespace Subst

open Assignment

/-- The valuation solves every binding. -/
def Holds (s : Subst) (v : Valuation) : Prop :=
  ∀ id t, s.get? id = some t → v id = t.assign v.assignment

theorem Holds.bind {s : Subst} {v : Valuation} (holds : s.Holds v) {id : VarId} {t : Ty}
    (same : v id = t.assign v.assignment) : (s.bind id t).Holds v := by
  intro other u found
  rw [get?_bind] at found
  split at found
  · next equal =>
    cases found
    rw [equal, same]
  · exact holds other u found

variable {g : Supply} {R : Assignment} {dom : Set VarId} {rank : VarId → Nat} {size : Nat}
  {s : Subst} {v : Valuation}

theorem Walk.holds_iff (walk : Walk g R dom rank size s) :
    s.Holds v ↔ v.assignment.Refines R := by
  constructor
  · intro holds
    have each : ∀ o, (R.get o).assign v.assignment = v.assignment.get o := by
      refine walk.induct (fun o free => ?_) (fun o t found parts => ?_)
      · rw [walk.get_of_free free, Ty.assign_ofVar]
      · rw [walk.get_of_bound found, Ty.assign_assign (walk.kinded found).mono,
          Valuation.get_assignment, holds _ t found]
        exact Ty.assign_congr fun p member => (get_comp R _ p).trans (parts p member)
    unfold Refines
    ext id
    · exact each (id, false)
    · exact each (id, true)
  · intro refines id t found
    have solved : R.var id = t.assign R := (walk.bound found).1
    calc v id = (R.var id).assign v.assignment := (congrArg (·.var id) refines).symm
      _ = (t.assign R).assign v.assignment := by rw [solved]
      _ = t.assign v.assignment := refines.assign (walk.kinded found).mono

/-! ### The types that bindings are made of -/

def Within (U : Set Ty) (s : Subst) : Prop := ∀ id t, s.get? id = some t → t ∈ U

theorem Within.bind {U : Set Ty} (within : s.Within U) {t : Ty} (inside : t ∈ U) (id : VarId) :
    (s.bind id t).Within U := by
  intro other u found
  rw [get?_bind] at found
  split at found
  · cases found
    exact inside
  · exact within other u found

theorem follow_within {U : Set Ty} (hops : Nat) (within : s.Within U) {t : Ty} (inside : t ∈ U) :
    (follow hops s t).1 ∈ U ∧ (follow hops s t).2.Within U := by
  induction hops generalizing s t with
  | zero => exact ⟨inside, within⟩
  | succ hops ih =>
    simp only [follow]
    split
    · exact ⟨inside, within⟩
    · next id _ =>
      split
      · exact ⟨inside, within⟩
      · next next found =>
        obtain ⟨root, rest⟩ := ih within (within _ _ found)
        refine ⟨root, ?_⟩
        split
        · exact rest
        · exact rest.bind root id

theorem prune_within {U : Set Ty} (within : s.Within U) {t : Ty} (inside : t ∈ U) :
    (s.prune t).1 ∈ U ∧ (s.prune t).2.Within U :=
  follow_within _ within inside

theorem occursWithin_within {U : Set Ty} (closed : Ty.Closed U) (hops : Nat) (id : VarId)
    (within : s.Within U) {t : Ty} (inside : t ∈ U) : (occursWithin hops id s t).2.Within U := by
  induction hops generalizing s t with
  | zero => exact within
  | succ hops ih =>
    refine Ty.anyVar_preserves closed (fun s v member within => ?_) inside within
    obtain ⟨root, rest⟩ := prune_within within member
    dsimp only
    split
    · exact rest
    · exact ih rest root

def Weighs (s : Subst) : Prop :=
  ∃ U : Finset Ty, Ty.Closed U ∧ s.Within U ∧ U.card ≤ s.weight

theorem weighs_empty : Weighs .empty :=
  ⟨∅, by simp [Ty.Closed], fun id t found => by
    simp [empty, get?, Std.TreeMap.get?_eq_getElem?] at found, by simp⟩

theorem Weighs.bind (weighs : s.Weighs) (id : VarId) (t : Ty) : (s.bind id t).Weighs := by
  obtain ⟨U, closedU, within, small⟩ := weighs
  obtain ⟨V, closedV, inside, size⟩ := Ty.exists_closed t
  refine ⟨U ∪ V, closedU.union closedV, ?_, ?_⟩
  · refine Within.bind (fun id t found => ?_) ?_ id
    · rw [Finset.mem_coe, Finset.mem_union]
      exact .inl (within id t found)
    · rw [Finset.mem_coe, Finset.mem_union]
      exact .inr inside
  · have := Finset.card_union_le U V
    simp only [Subst.bind]
    omega

/-! ### What every binding preserves -/

section Preserves

variable {P : Subst → Prop} (step : ∀ s id t, P s → P (s.bind id t))

include step

theorem follow_preserves (hops : Nat) (t : Ty) (start : P s) : P (follow hops s t).2 := by
  induction hops generalizing s t with
  | zero => exact start
  | succ hops ih =>
    simp only [follow]
    split
    · exact start
    · next id _ =>
      split
      · exact start
      · next next _ =>
        have rest := ih next start
        dsimp only
        split
        · exact rest
        · exact step _ _ _ rest

theorem prune_preserves (t : Ty) (start : P s) : P (s.prune t).2 := follow_preserves step _ t start

theorem resolveWithin_preserves (hops : Nat) (t : Ty) (start : P s) :
    P (resolveWithin hops s t).2 := by
  induction hops generalizing s t with
  | zero => exact start
  | succ hops ih =>
    refine Ty.mapVars_preserves (fun s v start => ?_) t start
    have pruned := prune_preserves step v start
    dsimp only
    split
    · exact pruned
    · exact ih _ pruned

theorem occursWithin_preserves (hops : Nat) (id : VarId) (t : Ty) (start : P s) :
    P (occursWithin hops id s t).2 := by
  induction hops generalizing s t with
  | zero => exact start
  | succ hops ih =>
    refine Ty.anyVar_preserves Ty.closed_univ (fun s v _ start => ?_) (Set.mem_univ t) start
    have pruned := prune_preserves step v start
    dsimp only
    split
    · exact pruned
    · exact ih _ pruned

theorem bindVar_preserves (id : VarId) (t : Ty) (start : P s) : P (s.bindVar id t).2 := by
  have asked := occursWithin_preserves step (s.size + 1) id t start
  unfold bindVar
  split
  · exact start
  · unfold occurs
    split
    · next run =>
      rw [run] at asked
      exact resolveWithin_preserves step _ t asked
    · next run =>
      rw [run] at asked
      exact step _ _ _ asked

theorem bindNumeric_preserves (id : VarId) (t : Ty) (start : P s) : P (s.bindNumeric id t).2 := by
  unfold bindNumeric
  split
  · dsimp only
    split
    · exact start
    · exact step _ _ _ start
  · exact step _ _ _ start
  · exact step _ _ _ start
  · exact start

omit step in
theorem andThen_preserves {first : Unified} {next : Subst → Unified} (start : P first.2)
    (each : ∀ s, P s → P (next s).2) : P (first.andThen next).2 := by
  obtain ⟨_ | e, s₁⟩ := first
  · exact each s₁ start
  · exact start

theorem unifyWithin_preserves (depth : Nat) (a b : Ty) (start : P s) :
    P (unifyWithin depth s a b).2 := by
  induction depth generalizing s a b with
  | zero => exact start
  | succ depth ih =>
    have pruned := prune_preserves step b (prune_preserves step a start)
    have pairs : ∀ (as bs : List Ty) (s : Subst), P s →
        P (unifyPairs (unifyWithin depth) s as bs).2 := by
      intro as
      induction as with
      | nil => exact fun _ _ start => start
      | cons a as rest =>
        intro bs s start
        cases bs with
        | nil => exact start
        | cons b bs => exact andThen_preserves (ih a b start) fun s start => rest bs s start
    simp only [unifyWithin]
    split
    · exact bindVar_preserves step _ _ pruned
    · exact bindVar_preserves step _ _ pruned
    · exact bindNumeric_preserves step _ _ pruned
    · exact bindNumeric_preserves step _ _ pruned
    · exact andThen_preserves (ih _ _ pruned) fun s start => ih _ _ start
    · exact ih _ _ pruned
    · exact andThen_preserves (ih _ _ pruned) fun s start => ih _ _ start
    · split
      · exact pairs _ _ _ pruned
      · exact pruned
    · split <;> exact pruned
    · split <;> exact pruned
    all_goals exact pruned

end Preserves

/-! ### Failures -/

theorem bindVar_denotes (walk : Walk g R dom rank size s) {id : VarId} {t : Ty} (unbound : id ∉ dom)
    (idKinded : (Ty.var id).WellKinded g) (kinded : t.WellKinded g) :
    ∃ R', Denotes g (s.bindVar id t).2 R' := by
  rcases run : s.bindVar id t with ⟨_ | e, s'⟩
  · obtain ⟨R', denotes, -⟩ := walk.bindVar_spec unbound idKinded kinded run
    exact ⟨R', denotes⟩
  · unfold bindVar at run
    split at run
    · simp at run
    · obtain ⟨found, s₁, asked, walk₁, -⟩ := occurs_spec walk id kinded
      rw [asked] at run
      cases found with
      | false => simp at run
      | true =>
        obtain ⟨s₂, resolved, walk₂⟩ := resolve_spec walk₁ kinded
        simp only [resolved, Prod.mk.injEq] at run
        exact ⟨R, dom, rank, size, run.2 ▸ walk₂⟩

theorem bindNumeric_denotes (walk : Walk g R dom rank size s) {id : VarId} {t : Ty}
    (unbound : id ∉ dom) (idKinded : (Ty.num id).WellKinded g) (kinded : t.WellKinded g)
    (root : ∀ other, t.varId? = some other → other ∉ dom) :
    ∃ R', Denotes g (s.bindNumeric id t).2 R' := by
  rcases run : s.bindNumeric id t with ⟨_ | e, s'⟩
  · obtain ⟨R', denotes, -⟩ := walk.bindNumeric_spec unbound idKinded kinded root run
    exact ⟨R', denotes⟩
  · unfold bindNumeric at run
    split at run
    · simp at run
    · simp at run
    · simp at run
    · cases run
      exact ⟨R, dom, rank, size, walk⟩

theorem Unified.andThen_denotes {first : Unified} {next : Subst → Unified}
    (start : ∃ R, Denotes g first.2 R)
    (each : ∀ s R, Denotes g s R → ∃ R', Denotes g (next s).2 R') :
    ∃ R', Denotes g (first.andThen next).2 R' := by
  obtain ⟨_ | e, s₁⟩ := first
  · exact start.elim fun R denotes => each s₁ R denotes
  · exact start

theorem unifyWithin_denotes (depth : Nat) {a b : Ty} (h : Denotes g s R)
    (kindedA : a.WellKinded g) (kindedB : b.WellKinded g) :
    ∃ R', Denotes g (unifyWithin depth s a b).2 R' := by
  induction depth generalizing s R a b with
  | zero => exact ⟨R, h⟩
  | succ depth ih =>
    obtain ⟨dom, rank, size, walk⟩ := h
    obtain ⟨a', s₁, pruneA, walk₁, -, goodA, -, rootA, -⟩ := prune_spec walk kindedA
    obtain ⟨b', s₂, pruneB, walk₂, -, goodB, -, rootB, -⟩ := prune_spec walk₁ kindedB
    have denotes : Denotes g s₂ R := ⟨dom, rank, size, walk₂⟩
    have pairs : ∀ (as bs : List Ty) {s R}, Denotes g s R → (∀ a ∈ as, a.WellKinded g) →
        (∀ b ∈ bs, b.WellKinded g) →
        ∃ R', Denotes g (unifyPairs (unifyWithin depth) s as bs).2 R' := by
      intro as
      induction as with
      | nil => exact fun _ _ R h _ _ => ⟨R, h⟩
      | cons a as rest =>
        intro bs s R h goodAs goodBs
        cases bs with
        | nil => exact ⟨R, h⟩
        | cons b bs =>
          rw [List.forall_mem_cons] at goodAs goodBs
          exact Unified.andThen_denotes (ih h goodAs.1 goodBs.1) fun s R h =>
            rest bs h goodAs.2 goodBs.2
    simp only [unifyWithin, pruneA, pruneB]
    split
    · exact bindVar_denotes walk₂ (rootA _ rfl) goodA goodB
    · exact bindVar_denotes walk₂ (rootB _ rfl) goodB goodA
    · exact bindNumeric_denotes walk₂ (rootA _ rfl) goodA goodB rootB
    · exact bindNumeric_denotes walk₂ (rootB _ rfl) goodB goodA rootA
    · rw [Ty.WellKinded.fn_iff] at goodA goodB
      exact Unified.andThen_denotes (ih denotes goodA.1 goodB.1) fun s R h => ih h goodA.2 goodB.2
    · exact ih denotes (Ty.WellKinded.list_iff.1 goodA) (Ty.WellKinded.list_iff.1 goodB)
    · rw [Ty.WellKinded.result_iff] at goodA goodB
      exact Unified.andThen_denotes (ih denotes goodA.1 goodB.1) fun s R h => ih h goodA.2 goodB.2
    · split
      · exact pairs _ _ denotes (Ty.WellKinded.app_iff.1 goodA) (Ty.WellKinded.app_iff.1 goodB)
      · exact ⟨R, denotes⟩
    · split <;> exact ⟨R, denotes⟩
    · split <;> exact ⟨R, denotes⟩
    all_goals exact ⟨R, denotes⟩

/-! ### Success under a solution -/

/-- Unifying succeeds and leaves bindings that the valuation solves, made of the given types. -/
def Solved (v : Valuation) (U : Finset Ty) (r : Unified) : Prop :=
  ∃ s', r = (none, s') ∧ s'.Holds v ∧ s'.Within U

section Solution

variable {id : VarId} {t : Ty} {U : Finset Ty}

theorem Walk.not_mentions (walk : Walk g R dom rank size s) (holds : s.Holds v)
    (idKinded : (Ty.var id).WellKinded g) (kinded : t.WellKinded g)
    (root : ∀ other, t.varId? = some other → other ∉ dom) (other : t ≠ .var id)
    (same : v id = t.assign v.assignment) : ¬Mentions id (t.assign R) := by
  intro mentioned
  cases isVar : t.varId? with
  | some k =>
    obtain ⟨numeric, rfl⟩ := Ty.eq_ofVar_of_varId? isVar
    have free := walk.get_of_free (o := (k, numeric)) (root k isVar)
    rw [Ty.assign_ofVar R (k, numeric), free] at mentioned
    obtain ⟨o, member, rfl⟩ := mentioned
    rw [Ty.occurrences_ofVar, List.mem_singleton] at member
    subst member
    cases numeric with
    | false => exact other rfl
    | true =>
      have plain := (idKinded.kinds (k, false) (by simp [Ty.occurrences])).2
      have wrong := (kinded.kinds (k, true) (by simp [Ty.occurrences_ofVar])).2
      simp_all
  | none =>
    have mono : (t.assign R).isMono := Ty.isMono_assign kinded.mono fun o _ => walk.isMono_get o
    obtain ⟨p, part, inside⟩ := mentioned.part mono (Ty.varId?_assign isVar R)
    have refines := walk.holds_iff.1 holds
    have small := Valuation.size_le_of_mentions (v := v) (Ty.isMono_part mono part) inside
    have less := Ty.size_assign_part mono part v.assignment
    rw [refines.assign kinded.mono, ← same] at less
    omega

theorem Walk.bindVar_solved (walk : Walk g R dom rank size s) (holds : s.Holds v)
    (closed : Ty.Closed U) (within : s.Within U) (inside : t ∈ U)
    (idKinded : (Ty.var id).WellKinded g) (kinded : t.WellKinded g)
    (root : ∀ other, t.varId? = some other → other ∉ dom)
    (same : v id = t.assign v.assignment) : Solved v U (s.bindVar id t) := by
  unfold bindVar
  split
  · exact ⟨s, rfl, holds, within⟩
  · next other =>
    obtain ⟨found, s₁, asked, walk₁, answer⟩ := occurs_spec walk id kinded
    have fresh := walk.not_mentions holds idKinded kinded root other same
    have absent : found = false := by
      cases found with
      | false => rfl
      | true => exact absurd (answer.1 rfl) fresh
    have within₁ : s₁.Within U := by
      have kept := occursWithin_within closed (s.size + 1) id within inside
      rwa [show occursWithin (s.size + 1) id s t = (found, s₁) from asked] at kept
    have holds₁ : s₁.Holds v := walk₁.holds_iff.2 (walk.holds_iff.1 holds)
    rw [asked, absent]
    exact ⟨s₁.bind id t, rfl, holds₁.bind same, within₁.bind inside id⟩

theorem bindNumeric_solved (holds : s.Holds v) (within : s.Within U) (inside : t ∈ U)
    (fits : v id = .int ∨ v id = .double) (plain : ∀ other, t ≠ .var other)
    (same : v id = t.assign v.assignment) : Solved v U (s.bindNumeric id t) := by
  have bind : Solved v U (none, s.bind id t) := ⟨_, rfl, holds.bind same, within.bind inside id⟩
  unfold bindNumeric
  split
  · split
    · exact ⟨s, rfl, holds, within⟩
    · exact bind
  · exact bind
  · exact bind
  · next notNum notInt notDouble =>
    rw [same] at fits
    cases t <;> simp_all [Ty.assign]

theorem unifyWithin_solved (closed : Ty.Closed U) (numeric : v.Numeric g.numeric) (depth : Nat)
    {above : Finset Ty} {a b : Ty} (h : Denotes g s R) (holds : s.Holds v) (within : s.Within U)
    (kindedA : a.WellKinded g) (kindedB : b.WellKinded g) (insideA : a ∈ U) (insideB : b ∈ U)
    (same : a.assign v.assignment = b.assign v.assignment) (subset : above ⊆ U)
    (larger : ∀ c ∈ above, (a.assign v.assignment).size < (c.assign v.assignment).size)
    (enough : U.card < above.card + depth) : Solved v U (unifyWithin depth s a b) := by
  induction depth generalizing s R above a b with
  | zero =>
    have := Finset.card_le_card subset
    omega
  | succ depth ih =>
    obtain ⟨dom, rank, size, walk⟩ := h
    obtain ⟨a', s₁, pruneA, walk₁, sameA, goodA, -, rootA, -⟩ := prune_spec walk kindedA
    obtain ⟨b', s₂, pruneB, walk₂, sameB, goodB, -, rootB, -⟩ := prune_spec walk₁ kindedB
    have withinA := prune_within within insideA
    rw [pruneA] at withinA
    have withinB := prune_within withinA.2 insideB
    rw [pruneB] at withinB
    have refines := walk.holds_iff.1 holds
    have holds₂ : s₂.Holds v := walk₂.holds_iff.2 refines
    have assignA : a'.assign v.assignment = a.assign v.assignment := by
      rw [← refines.assign goodA.mono, sameA, refines.assign kindedA.mono]
    have assignB : b'.assign v.assignment = b.assign v.assignment := by
      rw [← refines.assign goodB.mono, sameB, refines.assign kindedB.mono]
    rw [← assignA, ← assignB] at same
    rw [← assignA] at larger
    have denotes : Denotes g s₂ R := ⟨dom, rank, size, walk₂⟩
    -- the type at hand joins those above its parts
    have new : a' ∉ above := fun member => Nat.lt_irrefl _ (larger a' member)
    have down : ∀ {p q : Ty} {s R}, Denotes g s R → s.Holds v → s.Within U → p ∈ a'.parts →
        q ∈ b'.parts → p.WellKinded g → q.WellKinded g →
        p.assign v.assignment = q.assign v.assignment → Solved v U (unifyWithin depth s p q) := by
      intro p q s R h holds within partA partB goodP goodQ same
      have wider : insert a' above ⊆ U := Finset.insert_subset withinA.1 subset
      refine ih h holds within goodP goodQ (closed _ withinA.1 p partA)
        (closed _ withinB.1 q partB) same wider ?_ ?_
      · have less := Ty.size_assign_part goodA.mono partA v.assignment
        intro c member
        rcases Finset.mem_insert.1 member with rfl | member
        · exact less
        · exact less.trans (larger c member)
      · rw [Finset.card_insert_of_notMem new]
        omega
    have pairs : ∀ {as bs : List Ty} {s R}, Denotes g s R → s.Holds v → s.Within U →
        (∀ p ∈ as, p ∈ a'.parts ∧ p.WellKinded g) → (∀ q ∈ bs, q ∈ b'.parts ∧ q.WellKinded g) →
        as.map (Ty.assign v.assignment) = bs.map (Ty.assign v.assignment) →
        Solved v U (unifyPairs (unifyWithin depth) s as bs) := by
      intro as
      induction as with
      | nil => exact fun _ holds within _ _ _ => ⟨_, rfl, holds, within⟩
      | cons p as rest =>
        intro bs s R h holds within goodAs goodBs same
        cases bs with
        | nil => simp at same
        | cons q bs =>
          rw [List.forall_mem_cons] at goodAs goodBs
          rw [List.map_cons, List.map_cons, List.cons.injEq] at same
          obtain ⟨s', run, holds', within'⟩ :=
            down h holds within goodAs.1.1 goodBs.1.1 goodAs.1.2 goodBs.1.2 same.1
          obtain ⟨R', denotes', -⟩ := unifyWithin_spec depth h goodAs.1.2 goodBs.1.2 run
          simp only [unifyPairs, run, Unified.andThen]
          exact rest denotes' holds' within' goodAs.2 goodBs.2 same.2
    have both : ∀ {p₁ p₂ q₁ q₂ : Ty}, (p₁ ∈ a'.parts ∧ p₁.WellKinded g) ∧
        p₂ ∈ a'.parts ∧ p₂.WellKinded g → (q₁ ∈ b'.parts ∧ q₁.WellKinded g) ∧
        q₂ ∈ b'.parts ∧ q₂.WellKinded g →
        p₁.assign v.assignment = q₁.assign v.assignment ∧
          p₂.assign v.assignment = q₂.assign v.assignment →
        Solved v U ((unifyWithin depth s₂ p₁ q₁).andThen fun s => unifyWithin depth s p₂ q₂) := by
      intro p₁ p₂ q₁ q₂ goodP goodQ same
      obtain ⟨s', run, holds', within'⟩ :=
        down denotes holds₂ withinB.2 goodP.1.1 goodQ.1.1 goodP.1.2 goodQ.1.2 same.1
      obtain ⟨R', denotes', -⟩ := unifyWithin_spec depth denotes goodP.1.2 goodQ.1.2 run
      simp only [run, Unified.andThen]
      exact down denotes' holds' within' goodP.2.1 goodQ.2.1 goodP.2.2 goodQ.2.2 same.2
    have done : Solved v U (none, s₂) := ⟨s₂, rfl, holds₂, withinB.2⟩
    have known : ∀ id, (Ty.num id).WellKinded g → v id = .int ∨ v id = .double := fun id good =>
      numeric id ((good.kinds (id, true) (by simp [Ty.occurrences])).2.1 rfl)
    simp only [unifyWithin, pruneA, pruneB]
    split
    · exact walk₂.bindVar_solved holds₂ closed withinB.2 withinB.1 goodA goodB rootB same
    · exact walk₂.bindVar_solved holds₂ closed withinB.2 withinA.1 goodB goodA rootA same.symm
    · next plain =>
      exact bindNumeric_solved holds₂ withinB.2 withinB.1 (known _ goodA) plain same
    · next plain _ =>
      exact bindNumeric_solved holds₂ withinB.2 withinA.1 (known _ goodB) plain same.symm
    · rw [Ty.WellKinded.fn_iff] at goodA goodB
      simp only [Ty.assign, Ty.fn.injEq] at same
      exact both (by simp [Ty.parts, goodA]) (by simp [Ty.parts, goodB]) same
    · simp only [Ty.assign, Ty.list.injEq] at same
      exact down denotes holds₂ withinB.2 (by simp [Ty.parts]) (by simp [Ty.parts])
        (Ty.WellKinded.list_iff.1 goodA) (Ty.WellKinded.list_iff.1 goodB) same
    · rw [Ty.WellKinded.result_iff] at goodA goodB
      simp only [Ty.assign, Ty.result.injEq] at same
      exact both (by simp [Ty.parts, goodA]) (by simp [Ty.parts, goodB]) same
    · simp only [Ty.assign, Ty.assignAll_eq, Ty.app.injEq] at same
      have lengths := congrArg List.length same.2
      rw [List.length_map, List.length_map] at lengths
      rw [if_pos ⟨same.1, lengths⟩]
      rw [Ty.WellKinded.app_iff] at goodA goodB
      exact pairs denotes holds₂ withinB.2 (fun p member => ⟨member, goodA p member⟩)
        (fun q member => ⟨member, goodB q member⟩) same.2
    · simp only [Ty.assign, Ty.named.injEq] at same
      rw [if_pos same]
      exact done
    · simp only [Ty.assign, Ty.host.injEq] at same
      rw [if_pos same]
      exact done
    · exact done
    · exact done
    · exact done
    · exact done
    · exact done
    · next varA numA varB numB fn list result app named host int double string bool unit =>
      have mono := goodA.mono
      cases Ty.alike_of_assign_eq (Ty.varId?_eq_none varA numA) (Ty.varId?_eq_none varB numB) same with
      | scheme => simp [Ty.isMono] at mono
      | fn => exact (fn _ _ _ _ rfl rfl).elim
      | list => exact (list _ _ rfl rfl).elim
      | result => exact (result _ _ _ _ rfl rfl).elim
      | app => exact (app _ _ _ _ rfl rfl).elim
      | named => exact (named _ _ rfl rfl).elim
      | host => exact (host _ _ rfl rfl).elim
      | int => exact (int rfl rfl).elim
      | double => exact (double rfl rfl).elim
      | string => exact (string rfl rfl).elim
      | bool => exact (bool rfl rfl).elim
      | unit => exact (unit rfl rfl).elim

/-- If the bindings and the equation have a solution, unification finds that they have one, and
every solution solves the bindings it leads to. -/
theorem unify_solved {a b : Ty} (h : Denotes g s R) (weighs : s.Weighs) (holds : s.Holds v)
    (numeric : v.Numeric g.numeric) (kindedA : a.WellKinded g) (kindedB : b.WellKinded g)
    (same : a.assign v.assignment = b.assign v.assignment) :
    ∃ s', s.unify a b = (none, s') ∧ s'.Holds v := by
  obtain ⟨U, closedU, within, weight⟩ := weighs
  obtain ⟨A, closedA, insideA, sizeA⟩ := Ty.exists_closed a
  obtain ⟨B, closedB, insideB, sizeB⟩ := Ty.exists_closed b
  have count : (U ∪ A ∪ B).card ≤ s.weight + a.size + b.size := by
    have first := Finset.card_union_le (U ∪ A) B
    have second := Finset.card_union_le U A
    omega
  have all : s.Within ↑(U ∪ A ∪ B) := fun id t found => by
    simp only [Finset.mem_coe, Finset.mem_union]
    exact .inl (.inl (within id t found))
  obtain ⟨s', run, solved, -⟩ := unifyWithin_solved ((closedU.union closedA).union closedB) numeric
    (s.weight + a.size + b.size + 1) h holds all kindedA kindedB (by simp [insideA])
    (by simp [insideB]) same (Finset.empty_subset _) (by simp)
    (by rw [Finset.card_empty]; omega)
  exact ⟨s', run, solved⟩

end Solution

end Subst

/-! ### Substitutions that unifications lead to -/

def Supply.upTo (K : Set VarId) (n : Nat) : Supply where
  numeric := {id | id ∈ K ∧ id ≤ n}
  first := -n - 1
  last := n
  ordered := by lia
  known _ member := member.2

structure Ty.Sorted (K : Set VarId) (t : Ty) : Prop where
  mono : t.isMono
  kinds : ∀ o ∈ t.occurrences, o.2 = true ↔ o.1 ∈ K

theorem Ty.Sorted.wellKinded {K : Set VarId} {t : Ty} (sorted : t.Sorted K) :
    ∃ n : Nat, ∀ m, n ≤ m → t.WellKinded (.upTo K m) := by
  have bounded : ∀ l : List (VarId × Bool), ∃ n : Nat, ∀ o ∈ l, -(n : Int) ≤ o.1 ∧ o.1 ≤ n := by
    intro l
    induction l with
    | nil => exact ⟨0, by simp⟩
    | cons o l ih =>
      obtain ⟨n, rest⟩ := ih
      refine ⟨n + o.1.natAbs, List.forall_mem_cons.2 ⟨by lia, fun p member => ?_⟩⟩
      have := rest p member
      lia
  obtain ⟨n, small⟩ := bounded t.occurrences
  refine ⟨n, fun m le => ⟨sorted.mono, fun o member => ?_⟩⟩
  have range := small o member
  refine ⟨⟨by simp only [Supply.upTo]; lia, by simp only [Supply.upTo]; lia⟩, ?_⟩
  rw [sorted.kinds o member]
  exact ⟨fun inside => ⟨inside, by lia⟩, fun inside => inside.1⟩

namespace Subst

variable {K : Set VarId} {s : Subst}

inductive Reached (K : Set VarId) : Subst → Prop where
  | empty : Reached K .empty
  | unify {s : Subst} {a b : Ty} :
      Reached K s → a.Sorted K → b.Sorted K → Reached K (s.unify a b).2

theorem Reached.weighs (reached : Reached K s) : s.Weighs := by
  induction reached with
  | empty => exact weighs_empty
  | unify _ _ _ ih => exact unifyWithin_preserves (fun _ id t good => good.bind id t) _ _ _ ih

theorem Reached.denotes (reached : Reached K s) :
    ∃ n : Nat, ∀ m, n ≤ m → ∃ R, Denotes (.upTo K m) s R := by
  induction reached with
  | empty => exact ⟨0, fun m _ => ⟨{}, denotes_empty _⟩⟩
  | unify _ sortedA sortedB ih =>
    obtain ⟨n, before⟩ := ih
    obtain ⟨j, kindedA⟩ := sortedA.wellKinded
    obtain ⟨k, kindedB⟩ := sortedB.wellKinded
    refine ⟨n + j + k, fun m le => ?_⟩
    obtain ⟨R, denotes⟩ := before m (by omega)
    exact unifyWithin_denotes _ denotes (kindedA m (by omega)) (kindedB m (by omega))

/-- Unification computes most general unifiers. After a success both types resolve to the same; a
valuation that solves the bindings and the equation solves the new bindings as well; and after a
failure there is no such valuation. -/
theorem unify_mostGeneral (reached : Reached K s) {a b : Ty} (sortedA : a.Sorted K)
    (sortedB : b.Sorted K) :
    ((s.unify a b).1 = none →
      ((s.unify a b).2.resolve a).1 = ((s.unify a b).2.resolve b).1) ∧
    (∀ v : Valuation, v.Numeric K → s.Holds v →
      a.assign v.assignment = b.assign v.assignment → (s.unify a b).2.Holds v) ∧
    ((s.unify a b).1 ≠ none → ¬∃ v : Valuation, v.Numeric K ∧ s.Holds v ∧
      a.assign v.assignment = b.assign v.assignment) := by
  obtain ⟨n, before⟩ := reached.denotes
  obtain ⟨j, kindedA⟩ := sortedA.wellKinded
  obtain ⟨k, kindedB⟩ := sortedB.wellKinded
  obtain ⟨R, denotes⟩ := before (n + j + k) (by omega)
  have goodA := kindedA (n + j + k) (by omega)
  have goodB := kindedB (n + j + k) (by omega)
  have solved : ∀ v : Valuation, v.Numeric K → s.Holds v →
      a.assign v.assignment = b.assign v.assignment →
      ∃ s', s.unify a b = (none, s') ∧ s'.Holds v := fun v numeric holds same =>
    unify_solved denotes reached.weighs holds (fun id inside => numeric id inside.1) goodA goodB same
  refine ⟨fun success => ?_, fun v numeric holds same => ?_, ?_⟩
  · rcases run : s.unify a b with ⟨failure, s'⟩
    rw [run] at success
    cases success
    obtain ⟨R', ⟨dom, rank, size, walk⟩, -, same, -⟩ := unify_spec denotes goodA goodB run
    obtain ⟨_, resolvedA, -⟩ := resolve_spec walk goodA
    obtain ⟨_, resolvedB, -⟩ := resolve_spec walk goodB
    rw [resolvedA, resolvedB, same]
  · obtain ⟨s', run, holds'⟩ := solved v numeric holds same
    rw [run]
    exact holds'
  · rintro failed ⟨v, numeric, holds, same⟩
    obtain ⟨s', run, -⟩ := solved v numeric holds same
    rw [run] at failed
    exact failed rfl

/-- After `'t1` was made a list of the numeric `'n2`, it can be a list of integers but no list of
texts. -/
theorem unify_mostGeneral_list :
    let s := (Subst.empty.unify (.var 1) (.list (.num 2))).2
    ((s.unify (.var 1) (.list .int)).2.resolve (.var 1)).1 = .list .int ∧
      ((s.unify (.var 1) (.list .int)).2.resolve (.list .int)).1 = .list .int ∧
      ¬∃ v : Valuation, v.Numeric {2} ∧ s.Holds v ∧
        (Ty.var 1).assign v.assignment = (Ty.list .string).assign v.assignment := by
  intro s
  have var : (Ty.var 1).Sorted {2} := ⟨rfl, by simp [Ty.occurrences]⟩
  have reached : Reached {2} s := .unify .empty var ⟨rfl, by simp [Ty.occurrences]⟩
  have first := unify_mostGeneral reached var (b := .list .int) ⟨rfl, by simp [Ty.occurrences]⟩
  have second := unify_mostGeneral reached var (b := .list .string) ⟨rfl, by simp [Ty.occurrences]⟩
  have known : ((s.unify (.var 1) (.list .int)).2.resolve (.list .int)).1 = .list .int := by
    decide +kernel
  refine ⟨?_, known, second.2.2 (by decide +kernel)⟩
  rw [first.1 (by decide +kernel), known]

end Subst
end StackML
