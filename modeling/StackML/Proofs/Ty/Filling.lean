import StackML.Proofs.Ty.Generality

/-!
Variables wherever they stand. Resolving does not ask whether a variable is quantified, so what it
does is said with all variable nodes of a type, those under a quantifier included: `Ty.leaves` lists
them and `Ty.fill` puts for each of them what it stands for. Apart from variables all forms of types
are treated alike, through their parts.
-/

namespace StackML
namespace Ty

mutual
/-- All variable nodes of a type, from left to right. -/
def leaves : Ty → List (VarId × Bool)
  | var id => [(id, false)]
  | num id => [(id, true)]
  | list a => a.leaves
  | result a b => a.leaves ++ b.leaves
  | fn a b => a.leaves ++ b.leaves
  | scheme _ a => a.leaves
  | app _ as => leavesAll as
  | _ => []

def leavesAll : List Ty → List (VarId × Bool)
  | [] => []
  | a :: as => a.leaves ++ leavesAll as
end

mutual
def fill (R : Assignment) : Ty → Ty
  | var id => R.var id
  | num id => R.num id
  | list a => list (a.fill R)
  | result a b => result (a.fill R) (b.fill R)
  | fn a b => fn (a.fill R) (b.fill R)
  | scheme vars a => scheme vars (a.fill R)
  | app name as => app name (fillAll R as)
  | t => t

def fillAll (R : Assignment) : List Ty → List Ty
  | [] => []
  | a :: as => a.fill R :: fillAll R as
end

def withParts : Ty → List Ty → Ty
  | list _, [a] => list a
  | result _ _, [a, b] => result a b
  | fn _ _, [a, b] => fn a b
  | scheme vars _, [a] => scheme vars a
  | app name _, as => app name as
  | t, _ => t

theorem leavesAll_eq (as : List Ty) : leavesAll as = as.flatMap leaves := by
  induction as with
  | nil => rfl
  | cons a as ih => rw [leavesAll, ih, List.flatMap_cons]

theorem leaves_of_mono {t : Ty} (mono : t.isMono) : t.leaves = t.occurrences := by
  induction t using induct with
  | int | double | string | bool | unit | named | host | var | num => rfl
  | list a ih => exact ih mono
  | result a b ihA ihB | fn a b ihA ihB =>
    simp only [isMono, Bool.and_eq_true] at mono
    rw [leaves, occurrences, ihA mono.1, ihB mono.2]
  | scheme vars a => simp [isMono] at mono
  | app name as ih =>
    simp only [isMono, isMonoAll_eq, List.all_eq_true] at mono
    rw [leaves, occurrences, leavesAll_eq, occurrencesAll_eq]
    exact List.flatMap_congr fun a member => ih a member (mono a member)

theorem fillAll_eq (R : Assignment) (as : List Ty) : fillAll R as = as.map (fill R) := by
  induction as with
  | nil => rfl
  | cons a as ih => rw [fillAll, ih, List.map_cons]

@[simp] theorem leaves_ofVar (id : VarId) (numeric : Bool) :
    (ofVar id numeric).leaves = [(id, numeric)] := by
  cases numeric <;> rfl

@[simp] theorem fill_ofVar (R : Assignment) (id : VarId) (numeric : Bool) :
    (ofVar id numeric).fill R = R.get (id, numeric) := by
  cases numeric <;> rfl

@[simp] theorem parts_ofVar (id : VarId) (numeric : Bool) : (ofVar id numeric).parts = [] := by
  cases numeric <;> rfl

@[simp] theorem withParts_nil (t : Ty) (none : t.parts = []) : t.withParts [] = t := by
  cases t with
  | app name as => rw [show as = [] from none]; rfl
  | _ => rfl

@[simp] theorem withParts_parts (t : Ty) : t.withParts t.parts = t := by
  cases t <;> rfl

theorem cases_parts (t : Ty) : (∃ id numeric, t = ofVar id numeric) ∨ t.varId? = none := by
  cases isVar : t.varId? with
  | none => exact .inr rfl
  | some id =>
    obtain ⟨numeric, rfl⟩ := eq_ofVar_of_varId? isVar
    exact .inl ⟨id, numeric, rfl⟩

section Plain

variable {t : Ty}

theorem leaves_of_plain (plain : t.varId? = none) : t.leaves = t.parts.flatMap leaves := by
  cases t with
  | var id | num id => simp [varId?] at plain
  | app name as => rw [leaves, leavesAll_eq, parts]
  | _ => simp [leaves, parts]

theorem fill_of_plain (plain : t.varId? = none) (R : Assignment) :
    t.fill R = t.withParts (t.parts.map (fill R)) := by
  cases t with
  | var id | num id => simp [varId?] at plain
  | app name as => rw [fill, fillAll_eq, parts, withParts]
  | _ => rfl

theorem parts_withParts {ps : List Ty} (lengths : ps.length = t.parts.length) :
    (t.withParts ps).parts = ps := by
  cases t with
  | list a | scheme vs a =>
    obtain ⟨p, rfl⟩ := List.length_eq_one_iff.1 lengths
    rfl
  | result a b | fn a b =>
    obtain ⟨p, q, rfl⟩ := List.length_eq_two.1 lengths
    rfl
  | app name as => rfl
  | _ => exact (List.length_eq_zero_iff.1 lengths).symm

theorem varId?_withParts (plain : t.varId? = none) (ps : List Ty) :
    (t.withParts ps).varId? = none := by
  unfold withParts
  split
  case h_6 => exact plain
  all_goals rfl

theorem withParts_withParts {ps qs : List Ty} (lengths : ps.length = t.parts.length)
    (lengths' : qs.length = t.parts.length) : (t.withParts ps).withParts qs = t.withParts qs := by
  cases t with
  | list a | scheme vs a =>
    obtain ⟨p, rfl⟩ := List.length_eq_one_iff.1 lengths
    obtain ⟨q, rfl⟩ := List.length_eq_one_iff.1 lengths'
    rfl
  | result a b | fn a b =>
    obtain ⟨p, q, rfl⟩ := List.length_eq_two.1 lengths
    obtain ⟨p', q', rfl⟩ := List.length_eq_two.1 lengths'
    rfl
  | _ => rfl

theorem varId?_fill (plain : t.varId? = none) (R : Assignment) : (t.fill R).varId? = none := by
  rw [fill_of_plain plain]
  exact varId?_withParts plain _

theorem parts_fill (plain : t.varId? = none) (R : Assignment) :
    (t.fill R).parts = t.parts.map (fill R) := by
  rw [fill_of_plain plain]
  exact parts_withParts (by simp)

theorem size_part {p : Ty} (part : p ∈ t.parts) : p.size < t.size := by
  cases t with
  | list a | scheme vs a =>
    rw [List.mem_singleton.1 part]
    simp only [size]
    omega
  | result a b | fn a b =>
    simp only [parts, List.mem_cons, List.not_mem_nil, or_false] at part
    simp only [size]
    rcases part with rfl | rfl <;> omega
  | app name as => exact size_lt_of_mem part
  | _ => simp [parts] at part

theorem size_fill_part {p : Ty} (plain : t.varId? = none) (part : p ∈ t.parts) (R : Assignment) :
    (p.fill R).size < (t.fill R).size := by
  refine size_part ?_
  rw [parts_fill plain]
  exact List.mem_map_of_mem part

end Plain

theorem mem_leaves_of_part {t p : Ty} (part : p ∈ t.parts) {o : VarId × Bool}
    (member : o ∈ p.leaves) : o ∈ t.leaves := by
  rcases t.cases_parts with ⟨id, numeric, rfl⟩ | plain
  · rw [parts_ofVar] at part
    cases part
  · rw [leaves_of_plain plain]
    exact List.mem_flatMap.2 ⟨p, part, member⟩

theorem fill_congr {R S : Assignment} {t : Ty} (same : ∀ o ∈ t.leaves, R.get o = S.get o) :
    t.fill R = t.fill S := by
  induction t using inductParts with
  | step t ih =>
    rcases t.cases_parts with ⟨id, numeric, rfl⟩ | plain
    · simpa using same (id, numeric) (by simp)
    · rw [fill_of_plain plain, fill_of_plain plain]
      refine congrArg _ (List.map_congr_left fun p part => ?_)
      exact ih p part fun o member => same o (mem_leaves_of_part part member)

@[simp] theorem fill_default (t : Ty) : t.fill {} = t := by
  induction t using inductParts with
  | step t ih =>
    rcases t.cases_parts with ⟨id, numeric, rfl⟩ | plain
    · cases numeric <;> rfl
    · have each : t.parts.map (fill {}) = t.parts := by
        rw [List.map_congr_left ih]
        exact List.map_id _
      rw [fill_of_plain plain, each, withParts_parts]

theorem fill_of_closed {t : Ty} (closed : t.leaves = []) (R : Assignment) : t.fill R = t := by
  rw [← fill_default t, fill_congr (S := {})]
  · simp
  · rw [fill_default, closed]
    simp

theorem mem_leaves_fill {t : Ty} {R : Assignment} {o : VarId × Bool} :
    o ∈ (t.fill R).leaves ↔ ∃ v ∈ t.leaves, o ∈ (R.get v).leaves := by
  induction t using inductParts with
  | step t ih =>
    rcases t.cases_parts with ⟨id, numeric, rfl⟩ | plain
    · simp
    · rw [leaves_of_plain (varId?_fill plain R), leaves_of_plain plain, parts_fill plain]
      simp only [List.mem_flatMap, List.mem_map]
      constructor
      · rintro ⟨_, ⟨p, part, rfl⟩, member⟩
        obtain ⟨v, inside, found⟩ := (ih p part).1 member
        exact ⟨v, ⟨p, part, inside⟩, found⟩
      · rintro ⟨v, ⟨p, part, inside⟩, found⟩
        exact ⟨_, ⟨p, part, rfl⟩, (ih p part).2 ⟨v, inside, found⟩⟩

theorem fill_fill {R S T : Assignment} (comp : ∀ o, (R.get o).fill S = T.get o) (t : Ty) :
    (t.fill R).fill S = t.fill T := by
  induction t using inductParts with
  | step t ih =>
    rcases t.cases_parts with ⟨id, numeric, rfl⟩ | plain
    · rw [fill_ofVar, fill_ofVar, comp]
    · rw [fill_of_plain (varId?_fill plain R), parts_fill plain, fill_of_plain plain,
        fill_of_plain plain, withParts_withParts (by simp) (by simp), List.map_map]
      exact congrArg _ (List.map_congr_left ih)

/-! ### Walks over parts -/

theorem mapVars_ofVar {σ : Type} (f : σ → Ty → Ty × σ) (s : σ) (id : VarId) (numeric : Bool) :
    mapVars f s (ofVar id numeric) = f s (ofVar id numeric) := by
  cases numeric <;> rfl

theorem anyVar_ofVar {σ : Type} (f : σ → Ty → Bool × σ) (s : σ) (id : VarId) (numeric : Bool) :
    anyVar f s (ofVar id numeric) = f s (ofVar id numeric) := by
  cases numeric <;> rfl

theorem mapVars_of_plain {σ : Type} (f : σ → Ty → Ty × σ) (s : σ) {t : Ty}
    (plain : t.varId? = none) :
    mapVars f s t = (t.withParts (mapVarsAll f s t.parts).1, (mapVarsAll f s t.parts).2) := by
  cases t with
  | var id | num id => simp [varId?] at plain
  | _ => rfl

theorem anyVar_of_plain {σ : Type} (f : σ → Ty → Bool × σ) (s : σ) {t : Ty}
    (plain : t.varId? = none) : anyVar f s t = anyVarAll f s t.parts := by
  have last : ∀ r : Bool × σ, orElse r (fun s => (false, s)) = r := by
    rintro ⟨_ | _, s⟩ <;> rfl
  cases t with
  | var id | num id => simp [varId?] at plain
  | _ => simp [anyVar, anyVarAll, parts, last]

end Ty
end StackML
