import StackML.Proofs.Ty.Unification
import StackML.Proofs.Typing.Derivation

/-!
Stages of inference and the way from one to a later one. `Reaches` keeps account of two things at
once. Variables given out before that the visible types do not lead to are left alone; and the
variables that were quantified on the way stay private, so that what was found out holds at every
later stage that leaves them alone.
-/

namespace StackML

namespace Supply

structure Grows (g g' : Supply) : Prop where
  first : g'.first = g.first
  last : g.last ≤ g'.last
  numeric : ∀ id, id ≤ g.last → (id ∈ g'.numeric ↔ id ∈ g.numeric)

theorem Grows.refl (g : Supply) : g.Grows g := ⟨rfl, Int.le_refl _, fun _ _ => Iff.rfl⟩

theorem Grows.trans {g g' g'' : Supply} (first : g.Grows g') (second : g'.Grows g'') :
    g.Grows g'' :=
  ⟨second.first.trans first.first, first.last.trans second.last, fun id known =>
    (second.numeric id (known.trans first.last)).trans (first.numeric id known)⟩

def push (g : Supply) (numeric : Bool) : Supply where
  numeric := {id | id ∈ g.numeric ∨ numeric = true ∧ id = g.last + 1}
  first := g.first
  last := g.last + 1
  ordered := g.ordered.trans (Int.le_add_one (Int.le_refl _))
  known id member := by
    rcases member with old | ⟨-, rfl⟩
    · have := g.known id old
      lia
    · exact Int.le_refl _

theorem grows_push (g : Supply) (numeric : Bool) : g.Grows (g.push numeric) := by
  refine ⟨rfl, by simp only [push]; lia, fun id known => ?_⟩
  have other : id ≠ g.last + 1 := by lia
  simp [push, other]

theorem mem_push_numeric (g : Supply) (numeric : Bool) :
    g.last + 1 ∈ (g.push numeric).numeric ↔ numeric = true := by
  have unknown : g.last + 1 ∉ g.numeric := fun member => by
    have := g.known _ member
    lia
  simp [push, unknown]

theorem gave_push (g : Supply) (numeric : Bool) : (g.push numeric).Gave (g.last + 1) :=
  ⟨Int.lt_add_one_iff.2 g.ordered, Int.le_refl _⟩

end Supply

theorem Supply.Gave.grow {g g' : Supply} {id : VarId} (h : g.Gave id) (grows : g.Grows g') :
    g'.Gave id :=
  ⟨grows.first ▸ h.1, h.2.trans grows.last⟩

theorem Supply.Knows.grow {g g' : Supply} {o : VarId × Bool} (h : g.Knows o)
    (grows : g.Grows g') : g'.Knows o :=
  ⟨h.1.grow grows, h.2.trans (grows.numeric o.1 h.1.2).symm⟩

theorem Ty.WellKinded.grow {g g' : Supply} {t : Ty} (h : t.WellKinded g) (grows : g.Grows g') :
    t.WellKinded g' :=
  ⟨h.mono, fun o member => (h.kinds o member).grow grows⟩

theorem Subst.Denotes.grow {g g' : Supply} {s : Subst} {R : Assignment} (h : Denotes g s R)
    (grows : g.Grows g') : Denotes g' s R := by
  obtain ⟨dom, rank, size, walk⟩ := h
  exact ⟨dom, rank, size, { walk with
    kinded := fun found => (walk.kinded found).grow grows
    known := fun inside => (walk.known inside).grow grows
    numeric := fun {id t} found inside => by
      have bound : id ∈ dom := by
        rw [walk.dom_iff, found]
        rfl
      exact walk.numeric found ((grows.numeric id (walk.known bound).2).1 inside) }⟩

theorem Ty.body_of_mono {t : Ty} (mono : t.isMono) : t.body = t := by
  cases t with
  | scheme vars a => simp [isMono] at mono
  | _ => rfl

theorem Ty.mono_or_scheme {t : Ty} (mono : t.body.isMono) :
    t.isMono ∨ ∃ vars body, t = .scheme vars body := by
  cases t with
  | scheme vars a => exact .inr ⟨vars, a, rfl⟩
  | _ => exact .inl mono

theorem Ty.quantified_of_mono {t : Ty} (mono : t.isMono) : t.quantified = [] := by
  cases t with
  | scheme vars a => simp [isMono] at mono
  | _ => rfl

structure Ty.Presentable (g : Supply) (t : Ty) : Prop where
  sorted : ∃ h : Supply, t.body.WellKinded h
  free : ∀ o ∈ t.occurrences, g.Knows o

theorem Ty.Presentable.mono {g : Supply} {t : Ty} (h : t.Presentable g) : t.body.isMono :=
  h.sorted.elim fun _ kinded => kinded.mono

theorem Ty.Presentable.grow {g g' : Supply} {t : Ty} (h : t.Presentable g) (grows : g.Grows g') :
    t.Presentable g' :=
  ⟨h.sorted, fun o member => (h.free o member).grow grows⟩

theorem Ty.WellKinded.presentable {g : Supply} {t : Ty} (h : t.WellKinded g) : t.Presentable g :=
  ⟨⟨g, by rwa [body_of_mono h.mono]⟩, h.kinds⟩

theorem Assignment.Unbound.get {R : Assignment} {o : VarId × Bool} (h : R.Unbound o.1) :
    R.get o = .ofVar o.1 o.2 := by
  obtain ⟨id, numeric⟩ := o
  cases numeric
  · exact h.1
  · exact h.2

namespace Typing

open Assignment

structure Stage where
  supply : Supply
  meaning : Assignment
  mono : ∀ o, (meaning.get o).isMono
  unbound : ∀ o, ∀ v ∈ (meaning.get o).occurrences, meaning.Unbound v.1
  unused : ∀ id, ¬supply.Gave id → meaning.Unbound id
  numeric : ∀ id ∈ supply.numeric, (meaning.num id).fitsNumeric
  kinds : ∀ o, supply.Knows o → (meaning.get o).WellKinded supply

namespace Stage

variable {w w' w'' : Stage}

def ofDenotes {g : Supply} {s : Subst} {R : Assignment} (h : Subst.Denotes g s R) : Stage where
  supply := g
  meaning := R
  mono := h.isMono_get
  unbound o v member := by
    obtain ⟨dom, rank, size, walk⟩ := h
    exact walk.free (walk.occurrences_free o v member)
  unused id outside := by
    obtain ⟨dom, rank, size, walk⟩ := h
    exact walk.free fun inside => outside (walk.known inside)
  numeric id member := by
    obtain ⟨dom, rank, size, walk⟩ := h
    exact walk.fitsNumeric_num member
  kinds := by
    obtain ⟨dom, rank, size, walk⟩ := h
    exact walk.wellKinded_get

theorem get_of_mem (w : Stage) {o v : VarId × Bool} (member : v ∈ (w.meaning.get o).occurrences) :
    w.meaning.get v = .ofVar v.1 v.2 :=
  (w.unbound o v member).get

theorem comp_self (w : Stage) : w.meaning.comp w.meaning = w.meaning := by
  have each : ∀ o, (w.meaning.get o).assign w.meaning = w.meaning.get o := by
    intro o
    refine (Ty.assign_congr fun v member => ?_).trans (Ty.assign_default _)
    rw [w.get_of_mem member, ← Ty.assign_ofVar, Ty.assign_default]
  ext id
  · exact each (id, false)
  · exact each (id, true)

theorem wellKinded_assign (w : Stage) {t : Ty} (h : t.WellKinded w.supply) :
    (t.assign w.meaning).WellKinded w.supply := by
  refine ⟨Ty.isMono_assign h.mono fun o _ => w.mono o, fun v member => ?_⟩
  obtain ⟨o, inside, occurs⟩ := (Ty.mem_occurrences_assign h.mono _ v).1 member
  exact (w.kinds o (h.kinds o inside)).kinds v occurs

structure Before (w w' : Stage) : Prop where
  grows : w.supply.Grows w'.supply
  refines : w'.meaning.Refines w.meaning

theorem Before.refl (w : Stage) : w.Before w := ⟨.refl _, w.comp_self⟩

theorem Before.trans (first : w.Before w') (second : w'.Before w'') : w.Before w'' :=
  ⟨first.grows.trans second.grows, first.refines.trans w.mono second.refines⟩

end Stage

/-! ### From stage to stage -/

def AllAvoid (R : Assignment) (D : Set VarId) (T : Set Ty) : Prop := ∀ t ∈ T, t.Avoids R D

def Protects (P : Set VarId) (R R' : Assignment) : Prop := ∀ D, D ⊆ P → Keeps D R R'

/-- The way from one stage to another with the types `T` in view. It comes up with the types `O`
and makes the variables `P` private; of these at most those in `N` are numeric. -/
structure Runs (N : Set VarId) (T : Set Ty) (w w' : Stage) (O : Set Ty) (P : Set VarId) : Prop where
  before : w.Before w'
  inView : ∀ t ∈ T, t.Presentable w.supply
  keeps : ∀ D : Set VarId, (∀ d ∈ D, d ≤ w.supply.last) → AllAvoid w.meaning D T →
    Keeps D w.meaning w'.meaning ∧ AllAvoid w'.meaning D O
  fresh : ∀ p ∈ P, w.supply.last < p ∧ p ≤ w'.supply.last
  plain : ∀ p ∈ P, p ∈ w'.supply.numeric → p ∈ N
  apart : ∀ o, w.supply.Knows o → ∀ v ∈ (w'.meaning.get o).occurrences, v.1 ∉ P
  result : AllAvoid w'.meaning P O
  kinded : ∀ t ∈ O, t.Presentable w'.supply

def Covers (T S : Set Ty) : Prop := ∀ t ∈ S, ∀ o ∈ t.occurrences, ∃ u ∈ T, o ∈ u.occurrences

namespace Covers

variable {T S : Set Ty} {a b : Ty}

theorem of_subset (sub : S ⊆ T) : Covers T S := fun t member _ occurs => ⟨t, sub member, occurs⟩

theorem left : Covers (T ∪ S) T := of_subset Set.subset_union_left

@[simp] theorem empty : Covers T ∅ := fun _ member => member.elim

theorem of_mem (member : a ∈ T) : Covers T {a} := of_subset (Set.singleton_subset_iff.2 member)

theorem of_occurrences (each : ∀ o ∈ a.occurrences, ∃ u ∈ T, o ∈ u.occurrences) : Covers T {a} := by
  rintro _ rfl
  exact each

@[simp] theorem insert_iff : Covers T (insert a S) ↔ Covers T {a} ∧ Covers T S := by
  simp [Covers]

@[simp] theorem union_iff {S' : Set Ty} : Covers T (S ∪ S') ↔ Covers T S ∧ Covers T S' := by
  simp only [Covers, Set.mem_union, or_imp, forall_and]

@[simp] theorem fn_iff : Covers T {.fn a b} ↔ Covers T {a} ∧ Covers T {b} := by
  simp only [Covers, Set.mem_singleton_iff, forall_eq, Ty.occurrences, List.mem_append, or_imp,
    forall_and]

@[simp] theorem result_iff : Covers T {.result a b} ↔ Covers T {a} ∧ Covers T {b} := by
  simp only [Covers, Set.mem_singleton_iff, forall_eq, Ty.occurrences, List.mem_append, or_imp,
    forall_and]

@[simp] theorem list_iff : Covers T {.list a} ↔ Covers T {a} := by
  simp only [Covers, Set.mem_singleton_iff, forall_eq, Ty.occurrences]

@[simp] theorem int : Covers T {.int} := by simp [Covers, Ty.occurrences]

@[simp] theorem double : Covers T {.double} := by simp [Covers, Ty.occurrences]

@[simp] theorem string : Covers T {.string} := by simp [Covers, Ty.occurrences]

@[simp] theorem bool : Covers T {.bool} := by simp [Covers, Ty.occurrences]

@[simp] theorem unit : Covers T {.unit} := by simp [Covers, Ty.occurrences]

end Covers

namespace AllAvoid

variable {D E : Set VarId} {T O : Set Ty} {R R' : Assignment}

theorem keep (h : AllAvoid R D T) (keeps : Keeps D R R') : AllAvoid R' D T :=
  fun t member => keeps.avoids (h t member)

theorem mono (h : AllAvoid R D T) (types : O ⊆ T) (vars : E ⊆ D) : AllAvoid R E O :=
  fun t member v occurs o inside hit => h t (types member) v occurs o inside (vars hit)

theorem cover (h : AllAvoid R D T) (cover : Covers T O) : AllAvoid R D O := by
  intro t member v occurs
  obtain ⟨u, seen, inside⟩ := cover t member v occurs
  exact h u seen v inside

theorem union (first : AllAvoid R D T) (second : AllAvoid R D O) : AllAvoid R D (T ∪ O) :=
  fun t member => member.elim (first t) (second t)

theorem vars_union (first : AllAvoid R D T) (second : AllAvoid R E T) : AllAvoid R (D ∪ E) T :=
  fun t member v occurs o inside hit =>
    hit.elim (first t member v occurs o inside) (second t member v occurs o inside)

end AllAvoid

theorem Protects.mono {P Q : Set VarId} {R R' : Assignment} (h : Protects P R R') (sub : Q ⊆ P) :
    Protects Q R R' :=
  fun D inside => h D (inside.trans sub)

theorem Protects.trans {P : Set VarId} {R R' R'' : Assignment} (first : Protects P R R')
    (second : Protects P R' R'') : Protects P R R'' :=
  fun D inside => (first D inside).trans (second D inside)

end Typing

section Quantify

variable {t : Ty} {vars : List VarId}

theorem Ty.mem_occurrences_quantify {o : VarId × Bool} :
    o ∈ (t.quantify vars).occurrences ↔ o ∈ t.occurrences ∧ o.1 ∉ vars := by
  cases vars <;> simp [quantify, occurrences]

theorem Ty.body_quantify (mono : t.isMono) : (t.quantify vars).body = t := by
  cases vars with
  | nil => exact body_of_mono mono
  | cons a rest => rfl

theorem Ty.quantified_quantify (mono : t.isMono) : (t.quantify vars).quantified = vars := by
  cases vars with
  | nil => exact quantified_of_mono mono
  | cons a rest => rfl

theorem Ty.WellKinded.presentable_quantify {g : Supply} (h : t.WellKinded g) :
    (t.quantify vars).Presentable g :=
  ⟨⟨g, by rwa [body_quantify h.mono]⟩, fun o member =>
    h.kinds o (mem_occurrences_quantify.1 member).1⟩

end Quantify

namespace Typing

open Assignment

namespace Runs

variable {N : Set VarId} {T T₁ O O₁ : Set Ty} {w w₁ w₂ : Stage} {P P₁ : Set VarId}

theorem avoids (runs : Runs N T w w₁ O P) {t : Ty} (known : t.Presentable w.supply) :
    t.Avoids w₁.meaning P :=
  fun v member => runs.apart v (known.free v member)

theorem weaken (runs : Runs N T w w₁ O P) (inView : ∀ t ∈ T₁, t.Presentable w.supply)
    (sub : T ⊆ T₁) (less : O₁ ⊆ O) : Runs N T₁ w w₁ O₁ P where
  before := runs.before
  inView := inView
  keeps D old apart := by
    obtain ⟨keeps, avoid⟩ := runs.keeps D old (apart.mono sub subset_rfl)
    exact ⟨keeps, avoid.mono less subset_rfl⟩
  fresh := runs.fresh
  plain := runs.plain
  apart := runs.apart
  result := runs.result.mono less subset_rfl
  kinded t member := runs.kinded t (less member)

theorem protects (first : Runs N T w w₁ O P) (second : Runs N T₁ w₁ w₂ O₁ P₁)
    (cover : Covers (T ∪ O) T₁) {D : Set VarId} (inside : D ⊆ P) :
    Keeps D w₁.meaning w₂.meaning ∧ AllAvoid w₂.meaning D O₁ := by
  refine second.keeps D (fun d member => (first.fresh d (inside member)).2) ?_
  have seen : AllAvoid w₁.meaning P T := fun t member => first.avoids (first.inView t member)
  exact ((seen.union first.result).cover cover).mono subset_rfl inside

theorem andThen (first : Runs N T w w₁ O P) (second : Runs N T₁ w₁ w₂ O₁ P₁)
    (cover : Covers (T ∪ O) T₁) : Runs N T w w₂ (O ∪ O₁) (P ∪ P₁) where
  before := first.before.trans second.before
  inView := first.inView
  keeps D old apart := by
    obtain ⟨keeps₁, avoid₁⟩ := first.keeps D old apart
    have older : ∀ d ∈ D, d ≤ w₁.supply.last := fun d member =>
      (old d member).trans first.before.grows.last
    obtain ⟨keeps₂, avoid₂⟩ := second.keeps D older
      (((apart.keep keeps₁).union avoid₁).cover cover)
    exact ⟨keeps₁.trans keeps₂, (avoid₁.keep keeps₂).union avoid₂⟩
  fresh p member := by
    have later := second.before.grows.last
    have earlier := first.before.grows.last
    rcases member with inFirst | inSecond
    · have := first.fresh p inFirst
      exact ⟨this.1, this.2.trans later⟩
    · have := second.fresh p inSecond
      exact ⟨earlier.trans_lt this.1, this.2⟩
  plain p member numeric := by
    rcases member with inFirst | inSecond
    · have known := (first.fresh p inFirst).2
      exact first.plain p inFirst ((second.before.grows.numeric p known).1 numeric)
    · exact second.plain p inSecond numeric
  apart o known v member := by
    have keeps := (first.protects second cover subset_rfl).1
    have older := known.grow first.before.grows
    rintro (inFirst | inSecond)
    · exact keeps.apart o (first.apart o known) v member inFirst
    · exact second.apart o older v member inSecond
  result := by
    obtain ⟨keeps, avoid⟩ := first.protects second cover subset_rfl
    have known : AllAvoid w₂.meaning P₁ O := fun t member => second.avoids (first.kinded t member)
    exact ((first.result.keep keeps).vars_union known).union (avoid.vars_union second.result)
  kinded t member := by
    rcases member with inFirst | inSecond
    · exact (first.kinded t inFirst).grow second.before.grows
    · exact second.kinded t inSecond

end Runs

/-- Some way from one stage to another, after which the claim holds at every stage that leaves the
variables alone that it made private. -/
def Reaches (N : Set VarId) (T : Set Ty) (w w' : Stage) (O : Set Ty) (claim : Stage → Prop) : Prop :=
  ∃ P, Runs N T w w' O P ∧
    ∀ f, w'.Before f → Protects P w'.meaning f.meaning → claim f

namespace Reaches

variable {N : Set VarId} {T T₁ O O₁ : Set Ty} {w w₁ w₂ : Stage} {claim claim₁ : Stage → Prop}

theorem andThen (first : Reaches N T w w₁ O claim) (second : Reaches N T₁ w₁ w₂ O₁ claim₁)
    (cover : Covers (T ∪ O) T₁) : Reaches N T w w₂ (O ∪ O₁) fun f => claim f ∧ claim₁ f := by
  obtain ⟨P, runs, holds⟩ := first
  obtain ⟨P₁, runs₁, holds₁⟩ := second
  refine ⟨P ∪ P₁, runs.andThen runs₁ cover, fun f before protects => ⟨?_, ?_⟩⟩
  · refine holds f (runs₁.before.trans before) ?_
    exact .trans (fun D inside => (runs.protects runs₁ cover inside).1)
      (protects.mono Set.subset_union_left)
  · exact holds₁ f before (protects.mono Set.subset_union_right)

theorem weaken (h : Reaches N T w w₁ O claim) (inView : ∀ t ∈ T₁, t.Presentable w.supply)
    (sub : T ⊆ T₁) (less : O₁ ⊆ O) (imp : ∀ f, w₁.Before f → claim f → claim₁ f) :
    Reaches N T₁ w w₁ O₁ claim₁ := by
  obtain ⟨P, runs, holds⟩ := h
  exact ⟨P, runs.weaken inView sub less, fun f before protects =>
    imp f before (holds f before protects)⟩

theorem here (inView : ∀ t ∈ T, t.Presentable w.supply) :
    Reaches N T w w ∅ fun _ => True := by
  refine ⟨∅, ?_, fun _ _ _ => trivial⟩
  exact {
    before := .refl w
    inView
    keeps := fun D _ _ => ⟨.refl D _, fun t member => member.elim⟩
    fresh := fun p member => member.elim
    plain := fun p member => member.elim
    apart := fun o _ v _ => id
    result := fun t member => member.elim
    kinded := fun t member => member.elim }

theorem adjoin (h : Reaches N T w w₁ O claim) {t : Ty} (kinded : t.WellKinded w₁.supply)
    (made : Covers (T ∪ O) {t}) : Reaches N T w w₁ (O ∪ {t}) claim := by
  obtain ⟨P, runs, holds⟩ := h
  have avoids : ∀ D, AllAvoid w₁.meaning D T → AllAvoid w₁.meaning D O →
      AllAvoid w₁.meaning D (O ∪ {t}) := by
    intro D first second
    exact second.union ((first.union second).cover made)
  refine ⟨P, { runs with keeps := ?_, result := ?_, kinded := ?_ }, holds⟩
  · intro D old clear
    obtain ⟨keeps, avoid⟩ := runs.keeps D old clear
    exact ⟨keeps, avoids D (clear.keep keeps) avoid⟩
  · exact avoids P (fun u member => runs.avoids (runs.inView u member)) runs.result
  · rintro u (old | rfl)
    · exact runs.kinded u old
    · exact kinded.presentable

theorem before (h : Reaches N T w w₁ O claim) : w.Before w₁ := h.elim fun _ h => h.1.before

theorem inView (h : Reaches N T w w₁ O claim) : ∀ t ∈ T, t.Presentable w.supply :=
  h.elim fun _ h => h.1.inView

theorem kinded (h : Reaches N T w w₁ O claim) {t : Ty} (member : t ∈ O) :
    t.Presentable w₁.supply :=
  h.elim fun _ h => h.1.kinded t member

end Reaches

/-! ### Making variables private -/

section Generalize

variable {N : Set VarId} {T O : Set Ty} {w w₁ : Stage} {P : Set VarId} {t : Ty} {vars : List VarId}

theorem AllAvoid.of_visible {D : Set VarId} (before : w.Before w₁)
    (avoid : AllAvoid w₁.meaning D T) {v : VarId × Bool} (known : w.supply.Knows v)
    (inView : ∀ t ∈ T, t.Presentable w.supply) (visible : ¬AllAvoid w.meaning {v.1} T) :
    ∀ o ∈ (w₁.meaning.get v).occurrences, o.1 ∉ D := by
  intro o inside
  unfold AllAvoid Ty.Avoids at visible
  push Not at visible
  obtain ⟨u, member, x, occurs, y, found, same⟩ := visible
  have kinded := w.kinds x ((inView u member).free x occurs)
  have kind := kinded.kinds y found
  have same : y = v := by
    have first : y.1 = v.1 := same
    refine Prod.ext first (Bool.eq_iff_iff.2 (kind.2.trans ?_))
    rw [first]
    exact known.2.symm
  refine avoid u member x occurs o ?_
  rw [← before.refines, get_comp, Ty.mem_occurrences_assign (w.mono x)]
  exact ⟨v, same ▸ found, inside⟩

theorem Runs.last_lt (runs : Runs N T w w₁ O P) (member : t ∈ O) (kinded : t.WellKinded w₁.supply)
    {a : VarId} (occur : ∃ o ∈ (t.assign w₁.meaning).occurrences, o.1 = a)
    (apart : AllAvoid w₁.meaning {a} T) : w.supply.last < a := by
  obtain ⟨o, occurs, rfl⟩ := occur
  by_contra old
  have old : o.1 ≤ w.supply.last := not_lt.1 old
  have known := (w₁.wellKinded_assign kinded).kinds o occurs
  have gave : w.supply.Gave o.1 := ⟨runs.before.grows.first ▸ known.1.1, old⟩
  have kind := known.2.trans (runs.before.grows.numeric o.1 old)
  by_cases visible : AllAvoid w.meaning {o.1} T
  · have avoid := (runs.keeps {o.1} (fun d same => (Set.mem_singleton_iff.1 same) ▸ old) visible).2
    exact (Ty.avoids_iff kinded.mono).1 (avoid t member) o occurs rfl
  · obtain ⟨x, -, inside⟩ := (Ty.mem_occurrences_assign kinded.mono _ o).1 occurs
    refine apart.of_visible runs.before ⟨gave, kind⟩ runs.inView visible o ?_ rfl
    rw [w₁.get_of_mem inside, Ty.occurrences_ofVar]
    exact List.mem_singleton_self _

theorem Runs.apart_of_new (runs : Runs N T w w₁ O P) {D : Set VarId}
    (new : ∀ d ∈ D, w.supply.last < d) (apart : AllAvoid w₁.meaning D T) {o : VarId × Bool}
    (known : w.supply.Knows o) : ∀ v ∈ (w₁.meaning.get o).occurrences, v.1 ∉ D := by
  intro v inside
  rw [← runs.before.refines, get_comp, Ty.mem_occurrences_assign (w.mono o)] at inside
  obtain ⟨u, found, inside⟩ := inside
  have knownU := (w.kinds o known).kinds u found
  by_cases visible : AllAvoid w.meaning {u.1} T
  · have keeps := (runs.keeps {u.1} (fun d same => (Set.mem_singleton_iff.1 same) ▸ knownU.1.2)
      visible).1
    have unbound := keeps.free u.1 rfl (w.unbound o u found)
    rw [unbound.get, Ty.occurrences_ofVar, List.mem_singleton] at inside
    intro hit
    have := new v.1 hit
    rw [inside] at this
    exact absurd knownU.1.2 (not_le.2 this)
  · exact apart.of_visible runs.before knownU runs.inView visible v inside

theorem Runs.generalize (runs : Runs N T w w₁ O P) (member : t ∈ O) (kinded : t.WellKinded w₁.supply)
    (occur : ∀ a ∈ vars, ∃ o ∈ (t.assign w₁.meaning).occurrences, o.1 = a)
    (apart : AllAvoid w₁.meaning {a | a ∈ vars} T)
    (plain : ∀ a ∈ vars, a ∈ w₁.supply.numeric → a ∈ N) :
    Runs N T w w₁ {(t.assign w₁.meaning).quantify vars} (P ∪ {a | a ∈ vars}) := by
  have resolved := w₁.wellKinded_assign kinded
  have new : ∀ a ∈ vars, w.supply.last < a := fun a inside =>
    runs.last_lt member kinded (occur a inside)
      (apart.mono subset_rfl (Set.singleton_subset_iff.2 inside))
  have avoids : ∀ D, t.Avoids w₁.meaning D →
      AllAvoid w₁.meaning (D ∪ {a | a ∈ vars}) {(t.assign w₁.meaning).quantify vars} := by
    rintro D avoid _ rfl v occurs o inside
    obtain ⟨occurs, outside⟩ := Ty.mem_occurrences_quantify.1 occurs
    obtain ⟨x, -, found⟩ := (Ty.mem_occurrences_assign kinded.mono _ v).1 occurs
    rw [w₁.get_of_mem found, Ty.occurrences_ofVar, List.mem_singleton] at inside
    rw [inside]
    exact fun hit => hit.elim ((Ty.avoids_iff kinded.mono).1 avoid v occurs) outside
  exact {
    before := runs.before
    inView := runs.inView
    keeps := fun D old clear => by
      obtain ⟨keeps, avoid⟩ := runs.keeps D old clear
      exact ⟨keeps, (avoids D (avoid t member)).mono subset_rfl Set.subset_union_left⟩
    fresh := by
      rintro p (before | here)
      · exact runs.fresh p before
      · obtain ⟨o, occurs, rfl⟩ := occur p here
        exact ⟨new _ here, (resolved.kinds o occurs).1.2⟩
    plain := by
      rintro p (before | here)
      · exact runs.plain p before
      · exact plain p here
    apart := by
      rintro o known v inside (before | here)
      · exact runs.apart o known v inside before
      · exact runs.apart_of_new new apart known v inside here
    result := avoids P (runs.result t member)
    kinded := by
      rintro _ rfl
      exact resolved.presentable_quantify }

end Generalize

structure Scope (w : Stage) (T : Set Ty) : Prop where
  kinded : ∀ t ∈ T, t.Presentable w.supply
  known : ∀ t ∈ T, ∀ a ∈ t.quantified, a ≤ w.supply.last
  unbound : ∀ t ∈ T, ∀ a ∈ t.quantified, w.meaning.Unbound a
  apart : ∀ t ∈ T, AllAvoid w.meaning {a | a ∈ t.quantified} T

namespace Scope

variable {N : Set VarId} {T T₁ O : Set Ty} {w w₁ : Stage} {claim : Stage → Prop}

theorem mono (h : Scope w T) (sub : T₁ ⊆ T) : Scope w T₁ where
  kinded t member := h.kinded t (sub member)
  known t member := h.known t (sub member)
  unbound t member := h.unbound t (sub member)
  apart t member := (h.apart t (sub member)).mono sub subset_rfl

theorem isPrivate (h : Scope w T) {t : Ty} (member : t ∈ T) : t.Private w.meaning :=
  ⟨h.unbound t member, h.apart t member t member⟩

/-- The types in view stay so along the way, together with new ones whose quantified variables are
apart from all of them. -/
theorem later (h : Scope w T) (way : Reaches N T w w₁ O claim)
    (own : ∀ t ∈ O, (∀ a ∈ t.quantified, a ≤ w₁.supply.last ∧ w₁.meaning.Unbound a) ∧
      AllAvoid w₁.meaning {a | a ∈ t.quantified} (T ∪ O)) : Scope w₁ (T ∪ O) := by
  obtain ⟨P, runs, -⟩ := way
  have kept : ∀ t ∈ T, Keeps {a | a ∈ t.quantified} w.meaning w₁.meaning ∧
      AllAvoid w₁.meaning {a | a ∈ t.quantified} O := fun t member =>
    runs.keeps _ (h.known t member) (h.apart t member)
  constructor
  · rintro t (old | new)
    · exact (h.kinded t old).grow runs.before.grows
    · exact runs.kinded t new
  · rintro t (old | new) a member
    · exact (h.known t old a member).trans runs.before.grows.last
    · exact ((own t new).1 a member).1
  · rintro t (old | new) a member
    · exact (kept t old).1.free a member (h.unbound t old a member)
    · exact ((own t new).1 a member).2
  · rintro t (old | new)
    · obtain ⟨keeps, avoid⟩ := kept t old
      exact ((h.apart t old).keep keeps).union avoid
    · exact (own t new).2

theorem later_of_mono (h : Scope w T) (way : Reaches N T w w₁ O claim)
    (mono : ∀ t ∈ O, t.isMono) : Scope w₁ (T ∪ O) := by
  refine h.later way fun t member => ?_
  rw [Ty.quantified_of_mono (mono t member)]
  exact ⟨by simp, fun u _ v _ o _ => by simp⟩

theorem after (h : Scope w T) (way : Reaches N T w w₁ O claim) : Scope w₁ T := by
  have still : Reaches N T w w₁ ∅ claim :=
    way.weaken h.kinded subset_rfl (Set.empty_subset _) fun _ _ => id
  exact (h.later_of_mono still (by simp)).mono Set.subset_union_left

theorem generalize (h : Scope w T) (way : Reaches N T w w₁ O claim) {t : Ty} {vars : List VarId}
    (member : t ∈ O) (kinded : t.WellKinded w₁.supply)
    (occur : ∀ a ∈ vars, ∃ o ∈ (t.assign w₁.meaning).occurrences, o.1 = a)
    (apart : AllAvoid w₁.meaning {a | a ∈ vars} T)
    (plain : ∀ a ∈ vars, a ∈ w₁.supply.numeric → a ∈ N) :
    Scope w₁ (T ∪ {(t.assign w₁.meaning).quantify vars}) ∧
      Reaches N T w w₁ {(t.assign w₁.meaning).quantify vars} fun f => claim f ∧
        ((t.assign w₁.meaning).quantify vars).Private f.meaning ∧
        AllAvoid f.meaning {a | a ∈ vars} T := by
  obtain ⟨P, runs, holds⟩ := way
  have resolved := w₁.wellKinded_assign kinded
  have runs' := runs.generalize member kinded occur apart plain
  have unbound : ∀ a ∈ vars, w₁.meaning.Unbound a := by
    intro a inside
    obtain ⟨o, occurs, rfl⟩ := occur a inside
    obtain ⟨x, -, found⟩ := (Ty.mem_occurrences_assign kinded.mono _ o).1 occurs
    exact w₁.unbound x o found
  have own : AllAvoid w₁.meaning {a | a ∈ vars} {(t.assign w₁.meaning).quantify vars} :=
    runs'.result.mono subset_rfl Set.subset_union_right
  have way' : Reaches N T w w₁ {(t.assign w₁.meaning).quantify vars} fun f => claim f ∧
      ((t.assign w₁.meaning).quantify vars).Private f.meaning ∧
      AllAvoid f.meaning {a | a ∈ vars} T := by
    refine ⟨_, runs', fun f before protects => ?_⟩
    have keeps := protects {a | a ∈ vars} Set.subset_union_right
    refine ⟨holds f before (protects.mono Set.subset_union_left), ⟨?_, ?_⟩, apart.keep keeps⟩
    · rw [Ty.quantified_quantify resolved.mono]
      exact fun a inside => keeps.free a inside (unbound a inside)
    · rw [Ty.quantified_quantify resolved.mono]
      exact own.keep keeps _ rfl
  refine ⟨h.later way' ?_, way'⟩
  rintro _ rfl
  rw [Ty.quantified_quantify resolved.mono]
  refine ⟨fun a inside => ⟨?_, unbound a inside⟩, apart.union own⟩
  exact (runs'.fresh a (.inr inside)).2

end Scope
end Typing
end StackML
