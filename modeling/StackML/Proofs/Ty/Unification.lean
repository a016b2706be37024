import StackML.Proofs.Ty.Resolution
import StackML.Ty.Unify

/-!
What a successful unification achieves. The new assignment is a refinement of the old one under
which both types are the same. Variables that neither type leads to stay apart: a set of them that
was out of reach before is out of reach after.
-/

namespace StackML

namespace Assignment

def Refines (R' R : Assignment) : Prop := R.comp R' = R'

theorem Refines.assign {R R' : Assignment} (h : R'.Refines R) {t : Ty} (mono : t.isMono) :
    (t.assign R).assign R' = t.assign R' := by
  rw [Ty.assign_assign mono, h]

theorem comp_assoc {R S T : Assignment} (mono : ∀ o, (R.get o).isMono) :
    (R.comp S).comp T = R.comp (S.comp T) := by
  ext id
  · exact Ty.assign_assign (mono (id, false)) S T
  · exact Ty.assign_assign (mono (id, true)) S T

theorem Refines.trans {R S T : Assignment} (mono : ∀ o, (R.get o).isMono) (first : S.Refines R)
    (second : T.Refines S) : T.Refines R := by
  unfold Refines at first second ⊢
  rw [← second, ← comp_assoc mono, first]

/-- One variable stands for a type, all others for themselves. -/
def single (id : VarId) (t : Ty) : Assignment where
  var other := if other = id then t else .var other
  num other := if other = id then t else .num other

theorem get_single_of_ne {id : VarId} {t : Ty} {o : VarId × Bool} (h : o.1 ≠ id) :
    (single id t).get o = ({} : Assignment).get o := by
  unfold get single
  simp [h]

structure Keeps (D : Set VarId) (R R' : Assignment) : Prop where
  free : ∀ d ∈ D, R.Unbound d → R'.Unbound d
  apart : ∀ o, (∀ v ∈ (R.get o).occurrences, v.1 ∉ D) → ∀ v ∈ (R'.get o).occurrences, v.1 ∉ D

theorem Keeps.refl (D : Set VarId) (R : Assignment) : Keeps D R R :=
  ⟨fun _ _ h => h, fun _ h => h⟩

theorem Keeps.trans {D : Set VarId} {R S T : Assignment} (first : Keeps D R S)
    (second : Keeps D S T) : Keeps D R T :=
  ⟨fun d h free => second.free d h (first.free d h free),
    fun o h => second.apart o (first.apart o h)⟩

end Assignment

def Ty.Avoids (R : Assignment) (D : Set VarId) (t : Ty) : Prop :=
  ∀ v ∈ t.occurrences, ∀ o ∈ (R.get v).occurrences, o.1 ∉ D

theorem Ty.avoids_iff {R : Assignment} {D : Set VarId} {t : Ty} (mono : t.isMono) :
    t.Avoids R D ↔ ∀ o ∈ (t.assign R).occurrences, o.1 ∉ D := by
  unfold Ty.Avoids
  simp only [Ty.mem_occurrences_assign mono]
  constructor
  · intro h o inside
    obtain ⟨v, member, occurs⟩ := inside
    exact h v member o occurs
  · exact fun h v member o occurs => h o ⟨v, member, occurs⟩

@[simp] theorem Ty.avoids_fn {R : Assignment} {D : Set VarId} {a b : Ty} :
    (Ty.fn a b).Avoids R D ↔ a.Avoids R D ∧ b.Avoids R D := by
  simp only [Ty.Avoids, Ty.occurrences, List.mem_append]
  exact ⟨fun h => ⟨fun v m => h v (.inl m), fun v m => h v (.inr m)⟩,
    fun h v m => m.elim (h.1 v) (h.2 v)⟩

@[simp] theorem Ty.avoids_result {R : Assignment} {D : Set VarId} {a b : Ty} :
    (Ty.result a b).Avoids R D ↔ a.Avoids R D ∧ b.Avoids R D := Ty.avoids_fn

@[simp] theorem Ty.avoids_list {R : Assignment} {D : Set VarId} {a : Ty} :
    (Ty.list a).Avoids R D ↔ a.Avoids R D := Iff.rfl

theorem Assignment.Keeps.avoids {D : Set VarId} {R R' : Assignment} (keeps : Keeps D R R') {t : Ty}
    (h : t.Avoids R D) : t.Avoids R' D :=
  fun v member => keeps.apart v (h v member)

namespace Subst

open Assignment

variable {g : Supply} {s : Subst} {R : Assignment}

theorem Denotes.isMono_get (h : Denotes g s R) (o : VarId × Bool) : (R.get o).isMono := by
  obtain ⟨dom, rank, size, walk⟩ := h
  exact walk.isMono_get o

theorem Denotes.comp_self (h : Denotes g s R) : R.comp R = R := by
  obtain ⟨dom, rank, size, walk⟩ := h
  exact walk.comp_self

/-! ### Binding a variable -/

section Bind

variable {dom : Set VarId} {rank : VarId → Nat} {size : Nat} {id : VarId} {t : Ty}

theorem Walk.mentions_of_reaches (walk : Walk g R dom rank size s) (unbound : id ∉ dom)
    {v : VarId} (path : s.Reaches v id) (numeric : Bool) : Mentions id (R.get (v, numeric)) := by
  induction path using Relation.ReflTransGen.head_induction_on generalizing numeric with
  | refl =>
    rw [walk.get_of_free unbound]
    exact ⟨(id, numeric), by simp [Ty.occurrences_ofVar], rfl⟩
  | head edge _ ih =>
    obtain ⟨u, found, o, member, rfl⟩ := edge
    obtain ⟨w, inside, same⟩ := ih o.2
    refine ⟨w, ?_, same⟩
    rw [walk.get_of_bound (o := (_, numeric)) found,
      Ty.mem_occurrences_assign (walk.kinded found).mono]
    exact ⟨o, member, inside⟩

theorem Walk.ranked_bind (walk : Walk g R dom rank size s) (unbound : id ∉ dom)
    (kinded : t.WellKinded g) (fresh : ¬Mentions id (t.assign R)) :
    ∃ higher, (s.bind id t).Ranked higher := by
  classical
  refine ⟨fun v => if s.Reaches v id then rank v + size + 1 else rank v, ?_⟩
  intro v u found o member
  rw [get?_bind] at found
  split at found
  · next same =>
    cases found
    have apart : ¬s.Reaches o.1 id := by
      intro path
      obtain ⟨w, inside, rfl⟩ := walk.mentions_of_reaches unbound path o.2
      exact fresh ⟨w, (Ty.mem_occurrences_assign kinded.mono R w).2 ⟨o, member, inside⟩, rfl⟩
    have self : s.Reaches v id := same ▸ .refl
    have bound := walk.small o.1
    simp only [apart, self, if_true, if_false]
    omega
  · have lower := walk.ranked v u found o member
    have edge : s.Reaches o.1 id → s.Reaches v id := fun path =>
      .head ⟨u, found, o, member, rfl⟩ path
    simp only
    split <;> split <;> first | omega | (exfalso; grind)

theorem assign_single_of_fresh {u w : Ty} (fresh : ¬Mentions id w) : w.assign (single id u) = w := by
  refine (Ty.assign_congr fun o member => get_single_of_ne ?_).trans (Ty.assign_default w)
  exact fun same => fresh ⟨o, member, same⟩

theorem Walk.denotes_bind (walk : Walk g R dom rank size s) (unbound : id ∉ dom)
    (known : g.Gave id) (kinded : t.WellKinded g) (fresh : ¬Mentions id (t.assign R))
    (numeric : id ∈ g.numeric → t.fitsNumeric) :
    Denotes g (s.bind id t) (R.comp (single id (t.assign R))) := by
  obtain ⟨higher, ranked⟩ := walk.ranked_bind unbound kinded fresh
  obtain ⟨small, ranked, bounded⟩ := ranked.bounded
  have target : t.assign (R.comp (single id (t.assign R))) = t.assign R := by
    rw [← Ty.assign_assign kinded.mono, assign_single_of_fresh fresh]
  have notFound : s.get? id = none := by
    simpa [walk.dom_iff] using unbound
  refine ⟨insert id dom, small, (s.bind id t).size, ?_⟩
  exact {
    bound := by
      intro other u found
      rw [get?_bind] at found
      split at found
      · next same =>
        cases found
        subst same
        rw [target]
        constructor
        · simp [comp, (walk.free unbound).1, Ty.assign, single]
        · simp [comp, (walk.free unbound).2, Ty.assign, single]
      · rw [← Ty.assign_assign (walk.kinded found).mono]
        exact ⟨congrArg _ (walk.bound found).1, congrArg _ (walk.bound found).2⟩
    free := by
      intro other outside
      rw [Set.mem_insert_iff, not_or] at outside
      constructor
      · simp [comp, (walk.free outside.2).1, Ty.assign, single, outside.1]
      · simp [comp, (walk.free outside.2).2, Ty.assign, single, outside.1]
    dom_iff := by
      intro other
      rw [Set.mem_insert_iff, get?_bind]
      split
      · next same => simp [same]
      · next other => simp [other, walk.dom_iff]
    kinded := by
      intro other u found
      rw [get?_bind] at found
      split at found
      · cases found
        exact kinded
      · exact walk.kinded found
    known := by
      intro other inside
      rcases Set.mem_insert_iff.1 inside with rfl | inside
      · exact known
      · exact walk.known inside
    numeric := by
      intro other u found inside
      rw [get?_bind] at found
      split at found
      · next same =>
        cases found
        exact numeric (same ▸ inside)
      · exact walk.numeric found inside
    ranked
    small := bounded
    size_eq := rfl }

theorem Walk.keeps_bind (walk : Walk g R dom rank size s) {D : Set VarId} (outside : id ∉ D)
    (mono : t.isMono) (apart : t.Avoids R D) : Keeps D R (R.comp (single id (t.assign R))) where
  free d member free := by
    have other : d ≠ id := fun same => outside (same ▸ member)
    simp [Unbound, comp, free.1, free.2, Ty.assign, single, other]
  apart o before v member := by
    rw [get_comp, Ty.mem_occurrences_assign (walk.isMono_get o)] at member
    obtain ⟨w, inside, occurs⟩ := member
    by_cases same : w.1 = id
    · have found : (single id (t.assign R)).get w = t.assign R := by
        unfold Assignment.get single
        simp [same]
      rw [found] at occurs
      exact (Ty.avoids_iff mono).1 apart v occurs
    · rw [get_single_of_ne same] at occurs
      have : v = w := by
        rcases w with ⟨k, _ | _⟩ <;> simpa [Assignment.get, Ty.occurrences] using occurs
      exact this ▸ before w inside

end Bind

/-! ### Unifying -/

def Unifies (g : Supply) (R : Assignment) (a b : Ty) (s' : Subst) : Prop :=
  ∃ R', Denotes g s' R' ∧ R'.Refines R ∧ a.assign R' = b.assign R' ∧
    ∀ D, a.Avoids R D → b.Avoids R D → Keeps D R R'

theorem Unifies.symm {a b : Ty} {s' : Subst} (h : Unifies g R a b s') : Unifies g R b a s' := by
  obtain ⟨R', denotes, refines, same, keeps⟩ := h
  exact ⟨R', denotes, refines, same.symm, fun D first second => keeps D second first⟩

theorem Denotes.unifies_of_eq (h : Denotes g s R) {a b : Ty} (same : a.assign R = b.assign R) :
    Unifies g R a b s :=
  ⟨R, h, h.comp_self, same, fun D _ _ => .refl D R⟩

theorem Unifies.of_assign_eq {a a' b b' : Ty} {s' : Subst} (monoA : a.isMono)
    (monoA' : a'.isMono) (monoB : b.isMono) (monoB' : b'.isMono)
    (sameA : a'.assign R = a.assign R) (sameB : b'.assign R = b.assign R)
    (h : Unifies g R a' b' s') : Unifies g R a b s' := by
  obtain ⟨R', denotes, refines, same, keeps⟩ := h
  refine ⟨R', denotes, refines, ?_, fun D first second => keeps D ?_ ?_⟩
  · rw [← refines.assign monoA, ← sameA, refines.assign monoA', same, ← refines.assign monoB',
      sameB, refines.assign monoB]
  · rwa [Ty.avoids_iff monoA', sameA, ← Ty.avoids_iff monoA]
  · rwa [Ty.avoids_iff monoB', sameB, ← Ty.avoids_iff monoB]

section Bind

variable {dom : Set VarId} {rank : VarId → Nat} {size : Nat} {id : VarId} {t : Ty}

theorem Walk.unifies_bind (walk : Walk g R dom rank size s) (numeric : Bool) (unbound : id ∉ dom)
    (idKinded : (Ty.ofVar id numeric).WellKinded g) (kinded : t.WellKinded g)
    (fresh : ¬Mentions id (t.assign R)) (fits : numeric = true → t.fitsNumeric) :
    Unifies g R (.ofVar id numeric) t (s.bind id t) := by
  have known := idKinded.kinds (id, numeric) (by simp [Ty.occurrences_ofVar])
  have root : (Ty.ofVar id numeric).assign R = .ofVar id numeric :=
    (Ty.assign_ofVar R (id, numeric)).trans (walk.get_of_free unbound)
  have target : (Ty.ofVar id numeric).assign (R.comp (single id (t.assign R))) =
      t.assign (R.comp (single id (t.assign R))) := by
    rw [← Ty.assign_assign idKinded.mono, ← Ty.assign_assign kinded.mono, root,
      assign_single_of_fresh fresh, Ty.assign_ofVar _ (id, numeric)]
    simp [Assignment.get, single]
  refine ⟨_, walk.denotes_bind unbound known.1 kinded fresh fun h => fits (known.2.2 h), ?_, target,
    fun D first second => walk.keeps_bind ?_ kinded.mono second⟩
  · unfold Refines
    rw [← comp_assoc walk.isMono_get, walk.comp_self]
  · rw [Ty.avoids_iff idKinded.mono, root] at first
    exact first (id, numeric) (by simp [Ty.occurrences_ofVar])

theorem Walk.bindVar_spec (walk : Walk g R dom rank size s) (unbound : id ∉ dom)
    (idKinded : (Ty.var id).WellKinded g) (kinded : t.WellKinded g) {s' : Subst}
    (run : s.bindVar id t = (none, s')) : Unifies g R (.var id) t s' := by
  unfold bindVar at run
  split at run
  · next same =>
    cases run
    exact Denotes.unifies_of_eq ⟨dom, rank, size, walk⟩ (by rw [same])
  · obtain ⟨b, s₁, asked, walk₁, answer⟩ := occurs_spec walk id kinded
    rw [asked] at run
    cases b with
    | true => simp at run
    | false =>
      cases run
      refine walk₁.unifies_bind false unbound idKinded kinded ?_ (by simp)
      exact fun mentioned => by simpa using answer.2 mentioned

theorem Walk.bindNumeric_spec (walk : Walk g R dom rank size s) (unbound : id ∉ dom)
    (idKinded : (Ty.num id).WellKinded g) (kinded : t.WellKinded g)
    (root : ∀ other, t.varId? = some other → other ∉ dom) {s' : Subst}
    (run : s.bindNumeric id t = (none, s')) : Unifies g R (.num id) t s' := by
  have bind : ∀ {u : Ty}, u.WellKinded g → ¬Mentions id (u.assign R) → u.fitsNumeric →
      Unifies g R (.num id) u (s.bind id u) := fun good fresh fits =>
    walk.unifies_bind true unbound idKinded good fresh fun _ => fits
  unfold bindNumeric at run
  split at run
  · next other =>
    split at run
    · next same =>
      cases run
      exact Denotes.unifies_of_eq ⟨dom, rank, size, walk⟩ (by rw [same])
    · next different =>
      cases run
      refine bind kinded ?_ rfl
      rw [Ty.assign, (walk.free (root other rfl)).2]
      rintro ⟨o, member, same⟩
      simp only [Ty.occurrences, List.mem_singleton] at member
      exact different (by rw [← same, member])
  · cases run
    exact bind kinded (by simp [Mentions, Ty.assign, Ty.occurrences]) rfl
  · cases run
    exact bind kinded (by simp [Mentions, Ty.assign, Ty.occurrences]) rfl
  · simp at run

end Bind

theorem Unified.andThen_eq_none {first : Unified} {next : Subst → Unified} {s' : Subst}
    (h : first.andThen next = (none, s')) : ∃ s₁, first = (none, s₁) ∧ next s₁ = (none, s') := by
  obtain ⟨_ | e, s₁⟩ := first
  · exact ⟨s₁, rfl, h⟩
  · simp [Unified.andThen] at h

def UnifiesAll (g : Supply) (R : Assignment) (pairs : List (Ty × Ty)) (s' : Subst) : Prop :=
  ∃ R', Denotes g s' R' ∧ R'.Refines R ∧ (∀ p ∈ pairs, p.1.assign R' = p.2.assign R') ∧
    ∀ D, (∀ p ∈ pairs, p.1.Avoids R D ∧ p.2.Avoids R D) → Keeps D R R'

theorem Denotes.unifiesAll_nil (h : Denotes g s R) : UnifiesAll g R [] s :=
  ⟨R, h, h.comp_self, by simp, fun D _ => .refl D R⟩

theorem Unifies.unifiesAll_cons {a b : Ty} {pairs : List (Ty × Ty)} {s₁ s' : Subst}
    (mono : ∀ o, (R.get o).isMono) (monoA : a.isMono) (monoB : b.isMono) (first : Unifies g R a b s₁)
    (rest : ∀ R₁, Denotes g s₁ R₁ → UnifiesAll g R₁ pairs s') :
    UnifiesAll g R ((a, b) :: pairs) s' := by
  obtain ⟨R₁, denotes₁, refines₁, same₁, keeps₁⟩ := first
  obtain ⟨R', denotes', refines', same', keeps'⟩ := rest R₁ denotes₁
  refine ⟨R', denotes', refines₁.trans mono refines', ?_, fun D apart => ?_⟩
  · intro p member
    rcases List.mem_cons.1 member with rfl | later
    · rw [← refines'.assign monoA, same₁, refines'.assign monoB]
    · exact same' p later
  · have head := apart (a, b) (by simp)
    have keeps := keeps₁ D head.1 head.2
    refine keeps.trans (keeps' D fun p member => ?_)
    have tail := apart p (by simp [member])
    exact ⟨keeps.avoids tail.1, keeps.avoids tail.2⟩

theorem UnifiesAll.unifies {a b : Ty} {pairs : List (Ty × Ty)} {s' : Subst}
    (h : UnifiesAll g R pairs s')
    (shape : ∀ σ : Assignment, (∀ p ∈ pairs, p.1.assign σ = p.2.assign σ) → a.assign σ = b.assign σ)
    (parts : ∀ D, a.Avoids R D → b.Avoids R D → ∀ p ∈ pairs, p.1.Avoids R D ∧ p.2.Avoids R D) :
    Unifies g R a b s' := by
  obtain ⟨R', denotes, refines, same, keeps⟩ := h
  exact ⟨R', denotes, refines, shape R' same, fun D first second => keeps D (parts D first second)⟩

theorem unifyPairs_spec {unify : Subst → Ty → Ty → Unified}
    (spec : ∀ {s R a b s'}, Denotes g s R → a.WellKinded g → b.WellKinded g →
      unify s a b = (none, s') → Unifies g R a b s')
    {as bs : List Ty} {s' : Subst} (h : Denotes g s R) (kindedA : ∀ a ∈ as, a.WellKinded g)
    (kindedB : ∀ b ∈ bs, b.WellKinded g) (run : unifyPairs unify s as bs = (none, s')) :
    UnifiesAll g R (as.zip bs) s' := by
  induction as generalizing s R bs with
  | nil =>
    simp only [unifyPairs, Prod.mk.injEq, true_and] at run
    exact run ▸ h.unifiesAll_nil
  | cons a as ih =>
    cases bs with
    | nil =>
      simp only [unifyPairs, Prod.mk.injEq, true_and] at run
      exact run ▸ h.unifiesAll_nil
    | cons b bs =>
      obtain ⟨s₁, first, rest⟩ := Unified.andThen_eq_none run
      have goodA := kindedA a (by simp)
      have goodB := kindedB b (by simp)
      have restA : ∀ a ∈ as, a.WellKinded g := fun a m => kindedA a (by simp [m])
      have restB : ∀ b ∈ bs, b.WellKinded g := fun b m => kindedB b (by simp [m])
      exact (spec h goodA goodB first).unifiesAll_cons h.isMono_get goodA.mono goodB.mono
        fun R₁ denotes => ih denotes restA restB rest

end Subst

namespace Ty.WellKinded

variable {g : Supply}

theorem list_iff {a : Ty} : (Ty.list a).WellKinded g ↔ a.WellKinded g :=
  ⟨fun h => ⟨h.mono, h.kinds⟩, fun h => ⟨h.mono, h.kinds⟩⟩

theorem fn_iff {a b : Ty} : (Ty.fn a b).WellKinded g ↔ a.WellKinded g ∧ b.WellKinded g := by
  constructor
  · rintro ⟨mono, kinds⟩
    simp only [isMono, Bool.and_eq_true] at mono
    exact ⟨⟨mono.1, fun o h => kinds o (by simp [occurrences, h])⟩,
      ⟨mono.2, fun o h => kinds o (by simp [occurrences, h])⟩⟩
  · rintro ⟨first, second⟩
    refine ⟨by simp [isMono, first.mono, second.mono], fun o h => ?_⟩
    rcases List.mem_append.1 h with h | h
    · exact first.kinds o h
    · exact second.kinds o h

theorem result_iff {a b : Ty} : (Ty.result a b).WellKinded g ↔ a.WellKinded g ∧ b.WellKinded g :=
  ⟨fun h => fn_iff.1 ⟨h.mono, h.kinds⟩, fun h => ⟨(fn_iff.2 h).mono, (fn_iff.2 h).kinds⟩⟩

theorem app_iff {name : String} {as : List Ty} :
    (Ty.app name as).WellKinded g ↔ ∀ a ∈ as, a.WellKinded g := by
  constructor
  · rintro ⟨mono, kinds⟩ a member
    simp only [isMono, isMonoAll_eq, List.all_eq_true] at mono
    refine ⟨mono a member, fun o h => kinds o ?_⟩
    simp only [occurrences, occurrencesAll_eq, List.mem_flatMap]
    exact ⟨a, member, h⟩
  · intro each
    constructor
    · simp only [isMono, isMonoAll_eq, List.all_eq_true]
      exact fun a member => (each a member).mono
    · intro o h
      simp only [occurrences, occurrencesAll_eq, List.mem_flatMap] at h
      obtain ⟨a, member, inside⟩ := h
      exact (each a member).kinds o inside

end Ty.WellKinded

theorem Ty.Avoids.of_mem_app {R : Assignment} {D : Set VarId} {name : String} {as : List Ty}
    (h : (Ty.app name as).Avoids R D) {a : Ty} (member : a ∈ as) : a.Avoids R D := by
  intro o inside
  refine h o ?_
  simp only [Ty.occurrences, Ty.occurrencesAll_eq, List.mem_flatMap]
  exact ⟨a, member, inside⟩

theorem Ty.map_assign_eq_of_zip {as bs : List Ty} {σ : Assignment} (lengths : as.length = bs.length)
    (same : ∀ p ∈ as.zip bs, p.1.assign σ = p.2.assign σ) :
    as.map (Ty.assign σ) = bs.map (Ty.assign σ) := by
  induction as generalizing bs with
  | nil => simp_all [eq_comm]
  | cons a as ih =>
    cases bs with
    | nil => simp at lengths
    | cons b bs =>
      simp only [List.zip_cons_cons, List.forall_mem_cons] at same
      rw [List.map_cons, List.map_cons, same.1, ih (by simpa using lengths) same.2]

namespace Subst

open Assignment

variable {g : Supply} {s : Subst} {R : Assignment}

theorem unifyBoth_spec {unify : Subst → Ty → Ty → Unified}
    (spec : ∀ {s R a b s'}, Denotes g s R → a.WellKinded g → b.WellKinded g →
      unify s a b = (none, s') → Unifies g R a b s')
    {a₁ a₂ b₁ b₂ : Ty} {s' : Subst} (h : Denotes g s R)
    (kindedA : a₁.WellKinded g ∧ a₂.WellKinded g) (kindedB : b₁.WellKinded g ∧ b₂.WellKinded g)
    (run : ((unify s a₁ b₁).andThen fun s => unify s a₂ b₂) = (none, s')) :
    UnifiesAll g R [(a₁, b₁), (a₂, b₂)] s' := by
  obtain ⟨s₁, first, second⟩ := Unified.andThen_eq_none run
  refine (spec h kindedA.1 kindedB.1 first).unifiesAll_cons h.isMono_get kindedA.1.mono
    kindedB.1.mono fun R₁ denotes => ?_
  obtain ⟨R', denotes', refines, same, keeps⟩ := spec denotes kindedA.2 kindedB.2 second
  exact ⟨R', denotes', refines, by simpa using same, fun D apart => by
    have := apart (a₂, b₂) (by simp)
    exact keeps D this.1 this.2⟩

theorem unifyWithin_spec (depth : Nat) {a b : Ty} {s' : Subst} (h : Denotes g s R)
    (kindedA : a.WellKinded g) (kindedB : b.WellKinded g)
    (run : unifyWithin depth s a b = (none, s')) : Unifies g R a b s' := by
  induction depth generalizing s R a b s' with
  | zero => simp [unifyWithin] at run
  | succ depth ih =>
    obtain ⟨dom, rank, size, walk⟩ := h
    obtain ⟨a', s₁, pruneA, walk₁, sameA, goodA, -, rootA, -⟩ := prune_spec walk kindedA
    obtain ⟨b', s₂, pruneB, walk₂, sameB, goodB, -, rootB, -⟩ := prune_spec walk₁ kindedB
    have denotes : Denotes g s₂ R := ⟨dom, rank, size, walk₂⟩
    refine Unifies.of_assign_eq kindedA.mono goodA.mono kindedB.mono goodB.mono sameA sameB ?_
    simp only [unifyWithin, pruneA, pruneB] at run
    split at run
    · exact walk₂.bindVar_spec (rootA _ rfl) goodA goodB run
    · exact (walk₂.bindVar_spec (rootB _ rfl) goodB goodA run).symm
    · exact walk₂.bindNumeric_spec (rootA _ rfl) goodA goodB rootB run
    · exact (walk₂.bindNumeric_spec (rootB _ rfl) goodB goodA rootA run).symm
    · exact (unifyBoth_spec ih denotes (Ty.WellKinded.fn_iff.1 goodA) (Ty.WellKinded.fn_iff.1 goodB)
        run).unifies (by simp [Ty.assign]) (by simp; grind)
    · obtain ⟨R', denotes', refines, same, keeps⟩ :=
        ih denotes (Ty.WellKinded.list_iff.1 goodA) (Ty.WellKinded.list_iff.1 goodB) run
      exact ⟨R', denotes', refines, by rw [Ty.assign, Ty.assign, same], keeps⟩
    · exact (unifyBoth_spec ih denotes (Ty.WellKinded.result_iff.1 goodA)
        (Ty.WellKinded.result_iff.1 goodB) run).unifies (by simp [Ty.assign])
          (by simp; grind)
    · next m as n bs =>
      split at run
      · next same =>
        obtain ⟨rfl, lengths⟩ := same
        have parts := unifyPairs_spec ih denotes (Ty.WellKinded.app_iff.1 goodA)
          (Ty.WellKinded.app_iff.1 goodB) run
        refine parts.unifies (fun σ same => ?_) (fun D first second p member => ?_)
        · simp only [Ty.assign, Ty.assignAll_eq]
          rw [Ty.map_assign_eq_of_zip lengths same]
        · have inside := List.of_mem_zip member
          exact ⟨first.of_mem_app inside.1, second.of_mem_app inside.2⟩
      · simp at run
    · split at run
      · next same =>
        cases run
        exact denotes.unifies_of_eq (by rw [same])
      · simp at run
    · split at run
      · next same =>
        cases run
        exact denotes.unifies_of_eq (by rw [same])
      · simp at run
    all_goals first | (cases run; exact denotes.unifies_of_eq rfl) | simp at run

theorem unify_spec {a b : Ty} {s' : Subst} (h : Denotes g s R) (kindedA : a.WellKinded g)
    (kindedB : b.WellKinded g) (run : s.unify a b = (none, s')) : Unifies g R a b s' :=
  unifyWithin_spec _ h kindedA kindedB run

end Subst
end StackML
