import Mathlib.Data.Finset.Card
import Mathlib.Logic.Relation
import StackML.Proofs.Ty.Assignment
import StackML.Ty.Subst

/-!
What a substitution stands for. `Subst.Denotes g s R` says that the bindings of `s` are acyclic,
keep to the variables given out so far and to their kinds, and that following them to the end
everywhere gives the assignment `R`. Pruning, resolving and the occurs check shorten paths but
leave `R` as it is, and give what `R` says.
-/

namespace StackML

structure Supply where
  numeric : Set VarId
  first : VarId
  last : VarId
  ordered : first ≤ last
  known : ∀ id ∈ numeric, id ≤ last

def Supply.Gave (g : Supply) (id : VarId) : Prop := g.first < id ∧ id ≤ g.last

def Supply.Knows (g : Supply) (o : VarId × Bool) : Prop :=
  g.Gave o.1 ∧ (o.2 = true ↔ o.1 ∈ g.numeric)

structure Ty.WellKinded (g : Supply) (t : Ty) : Prop where
  mono : t.isMono
  kinds : ∀ o ∈ t.occurrences, g.Knows o

namespace Ty

theorem WellKinded.of_closed {g : Supply} {t : Ty} (mono : t.isMono) (closed : t.occurrences = []) :
    t.WellKinded g :=
  ⟨mono, by simp [closed]⟩

theorem eq_ofVar_of_varId? {t : Ty} {id : VarId} (h : t.varId? = some id) :
    ∃ numeric, t = ofVar id numeric := by
  cases t <;> simp [varId?] at h
  · exact ⟨false, by rw [h]; rfl⟩
  · exact ⟨true, by rw [h]; rfl⟩

theorem occurrences_ofVar (id : VarId) (numeric : Bool) :
    (ofVar id numeric).occurrences = [(id, numeric)] := by
  cases numeric <;> rfl

theorem mem_occurrences_of_varId? {t : Ty} {id : VarId} (h : t.varId? = some id) :
    ∃ numeric, t.occurrences = [(id, numeric)] := by
  obtain ⟨numeric, rfl⟩ := eq_ofVar_of_varId? h
  exact ⟨numeric, occurrences_ofVar id numeric⟩

theorem assign_ofVar (σ : Assignment) (o : VarId × Bool) :
    (ofVar o.1 o.2).assign σ = σ.get o := by
  obtain ⟨id, numeric⟩ := o
  cases numeric <;> rfl

theorem wellKinded_ofVar {g : Supply} {o : VarId × Bool}
    (known : g.Knows o) : (ofVar o.1 o.2).WellKinded g := by
  obtain ⟨id, numeric⟩ := o
  cases numeric <;> exact ⟨rfl, by simpa [ofVar, occurrences] using known⟩

theorem varId?_ofVar (id : VarId) (numeric : Bool) : (ofVar id numeric).varId? = some id := by
  cases numeric <;> rfl

theorem isVar_of_varId? {t : Ty} {id : VarId} (h : t.varId? = some id) : t.isVar = true := by
  cases t <;> simp [varId?] at h <;> rfl

theorem isVar_of_varId?_none {t : Ty} (h : t.varId? = none) : t.isVar = false := by
  cases t <;> simp [varId?] at h <;> rfl

theorem mapVars_spec {σ : Type} {f : σ → Ty → Ty × σ} {ok : σ → Prop} {R : Assignment} {t : Ty}
    (mono : t.isMono)
    (each : ∀ s o, ok s → o ∈ t.occurrences → ∃ s', f s (ofVar o.1 o.2) = (R.get o, s') ∧ ok s')
    {s : σ} (start : ok s) : ∃ s', mapVars f s t = (t.assign R, s') ∧ ok s' := by
  induction t using induct generalizing s with
  | int | double | string | bool | unit | named | host => exact ⟨s, rfl, start⟩
  | var id => exact each s (id, false) start (by simp [occurrences])
  | num id => exact each s (id, true) start (by simp [occurrences])
  | list a ih =>
    obtain ⟨s', run, good⟩ := ih mono each start
    exact ⟨s', by simp [mapVars, assign, run], good⟩
  | result a b iha ihb | fn a b iha ihb =>
    simp only [isMono, Bool.and_eq_true] at mono
    obtain ⟨s₁, run₁, good₁⟩ :=
      iha mono.1 (fun s o ok h => each s o ok (by simp [occurrences, h])) start
    obtain ⟨s₂, run₂, good₂⟩ :=
      ihb mono.2 (fun s o ok h => each s o ok (by simp [occurrences, h])) good₁
    exact ⟨s₂, by simp [mapVars, assign, run₁, run₂], good₂⟩
  | scheme vars a ih => simp [isMono] at mono
  | app name as ih =>
    simp only [isMono, isMonoAll_eq, List.all_eq_true] at mono
    simp only [occurrences, occurrencesAll_eq, List.mem_flatMap] at each
    have all : ∀ bs : List Ty, (∀ b ∈ bs, b ∈ as) → ∀ {s}, ok s →
        ∃ s', mapVarsAll f s bs = (bs.map (assign R), s') ∧ ok s' := by
      intro bs
      induction bs with
      | nil => exact fun _ s good => ⟨s, rfl, good⟩
      | cons b bs rest =>
        intro inside s good
        have member : b ∈ as := inside b (by simp)
        obtain ⟨s₁, run₁, good₁⟩ :=
          ih b member (mono b member) (fun s o ok h => each s o ok ⟨b, member, h⟩) good
        obtain ⟨s₂, run₂, good₂⟩ := rest (fun c h => inside c (by simp [h])) good₁
        exact ⟨s₂, by simp [mapVarsAll, run₁, run₂], good₂⟩
    obtain ⟨s', run, good⟩ := all as (fun _ h => h) start
    exact ⟨s', by simp [mapVars, assign, assignAll_eq, run], good⟩

theorem anyVar_spec {σ : Type} {f : σ → Ty → Bool × σ} {ok : σ → Prop} {p : VarId × Bool → Bool}
    {t : Ty} (mono : t.isMono)
    (each : ∀ s o, ok s → o ∈ t.occurrences → ∃ s', f s (ofVar o.1 o.2) = (p o, s') ∧ ok s')
    {s : σ} (start : ok s) : ∃ s', anyVar f s t = (t.occurrences.any p, s') ∧ ok s' := by
  induction t using induct generalizing s with
  | int | double | string | bool | unit | named | host => exact ⟨s, rfl, start⟩
  | var id => simpa [anyVar, occurrences, ofVar] using each s (id, false) start (by simp [occurrences])
  | num id => simpa [anyVar, occurrences, ofVar] using each s (id, true) start (by simp [occurrences])
  | list a ih => exact ih mono each start
  | result a b iha ihb | fn a b iha ihb =>
    simp only [isMono, Bool.and_eq_true] at mono
    obtain ⟨s₁, run₁, good₁⟩ :=
      iha mono.1 (fun s o ok h => each s o ok (by simp [occurrences, h])) start
    cases first : a.occurrences.any p with
    | true => exact ⟨s₁, by simp [anyVar, occurrences, orElse, run₁, first], good₁⟩
    | false =>
      obtain ⟨s₂, run₂, good₂⟩ :=
        ihb mono.2 (fun s o ok h => each s o ok (by simp [occurrences, h])) good₁
      exact ⟨s₂, by simp [anyVar, occurrences, orElse, run₁, run₂, first], good₂⟩
  | scheme vars a ih => simp [isMono] at mono
  | app name as ih =>
    simp only [isMono, isMonoAll_eq, List.all_eq_true] at mono
    simp only [occurrences, occurrencesAll_eq, List.mem_flatMap] at each
    have all : ∀ bs : List Ty, (∀ b ∈ bs, b ∈ as) → ∀ {s}, ok s →
        ∃ s', anyVarAll f s bs = ((bs.flatMap occurrences).any p, s') ∧ ok s' := by
      intro bs
      induction bs with
      | nil => exact fun _ s good => ⟨s, rfl, good⟩
      | cons b bs rest =>
        intro inside s good
        have member : b ∈ as := inside b (by simp)
        obtain ⟨s₁, run₁, good₁⟩ :=
          ih b member (mono b member) (fun s o ok h => each s o ok ⟨b, member, h⟩) good
        cases first : b.occurrences.any p with
        | true => exact ⟨s₁, by simp [anyVarAll, orElse, run₁, first], good₁⟩
        | false =>
          obtain ⟨s₂, run₂, good₂⟩ := rest (fun c h => inside c (by simp [h])) good₁
          exact ⟨s₂, by simp [anyVarAll, orElse, run₁, run₂, first], good₂⟩
    obtain ⟨s', run, good⟩ := all as (fun _ h => h) start
    exact ⟨s', by simp [anyVar, occurrences, occurrencesAll_eq, run], good⟩

theorem fitsNumeric_cases {t : Ty} (h : t.fitsNumeric) :
    t = int ∨ t = double ∨ ∃ id, t = num id := by
  cases t <;> simp [fitsNumeric] at h ⊢

theorem fitsNumeric_assign {t : Ty} {σ : Assignment} (h : t.fitsNumeric)
    (each : ∀ id, (id, true) ∈ t.occurrences → (σ.num id).fitsNumeric) :
    (t.assign σ).fitsNumeric := by
  rcases fitsNumeric_cases h with rfl | rfl | ⟨id, rfl⟩
  · rfl
  · rfl
  · exact each id (by simp [occurrences])

end Ty

/-- Ranks along edges that start in a finite set can be chosen no larger than the set: the rank of
an element counts the members of the set that it reaches. -/
theorem exists_rank_le_card {α : Type} (keys : Finset α) {E : α → α → Prop} {rank : α → Nat}
    (source : ∀ a b, E a b → a ∈ keys) (down : ∀ a b, E a b → rank b < rank a) :
    ∃ small : α → Nat, (∀ a b, E a b → small b < small a) ∧ ∀ a, small a ≤ keys.card := by
  classical
  have back : ∀ a b, Relation.ReflTransGen E a b → rank b ≤ rank a := by
    intro a b path
    induction path with
    | refl => exact Nat.le_refl _
    | tail _ edge ih => exact (down _ _ edge).le.trans ih
  refine ⟨fun v => (keys.filter (Relation.ReflTransGen E v)).card, fun a b edge => ?_,
    fun a => Finset.card_filter_le _ _⟩
  refine Finset.card_lt_card (Finset.ssubset_iff_subset_ne.2 ⟨fun k reached => ?_, fun same => ?_⟩)
  · rw [Finset.mem_filter] at reached ⊢
    exact ⟨reached.1, .head edge reached.2⟩
  · have self : a ∈ keys.filter (Relation.ReflTransGen E a) :=
      Finset.mem_filter.2 ⟨source a b edge, .refl⟩
    rw [← same, Finset.mem_filter] at self
    have up := back b a self.2
    have step := down a b edge
    omega

namespace Subst

theorem get?_bind (s : Subst) (id other : VarId) (t : Ty) :
    (s.bind id t).get? other = if other = id then some t else s.get? other := by
  simp only [bind, get?, Std.TreeMap.get?_eq_getElem?, Std.TreeMap.getElem?_insert,
    Std.LawfulEqCmp.compare_eq_iff_eq]
  by_cases h : other = id
  · simp [h]
  · simp [h, Ne.symm h]

theorem size_bind (s : Subst) (id : VarId) (t : Ty) :
    (s.bind id t).size = if (s.get? id).isSome then s.size else s.size + 1 := by
  simp only [bind, size, get?, Std.TreeMap.get?_eq_getElem?, Std.TreeMap.size_insert,
    Std.TreeMap.contains_eq_isSome_getElem?]
  rfl

theorem mem_keys {s : Subst} {id : VarId} : id ∈ s.bindings.keys ↔ (s.get? id).isSome := by
  rw [Std.TreeMap.mem_keys, Std.TreeMap.mem_iff_isSome_getElem?, get?,
    Std.TreeMap.get?_eq_getElem?]

/-! ### Ranks -/

def Ranked (s : Subst) (rank : VarId → Nat) : Prop :=
  ∀ id t, s.get? id = some t → ∀ o ∈ t.occurrences, rank o.1 < rank id

/-- One variable is in the binding of another, or in a binding of one there, and so on. -/
def Reaches (s : Subst) : VarId → VarId → Prop :=
  Relation.ReflTransGen fun a b => ∃ t, s.get? a = some t ∧ ∃ o ∈ t.occurrences, o.1 = b

theorem Ranked.bounded {s : Subst} {rank : VarId → Nat} (ranked : s.Ranked rank) :
    ∃ small, s.Ranked small ∧ ∀ id, small id ≤ s.size := by
  obtain ⟨small, down, bounded⟩ := exists_rank_le_card s.bindings.keys.toFinset
    (E := fun a b => ∃ t, s.get? a = some t ∧ ∃ o ∈ t.occurrences, o.1 = b)
    (fun a b edge => by
      obtain ⟨t, found, -⟩ := edge
      rw [List.mem_toFinset, mem_keys, found]
      rfl)
    (fun a b edge => by
      obtain ⟨t, found, o, member, rfl⟩ := edge
      exact ranked a t found o member)
  refine ⟨small, fun id t found o member => down id o.1 ⟨t, found, o, member, rfl⟩, fun id => ?_⟩
  refine (bounded id).trans ((List.toFinset_card_le _).trans ?_)
  rw [Std.TreeMap.length_keys]
  rfl

/-! ### The assignment of a substitution -/

/-- A substitution during a walk. The walk changes neither the assignment `R` that the bindings
amount to, nor the bound variables `dom`, nor the ranks that bound its depth. -/
structure Walk (g : Supply) (R : Assignment) (dom : Set VarId) (rank : VarId → Nat) (size : Nat)
    (s : Subst) : Prop where
  bound : ∀ {id t}, s.get? id = some t → R.var id = t.assign R ∧ R.num id = t.assign R
  free : ∀ {id}, id ∉ dom → R.Unbound id
  dom_iff : ∀ {id}, id ∈ dom ↔ (s.get? id).isSome
  kinded : ∀ {id t}, s.get? id = some t → t.WellKinded g
  known : ∀ {id}, id ∈ dom → g.Gave id
  numeric : ∀ {id t}, s.get? id = some t → id ∈ g.numeric → t.fitsNumeric
  ranked : s.Ranked rank
  small : ∀ id, rank id ≤ size
  size_eq : s.size = size

def Denotes (g : Supply) (s : Subst) (R : Assignment) : Prop :=
  ∃ dom rank size, Walk g R dom rank size s

theorem denotes_empty (g : Supply) : Denotes g {} {} := by
  have none : ∀ id, ({} : Subst).get? id = none := by
    intro id
    simp [get?, Std.TreeMap.get?_eq_getElem?]
  refine ⟨∅, fun _ => 0, 0, ?_⟩
  constructor <;> simp [none, Ranked, size, Assignment.Unbound]

section Walk

variable {g : Supply} {R : Assignment} {dom : Set VarId} {rank : VarId → Nat} {size : Nat}
  {s : Subst}

theorem Walk.get_of_free (walk : Walk g R dom rank size s) {o : VarId × Bool} (h : o.1 ∉ dom) :
    R.get o = .ofVar o.1 o.2 := by
  obtain ⟨id, numeric⟩ := o
  cases numeric
  · exact (walk.free h).1
  · exact (walk.free h).2

theorem Walk.get_of_bound (walk : Walk g R dom rank size s) {o : VarId × Bool} {t : Ty}
    (h : s.get? o.1 = some t) : R.get o = t.assign R := by
  obtain ⟨id, numeric⟩ := o
  cases numeric
  · exact (walk.bound h).1
  · exact (walk.bound h).2

/-- A property of what variables stand for holds of all of them if it holds of unbound variables and
passes from the variables of a binding to the bound one. -/
theorem Walk.induct (walk : Walk g R dom rank size s) {P : VarId × Bool → Prop}
    (free : ∀ o, o.1 ∉ dom → P o)
    (bound : ∀ o t, s.get? o.1 = some t → (∀ v ∈ t.occurrences, P v) → P o) : ∀ o, P o := by
  intro o
  induction h : rank o.1 using Nat.strong_induction_on generalizing o with
  | _ n ih =>
    cases found : s.get? o.1 with
    | none => exact free o fun inside => by simp [walk.dom_iff, found] at inside
    | some t =>
      refine bound o t found fun v member => ih (rank v.1) ?_ v rfl
      exact h ▸ walk.ranked o.1 t found v member

theorem Walk.isMono_get (walk : Walk g R dom rank size s) (o : VarId × Bool) :
    (R.get o).isMono := by
  induction o using walk.induct with
  | free o outside =>
    rw [walk.get_of_free outside]
    rcases o with ⟨id, _ | _⟩ <;> rfl
  | bound o t found ih =>
    rw [walk.get_of_bound found]
    exact Ty.isMono_assign (walk.kinded found).mono ih

theorem Walk.occurrences_free (walk : Walk g R dom rank size s) (o : VarId × Bool) :
    ∀ v ∈ (R.get o).occurrences, v.1 ∉ dom := by
  induction o using walk.induct with
  | free o outside =>
    rw [walk.get_of_free outside]
    rcases o with ⟨id, _ | _⟩ <;> simpa [Ty.ofVar, Ty.occurrences] using outside
  | bound o t found ih =>
    intro v member
    rw [walk.get_of_bound found, Ty.mem_occurrences_assign (walk.kinded found).mono] at member
    obtain ⟨w, inside, occurs⟩ := member
    exact ih w inside v occurs

theorem Walk.not_mem_of_unbound (walk : Walk g R dom rank size s) {id : VarId}
    (h : R.Unbound id) : id ∉ dom :=
  walk.occurrences_free (id, false) (id, false) (by simp [h.1, Ty.occurrences])

theorem Denotes.get?_eq_none {id : VarId} (denotes : Denotes g s R) (unbound : R.Unbound id) :
    s.get? id = none := by
  obtain ⟨dom, rank, size, walk⟩ := denotes
  by_contra bound
  exact walk.not_mem_of_unbound unbound (walk.dom_iff.2 (Option.isSome_iff_ne_none.2 bound))

theorem Walk.comp_self (walk : Walk g R dom rank size s) : R.comp R = R := by
  have each : ∀ o, (R.get o).assign R = R.get o := by
    intro o
    have fixed : ∀ v ∈ (R.get o).occurrences, R.get v = ({} : Assignment).get v := by
      intro v member
      rw [walk.get_of_free (walk.occurrences_free o v member)]
      rcases v with ⟨id, _ | _⟩ <;> rfl
    rw [Ty.assign_congr fixed, Ty.assign_default]
  ext id
  · exact each (id, false)
  · exact each (id, true)

theorem Walk.wellKinded_get (walk : Walk g R dom rank size s) (o : VarId × Bool)
    (known : g.Knows o) : (R.get o).WellKinded g := by
  induction o using walk.induct with
  | free o outside =>
    rw [walk.get_of_free outside]
    exact Ty.wellKinded_ofVar known
  | bound o t found ih =>
    have kinded := walk.kinded found
    refine ⟨walk.isMono_get o, ?_⟩
    rw [walk.get_of_bound found]
    intro v member
    obtain ⟨w, inside, occurs⟩ := (Ty.mem_occurrences_assign kinded.mono R v).1 member
    exact (ih w inside (kinded.kinds w inside)).kinds v occurs

theorem Walk.fitsNumeric_num (walk : Walk g R dom rank size s) {id : VarId}
    (h : id ∈ g.numeric) : (R.num id).fitsNumeric := by
  have all : ∀ o : VarId × Bool, o.1 ∈ g.numeric → o.2 = true → (R.get o).fitsNumeric := by
    intro o
    induction o using walk.induct with
    | free o outside =>
      rintro - numeric
      rw [walk.get_of_free outside, numeric]
      rfl
    | bound o t found ih =>
      rintro inside -
      rw [walk.get_of_bound found]
      refine Ty.fitsNumeric_assign (walk.numeric found inside) fun v member => ?_
      exact ih (v, true) member (((walk.kinded found).kinds _ member).2.1 rfl) rfl
  exact all (id, true) h rfl

/-! ### Walks -/

theorem Walk.rebind (walk : Walk g R dom rank size s) {id : VarId} {u : Ty} (inDom : id ∈ dom)
    (same : R.var id = u.assign R ∧ R.num id = u.assign R) (kinded : u.WellKinded g)
    (numeric : id ∈ g.numeric → u.fitsNumeric) (below : ∀ o ∈ u.occurrences, rank o.1 < rank id) :
    Walk g R dom rank size (s.bind id u) where
  bound {other t} found := by
    rw [get?_bind] at found
    split at found
    · next h =>
      cases found
      exact h ▸ same
    · exact walk.bound found
  free := walk.free
  dom_iff {other} := by
    rw [get?_bind]
    split
    · next h => simp [h, inDom]
    · exact walk.dom_iff
  kinded {other t} found := by
    rw [get?_bind] at found
    split at found
    · cases found
      exact kinded
    · exact walk.kinded found
  known := walk.known
  numeric {other t} found inside := by
    rw [get?_bind] at found
    split at found
    · next h =>
      cases found
      exact numeric (h ▸ inside)
    · exact walk.numeric found inside
  ranked other t found := by
    rw [get?_bind] at found
    split at found
    · next h =>
      cases found
      exact h ▸ below
    · exact walk.ranked other t found
  small := walk.small
  size_eq := by rw [size_bind, if_pos (walk.dom_iff.1 inDom), walk.size_eq]

/-- Following bindings leads to an unbound variable or to another type, which stands for the same,
and ranks below where the path began. -/
theorem follow_spec (hops : Nat) (walk : Walk g R dom rank size s) {t : Ty}
    (kinded : t.WellKinded g) (enough : ∀ id, t.varId? = some id → rank id < hops) :
    ∃ u s', follow hops s t = (u, s') ∧ Walk g R dom rank size s' ∧ u.assign R = t.assign R ∧
      u.WellKinded g ∧ (t.fitsNumeric → u.fitsNumeric) ∧
      (∀ id, u.varId? = some id → id ∉ dom) ∧
      (u = t ∨ ∃ id, t.varId? = some id ∧ ∀ o ∈ u.occurrences, rank o.1 < rank id) := by
  induction hops generalizing s t with
  | zero =>
    refine ⟨t, s, rfl, walk, rfl, kinded, fun h => h, fun id isVar => ?_, .inl rfl⟩
    exact absurd (enough id isVar) (Nat.not_lt_zero _)
  | succ hops ih =>
    cases isVar : t.varId? with
    | none =>
      exact ⟨t, s, by simp [follow, isVar], walk, rfl, kinded, fun h => h, by simp [isVar],
        .inl rfl⟩
    | some id =>
      cases found : s.get? id with
      | none =>
        refine ⟨t, s, by simp [follow, isVar, found], walk, rfl, kinded, fun h => h, ?_, .inl rfl⟩
        intro other same
        rw [isVar] at same
        cases same
        simp [walk.dom_iff, found]
      | some next =>
        have below : ∀ o ∈ next.occurrences, rank o.1 < rank id := walk.ranked id next found
        have nextEnough : ∀ other, next.varId? = some other → rank other < hops := by
          intro other nextVar
          obtain ⟨numeric, only⟩ := Ty.mem_occurrences_of_varId? nextVar
          have first := below (other, numeric) (by simp [only])
          have second := enough id isVar
          simp only at first
          omega
        obtain ⟨u, s', run, walk', same, kinded', fits, root, ranks⟩ :=
          ih walk (walk.kinded found) nextEnough
        have uBelow : ∀ o ∈ u.occurrences, rank o.1 < rank id := by
          rcases ranks with rfl | ⟨other, nextVar, lower⟩
          · exact below
          · intro o member
            obtain ⟨numeric, only⟩ := Ty.mem_occurrences_of_varId? nextVar
            have := below (other, numeric) (by simp [only])
            exact (lower o member).trans this
        have target : t.assign R = next.assign R := by
          obtain ⟨numeric, rfl⟩ := Ty.eq_ofVar_of_varId? isVar
          exact (Ty.assign_ofVar R (id, numeric)).trans (walk.get_of_bound found)
        have inDom : id ∈ dom := by simp [walk.dom_iff, found]
        have uNumeric : id ∈ g.numeric → u.fitsNumeric := fun h => fits (walk.numeric found h)
        have tNumeric : t.fitsNumeric → u.fitsNumeric := by
          intro h
          obtain ⟨numeric, only⟩ := Ty.mem_occurrences_of_varId? isVar
          rcases Ty.fitsNumeric_cases h with rfl | rfl | ⟨other, rfl⟩
          · simp [Ty.varId?] at isVar
          · simp [Ty.varId?] at isVar
          · simp only [Ty.varId?, Option.some.injEq] at isVar
            subst isVar
            exact uNumeric ((kinded.kinds (other, true) (by simp [Ty.occurrences])).2.1 rfl)
        refine ⟨u, if u = next then s' else s'.bind id u, by simp [follow, isVar, found, run], ?_,
          same.trans target.symm, kinded', tNumeric, root, .inr ⟨id, rfl, uBelow⟩⟩
        split
        · exact walk'
        · exact walk'.rebind inDom (by rw [same]; exact walk.bound found) kinded' uNumeric uBelow

theorem prune_spec (walk : Walk g R dom rank size s) {t : Ty} (kinded : t.WellKinded g) :
    ∃ u s', s.prune t = (u, s') ∧ Walk g R dom rank size s' ∧ u.assign R = t.assign R ∧
      u.WellKinded g ∧ (t.fitsNumeric → u.fitsNumeric) ∧
      (∀ id, u.varId? = some id → id ∉ dom) ∧
      (u = t ∨ ∃ id, t.varId? = some id ∧ ∀ o ∈ u.occurrences, rank o.1 < rank id) := by
  refine follow_spec (s.size + 1) walk kinded fun id _ => ?_
  have := walk.small id
  rw [walk.size_eq]
  omega

theorem prune_var_spec (walk : Walk g R dom rank size s) {o : VarId × Bool}
    (known : g.Knows o ∨ o.1 ∉ dom) :
    ∃ u s', s.prune (.ofVar o.1 o.2) = (u, s') ∧ Walk g R dom rank size s' ∧
      ((∃ id numeric, u = .ofVar id numeric ∧ R.get o = u) ∨
        u.varId? = none ∧ u.WellKinded g ∧ u.assign R = R.get o ∧
          ∀ v ∈ u.occurrences, rank v.1 < rank o.1) := by
  rcases known with known | outside
  swap
  · have unbound : s.get? o.1 = none := by simpa [walk.dom_iff] using outside
    refine ⟨_, s, ?_, walk, .inl ⟨o.1, o.2, rfl, walk.get_of_free outside⟩⟩
    simp [prune, follow, Ty.varId?_ofVar, unbound]
  obtain ⟨u, s', run, walk', same, kinded, -, root, ranks⟩ :=
    prune_spec walk (Ty.wellKinded_ofVar known)
  rw [Ty.assign_ofVar] at same
  refine ⟨u, s', run, walk', ?_⟩
  cases isVar : u.varId? with
  | some id =>
    obtain ⟨numeric, rfl⟩ := Ty.eq_ofVar_of_varId? isVar
    have fixed := walk'.get_of_free (o := (id, numeric)) (root id isVar)
    exact .inl ⟨id, numeric, rfl, same.symm.trans ((Ty.assign_ofVar R (id, numeric)).trans fixed)⟩
  | none =>
    refine .inr ⟨rfl, kinded, same, ?_⟩
    rcases ranks with rfl | ⟨id, source, below⟩
    · rw [Ty.varId?_ofVar] at isVar
      cases isVar
    · rw [Ty.varId?_ofVar] at source
      cases source
      exact below

theorem resolveWithin_spec (hops : Nat) (walk : Walk g R dom rank size s) {t : Ty}
    (mono : t.isMono) (known : ∀ o ∈ t.occurrences, g.Knows o ∨ o.1 ∉ dom)
    (enough : ∀ o ∈ t.occurrences, rank o.1 < hops) :
    ∃ s', resolveWithin hops s t = (t.assign R, s') ∧ Walk g R dom rank size s' := by
  induction hops generalizing s t with
  | zero =>
    have closed : ∀ o ∈ t.occurrences, R.get o = ({} : Assignment).get o := fun o member =>
      absurd (enough o member) (Nat.not_lt_zero _)
    exact ⟨s, by rw [resolveWithin, Ty.assign_congr closed, Ty.assign_default], walk⟩
  | succ hops ih =>
    refine Ty.mapVars_spec mono (fun s o walk member => ?_) walk
    obtain ⟨u, s', run, walk', ⟨id, numeric, rfl, root⟩ | ⟨isVar, kinded', same, below⟩⟩ :=
      prune_var_spec walk (known o member)
    · refine ⟨s', ?_, walk'⟩
      simp [run, root, Ty.isVar_of_varId? (Ty.varId?_ofVar id numeric)]
    · have lower : ∀ v ∈ u.occurrences, rank v.1 < hops := by
        intro v inside
        have first := enough o member
        have second := below v inside
        omega
      obtain ⟨s'', run', walk''⟩ := ih walk' kinded'.mono (fun v inside => .inl (kinded'.kinds v inside)) lower
      refine ⟨s'', ?_, walk''⟩
      simp [run, run', same, Ty.isVar_of_varId?_none isVar]

theorem resolve_spec' (walk : Walk g R dom rank size s) {t : Ty} (mono : t.isMono)
    (known : ∀ o ∈ t.occurrences, g.Knows o ∨ o.1 ∉ dom) :
    ∃ s', s.resolve t = (t.assign R, s') ∧ Walk g R dom rank size s' := by
  refine resolveWithin_spec (s.size + 1) walk mono known fun o _ => ?_
  have := walk.small o.1
  rw [walk.size_eq]
  omega

theorem resolve_spec (walk : Walk g R dom rank size s) {t : Ty} (kinded : t.WellKinded g) :
    ∃ s', s.resolve t = (t.assign R, s') ∧ Walk g R dom rank size s' :=
  resolve_spec' walk kinded.mono fun o member => .inl (kinded.kinds o member)

def Mentions (id : VarId) (t : Ty) : Prop := ∃ o ∈ t.occurrences, o.1 = id

theorem occursWithin_spec (hops : Nat) (walk : Walk g R dom rank size s) {id : VarId} {t : Ty}
    (kinded : t.WellKinded g) (enough : ∀ o ∈ t.occurrences, rank o.1 < hops) :
    ∃ b s', occursWithin hops id s t = (b, s') ∧ Walk g R dom rank size s' ∧
      (b = true ↔ Mentions id (t.assign R)) := by
  classical
  induction hops generalizing s t with
  | zero =>
    refine ⟨false, s, rfl, walk, ?_⟩
    constructor
    · simp
    · rintro ⟨o, member, -⟩
      obtain ⟨v, inside, -⟩ := (Ty.mem_occurrences_assign kinded.mono R o).1 member
      exact absurd (enough v inside) (Nat.not_lt_zero _)
  | succ hops ih =>
    obtain ⟨s', run, walk'⟩ : ∃ s', occursWithin (hops + 1) id s t =
        (t.occurrences.any fun o => decide (Mentions id (R.get o)), s') ∧
          Walk g R dom rank size s' := by
      refine Ty.anyVar_spec kinded.mono (fun s o walk member => ?_) walk
      obtain ⟨u, s', run, walk', ⟨other, numeric, rfl, root⟩ | ⟨isVar, kinded', same, below⟩⟩ :=
        prune_var_spec walk (.inl (kinded.kinds o member))
      · refine ⟨s', ?_, walk'⟩
        simp [run, root, Mentions, Ty.occurrences_ofVar, Ty.varId?_ofVar, beq_eq_decide]
      · have lower : ∀ v ∈ u.occurrences, rank v.1 < hops := by
          intro v inside
          have first := enough o member
          have second := below v inside
          omega
        obtain ⟨b, s'', run', walk'', found⟩ := ih walk' kinded' lower
        have answer : b = decide (Mentions id (R.get o)) := by
          rw [← same, Bool.eq_iff_iff, found, decide_eq_true_iff]
        exact ⟨s'', by simp only [run, isVar, run', answer], walk''⟩
    refine ⟨_, s', run, walk', ?_⟩
    simp only [List.any_eq_true, Mentions, Ty.mem_occurrences_assign kinded.mono]
    grind

theorem occurs_spec (walk : Walk g R dom rank size s) (id : VarId) {t : Ty}
    (kinded : t.WellKinded g) :
    ∃ b s', s.occurs id t = (b, s') ∧ Walk g R dom rank size s' ∧
      (b = true ↔ Mentions id (t.assign R)) := by
  refine occursWithin_spec (s.size + 1) walk kinded fun o _ => ?_
  have := walk.small o.1
  rw [walk.size_eq]
  omega

end Walk
end Subst
end StackML
