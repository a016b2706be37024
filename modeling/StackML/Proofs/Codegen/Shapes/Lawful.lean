import StackML.Proofs.Codegen.Shapes.Program
import StackML.Proofs.Typing.Spelling

/-!
What inference accepts can be compiled into verified methods. What a method is compiled at stands for the
variables of its function by their kinds, so the rules hold of the body read that way; and all names in it
that are not its own stand for functions, values or what is held by reference.
-/

namespace StackML

open Descriptor (Nameable)

/-! ### Mappings -/

/-- The mapping has a regular type for each variable, and numeric ones for those that are numeric. -/
def Mapping.Suits (m : Mapping) (g : Supply) : Prop :=
  ∀ id t, m.get? id = some t → t.Regular ∧ (id ∈ g.numeric → t.fitsNumeric)

namespace Mapping.Suits

variable {m : Mapping} {g : Supply} {t : Ty}

theorem assignment (suits : m.Suits g) :
    ∃ θ : Assignment, θ.Kinded ∧ ∀ t : Ty, t.WellKinded g → t.replace m = t.assign θ := by
  classical
  let θ : Assignment :=
    { var := fun id => if id ∈ g.numeric then .var id else (m.get? id).getD (.var id)
      num := fun id => if id ∈ g.numeric then (m.get? id).getD (.num id) else .num id }
  refine ⟨θ, ⟨?_, fun id => ?_⟩, fun t kinded => ?_⟩
  · rintro ⟨id, _ | _⟩
    · rw [Assignment.get_var]
      dsimp only [θ]
      split
      · rfl
      · cases found : m.get? id with
        | none => rfl
        | some t => exact (suits id t found).1.mono
    · rw [Assignment.get_num]
      dsimp only [θ]
      split
      · cases found : m.get? id with
        | none => rfl
        | some t => exact (suits id t found).1.mono
      · rfl
  · dsimp only [θ]
    split
    · next numeric =>
      cases found : m.get? id with
      | none => rfl
      | some t => exact (suits id t found).2 numeric
    · rfl
  · rw [Ty.replace_eq_assign]
    refine Ty.assign_congr fun o occurs => ?_
    obtain ⟨-, kind⟩ := kinded.kinds o occurs
    obtain ⟨id, _ | _⟩ := o
    · have other : id ∉ g.numeric := fun inside => absurd (kind.2 inside) Bool.false_ne_true
      exact (if_neg other).symm
    · exact (if_pos (kind.1 rfl)).symm

theorem regular (suits : m.Suits g) (regular : t.Regular) : (t.replace m).Regular := by
  rw [Ty.replace_eq_assign, Ty.regular_assign regular.mono]
  refine ⟨regular, ?_⟩
  rintro ⟨id, _ | _⟩ -
  all_goals
    dsimp only [Assignment.get, Assignment.ofMapping]
    cases found : m.get? id with
    | none => exact ⟨rfl, rfl⟩
    | some t => exact (suits id t found).1

theorem nil : Mapping.Suits [] g := nofun

end Mapping.Suits

namespace Codegen

open Fragment Verify
open Typing (Typed Checked Completed Derives DeclsDerive)

variable {g : Supply} {body t : Ty} {mapping : Mapping}

theorem get?_withDefaults {id : VarId} (found : (withDefaults body mapping).get? id = some t) :
    mapping.get? id = some t ∨ t = .int := by
  unfold withDefaults at found
  generalize body.numericIds = ids at found
  induction ids generalizing mapping with
  | nil => exact .inl found
  | cons a ids ih =>
    rw [List.foldl_cons] at found
    rcases ih found with known | int
    · split at known
      · exact .inl known
      · rw [Typing.get?_cons] at known
        split at known
        · exact .inr (Option.some.inj known).symm
        · exact .inl known
    · exact .inr int

theorem suits_withDefaults (suits : mapping.Suits g) : (withDefaults body mapping).Suits g := by
  intro id t found
  rcases get?_withDefaults found with known | rfl
  · exact suits id t known
  · exact ⟨⟨rfl, rfl⟩, fun _ => rfl⟩

theorem suits_matchWith (kinded : body.WellKinded g) (regular : t.Regular)
    (matched : body.matchWith t [] = (true, mapping)) : mapping.Suits g := by
  have found := Ty.found_matchWith (c := t) (m := []) kinded.mono (by rw [matched])
  rw [matched] at found
  have whole := found.replaced
  rw [Ty.replace_eq_assign] at whole
  have parts := (Ty.regular_assign kinded.mono).1 (whole.symm ▸ regular)
  intro id u known
  have free : id ∈ body.freeVars := by
    have either := (found.known id).1 (by simp [known])
    simpa [Mapping.get?] using either
  obtain ⟨⟨id, k⟩, occurs, rfl⟩ := Ty.mem_freeVars.1 free
  refine ⟨?_, fun numeric => ?_⟩
  · have here := parts.2 _ occurs
    cases k <;> simpa [Assignment.get, Assignment.ofMapping, known] using here
  · have kind := (kinded.kinds _ occurs).2.2 numeric
    obtain ⟨v, same, fits⟩ := found.numeric id (Ty.mem_numericIds.2 (kind ▸ occurs))
    cases known.symm.trans same
    exact fits

/-! ### Declarations -/

variable {host : Host.Resolver} {c : Checked} {θ : Assignment} {Γ Γ' : Typing.Context}

theorem Surrounds.declare {name : String} (h : Surrounds c Γ []) (global : Global c name t) :
    Surrounds c (Γ.extend name t) [] := by
  intro other u found fresh plain
  rw [Typing.Context.extend] at found
  split at found
  · next same =>
    cases found
    exact same ▸ global
  · exact h other u found fresh plain

/-- What the rules say of a declaration, with names around it of which it is known what they stand for. -/
def Obeys (host : Host.Resolver) (c : Checked) (θ : Assignment) : Decl Typed → Prop
  | .fn d => (∃ Γ, Derives host c.ctors θ Γ d.body ∧ Surrounds c Γ (d.params.map (·.name))) ∧
      (∃ vars, c.functions.get? d.name = some ⟨d, d.note.type.quantify vars⟩) ∧
      (0 < d.params.length → ∃ a b, d.note.type = .fn a b)
  | .value d => (∃ Γ, Derives host c.ctors θ Γ d.value ∧ Surrounds c Γ []) ∧
      d.note.type = d.value.note.type ∧ c.values.get? d.name = some d.note.type
  | .type _ => True

theorem body_fn_quantify (a b : Ty) (vars : List VarId) : ((Ty.fn a b).quantify vars).body = .fn a b := by
  cases vars <;> rfl

theorem obeys_of_declsDerive {ds : List (Decl Typed)} (h : DeclsDerive host c θ Γ ds Γ') (kinded : θ.Kinded)
    (apart : ∀ {name F}, c.functions.get? name = some F → c.values.get? name = none)
    (around : Surrounds c Γ []) : Surrounds c Γ' [] ∧ ∀ d ∈ ds, Obeys host c θ d := by
  induction h with
  | nil => exact ⟨around, List.forall_mem_nil _⟩
  | type _ ih =>
    obtain ⟨after, each⟩ := ih around
    exact ⟨after, List.forall_mem_cons.2 ⟨trivial, each⟩⟩
  | @fn Γ Γ' d rest ps vars lengths type _ body found _ ih =>
    have arrow : 0 < d.params.length → ∃ a b, d.note.type = .fn a b := by
      intro some
      cases ps with
      | nil =>
        rw [← lengths] at some
        cases some
      | cons p ps => exact ⟨p, _, type⟩
    have global (vars : List VarId) : Global c d.name (d.note.type.quantify vars) := by
      rcases Nat.eq_zero_or_pos d.params.length with none | some
      · exact .inl ⟨_, found, none⟩
      · obtain ⟨a, b, same⟩ := arrow some
        refine .inr (.inr ?_)
        rw [same, body_fn_quantify]
        exact Ty.boxed_fn a b
    obtain ⟨after, each⟩ := ih (around.declare (global vars))
    refine ⟨after, List.forall_mem_cons.2 ⟨⟨⟨_, body θ kinded fun _ _ => ⟨rfl, rfl⟩, ?_⟩, ⟨vars, found⟩, arrow⟩,
      each⟩⟩
    have inside := (around.declare (global [])).extendAll (d.params.map (·.name)) ps
    rwa [List.append_nil] at inside
  | @value Γ Γ' d rest value type found _ ih =>
    have global : Global c d.name d.note.type := by
      refine .inr (.inl ⟨Option.eq_none_iff_forall_ne_some.2 fun F function => ?_, ?_⟩)
      · cases (apart function).symm.trans found
      · rw [NameMap.contains, found]
        rfl
    obtain ⟨after, each⟩ := ih (around.declare global)
    exact ⟨after, List.forall_mem_cons.2 ⟨⟨⟨Γ, value, around⟩, type, found⟩, each⟩⟩

/-! ### Modules -/

/-- The expressions of a module have no recursive functions and no function that captures too much. -/
def isModest {α : Type} (m : Module α) : Bool :=
  (m.decls.all fun
    | .fn d => d.body.isModest (d.params.map (·.name))
    | .value d => d.value.isModest []
    | .type _ => true) && m.main.all (Expr.isModest [])

/-- Whether the constructor of a class has an argument. -/
def payloadOf (c : Checked) (k : Constant) : Option Bool :=
  (c.ctors.entries.findSome? fun entry => (c.ctors.get? entry.1).filter (classOf c · = k)).map (·.hasArg)

variable {m : Module Position} {names : List String} {e : Expr Typed}

theorem isModest_of_erased (complete : Completed host m g c) (modest : isModest m) : isModest c.module := by
  obtain ⟨decls, main⟩ := complete.erased
  rw [isModest, ← decls, ← main, List.all_map, Option.all_map] at modest
  rw [isModest, Bool.and_eq_true, List.all_eq_true]
  obtain ⟨each, last⟩ := Bool.and_eq_true_iff.1 modest
  refine ⟨fun d listed => ?_, ?_⟩
  · have here := List.all_eq_true.1 each d listed
    cases d with
    | fn d => exact (Expr.isModest_mapNotes _ _ _).symm.trans here
    | value d => exact (Expr.isModest_mapNotes _ _ _).symm.trans here
    | type d => rfl
  · cases found : c.module.main with
    | none => rfl
    | some e =>
      rw [found] at last
      exact (Expr.isModest_mapNotes _ _ _).symm.trans last

/-- Constructors are told apart by their classes, unless an imported module has the name of the module itself. -/
theorem key_of_classOf (complete : Completed host m g c) (other : m.name ∉ m.imports) (named : "" ∉ m.imports)
    {key key' : String} {info info' : Typing.Constructor} (found : c.ctors.get? key = some info)
    (found' : c.ctors.get? key' = some info') (same : classOf c info = classOf c info') : key = key' := by
  have owners := Text.ofString_injective (congrArg Constant.owner same)
  have names := Text.ofString_injective (congrArg Constant.name same)
  have apart {info info' : Typing.Constructor} (own : info.module = "") (inside : info'.module ∈ m.imports)
      (owners : (if info.module != "" then info.module else if info.sum == Names.result then "" else c.module.name) =
        if info'.module != "" then info'.module else if info'.sum == Names.result then "" else c.module.name) :
      False := by
    have filled : info'.module ≠ "" := fun empty => named (empty ▸ inside)
    rw [own, if_neg (by decide), if_pos (bne_iff_ne.2 filled), complete.name] at owners
    split at owners
    · exact filled owners.symm
    · exact other (owners ▸ inside)
  rcases (complete.shaped found).2 with ⟨own, rfl⟩ | ⟨inside, rfl⟩ <;>
    rcases (complete.shaped found').2 with ⟨own', rfl⟩ | ⟨inside', rfl⟩
  · exact names
  · exact (apart own inside' owners).elim
  · exact (apart own' inside owners.symm).elim
  · have filled {info : Typing.Constructor} (inside : info.module ∈ m.imports) : info.module ≠ "" :=
      fun empty => named (empty ▸ inside)
    rw [if_pos (bne_iff_ne.2 (filled inside)), if_pos (bne_iff_ne.2 (filled inside'))] at owners
    rw [owners, names]

theorem payloadOf_classOf (complete : Completed host m g c) (other : m.name ∉ m.imports) (named : "" ∉ m.imports)
    {key : String} {info : Typing.Constructor} (found : c.ctors.get? key = some info) :
    payloadOf c (classOf c info) = some info.hasArg := by
  unfold payloadOf
  cases listed : c.ctors.entries.findSome? fun entry =>
      (c.ctors.get? entry.1).filter (classOf c · = classOf c info) with
  | none =>
    have none := List.findSome?_eq_none_iff.1 listed _ (Typing.mem_of_get? found)
    simp [found] at none
  | some info' =>
    obtain ⟨entry, -, here⟩ := List.exists_of_findSome?_eq_some listed
    obtain ⟨found', same⟩ := Option.filter_eq_some_iff.1 here
    obtain rfl := key_of_classOf complete other named found' found (of_decide_eq_true same)
    rw [Option.some.inj (found'.symm.trans found)]
    rfl

theorem allows_of_suits (complete : Completed host m g c) (legible : c.Legible) (suits : mapping.Suits g)
    (noted : ∀ n ∈ e.notes, n ∈ c.notes) (modest : e.isModest names)
    (obeys : ∀ θ : Assignment, θ.Kinded → ∃ Γ, Derives host c.ctors θ Γ e ∧ Surrounds c Γ names) :
    Context.Allows { checked := c, mapping } names host e := by
  obtain ⟨θ, kinded, same⟩ := suits.assignment
  obtain ⟨Γ, derives, around⟩ := obeys θ kinded
  refine ⟨θ, Γ, kinded, derives, fun n inside => ?_, modest, around⟩
  have known := complete.notes n (noted n inside)
  exact ⟨same _ known, suits.regular ⟨known.mono, legible.notes n (noted n inside)⟩⟩

theorem obeys_of_complete (complete : Completed host m g c) {θ : Assignment} (kinded : θ.Kinded) :
    (∀ d ∈ c.module.decls, Obeys host c θ d) ∧
      ∀ e, c.module.main = some e → ∃ Γ, Derives host c.ctors θ Γ e ∧ Surrounds c Γ [] := by
  obtain ⟨Γ, boxed, derives⟩ := complete.derives
  obtain ⟨Γ', decls, main⟩ := derives θ kinded
  have around : Surrounds c Γ [] := fun name t found _ plain => .inr (.inr (boxed name t found plain))
  obtain ⟨after, each⟩ := obeys_of_declsDerive decls kinded (fun found => (complete.filed found).2) around
  exact ⟨each, fun e found => ⟨Γ', main e found, after⟩⟩

section

variable (complete : Completed host m g c) (legible : c.Legible) (modest : isModest c.module)

include complete legible modest

theorem lawful_function {name method : String} {F : Typing.Function} {type : Ty}
    (found : c.functions.get? name = some F) (suits : mapping.Suits g) (readable : type.isLegible) :
    Specialization.Lawful host c { fn := F, name := method, type, mapping } := by
  obtain ⟨-, -, listed⟩ := complete.functions found
  refine ⟨readable, allows_of_suits complete legible suits ?_ ?_ fun θ kinded => ?_⟩
  · intro n inside
    refine List.mem_append_left _ (List.mem_flatMap.2 ⟨_, listed, ?_⟩)
    exact List.mem_cons_of_mem _ inside
  · have each := (Bool.and_eq_true_iff.1 modest).1
    exact List.all_eq_true.1 each _ listed
  · exact ((obeys_of_complete complete kinded).1 _ listed).1

theorem supports_of_complete {payload : Constant → Option Bool}
    (known : ∀ {key info}, c.ctors.get? key = some info → payload (classOf c info) = some info.hasArg) :
    Supports payload (Specialization.Lawful host c) c where
  named found :=
    have ⟨named, readable⟩ := legible.functions.get? found
    ⟨named, Ty.isLegible_body readable⟩
  plain found := (complete.functions found).2.1
  arrow := by
    intro key F found some
    obtain ⟨-, -, listed⟩ := complete.functions found
    obtain ⟨-, ⟨vars, again⟩, arrow⟩ := (obeys_of_complete complete Assignment.kinded_default).1 _ listed
    rw [(complete.filed found).1, found] at again
    obtain ⟨a, b, same⟩ := arrow some
    refine ⟨a, b, ?_⟩
    rw [Option.some.inj again, same]
    exact body_fn_quantify a b vars
  values found := legible.values.get? found
  ctors := by
    intro key info found
    obtain ⟨named, sum, -⟩ := legible.ctors.get? found
    obtain ⟨shaped, placed⟩ := complete.shaped found
    exact ⟨named, sum, placed.own, known found, shaped.alone, shaped.applied⟩
  promised := by
    intro key F t mapping found regular matched
    have kinded := (complete.functions found).1
    have suits : (withDefaults F.type.body mapping).Suits g :=
      suits_withDefaults (suits_matchWith kinded regular matched)
    have readable := suits.regular ⟨kinded.mono, Ty.isLegible_body (legible.functions.get? found).2⟩
    exact ⟨readable.legible, fun name => lawful_function complete legible modest found suits readable.legible⟩

theorem outset_of_complete : Outset host c where
  uses member := ⟨complete.uses member, legible.usesOf member⟩
  own found _ := lawful_function complete legible modest found .nil (legible.functions.get? found).2
  unused := by
    intro key F found _
    have suits : (withDefaults F.type.body []).Suits g := suits_withDefaults .nil
    have readable := suits.regular
      ⟨(complete.functions found).1.mono, Ty.isLegible_body (legible.functions.get? found).2⟩
    exact lawful_function complete legible modest found suits readable.legible
  values := by
    intro d listed
    obtain ⟨-, type, found⟩ := (obeys_of_complete complete Assignment.kinded_default).1 _ listed
    have noted : ∀ n ∈ d.value.notes, n ∈ c.notes := fun n inside =>
      List.mem_append_left _ (List.mem_flatMap.2 ⟨_, listed, List.mem_cons_of_mem _ inside⟩)
    refine ⟨by rw [found]; exact type, legible.notes _ (noted _ d.value.note_mem_notes), ?_⟩
    refine allows_of_suits complete legible .nil noted ?_ fun θ kinded =>
      ((obeys_of_complete complete kinded).1 _ listed).1
    exact List.all_eq_true.1 (Bool.and_eq_true_iff.1 modest).1 _ listed
  main := by
    intro e found
    have noted : ∀ n ∈ e.notes, n ∈ c.notes := fun n inside => List.mem_append_right _ <| by
      rw [found]
      exact inside
    refine ⟨?_, allows_of_suits complete legible .nil noted ?_ fun θ kinded =>
      (obeys_of_complete complete kinded).2 e found⟩
    · rw [complete.main, found]
      exact legible.notes _ (noted _ e.note_mem_notes)
    · have main := (Bool.and_eq_true_iff.1 modest).2
      rw [found] at main
      exact main

end

end Codegen
end StackML
