import StackML.Proofs.Semantics.Soundness
import StackML.Proofs.Text
import StackML.Proofs.Typing.Opening

/-!
The constructors that a module without imports knows. Inference finds them under their names and
evaluation by their classes; `Registers` says that both agree, and that the sum types list them all.
-/

namespace StackML.Typing

open Semantics (builtinClasses classesFrom declClasses classes Describes)

def Constructor.classIn (module : String) (c : Constructor) : HolderClass where
  owner := if c.sum = Names.result then .empty else module
  name := c.name
  sum := c.sum
  tag := .ofNat c.index
  hasArg := c.hasArg

structure Constructor.Own (c : Constructor) (name : String) : Prop where
  module_eq : c.module = ""
  name_eq : c.name = name
  builtin : c.sum = Names.result → name = Names.ok ∨ name = Names.error
  bare : c.hasArg = false → c.type.body.isSum
  filled : c.hasArg = true → ∃ arg self, c.type.body = .fn arg self ∧ self.isSum ∧ self.isMono ∧
    ∀ o ∈ arg.occurrences, o ∈ self.occurrences

variable {module name : String} {table : List (String × HolderClass)} {ctors : NameMap Constructor}
variable {sums : NameMap (List String)} {c : Constructor}

structure Registers (module : String) (table : List (String × HolderClass))
    (ctors : NameMap Constructor) (sums : NameMap (List String)) : Prop where
  classed : ∀ name, table.lookup name = (ctors.get? name).map (Constructor.classIn module)
  own : ∀ {name c}, ctors.get? name = some c → c.Own name
  listed : ∀ {sum names name}, (sum, names) ∈ sums.entries → name ∈ names →
    ∃ c, ctors.get? name = some c ∧ c.sum = sum
  complete : ∀ {name c}, ctors.get? name = some c →
    ∃ names, (c.sum, names) ∈ sums.entries ∧ name ∈ names

namespace Registers

theorem name_of_lookup (h : Registers module table ctors sums) {cls : HolderClass}
    (found : table.lookup name = some cls) : cls.name = name := by
  rw [h.classed, Option.map_eq_some_iff] at found
  obtain ⟨c, known, rfl⟩ := found
  exact congrArg Text.ofString (h.own known).name_eq

theorem describes (h : Registers module table ctors sums) : Describes table ctors where
  classed {name c} found := ⟨c.classIn module, by rw [h.classed, found]; rfl, rfl⟩
  apart first second := Text.ofString_injective <|
    (h.name_of_lookup first).symm.trans (h.name_of_lookup second)
  bare found := (h.own found).bare
  filled found := (h.own found).filled

end Registers

/-! ### The constructors of a sum type -/

def constructorsFrom (sum : String) (typeOf : Option Ty → Ty) :
    (index : Nat) → List CtorDecl → List (String × Constructor)
  | _, [] => []
  | index, c :: rest =>
    (c.name, { name := c.name, sum, index, hasArg := c.arg.isSome, type := typeOf c.arg }) ::
      constructorsFrom sum typeOf (index + 1) rest

variable {sum : String} {typeOf : Option Ty → Ty} {index : Nat} {decls : List CtorDecl}

theorem classesFrom_eq (other : sum ≠ Names.result) :
    classesFrom module sum index decls =
      (constructorsFrom sum typeOf index decls).map fun e => (e.1, e.2.classIn module) := by
  induction decls generalizing index with
  | nil => rfl
  | cons d decls ih =>
    simp only [classesFrom, constructorsFrom, List.map_cons, ih, Constructor.classIn, if_neg other]

theorem lookup_constructorsFrom (found : (constructorsFrom sum typeOf index decls).lookup name = some c) :
    c.module = "" ∧ c.name = name ∧ c.sum = sum ∧
      ∃ d ∈ decls, d.name = name ∧ c.hasArg = d.arg.isSome ∧ c.type = typeOf d.arg := by
  induction decls generalizing index with
  | nil => cases found
  | cons d decls ih =>
    rw [constructorsFrom, List.lookup_cons] at found
    split at found
    · next same =>
      cases found
      have same : name = d.name := by simpa using same
      exact ⟨rfl, same.symm, rfl, d, List.mem_cons_self, same.symm, rfl, rfl⟩
    · obtain ⟨module, named, built, d', member, rest⟩ := ih found
      exact ⟨module, named, built, d', List.mem_cons_of_mem d member, rest⟩

theorem lookup_constructorsFrom_isSome (member : name ∈ decls.map (·.name)) :
    ∃ c, (constructorsFrom sum typeOf index decls).lookup name = some c := by
  induction decls generalizing index with
  | nil => cases member
  | cons d decls ih =>
    rw [constructorsFrom, List.lookup_cons]
    split
    · exact ⟨_, rfl⟩
    · next other =>
      rw [List.map_cons, List.mem_cons] at member
      exact ih (member.resolve_left fun same => by simp [same] at other)

theorem body_ctorType_none (params : List (String × Ty)) {self : Ty} (built : self.isSum) :
    (ctorType params self none).body = self := by
  simp only [ctorType]
  split
  · cases self <;> first | rfl | cases built
  · rfl

theorem body_ctorType_some (params : List (String × Ty)) (self a : Ty) :
    (ctorType params self (some a)).body = .fn (bindTypeParams params a) self := by
  simp only [ctorType]
  split <;> rfl

/-- The variables of a sum type are its parameters, and no others are in the arguments of its
constructors. -/
theorem ctorType_own {names : List String} {vs : List Ty} {low last : VarId} (ordered : low ≤ last)
    (each : ∀ v ∈ vs, ∃ id, v = .var id ∧ low < id ∧ id ≤ last)
    (plain : ∀ d ∈ decls, ∀ a, d.arg = some a → a.isMono ∧ a.occurrences = [])
    (other : sum ≠ Names.result)
    (found : (constructorsFrom sum (ctorType (names.zip vs).reverse
      (if vs.isEmpty then .named sum else .app sum vs)) index decls).lookup name = some c) :
    c.Own name := by
  obtain ⟨module, named, built, d, member, -, filled, type⟩ := lookup_constructorsFrom found
  generalize selfEq : (if vs.isEmpty then Ty.named sum else .app sum vs) = self at type
  have isSum : self.isSum := by
    rw [← selfEq]
    split <;> rfl
  have isMono : self.isMono := by
    rw [← selfEq]
    split
    · rfl
    · simp only [Ty.isMono, Ty.isMonoAll_eq, List.all_eq_true]
      intro v inside
      obtain ⟨id, rfl, -⟩ := each v inside
      rfl
  have covers : ∀ v ∈ vs, ∀ o ∈ v.occurrences, o ∈ self.occurrences := by
    intro v inside o occurs
    rw [← selfEq, if_neg (by simpa using List.ne_nil_of_mem inside)]
    simp only [Ty.occurrences, Ty.occurrencesAll_eq, List.mem_flatMap]
    exact ⟨v, inside, occurs⟩
  refine ⟨module, named, fun result => (other (built.symm.trans result)).elim, fun bare => ?_,
    fun hasArg => ?_⟩
  · have none : d.arg = none := by simpa [filled] using bare
    rw [type, none, body_ctorType_none _ isSum]
    exact isSum
  · obtain ⟨a, some⟩ := Option.isSome_iff_exists.1 (filled.symm.trans hasArg)
    refine ⟨_, self, by rw [type, some, body_ctorType_some], isSum, isMono, fun o occurs => ?_⟩
    have inside : ∀ e ∈ (names.zip vs).reverse, e.2 ∈ vs := fun e member =>
      (List.of_mem_zip (List.mem_reverse.1 member)).2
    have given : ∀ v ∈ vs, v.WellKinded ⟨∅, low, last, ordered, by simp⟩ := by
      intro v member
      obtain ⟨id, rfl, bounds⟩ := each v member
      exact ⟨rfl, by simpa [Ty.occurrences, Supply.Knows, Supply.Gave] using bounds⟩
    obtain ⟨mono, closed⟩ := plain d member a some
    obtain ⟨e, member, occurs⟩ :=
      (bindTypeParams_spec (fun e member => given e.2 (inside e member)) mono closed).2 o occurs
    exact covers e.2 (inside e member) o occurs

/-! ### Declarations -/

variable {p p' : Progress} {s s' : State}

theorem declareCtors_ok {place : Position}
    (run : declareCtors place sum typeOf p index decls s = .ok p' s') :
    s'.sums = s.sums ∧ p.declared ⊆ p'.declared ∧ (decls.map (·.name)).Nodup ∧
      (∀ name ∈ decls.map (·.name), s.ctors.get? name = none) ∧
      ∀ name, s'.ctors.get? name =
        (s.ctors.get? name).or ((constructorsFrom sum typeOf index decls).lookup name) := by
  induction decls generalizing p index s with
  | nil =>
    cases run
    exact ⟨rfl, List.Subset.refl _, List.nodup_nil, by simp, by simp [constructorsFrom]⟩
  | cons d decls ih =>
    simp only [declareCtors] at run
    obtain ⟨p₁, s₁, runD, run⟩ := bind_ok run
    obtain ⟨rfl, rfl, -⟩ := declare_env runD
    obtain ⟨_, _, runG, run⟩ := bind_ok run
    cases runG
    split at run
    · obtain ⟨_, _, failed, -⟩ := bind_ok run
      exact (not_refuse_ok failed).elim
    · next fresh =>
      obtain ⟨_, s₂, runM, run⟩ := bind_ok run
      cases runM
      obtain ⟨sums, declared, distinct, new, each⟩ := ih run
      have absent : s₁.ctors.get? d.name = none := by simpa [NameMap.contains] using fresh
      refine ⟨sums, fun name member => declared (List.mem_cons_of_mem _ member),
        List.nodup_cons.2 ⟨fun again => ?_, distinct⟩, ?_, fun name => ?_⟩
      · have none := new d.name again
        rw [NameMap.get?_insert_self] at none
        cases none
      · rw [List.map_cons, List.forall_mem_cons]
        refine ⟨absent, fun name member => ?_⟩
        have none := new name member
        rw [NameMap.get?_insert] at none
        split at none
        · cases none
        · exact none
      rw [each, NameMap.get?_insert, constructorsFrom, List.lookup_cons]
      by_cases same : name = d.name
      · subst same
        simp [absent]
      · simp [same, beq_eq_false_iff_ne.2 same]

structure Declares (module : String) (table : List (String × HolderClass)) (p : Progress)
    (s : State) : Prop extends Registers module table s.ctors s.sums where
  declared : ∀ {sum names}, (sum, names) ∈ s.sums.entries → sum = Names.result ∨ sum ∈ p.declared

theorem declareType_declares {d : TypeDecl Position}
    (plain : ∀ c ∈ d.ctors, ∀ a, c.arg = some a → a.isMono ∧ a.occurrences = [])
    (h : Declares module table p s) (run : declareType p d s = .ok p' s') :
    Declares module (table ++ classesFrom module d.name 0 d.ctors) p' s' := by
  unfold declareType at run
  obtain ⟨p₁, s₁, runD, run⟩ := bind_ok run
  obtain ⟨rfl, rfl, unused⟩ := declare_env runD
  split at run
  · obtain ⟨_, _, failed, -⟩ := bind_ok run
    exact (not_refuse_ok failed).elim
  next allowed =>
  have other : d.name ≠ Names.result := fun same => by simp [same] at allowed
  obtain ⟨⟨vs, _⟩, s₂, runP, run⟩ := bind_ok run
  obtain ⟨last, rfl, le, -, each⟩ := bindParams_fresh runP
  obtain ⟨p₂, s₃, runC, run⟩ := bind_ok run
  obtain ⟨_, s₄, runM, run⟩ := bind_ok run
  cases runM
  cases run
  obtain ⟨sums, declared, -, absent, ctors⟩ := declareCtors_ok runC
  simp only at sums absent ctors
  -- a sum type of this name has not been declared
  have new : ∀ {sum names}, (sum, names) ∈ s₁.sums.entries → sum ≠ d.name := by
    rintro _ names member rfl
    exact (h.declared member).elim other unused
  have entry : ∀ {sum names}, (sum, names) ∈ (s₃.sums.insert d.name (d.ctors.map (·.name))).entries ↔
      sum = d.name ∧ names = d.ctors.map (·.name) ∨ (sum, names) ∈ s₁.sums.entries := by
    intro sum names
    simp only [NameMap.insert, sums, List.mem_cons, Prod.mk.injEq, List.mem_filter, bne_iff_ne]
    exact or_congr_right (and_iff_left_of_imp new)
  constructor
  constructor
  · intro name
    rw [List.lookup_append, h.classed, classesFrom_eq other, NameMap.lookup_map, ctors]
    cases s₁.ctors.get? name <;> rfl
  · intro name c found
    rw [ctors, Option.or_eq_some_iff] at found
    rcases found with known | ⟨-, found⟩
    · exact h.own known
    · exact ctorType_own le each plain other found
  · intro sum names name member inside
    rcases entry.1 member with ⟨rfl, rfl⟩ | member
    · obtain ⟨c, found⟩ := lookup_constructorsFrom_isSome inside
      exact ⟨c, by rw [ctors, absent name inside]; exact found, (lookup_constructorsFrom found).2.2.1⟩
    · obtain ⟨c, known, built⟩ := h.listed member inside
      exact ⟨c, by rw [ctors, known]; rfl, built⟩
  · intro name c found
    rw [ctors, Option.or_eq_some_iff] at found
    rcases found with known | ⟨-, found⟩
    · obtain ⟨names, member, inside⟩ := h.complete known
      exact ⟨names, entry.2 (.inr member), inside⟩
    · obtain ⟨-, -, built, d', member, named, -⟩ := lookup_constructorsFrom found
      exact ⟨_, entry.2 (.inl ⟨built, rfl⟩), List.mem_map.2 ⟨d', member, named⟩⟩
  · intro sum names member
    rcases entry.1 member with ⟨rfl, -⟩ | member
    · exact .inr (declared List.mem_cons_self)
    · exact (h.declared member).imp_right fun old => declared (List.mem_cons_of_mem _ old)

def resultCtor (name : String) (index : Nat) (part : VarId) : Constructor where
  name := name
  sum := Names.result
  index := index
  hasArg := true
  type := .scheme [2, 3] (.fn (.var part) (.result (.var 2) (.var 3)))

theorem resultCtor_own {part : VarId} (inside : part ∈ [(2 : VarId), 3])
    (known : name = Names.ok ∨ name = Names.error) : (resultCtor name index part).Own name where
  module_eq := rfl
  name_eq := rfl
  builtin _ := known
  bare none := nomatch none
  filled _ := ⟨_, _, rfl, rfl, rfl, by simpa [Ty.occurrences] using inside⟩

theorem baseEnv_declares {env : Env} (run : baseEnv {} = .ok env s) :
    Declares module builtinClasses { env } s := by
  have ctors : s.ctors.entries =
      [(Names.error, resultCtor Names.error 1 3), (Names.ok, resultCtor Names.ok 0 2)] := by
    cases run
    rfl
  have sums : s.sums.entries = [(Names.result, [Names.ok, Names.error])] := by
    cases run
    rfl
  have known : ∀ {name c}, s.ctors.get? name = some c → c.Own name ∧ c.sum = Names.result ∧
      name ∈ [Names.ok, Names.error] := by
    intro name c found
    have member := mem_of_get? found
    rw [ctors, List.mem_pair] at member
    rcases member with same | same
    · cases same
      exact ⟨resultCtor_own (by simp) (.inr rfl), rfl, by simp⟩
    · cases same
      exact ⟨resultCtor_own (by simp) (.inl rfl), rfl, by simp⟩
  have get : ∀ name, s.ctors.get? name = s.ctors.entries.lookup name := fun name => rfl
  constructor
  constructor
  · intro name
    rw [get, ctors]
    simp only [builtinClasses, List.lookup_cons, List.lookup_nil]
    by_cases ok : name = Names.ok
    · subst ok
      rfl
    · by_cases error : name = Names.error
      · subst error
        rfl
      · simp [beq_eq_false_iff_ne.2 ok, beq_eq_false_iff_ne.2 error]
  · exact fun found => (known found).1
  · intro sum names name member inside
    rw [sums, List.mem_singleton] at member
    cases member
    rcases List.mem_pair.1 inside with rfl | rfl
    · exact ⟨resultCtor Names.ok 0 2, by rw [get, ctors]; rfl, rfl⟩
    · exact ⟨resultCtor Names.error 1 3, by rw [get, ctors]; rfl, rfl⟩
  · intro name c found
    obtain ⟨-, built, inside⟩ := known found
    exact ⟨_, by rw [sums, built]; exact List.mem_cons_self, inside⟩
  · intro sum names member
    rw [sums, List.mem_singleton] at member
    cases member
    exact .inl rfl

theorem declareTypes_declares {decls : List (Decl Position)}
    (plain : ∀ d, .type d ∈ decls → ∀ c ∈ d.ctors, ∀ a, c.arg = some a → a.isMono ∧ a.occurrences = [])
    (h : Declares module table p s)
    (run : (decls.foldlM (fun p d => match d with
      | .type d => declareType p d
      | _ => pure p) p : Infer Progress) s = .ok p' s') :
    Declares module (table ++ decls.flatMap (declClasses module)) p' s' := by
  induction decls generalizing table p s with
  | nil =>
    cases run
    simpa using h
  | cons d decls ih =>
    rw [List.foldlM_cons] at run
    obtain ⟨p₁, s₁, first, rest⟩ := bind_ok run
    rw [List.flatMap_cons, ← List.append_assoc]
    refine ih (fun d member => plain d (List.mem_cons_of_mem _ member)) ?_ rest
    cases d with
    | type d => exact declareType_declares (plain d List.mem_cons_self) h first
    | fn d | value d =>
      cases first
      simpa [declClasses] using h

theorem openScope_registers {importer : Option Importer} {m : Module Position}
    (alone : m.imports = []) (plain : CtorArgsPlain m)
    (run : openScope importer m {} = .ok p s) :
    Registers m.name (classes m) s.ctors s.sums := by
  unfold openScope at run
  rw [alone] at run
  obtain ⟨env, s₁, runB, run⟩ := bind_ok run
  obtain ⟨env₁, s₂, runI, run⟩ := bind_ok run
  cases runI
  exact (declareTypes_declares plain (baseEnv_declares runB) run).toRegisters

end StackML.Typing
