import StackML.Proofs.Codegen.Making.Program
import StackML.Proofs.Interface
import StackML.Proofs.Text
import StackML.Proofs.Ty.Suffix
import StackML.Proofs.Typing.Filing
import StackML.Proofs.Typing.Importing

/-!
What a module exports, and what becomes of its constructors in a module that imports it. The
constructors follow the functions and values in the descriptor, sum type by sum type; they arrive as
they are unless a function or value is exported under the name of a factory.
-/

namespace StackML.Codegen

open Typing (Checked Constructor Lists Ordered Registered factoryOf? CtorArgsPlain)

variable {c : Checked} {types : Set (TypeDecl Position)} {artifact : Artifact} {i : Interface}

/-! ### The constructors of a module -/

/-- The constructors of a module's own sum types, in the order in which it exports them. -/
def ownConstructors (c : Checked) : List Constructor :=
  (ownSums c).flatMap fun e => e.2.filterMap c.ctors.get?

theorem mem_ownSums {sum : String} {names : List String} :
    (sum, names) ∈ ownSums c ↔ (sum, names) ∈ c.sums.entries ∧ sum ≠ Names.result := by
  rw [ownSums, List.mem_filter, NameMap.toSortedList, List.mem_mergeSort, bne_iff_ne]

theorem distinct_ownSums (lists : Lists types c.sums c.ctors) :
    ((ownSums c).map Prod.fst).Nodup := by
  have sorted : (c.sums.toSortedList.map Prod.fst).Nodup :=
    ((List.mergeSort_perm _ _).map Prod.fst).nodup_iff.2 lists.distinct
  exact sorted.sublist ((List.filter_sublist).map Prod.fst)

theorem declared_of_mem_ownSums (lists : Lists types c.sums c.ctors)
    {e : String × List String} (member : e ∈ ownSums c) :
    ∃ d ∈ types, e = (d.name, d.ctors.map (·.name)) := by
  obtain ⟨sum, names⟩ := e
  obtain ⟨inside, other⟩ := mem_ownSums.1 member
  obtain ⟨d, known, rfl, rfl⟩ := (lists.known inside).resolve_left other
  exact ⟨d, known, rfl⟩

theorem mem_ownConstructors (lists : Lists types c.sums c.ctors) {info : Constructor} :
    info ∈ ownConstructors c ↔ ∃ d ∈ types, ∃ k, ∃ ctor, d.ctors[k]? = some ctor ∧
      c.ctors.get? ctor.name = some info ∧ info.DeclaredAt d.name k ctor := by
  simp only [ownConstructors, List.mem_flatMap, List.mem_filterMap]
  constructor
  · rintro ⟨e, member, name, inside, found⟩
    obtain ⟨d, known, rfl⟩ := declared_of_mem_ownSums lists member
    obtain ⟨ctor, listed, rfl⟩ := List.mem_map.1 inside
    obtain ⟨k, at_⟩ := List.mem_iff_getElem?.1 listed
    obtain ⟨info', found', placed⟩ := lists.placed d known k ctor at_
    cases found.symm.trans found'
    exact ⟨d, known, k, ctor, at_, found, placed⟩
  · rintro ⟨d, known, k, ctor, at_, found, -⟩
    obtain ⟨other, entry⟩ := lists.listed d known
    exact ⟨_, mem_ownSums.2 ⟨entry, other⟩, ctor.name,
      List.mem_map_of_mem (List.mem_of_getElem? at_), found⟩

theorem filterMap_placed {sum : String} {ctors : List CtorDecl} (first : Nat)
    (placed : ∀ k ctor, ctors[k]? = some ctor → ∃ info, c.ctors.get? ctor.name = some info ∧
      info.DeclaredAt sum (first + k) ctor) :
    ∀ k info, ((ctors.map (·.name)).filterMap c.ctors.get?)[k]? = some info →
      info.sum = sum ∧ info.index = first + k := by
  induction ctors generalizing first with
  | nil => simp
  | cons ctor ctors ih =>
    obtain ⟨info, found, declared⟩ := placed 0 ctor rfl
    rw [List.map_cons, List.filterMap_cons_some found]
    rintro (_ | k) info' at_
    · cases at_
      exact ⟨declared.sum_eq, declared.index_eq⟩
    · have rest := ih (first + 1)
        (fun k ctor found => by
          rw [Nat.add_assoc, Nat.add_comm 1]
          exact placed (k + 1) ctor found) k info' at_
      exact ⟨rest.1, by omega⟩

theorem ordered_flatMap {sums : List (String × List String)}
    {block : String × List String → List Constructor} (distinct : (sums.map Prod.fst).Nodup)
    (each : ∀ e ∈ sums, ∀ k, ∀ info : Constructor, (block e)[k]? = some info →
      info.sum = e.1 ∧ info.index = k) :
    Ordered (sums.flatMap block) := by
  induction sums with
  | nil => simp [Ordered]
  | cons e sums ih =>
    rw [List.map_cons, List.nodup_cons] at distinct
    rw [List.forall_mem_cons] at each
    have own : ∀ info ∈ block e, info.sum = e.1 := fun info member => by
      obtain ⟨k, at_⟩ := List.mem_iff_getElem?.1 member
      exact (each.1 k info at_).1
    intro before info behind split
    -- a constructor behind the first block is of another sum type than all of that block
    have later : ∀ before', before = block e ++ before' →
        sums.flatMap block = before' ++ info :: behind →
        info.index = before.countP (·.sum = info.sum) := by
      rintro before' rfl rest
      obtain ⟨e', inside, held⟩ := List.mem_flatMap.1 (show info ∈ sums.flatMap block by simp [rest])
      obtain ⟨k, at_⟩ := List.mem_iff_getElem?.1 held
      have other : e'.1 ≠ e.1 := fun same => distinct.1 (same ▸ List.mem_map_of_mem inside)
      have none : (block e).countP (·.sum = info.sum) = 0 := by
        refine List.countP_eq_zero.2 fun d within => ?_
        rw [own d within, (each.2 e' inside k info at_).1]
        simpa using Ne.symm other
      rw [List.countP_append, none, Nat.zero_add]
      exact ih distinct.2 each.2 before' info behind rest
    rw [List.flatMap_cons, List.append_eq_append_iff] at split
    rcases split with ⟨before', same, rest⟩ | ⟨_ | ⟨first, within⟩, same, rest⟩
    · exact later before' same rest
    · exact later [] (by simpa using same.symm) (by simpa using rest.symm)
    · obtain ⟨rfl, -⟩ := List.cons.inj rest
      obtain ⟨sum, index⟩ := each.1 before.length info (by simp [same])
      have all : before.countP (·.sum = info.sum) = before.length := by
        refine List.countP_eq_length.2 fun d member => ?_
        rw [sum, own d (by simp [same, member])]
        exact decide_eq_true rfl
      rw [index, all]

theorem ordered_ownConstructors (lists : Lists types c.sums c.ctors) :
    Ordered (ownConstructors c) := by
  refine ordered_flatMap (distinct_ownSums lists) fun e member k info at_ => ?_
  obtain ⟨d, known, rfl⟩ := declared_of_mem_ownSums lists member
  have placed := filterMap_placed 0 (fun k ctor found => by
    rw [Nat.zero_add]
    exact lists.placed d known k ctor found) k info at_
  rwa [Nat.zero_add] at placed

/-! ### The descriptor -/

theorem mem_of_mapM_ok {ε α β : Type} {f : α → Except ε β} {l : List α} {bs : List β}
    (run : l.mapM f = .ok bs) :
    (∀ b ∈ bs, ∃ a ∈ l, f a = .ok b) ∧ ∀ a ∈ l, ∃ b ∈ bs, f a = .ok b := by
  induction l generalizing bs with
  | nil =>
    cases run
    simp
  | cons a l ih =>
    rw [List.mapM_cons] at run
    cases first : f a with
    | error e => simp [first, bind, Except.bind] at run
    | ok b =>
      cases rest : l.mapM f with
      | error e => simp [first, rest, bind, Except.bind] at run
      | ok bs' =>
        simp only [first, rest, bind, Except.bind, pure, Except.pure, Except.ok.injEq] at run
        subst run
        obtain ⟨made, gives⟩ := ih rest
        constructor
        · refine List.forall_mem_cons.2 ⟨⟨a, List.mem_cons_self, first⟩, fun b' member => ?_⟩
          obtain ⟨a', inside, same⟩ := made b' member
          exact ⟨a', List.mem_cons_of_mem _ inside, same⟩
        · refine List.forall_mem_cons.2 ⟨⟨b, List.mem_cons_self, first⟩, fun a' member => ?_⟩
          obtain ⟨b', inside, same⟩ := gives a' member
          exact ⟨b', List.mem_cons_of_mem _ inside, same⟩

/-- The descriptor of a module names what its functions and values export, and then the factories of
its constructors. -/
theorem describe_exports (lists : Lists types c.sums c.ctors)
    (described : describe c artifact = .ok i) :
    ∃ es, i.exports = es ++ (ownConstructors c).map Constructor.factory ∧
      (∀ e ∈ es, ∃ name ∈ c.order, ∃ own, exportsOf c artifact name = .ok own ∧ e ∈ own) ∧
      ∀ name ∈ c.order, ∃ own, exportsOf c artifact name = .ok own ∧ own ⊆ es := by
  unfold describe at described
  cases exports : c.order.mapM (exportsOf c artifact) with
  | error e => simp [exports, bind, Except.bind] at described
  | ok parts =>
    simp only [exports, bind, Except.bind, pure, Except.pure, Except.ok.injEq] at described
    obtain ⟨made, gives⟩ := mem_of_mapM_ok exports
    refine ⟨parts.flatten, ?_, fun e member => ?_, fun name member => ?_⟩
    · rw [← described, ownConstructors, List.map_flatMap]
      refine congrArg (parts.flatten ++ ·) (List.flatMap_congr fun e member => ?_)
      obtain ⟨d, known, rfl⟩ := declared_of_mem_ownSums lists member
      rw [List.map_filterMap]
      refine List.filterMap_congr fun name inside => ?_
      obtain ⟨ctor, listed, rfl⟩ := List.mem_map.1 inside
      obtain ⟨k, at_⟩ := List.mem_iff_getElem?.1 listed
      obtain ⟨info, found, placed⟩ := lists.placed d known k ctor at_
      simp only [found, Option.map_some, Constructor.factory, placed.name_eq]
    · obtain ⟨own, inside, held⟩ := List.mem_flatten.1 member
      obtain ⟨name, listed, same⟩ := made own inside
      exact ⟨name, listed, own, same, held⟩
    · obtain ⟨own, inside, same⟩ := gives name member
      exact ⟨own, same, fun e held => List.mem_flatten.2 ⟨own, inside, held⟩⟩

/-! ### Names of exports -/

def FactoriesApart (c : Checked) (artifact : Artifact) : Prop :=
  ∀ name ∈ c.order, ∀ own, exportsOf c artifact name = .ok own → ∀ e ∈ own, factoryOf? e.name = none

/-- The function whose specializations have names that the factories have. -/
def factoryFunction : String := "make"

theorem factoryOf?_plain {name : String} (plain : '$' ∉ name.toList) : factoryOf? name = none := by
  rw [Option.eq_none_iff_forall_ne_some]
  intro ctor found
  rw [Typing.factoryOf?_eq_some.1 found, String.toList_append] at plain
  exact plain (List.mem_append_left _ (by decide))

theorem factoryOf?_specialized {name : String} {t : Ty} {arity : Nat} (plain : '$' ∉ name.toList)
    (other : name ≠ factoryFunction) : factoryOf? (t.specializedName name arity) = none := by
  rw [Option.eq_none_iff_forall_ne_some]
  intro ctor found
  have same := congrArg String.toList (Typing.factoryOf?_eq_some.1 found)
  have stem : Names.factoryStem.toList = factoryFunction.toList ++ ['$'] := by decide
  rw [Ty.toList_specializedName, String.toList_append, stem, List.append_assoc] at same
  have names := congrArg (List.takeWhile (· != '$')) same
  rw [Ty.takeWhile_separator plain] at names
  exact other (String.toList_inj.1 (names.trans (Ty.takeWhile_separator (by decide))))

structure Copied (artifact : Artifact) (F : Typing.Function) (t : Ty) : Prop where
  fits : ∃ m, t = F.type.body.replace m
  compiled : ∃ m ∈ artifact.methods, m.function = Text.ofString F.decl.name ∧
    m.name = Text.ofString (t.specializedName F.decl.name F.arity) ∧
    m.signature = Text.ofString (Signature.render t)

/-- A specialization that is exported is a copy of the function, and its type is read back from the
signature of the copy. -/
theorem of_mem_specializations {name : String} {es : List Export} (filled : name ≠ "")
    (titled : ∀ m ∈ artifact.methods, Titled c m) (run : specializations artifact name = .ok es) :
    ∀ e ∈ es, ∃ F t, (∃ key, c.functions.get? key = some F) ∧ F.decl.name = name ∧
      Copied artifact F t ∧ e.name = t.specializedName name F.arity ∧
      Signature.parse (Text.ofString (Signature.render t)) = .ok e.type := by
  intro e member
  obtain ⟨m, inside, made⟩ := (mem_of_mapM_ok run).1 e member
  obtain ⟨listed, same⟩ := List.mem_filter.1 inside
  simp only [decide_eq_true_eq] at same
  have shown : e.name = m.name.display ∧ Signature.parse m.signature = .ok e.type := by
    cases parsed : Signature.parse m.signature with
    | error _ => simp [parsed] at made
    | ok t =>
      simp only [parsed, Except.ok.injEq] at made
      rw [← made]
      exact ⟨rfl, rfl⟩
  rcases titled m listed with none | ⟨f, isOf, function, own, signature⟩
  · have empty := Text.isEmpty_ofString filled
    rw [← same.1, none] at empty
    cases empty
  · obtain rfl : f.fn.decl.name = name := (Text.ofString_injective (same.1.symm.trans function)).symm
    have other : f.name ≠ f.fn.decl.name := fun plain => same.2 (by rw [own, plain])
    obtain ⟨inst, type, specialized⟩ := isOf.named.resolve_left other
    rw [specialized] at own
    refine ⟨f.fn, f.type, isOf.known, rfl, ⟨⟨inst, type⟩, m, listed, function, own, signature⟩, ?_, ?_⟩
    · rw [shown.1, own, Text.display_ofString]
    · rw [← signature]
      exact shown.2

section Exports

variable {decls : List (Decl Position)}

theorem mem_exportsOf {name : String} {own : List Export}
    (filed : Typing.Filed decls c.functions c.values c.order) (filled : name ≠ "")
    (titled : ∀ m ∈ artifact.methods, Titled c m) (exports : exportsOf c artifact name = .ok own) :
    ∀ e ∈ own, e.name = name ∨ ∃ F t, c.functions.get? name = some F ∧ F.isPolymorphic = true ∧
      Copied artifact F t ∧ e.name = t.specializedName name F.arity ∧
      Signature.parse (Text.ofString (Signature.render t)) = .ok e.type := by
  intro e member
  unfold exportsOf at exports
  split at exports
  · cases exports
    exact .inl (by rw [List.mem_singleton.1 member])
  · split at exports
    · cases exports
      cases member
    · next F found =>
      split at exports
      · next polymorphic =>
        cases made : specializations artifact name with
        | error d => simp [made, bind, Except.bind] at exports
        | ok es =>
          simp only [made, bind, Except.bind, pure, Except.pure, Except.ok.injEq] at exports
          subst exports
          rcases List.mem_cons.1 member with rfl | special
          · exact .inl rfl
          · obtain ⟨F', t, ⟨key, known⟩, rfl, copied, same, read⟩ :=
              of_mem_specializations filled titled made e special
            have own := (filed.functions key F' known).1
            obtain rfl : F' = F := Option.some.inj (known.symm.trans (own ▸ found))
            exact .inr ⟨F', t, found, polymorphic, copied, same, read⟩
      · cases exports
        exact .inl (by rw [List.mem_singleton.1 member])

theorem titled_of_compile {rest : List Artifact}
    (compiled : (compile c).result = .ok (artifact :: rest)) :
    ∀ m ∈ artifact.methods, Titled c m := fun m inside =>
  (methods_of_compile compiled artifact List.mem_cons_self m inside).2

theorem factoriesApart_of_compile {rest : List Artifact}
    (filed : Typing.Filed decls c.functions c.values c.order)
    (compiled : (compile c).result = .ok (artifact :: rest))
    (names : ∀ name ∈ c.order, name ≠ "" ∧ '$' ∉ name.toList)
    (single : ∀ F, c.functions.get? factoryFunction = some F → F.isPolymorphic = false) :
    FactoriesApart c artifact := by
  intro name listed own exports e member
  obtain ⟨filled, plain⟩ := names name listed
  rcases mem_exportsOf filed filled (titled_of_compile compiled) exports e member with
    same | ⟨F, t, found, polymorphic, -, same, -⟩
  · rw [same]
    exact factoryOf?_plain plain
  · rw [same]
    refine factoryOf?_specialized plain fun make => ?_
    rw [make] at found
    rw [single F found] at polymorphic
    cases polymorphic

end Exports

/-! ### Export and import -/

/-- The constructors of a checked module survive export and import. Where no function, value or
specialization is exported under the name of a factory, a module that reads the descriptor registers
them under their qualified names, as they were declared, and registers nothing else. -/
theorem describe_import {host : Host.Resolver} {importer : Option Typing.Importer}
    {m : Module Position} {find : Typing.Importer} (plain : CtorArgsPlain m)
    (accepted : Typing.check host importer m = .ok c) (described : describe c artifact = .ok i)
    (apart : FactoriesApart c artifact) (readable : i.Readable)
    (stored : find m.name = (Interface.parse i.render).mapError Interface.Error.message)
    (place : Position) (env : Typing.Env) (s : Typing.State) :
    ∃ env' s', Typing.importModule (some find) place env m.name s = .ok env' s' ∧
      (∀ d, .type d ∈ m.decls → ∀ k ctor, d.ctors[k]? = some ctor →
        ∃ own new, c.ctors.get? ctor.name = some own ∧ own.DeclaredAt d.name k ctor ∧
          s'.ctors.get? (m.name ++ "." ++ ctor.name) = some new ∧ own.Arrives m.name new) ∧
      ∀ key, (∀ d, .type d ∈ m.decls → ∀ ctor ∈ d.ctors, key ≠ m.name ++ "." ++ ctor.name) →
        s'.ctors.get? key = s.ctors.get? key := by
  have lists := Typing.check_lists plain accepted
  obtain ⟨es, exports, own, -⟩ := describe_exports lists described
  have parsed : Interface.parse i.render = .ok i := Interface.parse_padded readable (.refl _)
  have found : find m.name = .ok i := by
    rw [stored, parsed]
    rfl
  have others : ∀ e ∈ es, factoryOf? e.name = none := fun e member => by
    obtain ⟨name, listed, own, same, held⟩ := own e member
    exact apart name listed own same e held
  have portable : ∀ info ∈ ownConstructors c, info.Portable := fun info member => by
    obtain ⟨d, -, k, ctor, -, -, placed⟩ := (mem_ownConstructors lists).1 member
    exact ⟨by rw [placed.builds, placed.sum_eq, placed.hasArg_eq], placed.closed⟩
  have named : ∀ info ∈ ownConstructors c, c.ctors.get? info.name = some info := fun info member => by
    obtain ⟨d, -, k, ctor, -, known, placed⟩ := (mem_ownConstructors lists).1 member
    rw [placed.name_eq, known]
  have distinct : ∀ a ∈ ownConstructors c, ∀ b ∈ ownConstructors c, a.name = b.name → a = b :=
    fun a inA b inB same => Option.some.inj ((named a inA).symm.trans (same ▸ named b inB))
  obtain ⟨env', s', run, registered⟩ := Typing.importModule_registers place env found exports others
    (ordered_ownConstructors lists) portable distinct s
  refine ⟨env', s', run, fun d declared k ctor at_ => ?_, fun key other => ?_⟩
  · obtain ⟨info, known, placed⟩ := lists.placed d declared k ctor at_
    obtain ⟨new, arrived, arrives⟩ := registered.arrived info
      ((mem_ownConstructors lists).2 ⟨d, declared, k, ctor, at_, known, placed⟩)
    exact ⟨info, new, known, placed, placed.name_eq ▸ arrived, arrives⟩
  · refine registered.others key fun info member => ?_
    obtain ⟨d, declared, k, ctor, at_, -, placed⟩ := (mem_ownConstructors lists).1 member
    rw [placed.name_eq]
    exact other d declared ctor (List.mem_of_getElem? at_)

/-- The constructors of a compiled module survive export and import, unless the module has a
polymorphic function whose specializations have the names of factories. -/
theorem import_of_compile {host : Host.Resolver} {importer : Option Typing.Importer}
    {m : Module Position} {find : Typing.Importer} {holders : List Artifact} (plain : CtorArgsPlain m)
    (names : ∀ d ∈ m.decls, d.name ≠ "" ∧ '$' ∉ d.name.toList)
    (accepted : Typing.check host importer m = .ok c)
    (compiled : (compile c).result = .ok (artifact :: holders))
    (single : ∀ F, c.functions.get? factoryFunction = some F → F.isPolymorphic = false)
    (described : describe c artifact = .ok i) (readable : i.Readable)
    (stored : find m.name = (Interface.parse i.render).mapError Interface.Error.message)
    (place : Position) (env : Typing.Env) (s : Typing.State) :
    ∃ env' s', Typing.importModule (some find) place env m.name s = .ok env' s' ∧
      (∀ d, .type d ∈ m.decls → ∀ k ctor, d.ctors[k]? = some ctor →
        ∃ own new, c.ctors.get? ctor.name = some own ∧ own.DeclaredAt d.name k ctor ∧
          s'.ctors.get? (m.name ++ "." ++ ctor.name) = some new ∧ own.Arrives m.name new) ∧
      ∀ key, (∀ d, .type d ∈ m.decls → ∀ ctor ∈ d.ctors, key ≠ m.name ++ "." ++ ctor.name) →
        s'.ctors.get? key = s.ctors.get? key := by
  have filed := Typing.check_filed accepted
  have apart : FactoriesApart c artifact := by
    refine factoriesApart_of_compile filed compiled (fun name listed => ?_) single
    obtain ⟨d, member, rfl⟩ := filed.declared name listed
    exact names d member
  exact describe_import plain accepted described apart readable stored place env s

/-- A descriptor that names the constructors in the order in which the sum types are kept. -/
def listing (c : Checked) (parts : List (List Export)) : Interface where
  module := c.module.name
  exports := parts.flatten ++ (c.sums.entries.filter (·.1 != Names.result)).flatMap fun e =>
    e.2.filterMap fun name =>
      (c.ctors.get? name).map fun info => ⟨Names.factoryStem ++ name, info.type⟩

theorem describe_of_sorted {parts : List (List Export)}
    (sorted : c.sums.entries.Pairwise fun a b => a.1 ≤ b.1)
    (exports : c.order.mapM (exportsOf c artifact) = .ok parts) :
    describe c artifact = .ok (listing c parts) := by
  have kept : c.sums.toSortedList = c.sums.entries :=
    List.mergeSort_of_pairwise (sorted.imp fun h => decide_eq_true h)
  rw [describe, exports, ownSums, kept]
  rfl

/-- What a module that needs nothing else is checked to, compiled to and described as, if its sum
types are kept in order. -/
def published (m : Module Position) : Option (Checked × Artifact × Interface) := do
  let c ← (Typing.check (.chain []) none m).toOption
  let artifacts ← (compile c).result.toOption
  let artifact ← artifacts.head?
  let parts ← (c.order.mapM (exportsOf c artifact)).toOption
  if c.sums.entries.Pairwise fun a b => a.1 ≤ b.1 then some (c, artifact, listing c parts) else none

theorem toOption_eq_some {ε α : Type} {x : Except ε α} {a : α} : x.toOption = some a ↔ x = .ok a := by
  cases x <;> simp [Except.toOption]

theorem of_published {m : Module Position} (known : published m = some (c, artifact, i)) :
    Typing.check (.chain []) none m = .ok c ∧
      (∃ holders, (compile c).result = .ok (artifact :: holders)) ∧ describe c artifact = .ok i := by
  simp only [published, bind, Option.bind_eq_some_iff, toOption_eq_some,
    Option.ite_none_right_eq_some, Option.some.injEq, Prod.mk.injEq] at known
  obtain ⟨c', accepted, artifacts, compiled, artifact', first, parts, exports, sorted, rfl, rfl, rfl⟩ :=
    known
  obtain ⟨holders, rfl⟩ := List.head?_eq_some_iff.1 first
  exact ⟨accepted, ⟨holders, compiled⟩, describe_of_sorted sorted exports⟩

/-- Two sum types, one of them with a parameter, and a polymorphic function used at one type. -/
def figures (function : String) : Module Position where
  note := default
  name := "Figures"
  imports := []
  decls := [
    .type ⟨default, "Maybe", ["a"], [⟨"None", none⟩, ⟨"Some", some (.named "a")⟩]⟩,
    .type ⟨default, "Figure", [], [⟨"Dot", none⟩, ⟨"Disc", some .int⟩]⟩,
    .fn ⟨default, function, [⟨"x", none⟩], none, .var default "x"⟩]
  main := some (.apply default (.var default function) [.int default 1])

theorem ctorArgsPlain_figures (function : String) : CtorArgsPlain (figures function) := by
  intro d member ctor inside a argument
  simp only [figures, List.mem_cons, Decl.type.injEq, reduceCtorEq, or_false, List.not_mem_nil] at member
  rcases member with rfl | rfl
  all_goals
    rcases List.mem_pair.1 inside with rfl | rfl
    · cases argument
    · cases argument
      exact ⟨rfl, rfl⟩

theorem import_figures : ∃ c artifact i, published (figures "same") = some (c, artifact, i) ∧
    i.exports.map (·.name) =
      ["same", "same$Int", "make$Dot", "make$Disc", "make$None", "make$Some"] ∧
    ∃ env s new,
      Typing.importModule
        (some fun _ => (Interface.parse i.render).mapError Interface.Error.message) default {}
        "Figures" {} = .ok env s ∧
      s.ctors.get? "Figures.Disc" = some new ∧
      new.sum = "Figure" ∧ new.index = 1 ∧ new.hasArg = true := by
  have facts : ((published (figures "same")).map fun p => (decide p.2.2.Readable,
      p.2.2.exports.map (·.name), (p.1.functions.get? factoryFunction).isNone)) =
      some (true, ["same", "same$Int", "make$Dot", "make$Disc", "make$None", "make$Some"], true) := by
    decide +kernel
  obtain ⟨⟨c, artifact, i⟩, known, seen⟩ := Option.map_eq_some_iff.1 facts
  simp only [Prod.mk.injEq, decide_eq_true_eq, Option.isNone_iff_eq_none] at seen
  obtain ⟨readable, exports, none⟩ := seen
  obtain ⟨accepted, ⟨holders, compiled⟩, described⟩ := of_published known
  let find : Typing.Importer := fun _ => (Interface.parse i.render).mapError Interface.Error.message
  have stored : find "Figures" = (Interface.parse i.render).mapError Interface.Error.message := rfl
  obtain ⟨env, s, run, arrived, -⟩ := import_of_compile
    (ctorArgsPlain_figures "same") (by decide) accepted compiled
    (fun F found => by cases none.symm.trans found) described readable stored default {} {}
  obtain ⟨own, new, -, declared, found, arrives⟩ :=
    arrived _ (List.mem_cons_of_mem _ List.mem_cons_self) 1 _ rfl
  refine ⟨c, artifact, i, known, exports, env, s, new, run, found, ?_⟩
  rw [arrives.same]
  exact ⟨declared.sum_eq, declared.index_eq, declared.hasArg_eq⟩

/-- A polymorphic function with the name of the factories keeps a module from being imported: its
specialization at the integers is read as the factory of a constructor that builds no sum type. -/
theorem not_import_make : ∃ c artifact i, published (figures "make") = some (c, artifact, i) ∧
    i.exports.map (·.name) =
      ["make", "make$Int", "make$Dot", "make$Disc", "make$None", "make$Some"] ∧
    ¬∃ env s,
      Typing.importModule
        (some fun _ => (Interface.parse i.render).mapError Interface.Error.message) default {}
        "Figures" {} = .ok env s := by
  have facts : ((published (figures "make")).map fun p => (decide p.2.2.Readable,
      p.2.2.exports.map (·.name), p.2.2.exports[1]?.map fun e =>
        ((Typing.factoryOf? e.name).isSome, (Typing.builtSum? e.type).isSome))) =
      some (true, ["make", "make$Int", "make$Dot", "make$Disc", "make$None", "make$Some"],
        some (true, false)) := by
    decide +kernel
  obtain ⟨⟨c, artifact, i⟩, known, seen⟩ := Option.map_eq_some_iff.1 facts
  simp only [Prod.mk.injEq, decide_eq_true_eq] at seen
  obtain ⟨readable, exports, second⟩ := seen
  obtain ⟨e, at_, read⟩ := Option.map_eq_some_iff.1 second
  obtain ⟨factory, alien⟩ := Prod.mk.inj read
  refine ⟨c, artifact, i, known, exports, ?_⟩
  rintro ⟨env, s, run⟩
  have parsed : Interface.parse i.render = .ok i := Interface.parse_padded readable (.refl _)
  rw [parsed] at run
  have built := Typing.builds_of_importModule rfl run e (List.mem_of_getElem? at_) factory
  rw [alien] at built
  cases built

end StackML.Codegen
