import StackML.Proofs.Codegen.Describing

/-!
Uses of the polymorphic functions of another module. A use is compiled to the copy whose name is found
in the descriptor, from all parameters of the type of the use down to none. The name tells the parts of
the suffix and nothing more, so the copy that is selected agrees with the use in these: where the parts
do not tell the types, the copy may be one of another type.
-/

namespace StackML.Codegen

open Typing (Checked CtorArgsPlain factoryOf?)

variable {c : Checked} {artifact : Artifact} {i : Interface} {F : Typing.Function} {name : String}

structure Describes (c : Checked) (artifact : Artifact) (i : Interface) : Prop where
  names : ∀ name ∈ c.order, name ≠ "" ∧ '$' ∉ name.toList
  filed : ∃ decls, Typing.Filed decls c.functions c.values c.order
  titled : ∀ m ∈ artifact.methods, Titled c m
  lists : ∃ types, Typing.Lists types c.sums c.ctors
  described : describe c artifact = .ok i

namespace Describes

theorem of_compile {host : Host.Resolver} {importer : Option Typing.Importer} {m : Module Position}
    {holders : List Artifact} (plain : CtorArgsPlain m)
    (names : ∀ d ∈ m.decls, d.name ≠ "" ∧ '$' ∉ d.name.toList)
    (accepted : Typing.check host importer m = .ok c)
    (compiled : (compile c).result = .ok (artifact :: holders))
    (described : describe c artifact = .ok i) : Describes c artifact i where
  names name listed := by
    obtain ⟨d, member, rfl⟩ := (Typing.check_filed accepted).declared name listed
    exact names d member
  filed := ⟨m.decls, Typing.check_filed accepted⟩
  titled := titled_of_compile compiled
  lists := ⟨_, Typing.check_lists plain accepted⟩
  described := described

theorem mem_exports (h : Describes c artifact i) : ∀ e ∈ i.exports,
    (e.name ∈ c.order ∧ ∃ own, exportsOf c artifact e.name = .ok own ∧ e ∈ own) ∨
    (∃ name ∈ c.order, ∃ F t, c.functions.get? name = some F ∧ F.isPolymorphic = true ∧
      Copied artifact F t ∧ e.name = t.specializedName name F.arity ∧
      Signature.parse (Text.ofString (Signature.render t)) = .ok e.type) ∨
    ∃ ctor, factoryOf? e.name = some ctor := by
  intro e member
  obtain ⟨decls, filed⟩ := h.filed
  obtain ⟨types, lists⟩ := h.lists
  obtain ⟨es, exports, made, -⟩ := describe_exports lists h.described
  rw [exports] at member
  rcases List.mem_append.1 member with inside | factory
  · obtain ⟨name, listed, own, same, held⟩ := made e inside
    rcases mem_exportsOf filed (h.names name listed).1 h.titled same e held with
      rfl | ⟨F, t, found, polymorphic, copied, special, read⟩
    · exact .inl ⟨listed, own, same, held⟩
    · exact .inr (.inl ⟨name, listed, F, t, found, polymorphic, copied, special, read⟩)
  · obtain ⟨info, -, rfl⟩ := List.mem_map.1 factory
    exact .inr (.inr ⟨info.name, Typing.factoryOf?_eq_some.2 rfl⟩)

theorem exportsOf_polymorphic (h : Describes c artifact i) (found : c.functions.get? name = some F)
    (polymorphic : F.isPolymorphic = true) :
    ∃ es, specializations artifact name = .ok es ∧
      exportsOf c artifact name = .ok (⟨name, F.type⟩ :: es) ∧
      ∀ e ∈ (⟨name, F.type⟩ : Export) :: es, e ∈ i.exports := by
  obtain ⟨decls, filed⟩ := h.filed
  obtain ⟨types, lists⟩ := h.lists
  obtain ⟨es, exports, -, given⟩ := describe_exports lists h.described
  obtain ⟨-, listed, none⟩ := filed.functions name F found
  obtain ⟨own, same, inside⟩ := given name listed
  have whole := same
  simp only [exportsOf, none, found, polymorphic, if_true] at whole
  cases special : specializations artifact name with
  | error d => simp [special, bind, Except.bind] at whole
  | ok es' =>
    simp only [special, bind, Except.bind, pure, Except.pure, Except.ok.injEq] at whole
    subst whole
    exact ⟨es', rfl, same, fun e member => exports ▸ List.mem_append_left _ (inside member)⟩

theorem find?_eq_some {t : Ty} (found : i.find? name = some t) :
    ∃ e ∈ i.exports, e.name = name ∧ e.type = t := by
  obtain ⟨e, first, rfl⟩ := Option.map_eq_some_iff.1 found
  exact ⟨e, List.mem_of_find?_eq_some first, by simpa using List.find?_some first, rfl⟩

theorem find?_isSome {e : Export} (member : e ∈ i.exports) : (i.find? e.name).isSome := by
  rw [Interface.find?, Option.isSome_map, List.find?_isSome]
  exact ⟨e, member, beq_self_eq_true _⟩

theorem find?_name (h : Describes c artifact i) (found : c.functions.get? name = some F)
    (polymorphic : F.isPolymorphic = true) : i.find? name = some F.type := by
  obtain ⟨decls, filed⟩ := h.filed
  obtain ⟨-, listed, -⟩ := filed.functions name F found
  obtain ⟨filled, plain⟩ := h.names name listed
  obtain ⟨es, special, own, inside⟩ := h.exportsOf_polymorphic found polymorphic
  obtain ⟨t, first⟩ := Option.isSome_iff_exists.1 (find?_isSome (inside _ List.mem_cons_self))
  obtain ⟨e, member, rfl, rfl⟩ := find?_eq_some first
  rw [first]
  rcases h.mem_exports e member with
    ⟨-, own', same, held⟩ | ⟨name', -, F', t, -, -, -, same, -⟩ | ⟨ctor, factory⟩
  · cases own.symm.trans same
    rcases List.mem_cons.1 held with head | copy
    · rw [head]
    · obtain ⟨F', t, -, -, -, same, -⟩ := of_mem_specializations filled h.titled special e copy
      exact absurd same.symm (Ty.specializedName_ne plain)
  · exact absurd same.symm (Ty.specializedName_ne plain)
  · rw [factoryOf?_plain plain] at factory
    cases factory

/-- What is published under the name of a specialization is a copy that agrees in the parts of the
suffix. -/
theorem copied_of_find? {t u : Ty} {k : Nat} (h : Describes c artifact i)
    (found : c.functions.get? name = some F) (other : name ≠ factoryFunction)
    (published : i.find? (t.specializedName name k) = some u) :
    ∃ v, Copied artifact F v ∧ Signature.parse (Text.ofString (Signature.render v)) = .ok u ∧
      v.segments F.arity = t.segments k := by
  obtain ⟨decls, filed⟩ := h.filed
  obtain ⟨-, listed, -⟩ := filed.functions name F found
  have plain := (h.names name listed).2
  obtain ⟨e, member, same, rfl⟩ := find?_eq_some published
  rcases h.mem_exports e member with
    ⟨known, -⟩ | ⟨name', listed', F', v, found', -, copied, same', read⟩ | ⟨ctor, factory⟩
  · exact absurd same.symm (Ty.specializedName_ne (h.names e.name known).2)
  · have plain' := (h.names name' listed').2
    obtain ⟨rfl, parts⟩ := Ty.eq_of_specializedName_eq plain' plain (same'.symm.trans same)
    cases found.symm.trans found'
    exact ⟨v, copied, read, parts⟩
  · rw [same, factoryOf?_specialized plain other] at factory
    cases factory

theorem find?_of_copied {t v : Ty} {k : Nat} (h : Describes c artifact i)
    (found : c.functions.get? name = some F) (polymorphic : F.isPolymorphic = true)
    (copied : Copied artifact F v) (parts : v.segments F.arity = t.segments k) :
    (i.find? (t.specializedName name k)).isSome := by
  obtain ⟨decls, filed⟩ := h.filed
  obtain ⟨own, listed, -⟩ := filed.functions name F found
  have plain := (h.names name listed).2
  obtain ⟨es, special, -, inside⟩ := h.exportsOf_polymorphic found polymorphic
  obtain ⟨m, compiled, function, title, -⟩ := copied.compiled
  rw [own] at function title
  have other : m.name ≠ Text.ofString name := fun same =>
    Ty.specializedName_ne plain (Text.ofString_injective (title.symm.trans same))
  have kept : m ∈ artifact.methods.filter fun m => m.function = Text.ofString name ∧
      m.name ≠ Text.ofString name :=
    List.mem_filter.2 ⟨compiled, decide_eq_true ⟨function, other⟩⟩
  obtain ⟨e, member, made⟩ := (mem_of_mapM_ok special).2 m kept
  have shown : e.name = t.specializedName name k := by
    rw [← Ty.specializedName_eq_of_segments_eq parts, ← Text.display_ofString (v.specializedName _ _),
      ← title]
    cases parsed : Signature.parse m.signature with
    | error _ => simp [parsed] at made
    | ok t =>
      simp only [parsed, Except.ok.injEq] at made
      rw [← made]
  rw [← shown]
  exact find?_isSome (inside e (List.mem_cons_of_mem _ member))

end Describes

theorem find?_reverse_range {p : Nat → Bool} {n k : Nat}
    (found : (List.range n).reverse.find? p = some k) :
    k < n ∧ p k = true ∧ ∀ l < n, p l = true → l ≤ k := by
  obtain ⟨holds, before, after, split, fails⟩ := List.find?_eq_some_iff_append.1 found
  have below : k < n := by
    rw [← List.mem_range, ← List.mem_reverse, split]
    exact List.mem_append_right _ List.mem_cons_self
  refine ⟨below, holds, fun l less also => ?_⟩
  have descending : (before ++ k :: after).Pairwise (· > ·) :=
    split ▸ List.pairwise_reverse.2 List.pairwise_lt_range
  have member : l ∈ before ++ k :: after := by
    rw [← split, List.mem_reverse, List.mem_range]
    exact less
  rcases List.mem_append.1 member with first | last
  · have failed := fails l first
    rw [also] at failed
    cases failed
  · rcases List.mem_cons.1 last with rfl | later
    · exact Nat.le_refl l
    · exact Nat.le_of_lt ((List.pairwise_cons.1 (List.pairwise_append.1 descending).2.1).1 l later)

/-- A use of a polymorphic function of another module is compiled to a copy that agrees with the type
of the use in the parts of a suffix, with as many parameters as a copy is found for. Only where no copy
agrees with it in any number of parameters is there no specialization. -/
theorem exportName_selects {host : Host.Resolver} {importer : Option Typing.Importer}
    {m : Module Position} {holders : List Artifact} {ctx : Context} {n : Typing.Typed}
    (plain : CtorArgsPlain m) (names : ∀ d ∈ m.decls, d.name ≠ "" ∧ '$' ∉ d.name.toList)
    (accepted : Typing.check host importer m = .ok c)
    (compiled : (compile c).result = .ok (artifact :: holders))
    (described : describe c artifact = .ok i)
    (found : c.functions.get? name = some F) (polymorphic : F.isPolymorphic = true)
    (other : name ≠ factoryFunction) (imported : ctx.checked.imports.get? m.name = some i)
    (s : State) :
    (∃ u v k, exportName ctx n m.name name s = .ok ((ctx.typeOf n).specializedName name k) s ∧
      i.find? ((ctx.typeOf n).specializedName name k) = some u ∧ Copied artifact F v ∧
      Signature.parse (Text.ofString (Signature.render v)) = .ok u ∧ k ≤ (ctx.typeOf n).arity ∧
      v.segments F.arity = (ctx.typeOf n).segments k ∧
      ∀ w, Copied artifact F w → ∀ l ≤ (ctx.typeOf n).arity,
        w.segments F.arity = (ctx.typeOf n).segments l → l ≤ k) ∨
    exportName ctx n m.name name s =
        .error (.diagnostic ⟨n.position, .noSpecialization m.name name (ctx.typeOf n)⟩) s ∧
      ∀ w, Copied artifact F w → ∀ l ≤ (ctx.typeOf n).arity,
        w.segments F.arity ≠ (ctx.typeOf n).segments l := by
  have h : Describes c artifact i := .of_compile plain names accepted compiled described
  have published : ∀ w, Copied artifact F w → ∀ l, w.segments F.arity = (ctx.typeOf n).segments l →
      (i.find? ((ctx.typeOf n).specializedName name l)).isSome = true := fun w copied l parts =>
    h.find?_of_copied found polymorphic copied parts
  have declared := h.find?_name found polymorphic
  unfold exportName
  simp only [imported, declared]
  rw [if_neg (by simpa [Typing.Function.isPolymorphic] using polymorphic), List.find?_map]
  cases first : (List.range ((ctx.typeOf n).arity + 1)).reverse.find?
      ((fun s => (i.find? s).isSome) ∘ (ctx.typeOf n).specializedName name) with
  | some k =>
    obtain ⟨below, some, last⟩ := find?_reverse_range first
    obtain ⟨u, here⟩ := Option.isSome_iff_exists.1 some
    obtain ⟨v, copied, read, parts⟩ := h.copied_of_find? found other here
    refine .inl ⟨u, v, k, rfl, here, copied, read, Nat.lt_succ_iff.1 below, parts, ?_⟩
    exact fun w copied l less parts => last l (Nat.lt_succ_iff.2 less) (published w copied l parts)
  | none =>
    refine .inr ⟨rfl, fun w copied l less parts => ?_⟩
    have member : l ∈ (List.range ((ctx.typeOf n).arity + 1)).reverse :=
      List.mem_reverse.2 (List.mem_range.2 (Nat.lt_succ_iff.2 less))
    exact List.find?_eq_none.1 first l member (published w copied l parts)

/-- What a module that imports another is compiled in. -/
def importing (c : Checked) (module : String) (i : Interface) : Context :=
  { checked := { c with imports := NameMap.empty.insert module i } }

/-- A use at a type. -/
def usedAt (t : Ty) : Typing.Typed := ⟨default, t, none⟩

theorem exportName_selects_same : ∃ c artifact i F u v k,
    published (figures "same") = some (c, artifact, i) ∧ c.functions.get? "same" = some F ∧
    exportName (importing c "Figures" i) (usedAt (.fn .int .int)) "Figures" "same" {} =
      .ok (Ty.specializedName "same" (.fn .int .int) k) {} ∧
    i.find? (Ty.specializedName "same" (.fn .int .int) k) = some u ∧ Copied artifact F v ∧
    v.segments F.arity = Ty.segments (.fn .int .int) k := by
  have facts : ((published (figures "same")).map fun p =>
      ((p.1.functions.get? "same").map (·.isPolymorphic),
        ((exportName (importing p.1 "Figures" p.2.2) (usedAt (.fn .int .int)) "Figures" "same").run'
          {}).isSome)) = some (some true, true) := by
    decide +kernel
  obtain ⟨⟨c, artifact, i⟩, known, seen⟩ := Option.map_eq_some_iff.1 facts
  obtain ⟨function, succeeds⟩ := Prod.mk.inj seen
  obtain ⟨F, found, polymorphic⟩ := Option.map_eq_some_iff.1 function
  obtain ⟨accepted, ⟨holders, compiled⟩, described⟩ := of_published known
  have imported : (importing c "Figures" i).checked.imports.get? "Figures" = some i :=
    NameMap.get?_insert_self _ _ _
  rcases exportName_selects (n := usedAt (.fn .int .int)) (ctorArgsPlain_figures "same") (by decide)
    accepted compiled described found polymorphic (by decide) imported {} with
    ⟨u, v, k, run, here, copied, -, -, parts, -⟩ | ⟨run, -⟩
  · exact ⟨c, artifact, i, F, u, v, k, known, found, run, here, copied, parts⟩
  · have failed : EStateM.run (exportName (importing c "Figures" i) (usedAt (.fn .int .int)) "Figures"
        "same") {} = .error _ {} := run
    rw [EStateM.run', failed] at succeeds
    cases succeeds

/-- A function that gives back a constant function, used at the integers. -/
def constants : Module Position where
  note := default
  name := "Constants"
  imports := []
  decls := [.fn ⟨default, "k", [⟨"x", none⟩], none, .lambda default ["y"] (.var default "x")⟩]
  main := some (.apply default (.var default "k") [.int default 1, .int default 2])

/-- The parts of a suffix leave out what is behind the parameters of the function: a use at other types
there is compiled to the copy for the integers. -/
theorem exportName_otherType : ∃ c artifact i, published constants = some (c, artifact, i) ∧
    (importing c "Constants" i).typeOf (usedAt (.fn .int (.fn .double .int))) =
      .fn .int (.fn .double .int) ∧
    (exportName (importing c "Constants" i) (usedAt (.fn .int (.fn .double .int))) "Constants" "k").run'
      {} = some "k$Int" ∧
    i.find? "k$Int" = some (.fn .int (.fn .int .int)) := by
  have facts : ((published constants).map fun p =>
      ((importing p.1 "Constants" p.2.2).typeOf (usedAt (.fn .int (.fn .double .int))),
        (exportName (importing p.1 "Constants" p.2.2) (usedAt (.fn .int (.fn .double .int)))
          "Constants" "k").run' {}, p.2.2.find? "k$Int")) =
      some (.fn .int (.fn .double .int), some "k$Int", some (.fn .int (.fn .int .int))) := by
    decide +kernel
  obtain ⟨⟨c, artifact, i⟩, known, seen⟩ := Option.map_eq_some_iff.1 facts
  simp only [Prod.mk.injEq] at seen
  obtain ⟨type, selected, exported⟩ := seen
  exact ⟨c, artifact, i, known, type, selected, exported⟩

end StackML.Codegen
