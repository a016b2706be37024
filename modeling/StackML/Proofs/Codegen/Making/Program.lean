import StackML.Codegen.Module
import StackML.Proofs.Codegen.Making.Expressions
import StackML.Proofs.Machine.Watching

/-!
The methods of a compiled module are well-formed: each comes from a body that was made on its own, and
what is made later keeps its constants.
-/

namespace StackML

theorem Method.Laid.wellFormed {c : Typing.Checked} {constants : Array Constant} {m : Method} (h : m.Laid c constants)
    (short : m.code.size ≤ 65535) : m.WellFormed constants := by
  obtain ⟨⟨body, last, room, code, locals, small, fits, closed, returns, -⟩, lines⟩ := h
  have size : m.code.size = Fragment.size (body ++ [last]) := by
    rw [code, List.size_toArray, Fragment.length_bytesOf]
  refine wellFormed_of_code code lines (fun bounded => ?_) fits closed returns
    (near_of_short fits closed returns (size ▸ short))
  rw [Descriptor.limit] at bounded
  rw [locals]
  exact Int64.toInt_ofNat_of_lt (by omega)

theorem Method.Laid.exact {c : Typing.Checked} {constants : Array Constant} {m : Method}
    (h : m.Laid c constants) (other : m.name ≠ Names.initializer) :
    ∃ code, Codegen.Generated c code ∧ m.Exact code := by
  obtain ⟨⟨body, last, room, code, -, -, fits, closed, returns, checks⟩, -⟩ := h
  obtain ⟨near, generated⟩ := checks.resolve_left other
  exact ⟨_, generated, exact_of_code code fits closed returns near⟩

namespace Codegen

open Fragment (Closed)
open Typing (Typed Checked)

variable {c : Checked} {s s' s₁ : State} {α β : Type} {room words : Nat} {front : Fragment}

theorem silent_forIn {f : β → PUnit → Gen (ForInStep PUnit)} {bs : List β}
    (each : ∀ b ∈ bs, ∀ u, Emits c room [] (.silent fun _ => True) (f b u)) (u : PUnit) :
    Emits c room [] (.silent fun _ => True) (forIn bs u f) := by
  induction bs generalizing u with
  | nil => exact .done rfl trivial
  | cons b bs ih =>
    rw [List.forall_mem_cons] at each
    rw [List.forIn_cons]
    refine (each.1 u).skip fun step _ => ?_
    cases step with
    | done u => exact .done rfl trivial
    | yield u => exact ih each.2 u

theorem begun_typed {params : List Param} {types : List Ty} (h : Begun words s s₁) {u : Unit}
    (ok : defineTyped params types s₁ = .ok u s') : Begun (words + 2 * types.length) s s' := by
  induction params generalizing types words s₁ with
  | nil =>
    cases ok
    exact h.mono (Nat.le_add_right _ _)
  | cons p params ih =>
    cases types with
    | nil =>
      cases ok
      exact h
    | cons t types =>
      obtain ⟨r, s₂, runR, ok⟩ := bind_ok ok
      obtain ⟨rep, rfl⟩ := liftDefect_ok runR
      obtain ⟨l, s₃, runD, ok⟩ := bind_ok ok
      refine (ih (h.define (Rep.ofTy_ne_void rep) runD) ok).mono ?_
      rw [List.length_cons]
      omega

theorem silent_compileFunction {f : Specialization} (isOf : f.IsOf c) :
    Emits c room [] (.silent fun _ => True) (compileFunction c f) := by
  have method (params : List Ty) (result : Ty) : Completes c (do
      defineTyped f.fn.decl.params params
      let descriptor ← liftDefect (Descriptor.write params result)
      let ret ← liftDefect (Rep.ofResult result)
      let code ← bodyCode { checked := c, mapping := f.mapping } f.fn.decl.body.note ret
        (expr { checked := c, mapping := f.mapping } f.fn.decl.body)
      pure (methodOf f.name descriptor (← get).locals.max code))
      fun m => { m with function := f.fn.decl.name, signature := Signature.render f.type } := by
    intro s m s' sane empty ok
    obtain ⟨_, s₁, runP, ok⟩ := bind_ok ok
    obtain ⟨descriptor, s₂, runD, ok⟩ := bind_ok ok
    obtain ⟨written, rfl⟩ := liftDefect_ok runD
    obtain ⟨ret, s₃, runR, ok⟩ := bind_ok ok
    obtain ⟨-, rfl⟩ := liftDefect_ok runR
    obtain ⟨code, s₄, runB, ok⟩ := bind_ok ok
    obtain ⟨_, _, runG, ok⟩ := bind_ok ok
    cases runG
    obtain ⟨rfl, rfl⟩ := pure_ok ok
    have begun := begun_typed (.start empty) runP
    let ctx : Context := { checked := c, mapping := f.mapping }
    have body : Emits ctx.checked 0 [] .fragment (expr ctx f.fn.decl.body) := emits_expr ctx 0 _
    obtain ⟨makes, good⟩ := body.bodyCode.run (begun.sane sane) (Nat.zero_le _) runB
    have letters := Descriptor.length_write written
    have next := begun.next
    have most := begun.most
    have laid : (methodOf f.name descriptor s'.locals.max code).Laid c s'.pool.entries :=
      laid_body makes good (by omega) (by omega)
    have keeps := makes.keeps
    rw [begun.others] at keeps
    exact ⟨keeps, makes.sane, ⟨laid.code, laid.lines⟩, .inr ⟨f, isOf, rfl, rfl, rfl⟩⟩
  exact .ite (fun _ => .failed _) fun _ => (method _ _).emits

/-! ### The initializer and the main expression -/

theorem emits_storeValues {done : List Fragment} (closed : Closed (joinPieces done))
    (decls : List (Decl Typed)) :
    Emits c room (joinPieces done) .fragment (storeValues c done decls) := by
  induction decls generalizing done with
  | nil => exact emits_pieces closed
  | cons d decls ih =>
    cases d with
    | value d =>
      have value := emits_expr { checked := c } room d.value
      refine Emits.skip (silent_modify fun _ => ⟨rfl, rfl, rfl, List.Subset.refl _⟩) fun _ _ =>
        (silent_liftDefect _).skip fun _ _ =>
          Emits.skip (silent_modify fun _ => ⟨rfl, rfl, rfl, List.Subset.refl _⟩) fun _ _ =>
            value.bind fun _ last => (emits_constant rfl rfl (by decide)).bind fun _ last' => ?_
      rw [List.append_assoc]
      exact emits_piece (ih (closed_piece closed (last.append last')))
    | _ => exact ih closed

theorem Emits.completes {x : Gen Fragment} {name descriptor : String}
    (h : Emits c 0 [] (.body c name) x) :
    Completes c (do pure (← x, (← get).locals.max))
      fun made => methodOf name descriptor made.2 made.1 := by
  intro s made s' sane empty ok
  obtain ⟨code, s₁, runX, ok⟩ := bind_ok ok
  obtain ⟨_, _, runG, ok⟩ := bind_ok ok
  cases runG
  obtain ⟨rfl, rfl⟩ := pure_ok ok
  obtain ⟨makes, good⟩ := h.run sane (Nat.zero_le _) runX
  refine ⟨makes.keeps, makes.sane, laid_body makes good ?_ ?_, titled_methodOf⟩
  all_goals
    rw [empty]
    exact Nat.zero_le _

theorem emits_initializer (c : Checked) : Emits c 0 [] (.body c Names.initializer) (do
    let code ← storeValues c [] c.module.decls
    pure (code ++ (← emit .vreturn))) :=
  (emits_storeValues closed_noPieces _).bind fun _ closed => emits_return closed rfl rfl

theorem silent_compileInitializer :
    Emits c room [] (.silent fun _ => True) (compileInitializer c) := by
  refine .ite (fun _ => ?_) fun _ => .done rfl trivial
  have completes : Completes c _
      fun made : Fragment × Nat => methodOf Names.initializer "()V" made.2 made.1 :=
    (emits_initializer c).completes
  simp only [bind_assoc, pure_bind] at completes
  exact completes.emits

theorem silent_compileMain (e : Expr Typed) :
    Emits c room [] (.silent fun _ => True) (compileMain c e) := by
  refine (silent_liftDefect _).skip fun descriptor _ => (silent_liftDefect _).skip fun r _ => ?_
  let ctx : Context := { checked := c }
  have body : Emits ctx.checked 0 [] .fragment (expr ctx e) := emits_expr ctx 0 e
  exact body.bodyCode.completes.emits

/-! ### The queue -/

theorem get?_of_mem_ordered {f : Typing.Function} (member : f ∈ ordered c) :
    ∃ name, c.functions.get? name = some f := by
  obtain ⟨name, -, found⟩ := List.mem_filterMap.1 member
  exact ⟨name, found⟩

theorem silent_queueFunction {f : Typing.Function} (member : f ∈ ordered c) :
    Emits c room [] (.silent fun _ => True) (queueFunction c f) := by
  obtain ⟨name, known⟩ := get?_of_mem_ordered member
  refine .ite (fun _ => ?_) fun _ => silent_enqueue ⟨⟨name, known⟩, .inl rfl⟩
  have each (t : Ty) : Emits c room [] (.silent fun _ => True)
      (do let _ ← specialize f t; pure (ForInStep.yield PUnit.unit)) :=
    (silent_specialize known t).skip fun _ _ => .done rfl trivial
  exact (silent_forIn (fun t _ _ => each t) _).skip fun _ _ => .done rfl trivial

theorem silent_prepare : Emits c room [] (.silent fun _ => True) (prepare c) := by
  have queued : ∀ f ∈ ordered c, Emits c room [] (.silent fun _ => True)
      (do queueFunction c f; pure (ForInStep.yield PUnit.unit) : Gen (ForInStep PUnit)) :=
    fun f member => (silent_queueFunction member).skip fun _ _ => .done rfl trivial
  refine (silent_forIn (fun f member _ => queued f member) _).skip
    fun _ _ => silent_compileInitializer.skip fun _ _ => ?_
  split
  · exact silent_compileMain _
  · exact .done rfl trivial

theorem silent_drain (steps : Nat) : Emits c room [] (.silent fun _ => True) (drain c steps) := by
  induction steps generalizing room with
  | zero => exact .fail _
  | succ steps ih =>
    refine .get fun s sane _ => ?_
    split
    · next f rest work =>
      have waiting := work ▸ sane.work
      rw [List.forall_mem_cons] at waiting
      have taken : Emits c s.locals.max [] (.silent fun _ => True)
          (modify fun st => { st with work := rest } : Gen PUnit) := .of_run fun s₁ _ s₂ sane₁ _ ok => by
        cases ok
        exact ⟨.of_same (.refl _) rfl rfl { sane₁ with work := waiting.2 }, trivial⟩
      exact taken.skip fun _ _ => (silent_compileFunction waiting.1).skip fun _ _ => ih
    · refine .get fun s' _ _ => ?_
      split
      · exact .done rfl trivial
      · have queued : ∀ f ∈ unused c s', Emits c s'.locals.max [] (.silent fun _ => True)
            (do enqueue (defaulted f); pure (ForInStep.yield PUnit.unit) : Gen (ForInStep PUnit)) :=
          fun f member => (silent_enqueue ⟨get?_of_mem_ordered (List.mem_of_mem_filter member),
            .inl rfl⟩).skip fun _ _ => .done rfl trivial
        exact (silent_forIn (fun f member _ => queued f member) _).skip fun _ _ => ih

theorem sane_start (c : Checked) : State.Sane {} c :=
  ⟨LocalTable.sound_empty, Pool.holds_empty _, List.forall_mem_nil _, List.forall_mem_nil _, List.forall_mem_nil _⟩

/-- In the pool of a module that was compiled, and in any that its generator comes by, no other constant has
the key of the comparison of texts. -/
theorem comparesAlone_of_compileModule {artifacts : List Artifact} (ok : compileModule c {} = .ok artifacts s) :
    s.pool.ComparesAlone := by
  have made : Emits c 0 [] (.silent fun _ => True) (compileModule c) :=
    silent_prepare.skip fun _ _ => (silent_drain _).skip fun _ _ => .get fun _ _ _ => .done rfl trivial
  exact (made.run (sane_start c) (Nat.zero_le _) ok).1.sane.pool.comparesAlone

theorem methods_of_mem_holders {a : Artifact} (listed : a ∈ holders c) : a.methods = [] := by
  simp only [holders, List.mem_flatMap, List.mem_filterMap, Option.map_eq_some_iff] at listed
  obtain ⟨_, -, _, -, _, -, rfl⟩ := listed
  rfl

theorem methods_of_compile {artifacts : List Artifact} (ok : (compile c).result = .ok artifacts) :
    ∀ a ∈ artifacts, ∀ m ∈ a.methods, m.Laid c a.constants ∧ Titled c m := by
  have made : Emits c 0 [] (.silent fun artifacts => ∀ a ∈ artifacts, ∀ m ∈ a.methods,
      m.Laid c a.constants ∧ Titled c m) (compileModule c) := by
    refine silent_prepare.skip fun _ _ => (silent_drain _).skip fun _ _ => .get fun s sane _ =>
      .done rfl fun a listed m inside => ?_
    rcases List.mem_cons.1 listed with rfl | holder
    · have listed := List.mem_reverse.1 inside
      exact ⟨sane.methods m listed, sane.titled m listed⟩
    · rw [methods_of_mem_holders holder] at inside
      cases inside
  unfold compile at ok
  split at ok
  · next run =>
    cases ok
    exact (made.run (sane_start c) (Nat.zero_le _) run).2
  · cases ok

theorem laid_of_compile {artifacts : List Artifact} (ok : (compile c).result = .ok artifacts) :
    ∀ a ∈ artifacts, ∀ m ∈ a.methods, m.Laid c a.constants :=
  fun a listed m inside => (methods_of_compile ok a listed m inside).1

/-- Every method of a compiled module, of no more bytes than a jump can pass over, is well-formed, and on
any run its opcodes are fetched at offsets that are listed. -/
theorem compiled_wellFormed (c : Checked) {artifacts : List Artifact}
    (ok : (compile c).result = .ok artifacts) {a : Artifact} (listed : a ∈ artifacts) {m : Method}
    (inside : m ∈ a.methods) (short : m.code.size ≤ 65535) :
    m.WellFormed a.constants ∧
      Machine.FetchesOnly fun f => f.code.method = m → Disassembly.Lists a m f.ip :=
  have formed := (laid_of_compile ok a listed m inside).wellFormed short
  ⟨formed, Machine.fetchesOnly_listed formed⟩

/-- A sum from a start that a recursive function captures. -/
def sumModule : Module Position where
  note := default
  name := "M"
  imports := []
  decls := [.value ⟨default, "two", .int default 2⟩]
  main := some <|
    .letIn default "start" (.var default "two") <|
    .letRec default "sum" default ["xs"]
      (.matchOn default (.var default "xs")
        [.mk (.nil default) (.var default "start"),
          .mk (.cons default (.var default "x") (.var default "rest"))
            (.binary default .add (.var default "x")
              (.apply default (.var default "sum") [.var default "rest"]))]) <|
    .print default (.interp default
      [.text "sum ", .hole (.apply default (.var default "sum")
        [.list default [.int default 3, .int default 4]])])

theorem compiled_wellFormed_sum : ∃ c artifacts,
    Typing.check (.chain []) none sumModule = .ok c ∧ (compile c).result = .ok artifacts ∧
    (artifacts.flatMap Artifact.methods).length = 3 ∧
    ∀ a ∈ artifacts, ∀ m ∈ a.methods, m.WellFormed a.constants ∧
      Machine.FetchesOnly fun f => f.code.method = m → Disassembly.Lists a m f.ip := by
  have facts : ((Typing.check (.chain []) none sumModule).toOption.bind fun c =>
      (compile c).result.toOption.map fun artifacts =>
        ((artifacts.flatMap Artifact.methods).length,
          artifacts.all fun a => a.methods.all fun m => decide (m.code.size ≤ 65535))) =
      some (3, true) := by
    decide +kernel
  cases checked : Typing.check (.chain []) none sumModule with
  | error d => simp [checked, Except.toOption] at facts
  | ok c =>
    cases compiled : (compile c).result with
    | error d => simp [checked, compiled, Except.toOption] at facts
    | ok artifacts =>
      simp only [checked, compiled, Except.toOption, Option.bind_some, Option.map_some,
        Option.some.injEq, Prod.mk.injEq, List.all_eq_true, decide_eq_true_eq] at facts
      exact ⟨c, artifacts, rfl, compiled, facts.1, fun a listed m inside =>
        compiled_wellFormed c compiled listed inside (facts.2 a listed m inside)⟩

/-- Every method of a compiled module but the initializer was assembled from code that the generator made
for it, and in that each jump has its distance, however long the method is. -/
theorem compiled_exact (c : Checked) {artifacts : List Artifact}
    (ok : (compile c).result = .ok artifacts) {a : Artifact} (listed : a ∈ artifacts) {m : Method}
    (inside : m ∈ a.methods) (other : m.name ≠ Names.initializer) :
    ∃ code, Generated c code ∧ m.Exact code :=
  (laid_of_compile ok a listed m inside).exact other

/-- The jump over the case of the empty list, behind a load, a store, another load and the test. -/
theorem compiled_exact_sum : ∃ c artifacts,
    Typing.check (.chain []) none sumModule = .ok c ∧ (compile c).result = .ok artifacts ∧
    ∃ a ∈ artifacts, ∃ m ∈ a.methods, m.name ≠ Names.initializer ∧ m.Has 10 .ifEq ∧
      Disassembly.wordAt m.code 11 = 7 ∧ ∃ code, Generated c code ∧ m.Exact code := by
  have facts : ((Typing.check (.chain []) none sumModule).toOption.bind fun c =>
      (compile c).result.toOption.map fun artifacts => artifacts.any fun a => a.methods.any fun m =>
        decide (m.name ≠ Names.initializer ∧ opcodeAt m.code 0 = some .aload ∧
          opcodeAt m.code 3 = some .astore ∧ opcodeAt m.code 6 = some .aload ∧
          opcodeAt m.code 9 = some .listIsEmpty ∧ opcodeAt m.code 10 = some .ifEq ∧
          Disassembly.wordAt m.code 11 = 7)) = some true := by
    decide +kernel
  cases checked : Typing.check (.chain []) none sumModule with
  | error d => simp [checked, Except.toOption] at facts
  | ok c =>
    cases compiled : (compile c).result with
    | error d => simp [checked, compiled, Except.toOption] at facts
    | ok artifacts =>
      simp only [checked, compiled, Except.toOption, Option.bind_some, Option.map_some,
        Option.some.injEq, List.any_eq_true, decide_eq_true_eq] at facts
      obtain ⟨a, listed, m, inside, other, load, store, load', test, jump, word⟩ := facts
      have starts : Starts m.code 10 := ((((Starts.first).next load).next store).next load').next test
      exact ⟨c, artifacts, rfl, compiled, a, listed, m, inside, other, ⟨starts, jump⟩, word,
        compiled_exact c compiled listed inside other⟩

end Codegen
end StackML
