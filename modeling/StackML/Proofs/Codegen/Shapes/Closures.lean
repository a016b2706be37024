import StackML.Proofs.Codegen.Making.Expressions
import StackML.Proofs.Codegen.Shapes.Names
import StackML.Proofs.Expr.Modest

/-!
The code of nested functions, and bodies. A body that leaves its value, with a return behind it, is that of
a verified method; a nested function has such a method, which starts with what it captures and its
parameters, and where it stands the captured values are boxed and closed over.
-/

namespace StackML.Codegen

open Fragment Verify
open StackML.Expr (captured paramNames)
open Typing (Typed Checked)

variable {α β : Type} {w : Place} {s s' s₁ : State} {K : Array Constant} {Q : Array Constant → β → Prop}

/-! ### Captured values -/

theorem Produces.mapM {f : α → Gen Fragment} {q : Kind}
    (each : ∀ a, Produces w (f a) fun K code => w.Turns K code [] [q]) (as : List α) :
    Produces w (as.mapM f) fun K pieces => w.Turns K pieces.flatten [] (List.replicate as.length q) := by
  induction as with
  | nil => exact .pure fun K => .refl []
  | cons a as ih =>
    rw [List.mapM_cons]
    refine (each a).bind fun code => ih.bind fun pieces => .pure fun K rest first => ?_
    rw [List.length_cons, List.replicate_succ']
    exact first.append (rest.over [q])

theorem produces_loadCaptures (names : List String) :
    Produces w (loadCaptures w.ctx names) fun K code => w.Turns K code [] (List.replicate names.length .ref) := by
  refine Produces.bind (.mapM (fun name => ?_) names) fun _ => .pure fun K turns => turns
  refine .get fun s at_ => ?_
  cases found : s.locals.find? name with
  | none => exact .fail _
  | some l =>
    have held := at_.held l (List.mem_of_find?_eq_some found)
    simp only [held.plain]
    exact (produces_load held).bind fun _ => (produces_coerce l.repr .ref).bind fun _ =>
      .pure fun K second first => first.append second

/-! ### Bodies -/

theorem bodyCode_ok {ctx : Context} {n : Typed} {r : Rep} {x : Gen Fragment} {whole : Fragment}
    (run : bodyCode ctx n r x s = .ok whole s') : ∃ body line, asRep ctx n r x s = .ok body s' ∧
      whole = body ++ [⟨returnOp r, .none, line⟩] ∧ Near whole := by
  obtain ⟨body, s₁, runE, run⟩ := bind_ok run
  obtain ⟨last, s₂, runL, run⟩ := bind_ok run
  obtain ⟨rfl, rfl⟩ := emit_ok runL
  dsimp only at run
  split at run
  · obtain ⟨_, _, failed, _⟩ := bind_ok run
    exact (fail_ok failed).elim
  · next near =>
    obtain ⟨rfl, rfl⟩ := pure_ok run
    rw [List.any_eq_true, not_exists] at near
    exact ⟨body, _, runE, rfl, fun i inside => Bool.eq_false_iff.2 fun far => near i ⟨inside, far⟩⟩

theorem Makes.small {c : Checked} {code : Fragment} {bound : Nat} (makes : Makes c s s' code)
    (next : s.locals.next ≤ bound) (most : s.locals.max ≤ bound) : s'.locals.max ≤ bound + code.size := by
  rcases makes.most with less | less <;> omega

theorem bytes_methodOf (name descriptor : String) (room : Nat) (code : Fragment) :
    (methodOf name descriptor room code).code = (bytesOf code).toArray := congrArg List.toArray (bytesOf_eq code)

theorem verifies_body {n : Typed} {x : Gen Fragment} {r : Rep} {code : Fragment} {name descriptor : String}
    {sig : Descriptor.Signature} (at_ : w.At s) (value : Produces w x (w.Leaves n))
    (run : bodyCode w.ctx n r x s = .ok code s') (parsed : Descriptor.parse descriptor = .ok sig)
    (result : sig.result = r) (cells : w.cells = sig.cells)
    (small : s'.locals.max ≤ 2 * (Text.ofString descriptor).length + code.size) :
    w.At s' ∧ (methodOf name descriptor s'.locals.max code).Verifies w.payload s'.pool.entries := by
  obtain ⟨body, line, runE, rfl, near⟩ := bodyCode_ok run
  obtain ⟨at', -, turns⟩ := value.asRep r s body s' at_ runE
  refine ⟨at', s'.locals.max, rfl, ?_, fun K later room _ => ?_⟩
  · rw [bytes_methodOf, List.size_toArray, length_bytesOf]
    exact small
  · have leads := turns K ⟨later, room⟩ []
    rw [List.append_nil, List.append_nil, cells, ← result] at leads
    subst result
    exact Method.verified_of_leads (bytes_methodOf _ _ _ _) parsed leads
      (.none (by cases sig.result <;> rfl)) (by cases sig.result <;> rfl) (by cases sig.result <;> rfl) near

theorem finished_body {e : Expr Typed} {r : Rep} {code : Fragment} {descriptor : String}
    {sig : Descriptor.Signature} (name : String) (at_ : w.At s) (sane : s.Sane w.ctx.checked)
    (value : Produces w (expr w.ctx e) (w.Leaves e.note))
    (run : bodyCode w.ctx e.note r (expr w.ctx e) s = .ok code s')
    (parsed : Descriptor.parse descriptor = .ok sig) (result : sig.result = r) (cells : w.cells = sig.cells)
    (next : s.locals.next ≤ 2 * (Text.ofString descriptor).length)
    (most : s.locals.max ≤ 2 * (Text.ofString descriptor).length) :
    Extends s.pool.entries s'.pool.entries ∧ s'.Good w.payload w.promise w.ctx.checked ∧
      (methodOf name descriptor s'.locals.max code).Laid w.ctx.checked s'.pool.entries ∧
      (methodOf name descriptor s'.locals.max code).Verifies w.payload s'.pool.entries := by
  obtain ⟨makes, good⟩ := (emits_expr w.ctx 0 e).bodyCode.run sane (Nat.zero_le _) run
  obtain ⟨at', verifies⟩ := verifies_body at_ value run parsed result cells (makes.small next most)
  exact ⟨makes.keeps, at'.good, laid_body makes good next most, verifies⟩

/-! ### Parameters -/

theorem Place.At.renamed {names : List String} (at_ : w.At s) (same : ∀ x, x ∈ names ↔ x ∈ w.names) :
    ({ w with names } : Place).At s :=
  ⟨at_.good, at_.next, at_.most, at_.held, fun l inside => (at_.named l inside).imp_right (same _).2,
    fun x member => at_.bound x ((same x).1 member)⟩

theorem Place.At.param {name : String} {r : Rep} {l : Local} (at_ : w.At s) (filled : r ≠ .void)
    (run : Codegen.define name r s = .ok l s') :
    ({ w with names := name :: w.names, cells := w.cells ++ r.cells } : Place).At s' := by
  obtain ⟨-, rfl⟩ := define_ok run
  exact (at_.define filled (adds_cons name w.names)).2

theorem at_params {params : List (String × Rep)} {u : PUnit} (at_ : w.At s)
    (filled : ∀ p ∈ params, p.2 ≠ .void)
    (run : (forIn params PUnit.unit fun p _ => do
      let _ ← define p.1 p.2
      pure (.yield PUnit.unit) : Gen PUnit) s = .ok u s') :
    ({ w with names := (params.map Prod.fst).reverse ++ w.names
              cells := w.cells ++ params.flatMap fun p => p.2.cells } : Place).At s' := by
  induction params generalizing w s with
  | nil =>
    cases run
    simpa using at_
  | cons p params ih =>
    rw [List.forall_mem_cons] at filled
    rw [List.forIn_cons] at run
    obtain ⟨step, s₁, runS, run⟩ := bind_ok run
    obtain ⟨l, s₂, runD, runS⟩ := bind_ok runS
    obtain ⟨rfl, rfl⟩ := pure_ok runS
    have rest := ih (at_.param filled.1 runD) filled.2 run
    simpa only [List.map_cons, List.reverse_cons, List.append_assoc, List.singleton_append, List.flatMap_cons]
      using rest

/-! ### Nested functions -/

theorem distinct_toString (number : Nat) : Distinct (toString number) := by
  have digits : ∀ c ∈ (toString number).toList, c.isDigit = true := by
    intro c member
    rw [Nat.toString_eq_repr, Nat.toList_repr] at member
    exact Nat.isDigit_of_mem_toDigits (Nat.succ_pos 9) (Nat.le_refl 10) member
  exact ⟨fun member => absurd (digits _ member) (by decide), fun member => absurd (digits _ member) (by decide)⟩

theorem idle_reps {s s' : State} {types : List Ty} {reps : List Rep}
    (run : (types.mapM fun t => liftDefect (Rep.ofTy t)) s = .ok reps s') :
    Idle s s' ∧ types.map Rep.ofTy = reps.map .ok := by
  induction types generalizing s reps with
  | nil =>
    obtain ⟨rfl, rfl⟩ := pure_ok run
    exact ⟨.refl _, rfl⟩
  | cons t types ih =>
    rw [List.mapM_cons] at run
    obtain ⟨r, s₁, runT, run⟩ := bind_ok run
    obtain ⟨rest, s₂, runR, run⟩ := bind_ok run
    obtain ⟨rfl, rfl⟩ := pure_ok run
    obtain ⟨known, rfl⟩ := liftDefect_ok runT
    obtain ⟨idle, each⟩ := ih runR
    refine ⟨idle, ?_⟩
    rw [List.map_cons, List.map_cons, known, each]

structure LambdaShape.Suits (shape : LambdaShape) (scope params : List String) : Prop
    extends shape.Fine "" where
  named : Distinct shape.name
  parsed : Descriptor.parse shape.descriptor = .ok ⟨shape.reps, shape.result⟩
  inside : ∀ x ∈ shape.captures, x ∈ scope
  few : shape.captures.length ≤ 255
  names : shape.names = paramNames params
  length : shape.reps.length = shape.captures.length + shape.names.length

theorem LambdaShape.Fine.opens {shape : LambdaShape} {self : String} (fine : shape.Fine self) :
    ∃ rest, shape.descriptor = "(" ++ rest :=
  ⟨_, fine.descriptor.trans ((String.append_assoc ..).trans (String.append_assoc ..))⟩

theorem captures_inside {params : List String} {body : Expr Typed} (at_ : w.At s) {x : String}
    (inside : x ∈ (body.freeNames ("" :: params)).filter fun x => (s.locals.find? x).isSome) : x ∈ w.names := by
  obtain ⟨free, found⟩ := List.mem_filter.1 inside
  obtain ⟨l, found⟩ := Option.isSome_iff_exists.1 found
  have same : l.name = x := beq_iff_eq.1 (List.find?_some (p := fun l : Local => l.name == x) found)
  rcases at_.named l (List.mem_of_find?_eq_some found) with blank | known
  · exact absurd free (same ▸ blank ▸ Expr.not_mem_freeNames List.mem_cons_self body)
  · exact same ▸ known

theorem captures_few {params : List String} {body : Expr Typed} (at_ : w.At s) :
    ((body.freeNames ("" :: params)).filter fun x => (s.locals.find? x).isSome).length ≤
      (captured w.names params body).length := by
  rw [captured, ← List.countP_eq_length_filter, ← List.countP_eq_length_filter]
  refine List.countP_mono_left fun x free found => ?_
  exact List.contains_iff_mem.2 (captures_inside at_ (List.mem_filter.2 ⟨free, found⟩))

theorem idle_lambdaShape {n : Typed} {params : List String} {body : Expr Typed} {shape : LambdaShape}
    (at_ : w.At s) (few : (captured w.names params body).length ≤ 255)
    (run : lambdaShape w.ctx n params body "" s = .ok shape s') : Idle s s' ∧ shape.Suits w.names params := by
  unfold lambdaShape at run
  dsimp only at run
  generalize names : (if params.isEmpty = true then ["_"] else params) = names at run
  split at run
  · obtain ⟨_, _, failed, -⟩ := bind_ok run
    exact (fail_ok failed).elim
  · next same =>
    obtain ⟨_, _, runG, run⟩ := bind_ok run
    cases runG
    obtain ⟨_, s₁, runM, run⟩ := bind_ok run
    obtain ⟨_, _, runG, run⟩ := bind_ok run
    cases runG
    obtain ⟨reps, s₂, runR, run⟩ := bind_ok run
    obtain ⟨result, s₃, runL, run⟩ := bind_ok run
    obtain ⟨rfl, rfl⟩ := pure_ok run
    obtain ⟨-, rfl⟩ := liftDefect_ok runL
    obtain ⟨idle, each⟩ := idle_reps runR
    cases runM
    have lengths := congrArg List.length each
    rw [List.length_map, List.length_map] at lengths
    have filled : ∀ r ∈ List.map (fun _ : String => Rep.ref)
        ((body.freeNames ("" :: params)).filter fun x => (s.locals.find? x).isSome) ++ reps, r ≠ .void := by
      intro r inside
      rcases List.mem_append.1 inside with capture | param
      · obtain ⟨_, -, rfl⟩ := List.mem_map.1 capture
        decide
      · obtain ⟨t, -, known⟩ := List.mem_map.1 (each ▸ List.mem_map_of_mem (f := Except.ok) param)
        exact Rep.ofTy_ne_void known
    refine ⟨idle, ⟨filled, ?_, rfl⟩, ?_, ?_, fun x => captures_inside at_,
      Nat.le_trans (captures_few at_) few, names.symm, ?_⟩
    · exact fun inside => Expr.not_mem_freeNames List.mem_cons_self body (List.mem_of_mem_filter inside)
    · exact Distinct.append (by constructor <;> decide) (distinct_toString _)
    · exact Descriptor.parse_eq_ok.2 (Descriptor.describes_ofReprs (fun inside => filled _ inside rfl) _)
    · rw [List.length_append, List.length_map, ← lengths]
      exact congrArg _ (not_not.1 same)

theorem Produces.lambdaShape {n : Typed} {params : List String} {body : Expr Typed} {f : LambdaShape → Gen β}
    (few : (captured w.names params body).length ≤ 255)
    (next : ∀ shape : LambdaShape, shape.Suits w.names params → Produces w (f shape) Q) :
    Produces w (Codegen.lambdaShape w.ctx n params body "" >>= f) Q := by
  intro s b s' at_ run
  obtain ⟨shape, s₁, runS, run⟩ := bind_ok run
  obtain ⟨idle, suits⟩ := idle_lambdaShape at_ few runS
  obtain ⟨at', kept, known⟩ := next shape suits s₁ b s' (at_.idle idle) run
  exact ⟨at', (Kept.of_idle idle).trans kept, known⟩

theorem at_defineParams {shape : LambdaShape} {scope params : List String} {u : Unit} (inner : Context)
    {payload : Constant → Option Bool} {promise : Promise} (suits : shape.Suits scope params)
    (good : s.Good payload promise inner.checked) (empty : s.locals = {})
    (bound : ∀ x ∈ scope, boundInAny inner.outer x = true) (run : defineParams shape "" s = .ok u s') :
    ({ payload, promise, ctx := inner, names := paramNames params ++ scope
       cells := shape.reps.flatMap Rep.cells } : Place).At s' := by
  obtain ⟨_, s₁, runF, run⟩ := bind_ok run
  cases run
  have lengths : (shape.captures ++ shape.names).length = shape.reps.length := by
    rw [List.length_append, suits.length]
  have filled : ∀ p ∈ (shape.captures ++ shape.names).zip shape.reps, p.2 ≠ .void :=
    fun p inside => suits.held _ (List.of_mem_zip inside).2
  have begun := at_params (.start good empty bound) filled runF
  have cells : [] ++ ((shape.captures ++ shape.names).zip shape.reps).flatMap (fun p => p.2.cells) =
      shape.reps.flatMap Rep.cells := by
    rw [List.nil_append, ← List.flatMap_map Prod.snd, List.map_snd_zip (Nat.le_of_eq lengths.symm)]
  rw [cells, List.map_fst_zip (Nat.le_of_eq lengths)] at begun
  refine begun.renamed fun x => ?_
  have inside := suits.inside x
  simp only [List.mem_append, List.mem_reverse, suits.names]
  tauto

theorem produces_closure {n : Typed} {params : List String} {body : Expr Typed}
    (few : (captured w.names params body).length ≤ 255)
    (inner : ∀ outer cells,
      let v : Place := { w with ctx := { w.ctx with outer }, names := paramNames params ++ w.names, cells }
      Produces v (expr v.ctx body) (v.Leaves body.note)) :
    Produces w (closure w.ctx n params body "" fun inner => expr inner body) fun K code =>
      w.Turns K code [] [.ref] := by
  refine .lambdaShape few fun shape suits => .get fun before at_ => ?_
  let ctx : Context := { w.ctx with outer := before.locals :: w.ctx.outer }
  have assembles : Assembles w.payload w.promise w.ctx.checked (do
      defineParams shape ""
      let code ← Codegen.bodyCode ctx body.note shape.result (expr ctx body)
      pure (code, (← get).locals.max)) fun made => methodOf shape.name shape.descriptor made.2 made.1 := by
    intro s made s' good empty run
    obtain ⟨_, s₁, runP, run⟩ := bind_ok run
    obtain ⟨code, s₂, runB, run⟩ := bind_ok run
    obtain ⟨_, _, runG, run⟩ := bind_ok run
    cases runG
    obtain ⟨rfl, rfl⟩ := pure_ok run
    obtain ⟨sane, pool, next, most⟩ := defineParams_makes suits.toFine (good.sane_of_empty empty) empty runP
    have begun := at_defineParams ctx suits good empty at_.bound runP
    have letters := Descriptor.length_ofReprs shape.reps shape.result
    rw [← suits.descriptor] at letters
    obtain ⟨keeps, good', laid, verifies⟩ :=
      finished_body shape.name begun sane (inner _ _) runB suits.parsed rfl rfl (by omega) (by omega)
    exact ⟨pool ▸ keeps, good', laid, titled_methodOf, verifies⟩
  have named : (methodRef w.ctx shape.name shape.descriptor).Named w.ctx.checked.module.name :=
    named_methodRef suits.named suits.opens
  have known : signature? (methodRef w.ctx shape.name shape.descriptor) = some ⟨shape.reps, shape.result⟩ := by
    rw [signature?, methodRef, suits.parsed]
    rfl
  have more : shape.captures.length < shape.reps.length := by
    have some : shape.names ≠ [] := by
      rw [suits.names, paramNames]
      split
      · exact List.cons_ne_nil _ _
      · next filled => exact fun none => filled (none ▸ rfl)
    have positive := List.length_pos_iff.2 some
    have length := suits.length
    omega
  exact assembles.produces ((produces_loadCaptures shape.captures).bind fun _ =>
    (produces_emitClosure named rfl known more suits.few).bind fun _ =>
      .pure fun K second first => first.append second)

end StackML.Codegen
