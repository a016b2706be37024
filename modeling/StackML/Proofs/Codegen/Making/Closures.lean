import StackML.Proofs.Codegen.Making.Names

/-!
Methods from their bodies. The parameters of a method take at most two words each and have a letter
each in its descriptor; a nested function captures no name that stands for itself.
-/

namespace StackML

/-! ### Descriptors -/

namespace Descriptor

theorem length_ofString (s : String) : (Text.ofString s).length = s.utf8ByteSize := rfl

theorem utf8ByteSize_join (items : List String) :
    (String.join items).utf8ByteSize = (items.map String.utf8ByteSize).sum := by
  have start : ∀ s : String, (items.foldl (· ++ ·) s).utf8ByteSize =
      s.utf8ByteSize + (items.map String.utf8ByteSize).sum := by
    induction items with
    | nil => exact fun s => rfl
    | cons item items ih =>
      intro s
      rw [List.foldl_cons, ih, String.utf8ByteSize_append, List.map_cons, List.sum_cons, Nat.add_assoc]
  exact (start "").trans (Nat.zero_add _)

theorem item_size (r : Rep) (reference : String) : 0 < (item r reference).utf8ByteSize := by
  cases r with
  | ref =>
    change 0 < ("L" ++ reference ++ ";").utf8ByteSize
    rw [String.utf8ByteSize_append]
    exact Nat.add_pos_right _ (by decide)
  | int | bool | double | void => exact (by decide : 0 < 1)

theorem length_le_join {items : List String} (each : ∀ item ∈ items, 0 < item.utf8ByteSize) :
    items.length ≤ (String.join items).utf8ByteSize := by
  rw [utf8ByteSize_join]
  refine Nat.le_trans ?_ (List.length_le_sum_of_one_le _ fun n inside => ?_)
  · rw [List.length_map]
  · obtain ⟨item, listed, rfl⟩ := List.mem_map.1 inside
    exact each item listed

theorem length_ofReprs (params : List Rep) (result : Rep) :
    params.length ≤ (Text.ofString (ofReprs params result)).length := by
  have each : ∀ s ∈ params.map (item · "object"), 0 < s.utf8ByteSize := fun s inside => by
    obtain ⟨r, -, rfl⟩ := List.mem_map.1 inside
    exact item_size r _
  have items := length_le_join each
  rw [List.length_map] at items
  rw [length_ofString, ofReprs, String.utf8ByteSize_append, String.utf8ByteSize_append,
    String.utf8ByteSize_append]
  omega

theorem mapM_ofTy {params : List Ty} {items : List String} (known : params.mapM ofTy = .ok items) :
    items.length = params.length ∧ ∀ item ∈ items, 0 < item.utf8ByteSize := by
  induction params generalizing items with
  | nil =>
    cases known
    exact ⟨rfl, nofun⟩
  | cons t params ih =>
    rw [List.mapM_cons] at known
    cases first : Rep.ofTy t with
    | error d =>
      simp only [ofTy, first] at known
      cases known
    | ok r =>
      cases rest : params.mapM ofTy with
      | error d =>
        simp only [ofTy, first, rest] at known
        cases known
      | ok others =>
        simp only [ofTy, first, rest] at known
        cases known
        obtain ⟨length, each⟩ := ih rest
        exact ⟨congrArg (· + 1) length, List.forall_mem_cons.2 ⟨item_size r _, each⟩⟩

theorem length_write {params : List Ty} {result : Ty} {descriptor : String}
    (written : write params result = .ok descriptor) :
    params.length ≤ (Text.ofString descriptor).length := by
  unfold write at written
  cases known : params.mapM ofTy with
  | error d =>
    rw [known] at written
    cases written
  | ok items =>
    cases last : ofResult result with
    | error d =>
      rw [known, last] at written
      cases written
    | ok r =>
      rw [known, last] at written
      cases written
      obtain ⟨length, each⟩ := mapM_ofTy known
      have letters := length_le_join each
      rw [length_ofString, String.utf8ByteSize_append, String.utf8ByteSize_append,
        String.utf8ByteSize_append]
      omega

theorem write_bracket {params : List Ty} {result : Ty} {descriptor : String}
    (written : write params result = .ok descriptor) : ∃ d, descriptor = "(" ++ d := by
  unfold write at written
  cases known : params.mapM ofTy with
  | error d =>
    rw [known] at written
    cases written
  | ok items =>
    cases last : ofResult result with
    | error d =>
      rw [known, last] at written
      cases written
    | ok r =>
      rw [known, last] at written
      cases written
      exact ⟨_, by rw [String.append_assoc, String.append_assoc]⟩

end Descriptor

/-! ### Free names -/

namespace Expr

variable {α : Type} {name : String}

theorem mem_see {bound seen : List String} {other : String} (known : name ∈ bound)
    (unseen : name ∉ seen) : name ∉ see bound seen other := by
  unfold see
  split
  · exact unseen
  · next fails =>
    simp only [Bool.or_eq_true, List.contains_iff_mem, not_or] at fails
    have apart : name ≠ other := fun same => fails.1 (same ▸ known)
    exact List.not_mem_cons_of_ne_of_not_mem apart unseen

mutual
theorem not_mem_seeNames : (e : Expr α) → ∀ {bound seen : List String}, name ∈ bound → name ∉ seen →
    name ∉ e.seeNames bound seen
  | .var _ _, _, _, known, unseen => mem_see known unseen
  | .interp _ parts, _, _, known, unseen => not_mem_seeParts parts known unseen
  | .unary _ _ e, _, _, known, unseen => not_mem_seeNames e known unseen
  | .binary _ _ l r, _, _, known, unseen =>
    not_mem_seeNames r known (not_mem_seeNames l known unseen)
  | .cond _ c t e, _, _, known, unseen =>
    not_mem_seeNames e known (not_mem_seeNames t known (not_mem_seeNames c known unseen))
  | .letIn _ _ v b, _, _, known, unseen =>
    not_mem_seeNames b (List.mem_cons_of_mem _ known) (not_mem_seeNames v known unseen)
  | .letRec _ _ _ _ fnBody b, _, _, known, unseen =>
    not_mem_seeNames b (List.mem_cons_of_mem _ known)
      (not_mem_seeNames fnBody (List.mem_append_right _ (List.mem_cons_of_mem _ known)) unseen)
  | .lambda _ _ b, _, _, known, unseen => not_mem_seeNames b (List.mem_append_right _ known) unseen
  | .apply _ c args, _, _, known, unseen =>
    not_mem_seeAll args known (not_mem_seeNames c known unseen)
  | .sequence _ es, _, _, known, unseen => not_mem_seeAll es known unseen
  | .print _ e, _, _, known, unseen => not_mem_seeNames e known unseen
  | .list _ es, _, _, known, unseen => not_mem_seeAll es known unseen
  | .cons _ h t, _, _, known, unseen => not_mem_seeNames t known (not_mem_seeNames h known unseen)
  | .matchOn _ e arms, _, _, known, unseen =>
    not_mem_seeArms arms known (not_mem_seeNames e known unseen)
  | .build _ _ e, _, _, known, unseen => not_mem_seeNames e known unseen
  | .hostCall _ _ _ args, _, _, known, unseen => not_mem_seeAll args known unseen
  | .hostMethod _ r _ args, _, _, known, unseen =>
    not_mem_seeAll args known (not_mem_seeNames r known unseen)
  | .int .., _, _, _, unseen | .float .., _, _, _, unseen | .bool .., _, _, _, unseen
  | .str .., _, _, _, unseen | .unit _, _, _, _, unseen | .qualified .., _, _, _, unseen
  | .tag .., _, _, _, unseen | .hostField .., _, _, _, unseen | .hostNew .., _, _, _, unseen => unseen

theorem not_mem_seeAll : (es : List (Expr α)) → ∀ {bound seen : List String}, name ∈ bound →
    name ∉ seen → name ∉ seeAll bound seen es
  | [], _, _, _, unseen => unseen
  | e :: es, _, _, known, unseen => not_mem_seeAll es known (not_mem_seeNames e known unseen)

theorem not_mem_seeParts : (ps : List (Part α)) → ∀ {bound seen : List String}, name ∈ bound →
    name ∉ seen → name ∉ seeParts bound seen ps
  | [], _, _, _, unseen => unseen
  | .text _ :: ps, _, _, known, unseen => not_mem_seeParts ps known unseen
  | .hole e :: ps, _, _, known, unseen => not_mem_seeParts ps known (not_mem_seeNames e known unseen)

theorem not_mem_seeArms : (arms : List (Arm α)) → ∀ {bound seen : List String}, name ∈ bound →
    name ∉ seen → name ∉ seeArms bound seen arms
  | [], _, _, _, unseen => unseen
  | .mk _ e :: arms, _, _, known, unseen =>
    not_mem_seeArms arms known (not_mem_seeNames e (List.mem_append_right _ known) unseen)
end

theorem not_mem_freeNames {bound : List String} (known : name ∈ bound) (e : Expr α) :
    name ∉ e.freeNames bound := by
  rw [freeNames, List.mem_reverse]
  exact not_mem_seeNames e known List.not_mem_nil

end Expr

namespace Codegen

open Fragment (Closed Near)
open Typing (Typed Checked)

variable {c : Checked} {ctx : Context} {s s' s₁ s₂ : State} {α β : Type} {room words : Nat}
  {front : Fragment} {P : Product α} {Q : Product β}

/-! ### Bodies -/

/-- Code that ends with a return. -/
def Product.body (c : Checked) (name : String) : Product Fragment :=
  ⟨id, fun code => (∃ body last, code = body ++ [last] ∧ Closed body ∧ last.op.isReturn = true) ∧
    Checks c name code⟩

theorem Emits.asRep {n : Typed} {x : Gen Fragment} (r : Rep)
    (h : Emits ctx.checked room [] .fragment x) :
    Emits ctx.checked room [] .fragment (asRep ctx n r x) :=
  (silent_repOf n).skip fun _ _ => h.bind fun _ closed => (emits_coerce _ _).bind fun _ closed' =>
    .done rfl (closed.append closed')

theorem emits_return {code : Fragment} {op : Opcode} (closed : Closed code) (kind : op.operands = .none)
    (returns : op.isReturn = true) :
    Emits c room code (.body c Names.initializer) (do pure (code ++ (← emit op))) := by
  intro s₀ s whole s' made fits ok
  obtain ⟨last, s₁, runL, ok⟩ := bind_ok ok
  obtain ⟨rfl, rfl⟩ := pure_ok ok
  have single : Emits c room [] .fragment (emit op) := emits_emit kind
  obtain ⟨makes, -⟩ := single.run made.sane fits runL
  obtain ⟨rfl, rfl⟩ := emit_ok runL
  refine ⟨made.trans makes, ⟨⟨code, _, rfl, closed, returns⟩, .inl rfl⟩, ?_⟩
  change code.size ≤ Fragment.size (code ++ _)
  rw [Fragment.size_append]
  exact Nat.le_add_right _ _

theorem Emits.bodyCode {e : Expr Typed} {r : Rep} {name : String}
    (h : Emits ctx.checked room [] .fragment (expr ctx e)) :
    Emits ctx.checked room [] (.body ctx.checked name) (bodyCode ctx e.note r (expr ctx e)) := by
  have kind : (returnOp r).operands = .none := by cases r <;> rfl
  have returns : (returnOp r).isReturn = true := by cases r <;> rfl
  refine .of_run fun s whole s' sane fits run => ?_
  obtain ⟨code, s₁, runE, ok⟩ := bind_ok run
  obtain ⟨makes, closed⟩ := (h.asRep r).run sane fits runE
  obtain ⟨last, s₂, runL, ok⟩ := bind_ok ok
  dsimp only at ok
  split at ok
  · obtain ⟨_, _, failed, _⟩ := bind_ok ok
    exact (fail_ok failed).elim
  · next near =>
    have fits' := Nat.le_trans fits makes.grows
    obtain ⟨makes, ⟨ends, -⟩, -⟩ := emits_return closed kind returns s s₁ whole s' makes fits'
      (by rw [bind_of_ok runL]; exact ok)
    obtain ⟨rfl, rfl⟩ := pure_ok ok
    refine ⟨makes, ends, .inr ⟨fun i inside => ?_, .body rfl run⟩⟩
    rw [List.any_eq_true, not_exists] at near
    exact Bool.eq_false_iff.2 fun far => near i ⟨inside, far⟩

theorem laid_body {name descriptor : String} {code : Fragment} (makes : Makes c s s' code)
    (good : (Product.body c name).good code) (next : s.locals.next ≤ 2 * (Text.ofString descriptor).length)
    (most : s.locals.max ≤ 2 * (Text.ofString descriptor).length) :
    (methodOf name descriptor s'.locals.max code).Laid c s'.pool.entries := by
  obtain ⟨⟨body, last, rfl, closed, returns⟩, near⟩ := good
  refine laid_methodOf ?_ makes.fits closed returns near
  rcases makes.most with less | less <;> omega

/-! ### Parameters -/

structure Begun (words : Nat) (s s' : State) : Prop where
  others : s' = { s with locals := s'.locals }
  sound : s'.locals.Sound
  plain : ∀ l ∈ s'.locals.all, l.self = none
  next : s'.locals.next ≤ words
  most : s'.locals.max ≤ words

theorem Begun.start (empty : s.locals = {}) : Begun 0 s s := by
  refine ⟨rfl, ?_, ?_, ?_, ?_⟩ <;> rw [empty]
  · exact LocalTable.sound_empty
  · nofun

theorem Begun.define {name : String} {r : Rep} {l : Local} (h : Begun words s s₁) (held : r ≠ .void)
    (ok : define name r s₁ = .ok l s') : Begun (words + 2) s s' := by
  obtain ⟨-, rfl⟩ := define_ok ok
  have next := h.next
  have most := h.most
  have width : r.width ≤ 2 := by cases r <;> decide
  refine ⟨?_, h.sound.define name held, fun l inside => ?_, ?_, ?_⟩
  · rw [h.others]
  · rcases LocalTable.mem_all_push inside with rfl | old
    · rfl
    · exact h.plain l old
  · change s₁.locals.next + r.width ≤ words + 2
    omega
  · exact Nat.max_le.2 ⟨by omega, by omega⟩

theorem Begun.mono {words' : Nat} (h : Begun words s s') (more : words ≤ words') : Begun words' s s' :=
  ⟨h.others, h.sound, h.plain, Nat.le_trans h.next more, Nat.le_trans h.most more⟩

theorem Begun.sane (h : Begun words s s') (sane : s.Sane c) : s'.Sane c := by
  rw [h.others]
  exact { sane with locals := h.sound }

/-! ### Nested functions -/

structure LambdaShape.Fine (shape : LambdaShape) (name : String) : Prop where
  held : ∀ r ∈ shape.reps, r ≠ .void
  apart : name ∉ shape.captures
  descriptor : shape.descriptor = Descriptor.ofReprs shape.reps shape.result

theorem silent_mapM {f : β → Gen α} {good : α → Prop}
    (each : ∀ b, Emits c room [] (.silent good) (f b)) (bs : List β) :
    Emits c room [] (.silent fun as => ∀ a ∈ as, good a) (bs.mapM f) := by
  induction bs with
  | nil => exact .done rfl nofun
  | cons b bs ih =>
    rw [List.mapM_cons]
    exact (each b).skip fun a first => ih.skip fun as rest =>
      .done rfl (List.forall_mem_cons.2 ⟨first, rest⟩)

theorem silent_lambdaShape (n : Typed) (params : List String) (body : Expr Typed) (self : String) :
    Emits ctx.checked room [] (.silent fun shape => shape.Fine self)
      (lambdaShape ctx n params body self) := by
  have shape (names : List String) (types : List Ty) (result : Ty) :
      Emits ctx.checked room [] (.silent fun shape => shape.Fine self) (do
      let locals := (← get).locals
      let captures := (body.freeNames (self :: params)).filter fun x => (locals.find? x).isSome
      modify fun s => { s with lambdas := s.lambdas + 1 }
      let name := Names.lambdaStem ++ toString (← get).lambdas
      let reps ← types.mapM fun t => liftDefect (Rep.ofTy t)
      let reps := captures.map (fun _ => Rep.ref) ++ reps
      let result ← liftDefect (Rep.ofResult result)
      pure { name, descriptor := Descriptor.ofReprs reps result, captures, names, reps, result } :
      Gen LambdaShape) := by
    refine .get fun s _ _ => Emits.skip (silent_modify fun _ => ⟨rfl, rfl, rfl, List.Subset.refl _⟩) fun _ _ =>
      .get fun s' _ _ => ?_
    refine (silent_mapM (fun t => silent_rep (Rep.ofTy t) fun _ => Rep.ofTy_ne_void) types).skip
      fun reps held => (silent_liftDefect _).skip fun r _ => .done rfl ⟨fun r inside => ?_, ?_, rfl⟩
    · rcases List.mem_append.1 inside with capture | param
      · obtain ⟨_, -, rfl⟩ := List.mem_map.1 capture
        nofun
      · exact held r param
    · intro inside
      exact Expr.not_mem_freeNames List.mem_cons_self body (List.mem_of_mem_filter inside)
  exact .ite (fun _ => .failed _) fun _ => shape _ _ _

theorem begun_params {params : List (String × Rep)} (held : ∀ p ∈ params, p.2 ≠ .void)
    (h : Begun words s s₁) {u : PUnit}
    (ok : (forIn params PUnit.unit fun p _ => do
      let _ ← define p.1 p.2
      pure (.yield PUnit.unit) : Gen PUnit) s₁ = .ok u s') :
    Begun (words + 2 * params.length) s s' := by
  induction params generalizing words s₁ with
  | nil =>
    cases ok
    exact h
  | cons p params ih =>
    rw [List.forall_mem_cons] at held
    rw [List.forIn_cons] at ok
    obtain ⟨step, s₂, runS, ok⟩ := bind_ok ok
    obtain ⟨l, s₃, runD, runS⟩ := bind_ok runS
    obtain ⟨rfl, rfl⟩ := pure_ok runS
    refine (ih held.2 (h.define held.1 runD) ok).mono ?_
    rw [List.length_cons]
    omega

theorem defineParams_makes {shape : LambdaShape} {self : String} (fine : shape.Fine self)
    (sane : s.Sane c) (empty : s.locals = {}) {u : Unit} (ok : defineParams shape self s = .ok u s') :
    s'.Sane c ∧ s'.pool = s.pool ∧ s'.locals.next ≤ 2 * shape.reps.length ∧
      s'.locals.max ≤ 2 * shape.reps.length := by
  obtain ⟨_, s₁, runF, ok⟩ := bind_ok ok
  have begun : Begun (2 * shape.reps.length) s s₁ := by
    refine (begun_params (fun p inside => ?_) (.start empty) runF).mono ?_
    · exact fine.held _ (List.of_mem_zip inside).2
    · rw [List.length_zip]
      omega
  have sane₁ := begun.sane sane
  have pool : s₁.pool = s.pool := by rw [begun.others]
  split at ok
  · cases ok
    refine ⟨{ sane₁ with
      locals := ⟨fun l inside plain => ?_, fun l inside ref same l' inside' isSelf => ?_⟩ }, pool,
      begun.next, begun.most⟩
    · rcases LocalTable.mem_all_push inside with rfl | old
      · cases plain
      · exact begun.sound.placed l old plain
    · -- the one name for a function being compiled is that of this function
      rcases LocalTable.mem_all_push inside with rfl | old
      · cases same
        rcases LocalTable.mem_all_push inside' with rfl | old'
        · exact fine.apart
        · rw [begun.plain l' old'] at isSelf
          cases isSelf
      · cases (begun.plain l old).symm.trans same
  · cases ok
    exact ⟨sane₁, pool, begun.next, begun.most⟩

theorem Emits.closure {n : Typed} {params : List String} {body : Expr Typed} {self : String}
    (each : ∀ outer, Emits ctx.checked 0 [] .fragment (expr { ctx with outer } body)) :
    Emits ctx.checked room [] .fragment (closure ctx n params body self fun inner => expr inner body) := by
  refine (silent_lambdaShape n params body self).skip fun shape fine => .get fun before _ _ => ?_
  have completes : Completes ctx.checked (do
      defineParams shape self
      let code ← Codegen.bodyCode { ctx with outer := before.locals :: ctx.outer } body.note shape.result
        (expr { ctx with outer := before.locals :: ctx.outer } body)
      pure (code, (← get).locals.max))
      fun made => methodOf shape.name shape.descriptor made.2 made.1 := by
    intro s made s' sane empty ok
    obtain ⟨_, s₁, runP, ok⟩ := bind_ok ok
    obtain ⟨code, s₂, runB, ok⟩ := bind_ok ok
    obtain ⟨_, _, runG, ok⟩ := bind_ok ok
    cases runG
    obtain ⟨rfl, rfl⟩ := pure_ok ok
    obtain ⟨sane₁, pool, next, most⟩ := defineParams_makes fine sane empty runP
    let inner : Context := { ctx with outer := before.locals :: ctx.outer }
    have emits : Emits inner.checked 0 [] .fragment (expr inner body) := each _
    obtain ⟨makes, good⟩ := emits.bodyCode.run sane₁ (Nat.zero_le _) runB
    have letters := Descriptor.length_ofReprs shape.reps shape.result
    rw [← fine.descriptor] at letters
    exact ⟨pool ▸ makes.keeps, makes.sane, laid_body makes good (by omega) (by omega), titled_methodOf⟩
  exact completes.before ((emits_loadCaptures _).bind fun _ closed =>
    (emits_emitClosure rfl _).bind fun _ closed' => .done rfl (closed.append closed'))

end Codegen
end StackML
