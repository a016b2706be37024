import StackML.Proofs.Codegen.Making.Basic

/-!
The code of names as values and as callees. Captures are loaded in order; the functions behind
constructors and `print` become methods of their own; a direct call is in order before its arguments
and behind them.
-/

namespace StackML.Codegen

open Fragment (Closed)
open Typing (Typed Checked)

variable {c : Checked} {ctx : Context} {s s' : State} {α β : Type} {room : Nat} {front : Fragment}
  {P : Product α} {Q : Product β}

/-! ### Captures -/

def Product.pieces : Product (List Fragment) :=
  ⟨List.flatten, fun pieces => Closed pieces.flatten⟩

theorem Emits.mapM {f : β → Gen Fragment} (each : ∀ b, Emits c room [] .fragment (f b)) (bs : List β) :
    Emits c room [] .pieces (bs.mapM f) := by
  induction bs with
  | nil => exact .done rfl trivial
  | cons b bs ih =>
    rw [List.mapM_cons]
    exact (each b).bind fun code closed => ih.bind fun rest closed' => .done rfl (closed.append closed')

theorem emits_loadAs {l : Local} (placed : l.Placed room) (r : Rep) :
    Emits c room [] .fragment (do
      let code ← load l
      pure (code ++ (← coerce l.repr r))) :=
  (emits_load placed).bind fun _ closed => (emits_coerce _ _).bind fun _ closed' =>
    .done rfl (closed.append closed')

theorem emits_loadAll {selfClosure : SelfRef → Gen Fragment}
    (each : ∀ room self, Emits c room [] .fragment (selfClosure self)) (names : List String) :
    Emits c room [] .fragment (loadAll selfClosure names) := by
  refine (Emits.mapM (fun name => .get fun s sane _ => ?_) names).bind fun pieces closed =>
    .done rfl closed
  cases found : s.locals.find? name with
  | none => exact .fail _
  | some l =>
    dsimp only
    cases same : l.self with
    | some self => exact each _ self
    | none => exact emits_loadAs (sane.locals.placed l (LocalTable.find?_mem found).1 same) .ref

theorem emits_selfClosureWithin (depth : Nat) (room : Nat) (self : SelfRef) :
    Emits ctx.checked room [] .fragment (selfClosureWithin ctx depth self) := by
  induction depth generalizing room self with
  | zero => exact .fail _
  | succ depth ih =>
    exact (emits_loadAll ih _).bind fun _ closed => (emits_emitClosure rfl _).bind fun _ closed' =>
      .done rfl (closed.append closed')

theorem emits_selfClosure (room : Nat) (self : SelfRef) :
    Emits ctx.checked room [] .fragment (selfClosure ctx self) :=
  .get fun _ _ _ => emits_selfClosureWithin _ _ _

theorem emits_loadCaptures (names : List String) :
    Emits ctx.checked room [] .fragment (loadCaptures ctx names) :=
  emits_loadAll emits_selfClosure names

/-! ### Methods made on the way -/

theorem separately_ok {line : Int} {x : Gen α} {a : α} (ok : separately line x s = .ok a s') :
    ∃ s₁, x { s with locals := {}, line } = .ok a s₁ ∧
      s' = { s₁ with locals := s.locals, line := s.line } := by
  unfold separately at ok
  obtain ⟨_, _, runG, ok⟩ := bind_ok ok
  cases runG
  obtain ⟨_, _, runS, ok⟩ := bind_ok ok
  cases runS
  obtain ⟨b, s₁, runX, ok⟩ := bind_ok ok
  cases ok
  exact ⟨s₁, runX, rfl⟩

/-- Run without locals, the generator makes a method that is laid out, under a name that it may have. -/
def Completes (c : Checked) (x : Gen α) (method : α → Method) : Prop :=
  ∀ s a s', s.Sane c → s.locals = {} → x s = .ok a s' →
    Extends s.pool.entries s'.pool.entries ∧ s'.Sane c ∧ (method a).Laid c s'.pool.entries ∧
      Titled c (method a)

theorem titled_methodOf {name descriptor : String} {room : Nat} {code : Fragment} :
    Titled c (methodOf name descriptor room code) := .inl rfl

theorem Completes.emits {x : Gen α} {method : α → Method} {line : Int} (h : Completes c x method) :
    Emits c room [] (.silent fun _ => True) (do addMethod (method (← separately line x))) :=
  .of_run fun s u s' sane _ ok => by
    obtain ⟨a, s₁, apart, ok⟩ := bind_ok ok
    obtain ⟨s₂, runX, same⟩ := separately_ok apart
    cases same
    cases ok
    have sane₀ : State.Sane { s with locals := {}, line } c :=
      { sane with locals := LocalTable.sound_empty }
    obtain ⟨keeps, sane', laid, titled⟩ := h _ a s₂ sane₀ rfl runX
    refine ⟨.of_same keeps rfl rfl ?_, trivial⟩
    exact ⟨sane.locals.of_subset (fun _ => id) (Nat.le_refl _), sane'.pool,
      List.forall_mem_cons.2 ⟨laid, sane'.methods⟩, List.forall_mem_cons.2 ⟨titled, sane'.titled⟩,
      sane'.work⟩

theorem Completes.before {x : Gen α} {method : α → Method} {line : Int} {next : Gen β}
    (h : Completes c x method) (after : Emits c room front Q next) :
    Emits c room front Q (do
      addMethod (method (← separately line x))
      next) := by
  rw [← bind_assoc]
  exact (h.emits).skip fun _ _ => after

theorem silent_holderRef (name : String) :
    Emits ctx.checked room [] (.silent fun k => k.kind = .holder) (holderRef ctx name) := by
  unfold holderRef
  split
  · exact .fail _
  · exact .done rfl rfl

theorem silent_addFactory {name descriptor : String} {x : Gen Fragment}
    (h : Completes c x (methodOf name descriptor 1)) :
    Emits c room [] (.silent fun _ => True) (addFactory name descriptor x) := by
  refine .get fun s _ _ => .ite (fun _ => .done rfl trivial) fun _ => ?_
  exact Emits.skip (silent_modify fun _ => ⟨rfl, rfl, rfl, List.Subset.refl _⟩) fun _ _ => h.emits

theorem laid_factory {constants : Array Constant} {name descriptor : String} {i last : Instr}
    {line : Int} (fits : i.Fits constants 1) (fits' : last.Fits constants 1)
    (plain : i.op.operands ≠ .jump) (returns : last.op.isReturn = true) :
    (methodOf name descriptor 1 ([⟨.aload, .word 0, line⟩] ++ [i] ++ [last])).Laid c constants := by
  have straight : ∀ j ∈ [⟨.aload, .word 0, line⟩] ++ [i] ++ [last],
      j.Fits constants 1 ∧ j.op.operands ≠ .jump := by
    intro j inside
    simp only [List.mem_append, List.mem_singleton] at inside
    rcases inside with (rfl | rfl) | rfl
    · exact ⟨.slot rfl (Int.le_refl 0) (Int.le_refl 1), nofun⟩
    · exact ⟨fits, plain⟩
    · exact ⟨fits', fun jump => not_isReturn_of_jump jump returns⟩
  have plain' {j : Instr} (fits : j.Fits constants 1) (straight : j.op.operands ≠ .jump) (d : Nat) :
      j.operand ≠ .jump d := fun target => by
    cases fits with
    | jump kind => exact straight kind
    | _ => cases target
  refine laid_methodOf ?_ (fun j inside => (straight j inside).1) ?_ returns
    (.inr ⟨fun j inside => ?_, .straight fun j inside => (straight j inside).2⟩)
  · simp only [Fragment.size_append, size_single]
    have positive : 0 < last.size := Nat.succ_pos _
    omega
  · have load : Closed [⟨.aload, .word 0, line⟩] := Fragment.closed_single nofun
    exact load.append (Fragment.closed_single (plain' fits plain))
  · obtain ⟨fits, straight⟩ := straight j inside
    exact Instr.isFar_of_plain (plain' fits straight)

theorem silent_ctorFactory (info : Typing.Constructor) :
    Emits ctx.checked room [] (.silent fun k => k.kind = .method) (ctorFactory ctx info) := by
  refine (silent_addFactory fun s code s' sane _ ok => ?_).skip fun _ _ => .done rfl rfl
  obtain ⟨holder, s₁, runH, ok⟩ := bind_ok ok
  obtain ⟨arg, s₂, runA, ok⟩ := bind_ok ok
  obtain ⟨new, s₃, runN, ok⟩ := bind_ok ok
  obtain ⟨last, s₄, runL, ok⟩ := bind_ok ok
  obtain ⟨rfl, rfl⟩ := pure_ok ok
  have known : Emits ctx.checked 0 [] (.silent fun k => k.kind = .holder) (holderRef ctx info.name) :=
    silent_holderRef info.name
  obtain ⟨makes, kind⟩ := known.run sane (Nat.zero_le _) runH
  obtain ⟨rfl, rfl⟩ := emitWith_ok runA
  have expected : Opcode.new.constantKind? = some holder.kind := by rw [kind]; rfl
  obtain ⟨i, line, rfl, makes', refers⟩ := emitConst_makes makes.sane expected
    (alone_of_constantKind? expected (by decide)) runN
  obtain ⟨rfl, rfl⟩ := emit_ok runL
  exact ⟨makes.keeps.trans makes'.keeps, makes'.sane,
    laid_factory (.constant rfl refers) (.none rfl) nofun rfl, titled_methodOf⟩

theorem silent_printFactory :
    Emits ctx.checked room [] (.silent fun k => k.kind = .method) (printFactory ctx) := by
  refine (silent_addFactory fun s code s' sane _ ok => ?_).skip fun _ _ => .done rfl rfl
  obtain ⟨arg, s₁, runA, ok⟩ := bind_ok ok
  obtain ⟨print, s₂, runP, ok⟩ := bind_ok ok
  obtain ⟨last, s₃, runL, ok⟩ := bind_ok ok
  obtain ⟨rfl, rfl⟩ := pure_ok ok
  obtain ⟨rfl, rfl⟩ := emitWith_ok runA
  obtain ⟨rfl, rfl⟩ := emit_ok runP
  obtain ⟨rfl, rfl⟩ := emit_ok runL
  exact ⟨.refl _, sane, laid_factory (.none rfl) (.none rfl) nofun rfl, titled_methodOf⟩

/-! ### Values -/

theorem silent_enqueue {f : Specialization} (isOf : f.IsOf c) :
    Emits c room [] (.silent fun _ => True) (enqueue f) :=
  .of_run fun s u s' sane _ ok => by
    cases ok
    dsimp only
    split
    · exact ⟨.refl sane, trivial⟩
    · refine ⟨.of_same (.refl _) rfl rfl { sane with work := fun f' inside => ?_ }, trivial⟩
      rcases List.mem_append.1 inside with old | new
      · exact sane.work f' old
      · exact List.mem_singleton.1 new ▸ isOf

theorem silent_specialize {key : String} {fn : Typing.Function}
    (known : c.functions.get? key = some fn) (t : Ty) :
    Emits c room [] (.silent fun _ => True) (specialize fn t) := by
  have queue (m : Mapping) (name : String) (type : Ty)
      (isOf : Specialization.IsOf ⟨fn, name, type, m⟩ c) :
      Emits c room [] (.silent fun _ => True) (do
        modify fun s =>
          if s.queued.contains name then s else { s with specialized := fn.decl.name :: s.specialized }
        enqueue { fn, name, type, mapping := m }
        pure (name, type) : Gen (String × Ty)) := by
    refine (silent_modify fun s => ?_).skip fun _ _ => (silent_enqueue isOf).skip fun _ _ =>
      .done rfl trivial
    split <;> exact ⟨rfl, rfl, rfl, List.Subset.refl _⟩
  exact .ite (fun _ => .failed _) fun _ => queue _ _ _ ⟨⟨key, known⟩, .inr ⟨_, rfl, rfl⟩⟩

theorem silent_target {key : String} {fn : Typing.Function}
    (known : c.functions.get? key = some fn) (t : Ty) :
    Emits c room [] (.silent fun _ => True) (target fn t) :=
  .ite (fun _ => silent_specialize known t) fun _ => .done rfl trivial

theorem emits_constAs {op : Opcode} {k : Constant} (kind : op.operands = .constant)
    (expected : op.constantKind? = some k.kind) (other : op.constantKind? ≠ some .host) (source target : Rep) :
    Emits ctx.checked room [] .fragment (do
      let code ← emitConst ctx op k
      pure (code ++ (← coerce source target))) :=
  (emits_constant kind expected other).bind fun _ closed => (emits_coerce _ _).bind fun _ closed' =>
    .done rfl (closed.append closed')

theorem emits_functionValue {key : String} {fn : Typing.Function}
    (known : ctx.checked.functions.get? key = some fn) (t : Ty) (use : Rep) :
    Emits ctx.checked room [] .fragment (functionValue ctx fn t use) := by
  refine (silent_target known t).skip fun ⟨name, type⟩ _ => (silent_liftDefect _).skip fun d _ => ?_
  refine .ite (fun _ => ?_) fun _ => emits_emitClosure rfl _
  exact (emits_constant rfl rfl (by decide)).bind fun _ closed => (silent_liftDefect _).skip fun _ _ =>
    (emits_coerce _ _).bind fun _ closed' => .done rfl (closed.append closed')

theorem emits_fieldValue (name : String) (t : Ty) (use : Rep) :
    Emits ctx.checked room [] .fragment (fieldValue ctx name t use) :=
  (silent_liftDefect _).skip fun _ _ => (silent_liftDefect _).skip fun _ _ => emits_constAs rfl rfl (by decide) _ _

theorem emits_nameValue (n : Typed) (name : String) :
    Emits ctx.checked room [] .fragment (nameValue ctx n name) := by
  refine (silent_repOf n).skip fun use _ => .get fun s sane _ => ?_
  dsimp only
  cases found : s.locals.find? name with
  | some l =>
    dsimp only
    cases same : l.self with
    | some self => exact emits_selfClosure _ self
    | none => exact emits_loadAs (sane.locals.placed l (LocalTable.find?_mem found).1 same) use
  | none =>
    refine .ite (fun _ => .fail _) fun _ => ?_
    split
    · next known => exact emits_functionValue known _ _
    · split
      · exact emits_fieldValue _ _ _
      · split
        · refine .ite (fun _ => ?_) fun _ => ?_
          · exact (silent_ctorFactory _).skip fun k kind => emits_emitClosure kind _
          · exact (silent_holderRef _).skip fun k kind => emits_constant rfl (by rw [kind]; rfl) (by decide)
        · refine .ite (fun _ => ?_) fun _ => .fail _
          exact silent_printFactory.skip fun k kind => emits_emitClosure kind _

theorem silent_exportName (n : Typed) (module name : String) :
    Emits ctx.checked room [] (.silent fun _ => True) (exportName ctx n module name) := by
  unfold exportName
  split
  · exact .fail _
  · split
    · exact .fail _
    · refine .ite (fun _ => .done rfl trivial) fun _ => ?_
      dsimp only
      split
      · exact .done rfl trivial
      · exact .throw _

theorem emits_qualifiedValue (n : Typed) (module name : String) :
    Emits ctx.checked room [] .fragment (qualifiedValue ctx n module name) :=
  (silent_repOf n).skip fun _ _ => (silent_exportName n module name).skip fun _ _ =>
    emits_constAs rfl rfl (by decide) _ _

/-! ### Calls -/

structure DirectCall.Ready (call : DirectCall) (c : Checked) : Prop where
  before : Closed call.before
  finish : ∀ room, Emits c room [] .call call.finish

/-- A call that was begun, or was not. -/
def Product.direct (c : Checked) : Product (Option DirectCall) :=
  ⟨fun call => call.elim [] DirectCall.before, fun call => ∀ d, call = some d → d.Ready c⟩

theorem emits_noCall : Emits c room [] (.direct c) (pure none) := .done rfl nofun

theorem DirectCall.Ready.emits {call : DirectCall} (h : call.Ready c) (none : call.before = []) :
    Emits c room [] (.direct c) (pure (some call)) :=
  .done none.symm fun _ same => Option.some.inj same ▸ h

theorem emits_finishConst {op : Opcode} {k : Constant} {result : Gen Rep} {good : Rep → Prop}
    (kind : op.operands = .constant) (expected : op.constantKind? = some k.kind) (alone : k.Alone)
    (known : Emits ctx.checked room [] (.silent good) result) :
    Emits ctx.checked room [] .call (do
      let call ← emitConst ctx op k
      pure (call, ← result)) :=
  (emits_emitConst kind expected alone).bind fun _ closed => known.skip fun _ _ => .done rfl closed

theorem alone_method {owner name descriptor : Text} :
    Constant.Alone { kind := .method, owner, name, descriptor } :=
  Constant.alone_of_ne_host ⟨0x33, (by decide : (ConstantKind.method, 0x33) ∈ Constant.marks)⟩
    (by decide : ConstantKind.method ≠ .host)

theorem makes_mapM_load {f : String → Gen Fragment} {names : List String} {pieces : List Fragment}
    (sane : s.Sane c) (each : ∀ name ∈ names, ∀ code s', f name s = .ok code s' →
      s' = s ∧ ∃ l : Local, l.Placed s.locals.max ∧ load l s = .ok code s)
    (ok : names.mapM f s = .ok pieces s') : Makes c s s' pieces.flatten ∧ Closed pieces.flatten := by
  induction names generalizing pieces with
  | nil =>
    cases ok
    exact ⟨.refl sane, trivial⟩
  | cons name names ih =>
    rw [List.forall_mem_cons] at each
    rw [List.mapM_cons] at ok
    obtain ⟨code, s₁, runF, ok⟩ := bind_ok ok
    obtain ⟨rest, s₂, runR, ok⟩ := bind_ok ok
    obtain ⟨rfl, rfl⟩ := pure_ok ok
    obtain ⟨rfl, l, placed, runL⟩ := each.1 code s₁ runF
    obtain ⟨makes, closed⟩ := (emits_load placed).run sane (Nat.le_refl _) runL
    obtain ⟨makes', closed'⟩ := ih each.2 runR
    exact ⟨makes.trans makes', closed.append closed'⟩

/-- What the function being compiled captures is loaded from its place: it is no function being
compiled. -/
theorem load_capture {l : Local} {self : SelfRef} (sane : s.Sane c) (known : l ∈ s.locals.all)
    (same : l.self = some self) (name : String) (inside : name ∈ self.captures) (code : Fragment)
    (s' : State)
    (ok : (do
      match (← get).locals.find? name with
      | none => fail (.selfCaptureLost name self.method)
      | some l => load l : Gen Fragment) s = .ok code s') :
    s' = s ∧ ∃ l : Local, l.Placed s.locals.max ∧ load l s = .ok code s := by
  obtain ⟨_, _, runG, ok⟩ := bind_ok ok
  cases runG
  cases found : s.locals.find? name with
  | none =>
    rw [found] at ok
    exact (fail_ok ok).elim
  | some l' =>
    rw [found] at ok
    obtain ⟨known', rfl⟩ := LocalTable.find?_mem found
    have plain : l'.self = none := by
      have apart := sane.locals.apart l known self same l' known'
      exact Option.not_isSome_iff_eq_none.1 fun isSelf => apart isSelf inside
    have still : s' = s := by
      cases ok
      rfl
    exact ⟨still, l', sane.locals.placed l' known' plain, still ▸ ok⟩

theorem makes_selfCall {l : Local} {self : SelfRef} {call : DirectCall} (sane : s.Sane ctx.checked)
    (known : l ∈ s.locals.all) (same : l.self = some self) (ok : selfCall ctx self s = .ok call s') :
    Makes ctx.checked s s' call.before ∧ call.Ready ctx.checked := by
  obtain ⟨before, s₁, runB, ok⟩ := bind_ok ok
  obtain ⟨rfl, rfl⟩ := pure_ok ok
  obtain ⟨makes, closed⟩ := makes_mapM_load sane (load_capture sane known same) runB
  exact ⟨makes, closed, fun room => emits_finishConst rfl rfl alone_method
    (Emits.done (P := .silent fun _ => True) rfl trivial)⟩

theorem ready_functionCall {key : String} {fn : Typing.Function}
    (known : ctx.checked.functions.get? key = some fn) (t : Ty) :
    Emits ctx.checked room [] (.silent fun call => call.before = [] ∧ call.Ready ctx.checked)
      (functionCall ctx fn t) := by
  refine (silent_target known t).skip fun ⟨name, type⟩ _ => .done rfl ⟨rfl, trivial, fun room => ?_⟩
  exact (silent_liftDefect _).skip fun _ _ => emits_finishConst rfl rfl alone_method (silent_liftDefect _)

theorem emits_directCall? (n : Typed) (name : String) (args : List (Expr Typed)) :
    Emits ctx.checked room [] (.direct ctx.checked) (directCall? ctx n name args) := by
  refine .of_run fun s call s' sane fits ok => ?_
  obtain ⟨_, _, runG, ok⟩ := bind_ok ok
  cases runG
  have none_ : Emits ctx.checked 0 [] (.direct ctx.checked) (pure none) := emits_noCall
  cases found : s.locals.find? name with
  | some l =>
    simp only [found] at ok
    cases same : l.self with
    | none =>
      simp only [same] at ok
      exact none_.run sane (Nat.zero_le _) ok
    | some self =>
      simp only [same] at ok
      split at ok
      · exact none_.run sane (Nat.zero_le _) ok
      · obtain ⟨direct, s₁, runC, ok⟩ := bind_ok ok
        obtain ⟨rfl, rfl⟩ := pure_ok ok
        obtain ⟨makes, ready⟩ := makes_selfCall sane (LocalTable.find?_mem found).1 same runC
        exact ⟨makes, fun _ same => Option.some.inj same ▸ ready⟩
  | none =>
    simp only [found] at ok
    refine Emits.run ?_ sane fits ok
    split
    · next known =>
      refine .ite (fun _ => emits_noCall) fun _ => ?_
      exact (ready_functionCall known _).skip fun call ready => ready.2.emits ready.1
    · refine .ite (fun _ => emits_noCall) fun _ => ?_
      split
      · exact emits_noCall
      · refine .ite (fun _ => ?_) fun _ => .ite (fun _ => ?_) fun _ => emits_noCall
        · refine (silent_holderRef name).skip fun holder kind => DirectCall.Ready.emits ?_ rfl
          have expected : Opcode.new.constantKind? = some holder.kind := by rw [kind]; rfl
          exact ⟨trivial, fun room => (emits_constant rfl expected (by decide)).bind fun _ closed =>
            .done rfl closed⟩
        · refine (silent_repOf _).skip fun r _ => DirectCall.Ready.emits ?_ rfl
          have kind : (printOp r).operands = .none := by cases r <;> rfl
          exact ⟨trivial, fun room => (emits_emit kind).bind fun _ closed => .done rfl closed⟩

end StackML.Codegen
