import StackML.Proofs.Codegen.Requests

/-!
Code of an expression queues only methods that its calls refer to: what is owed a constant before it
is owed one after it, and nothing else is. The lemmas follow the code, form by form.
-/

namespace StackML.Codegen

open Typing (Typed Checked)

variable {c : Checked} {ctx : Context} {α β : Type}

/-! ### Names -/

theorem Neutral.loadAll {selfClosure : SelfRef → Gen Fragment}
    (each : ∀ self, Neutral c (selfClosure self)) (names : List String) :
    Neutral c (loadAll selfClosure names) := by
  refine Neutral.bind (.mapM fun name _ => neutral_get.bind fun s => ?_) fun _ => neutral_pure _
  split
  · exact neutral_fail _
  · split
    · exact each _
    · exact (neutral_load _).bind fun _ => (neutral_coerce _ _).bind fun _ => neutral_pure _

theorem neutral_selfClosureWithin (depth : Nat) (self : SelfRef) :
    Neutral c (selfClosureWithin ctx depth self) := by
  induction depth generalizing self with
  | zero => exact neutral_fail _
  | succ depth ih =>
    exact (Neutral.loadAll ih _).bind fun _ => (neutral_emitClosure _ _).bind fun _ => neutral_pure _

theorem neutral_selfClosure (self : SelfRef) : Neutral c (selfClosure ctx self) :=
  neutral_get.bind fun _ => neutral_selfClosureWithin _ _

theorem neutral_loadCaptures (names : List String) : Neutral c (loadCaptures ctx names) :=
  .loadAll neutral_selfClosure names

theorem neutral_holderRef (name : String) : Neutral c (holderRef ctx name) := by
  unfold holderRef
  split
  · exact neutral_fail _
  · exact neutral_pure _

theorem Neutral.addFactory {name descriptor : String} {x : Gen Fragment} (h : Neutral c x) :
    Neutral c (addFactory name descriptor x) := by
  refine neutral_get.bind fun s => ?_
  split
  · exact neutral_pure ()
  · exact Neutral.bind (neutral_modify fun _ => ⟨rfl, rfl, rfl⟩) fun _ =>
      h.separately.bind fun _ => neutral_addMethod _

theorem neutral_ctorFactory (k : Typing.Constructor) : Neutral c (ctorFactory ctx k) := by
  refine Neutral.bind (Neutral.addFactory ?_) fun _ => neutral_pure _
  exact (neutral_holderRef _).bind fun _ => (neutral_emitWith _ _).bind fun _ =>
    (neutral_emitConst _ _).bind fun _ => (neutral_emit _).bind fun _ => neutral_pure _

theorem neutral_printFactory : Neutral c (printFactory ctx) := by
  refine Neutral.bind (Neutral.addFactory ?_) fun _ => neutral_pure _
  exact (neutral_emitWith _ _).bind fun _ => (neutral_emit _).bind fun _ =>
    (neutral_emit _).bind fun _ => neutral_pure _

theorem neutral_fieldValue (name : String) (t : Ty) (use : Rep) :
    Neutral c (fieldValue ctx name t use) :=
  (neutral_liftDefect _).bind fun _ => (neutral_liftDefect _).bind fun _ =>
    (neutral_emitConst _ _).bind fun _ => (neutral_coerce _ _).bind fun _ => neutral_pure _

theorem neutral_nameValue (own : ctx.checked = c) (n : Typed) (name : String) :
    Neutral c (nameValue ctx n name) := by
  refine (neutral_repOf n).bind fun use => neutral_get.bind fun s => ?_
  dsimp only
  split
  · split
    · exact neutral_selfClosure _
    · exact (neutral_load _).bind fun _ => (neutral_coerce _ _).bind fun _ => neutral_pure _
  · split
    · exact neutral_fail _
    · split
      · next found => exact neutral_functionValue own (mem_functionNames own found)
      · split
        · exact neutral_fieldValue _ _ _
        · split
          · split
            · exact (neutral_ctorFactory _).bind fun _ => neutral_emitClosure _ _
            · exact (neutral_holderRef _).bind fun _ => neutral_emitConst _ _
          · split
            · exact neutral_printFactory.bind fun _ => neutral_emitClosure _ _
            · exact neutral_fail _

theorem neutral_exportName (n : Typed) (module name : String) :
    Neutral c (exportName ctx n module name) := by
  unfold exportName
  split
  · exact neutral_fail _
  · split
    · exact neutral_fail _
    · split
      · exact neutral_pure _
      · dsimp only
        split
        · exact neutral_pure _
        · exact neutral_throw _

theorem neutral_qualifiedValue (n : Typed) (module name : String) :
    Neutral c (qualifiedValue ctx n module name) :=
  (neutral_repOf n).bind fun _ => (neutral_exportName n module name).bind fun _ =>
    (neutral_emitConst _ _).bind fun _ => (neutral_coerce _ _).bind fun _ => neutral_pure _

theorem accounts_call {owed : List String} {x : Gen DirectCall} (h : Neutral c x)
    (finish : ∀ s call s', x s = .ok call s' → Neutral c call.finish) :
    Accounts c owed x (Finishes c owed) := by
  intro s call s' run
  obtain ⟨rest, rfl, requests, paid⟩ := h owed s call s' run
  exact ⟨rest, finish s call s' run rest, requests, paid⟩

theorem selfCall_accounts (self : SelfRef) {owed : List String} :
    Accounts c owed (selfCall ctx self) (Finishes c owed) := by
  refine accounts_call (Neutral.bind (.mapM fun name _ => neutral_get.bind fun s => ?_)
    fun _ => neutral_pure _) ?_
  · split
    · exact neutral_fail _
    · exact neutral_load _
  · intro s call s' run
    obtain ⟨before, s₁, -, run⟩ := bind_ok run
    cases run
    exact (neutral_emitConst _ _).bind fun _ => neutral_pure _

def Begins (c : Checked) (owed : List String) : Option DirectCall → List String → Prop
  | some call, rest => Finishes c owed call rest
  | none, rest => rest = owed

theorem begins_none {owed : List String} : Accounts c owed (pure none) (Begins c owed) := by
  intro s direct s' run
  cases run
  exact ⟨owed, rfl, .of_same rfl rfl rfl, fun name inside => .inl inside⟩

theorem Accounts.begins {owed : List String} {x : Gen DirectCall}
    (h : Accounts c owed x (Finishes c owed)) :
    Accounts c owed (do pure (some (← x))) (Begins c owed) := by
  refine h.bind fun call rest finishes s direct s' run => ?_
  cases run
  exact ⟨rest, finishes, .of_same rfl rfl rfl, fun name inside => .inl inside⟩

theorem directCall?_accounts (own : ctx.checked = c) (n : Typed) (name : String)
    (args : List (Expr Typed)) {owed : List String} :
    Accounts c owed (directCall? ctx n name args) (Begins c owed) := by
  -- the calls whose constant is no method of the module
  have plain : ∀ call : DirectCall, Neutral c call.finish →
      Accounts c owed (pure (some call)) (Begins c owed) := by
    intro call finish s direct s' run
    cases run
    exact ⟨owed, finish owed, .of_same rfl rfl rfl, fun name inside => .inl inside⟩
  unfold directCall?
  refine Accounts.bind (neutral_get owed) ?_
  rintro s _ rfl
  split
  · split
    · split
      · exact begins_none
      · exact (selfCall_accounts _).begins
    · exact begins_none
  · split
    · next found =>
      split
      · exact begins_none
      · exact (functionCall_accounts own (mem_functionNames own found)).begins
    · split
      · exact begins_none
      · split
        · exact begins_none
        · dsimp only
          split
          · refine Accounts.bind (neutral_holderRef name _) ?_
            rintro holder _ rfl
            exact plain _ ((neutral_emitConst _ _).bind fun _ => neutral_pure _)
          · split
            · refine Accounts.bind (neutral_repOf _ _) ?_
              rintro r _ rfl
              exact plain _ ((neutral_emit _).bind fun _ => neutral_pure _)
            · exact begins_none

/-! ### Patterns -/

theorem Neutral.testPart {source : Local} {op : Opcode} {p : Pattern Typed}
    {test : Local → Gen (List Test)} (each : ∀ l, Neutral c (test l)) :
    Neutral c (testPart ctx source op p test) := by
  unfold Codegen.testPart
  split
  · exact neutral_pure _
  · exact (neutral_repOf _).bind fun _ => (neutral_load _).bind fun _ => (neutral_emit _).bind fun _ =>
      (neutral_coerce _ _).bind fun _ => (neutral_define _ _).bind fun _ =>
        (neutral_store _).bind fun _ => (each _).bind fun _ => neutral_pure _

theorem neutral_testPattern (source : Local) (p : Pattern Typed) :
    Neutral c (testPattern ctx source p) := by
  induction p generalizing source with
  | wild n => exact neutral_pure _
  | var n name => exact Neutral.bind (neutral_modify fun _ => ⟨rfl, rfl, rfl⟩) fun _ => neutral_pure _
  | int n v =>
    exact (neutral_load _).bind fun _ => (neutral_emitConst _ _).bind fun _ =>
      (neutral_jump _).bind fun _ => neutral_pure _
  | bool n v =>
    exact (neutral_load _).bind fun _ => (neutral_emitWith _ _).bind fun _ =>
      (neutral_jump _).bind fun _ => neutral_pure _
  | str n v =>
    exact (neutral_load _).bind fun _ => (neutral_emitConst _ _).bind fun _ =>
      (neutral_emitConst _ _).bind fun _ => (neutral_jump _).bind fun _ => neutral_pure _
  | nil n =>
    exact (neutral_load _).bind fun _ => (neutral_emit _).bind fun _ =>
      (neutral_jump _).bind fun _ => neutral_pure _
  | cons n head tail ihHead ihTail =>
    exact (neutral_load _).bind fun _ => (neutral_emit _).bind fun _ => (neutral_jump _).bind fun _ =>
      (Neutral.testPart ihHead).bind fun _ => (Neutral.testPart ihTail).bind fun _ => neutral_pure _
  | tag n name =>
    exact (neutral_holderRef _).bind fun _ => (neutral_load _).bind fun _ =>
      (neutral_emitConst _ _).bind fun _ => (neutral_jump _).bind fun _ => neutral_pure _
  | build n name arg ih =>
    exact (neutral_holderRef _).bind fun _ => (neutral_load _).bind fun _ =>
      (neutral_emitConst _ _).bind fun _ => (neutral_jump _).bind fun _ =>
        (Neutral.testPart ih).bind fun _ => neutral_pure _

/-! ### Expressions -/

theorem neutral_comparison (place : Position) (op : BinaryOp) (t : Ty) :
    Neutral c (comparison ctx place op t) := by
  unfold comparison
  split
  · exact neutral_boolFromJump _
  · exact neutral_boolFromJump _
  · exact (neutral_emit _).bind fun _ => (neutral_boolFromJump _).bind fun _ => neutral_pure _
  · exact (neutral_emitConst _ _).bind fun _ => (neutral_boolFromJump _).bind fun _ => neutral_pure _
  · split
    · exact neutral_emit _
    · exact (neutral_emit _).bind fun _ => (neutral_boolFromJump _).bind fun _ => neutral_pure _
    · exact neutral_throw _

theorem neutral_toText (r : Rep) (t : Ty) : Neutral c (toText r t) := by
  unfold toText
  split
  · exact neutral_emit _
  · exact neutral_emit _
  · exact neutral_emit _
  · exact .ite (fun _ => neutral_pure _) fun _ => neutral_emit _

theorem neutral_joinTexts (pending : Nat) : Neutral c (joinTexts pending) :=
  .ite (fun _ => neutral_emitWith _ _) fun _ => neutral_pure _

theorem Neutral.widened {p : Prop} [Decidable p] {next : Fragment → Gen α}
    (each : ∀ code, Neutral c (next code)) :
    Neutral c (if p then emit .i2d >>= next else pure [] >>= next) :=
  .ite (fun _ => (neutral_emit _).bind each) fun _ => (neutral_pure _).bind each

theorem neutral_lambdaShape (n : Typed) (params : List String) (body : Expr Typed) (self : String) :
    Neutral c (lambdaShape ctx n params body self) := by
  have shape (names : List String) (types : List Ty) (result : Ty) : Neutral c (do
      let locals := (← get).locals
      let captures := (body.freeNames (self :: params)).filter fun x => (locals.find? x).isSome
      modify fun s => { s with lambdas := s.lambdas + 1 }
      let name := Names.lambdaStem ++ toString (← get).lambdas
      let reps ← types.mapM fun t => liftDefect (Rep.ofTy t)
      let reps := captures.map (fun _ => Rep.ref) ++ reps
      let result ← liftDefect (Rep.ofResult result)
      pure { name, descriptor := Descriptor.ofReprs reps result, captures, names, reps, result } :
      Gen LambdaShape) :=
    neutral_get.bind fun _ => Neutral.bind (neutral_modify fun _ => ⟨rfl, rfl, rfl⟩) fun _ =>
      neutral_get.bind fun _ => (Neutral.mapM fun _ _ => neutral_liftDefect _).bind fun _ =>
        (neutral_liftDefect _).bind fun _ => neutral_pure _
  exact .ite (fun _ => (neutral_fail _).bind fun _ => shape _ _ _) fun _ => shape _ _ _

theorem neutral_defineParams (shape : LambdaShape) (self : String) :
    Neutral c (defineParams shape self) := by
  unfold defineParams
  refine Neutral.bind (.forIn (fun _ _ => (neutral_define _ _).bind fun _ => neutral_pure _) _)
    fun _ => ?_
  split
  · exact neutral_modify fun _ => ⟨rfl, rfl, rfl⟩
  · exact neutral_pure _

theorem Neutral.closure {n : Typed} {params : List String} {body : Expr Typed} {self : String}
    {code : Context → Gen Fragment} (own : ctx.checked = c)
    (each : ∀ inner : Context, inner.checked = c → Neutral c (code inner)) :
    Neutral c (closure ctx n params body self code) := by
  refine (neutral_lambdaShape n params body self).bind fun shape => neutral_get.bind fun before => ?_
  refine Neutral.bind (Neutral.separately ?_) fun ⟨code, maxLocals⟩ =>
    (neutral_addMethod _).bind fun _ => (neutral_loadCaptures _).bind fun _ =>
      (neutral_emitClosure _ _).bind fun _ => neutral_pure _
  have body : Neutral c (code { ctx with outer := before.locals :: ctx.outer }) := each _ own
  exact (neutral_defineParams shape self).bind fun _ => body.bodyCode.bind fun _ =>
    neutral_get.bind fun _ => neutral_pure _

theorem Accounts.finishCall {owed rest : List String} {finish : Gen (Fragment × Rep)} {use : Rep}
    (h : Accounts c rest finish fun _ left => left = owed) :
    Accounts c rest (finishCall finish use) fun _ left => left = owed :=
  h.neutral fun _ => (neutral_coerce _ _).bind fun _ => neutral_pure _

theorem neutral_hostCall (n : Typed) : Neutral c (hostCall ctx n) := by
  unfold hostCall
  cases n.host with
  | none => exact neutral_fail _
  | some s =>
    exact (neutral_repOf n).bind fun _ => (neutral_liftDefect _).bind fun _ => neutral_pure _

theorem hostCall_finish {n : Typed} {s s' : State} {call : DirectCall} {use : Rep}
    (run : hostCall ctx n s = .ok (call, use) s') : Neutral c call.finish := by
  unfold hostCall at run
  cases found : n.host with
  | none =>
    rw [found] at run
    exact (fail_ok run).elim
  | some signature =>
    rw [found] at run
    obtain ⟨_, s₁, -, run⟩ := bind_ok run
    obtain ⟨_, s₂, -, run⟩ := bind_ok run
    cases run
    exact (neutral_emitConst _ _).bind fun _ => (neutral_liftDefect _).bind fun _ => neutral_pure _

theorem Neutral.withHost {n : Typed} {next : DirectCall × Rep → Gen α}
    (each : ∀ call use, Neutral c call.finish → Neutral c (next (call, use))) :
    Neutral c (hostCall ctx n >>= next) := by
  have found : ∀ owed, Accounts c owed (hostCall ctx n)
      fun r rest => rest = owed ∧ Neutral c r.1.finish := by
    rintro owed s ⟨call, use⟩ s' run
    obtain ⟨rest, same, requests, paid⟩ := neutral_hostCall n owed s (call, use) s' run
    exact ⟨rest, ⟨same, hostCall_finish run⟩, requests, paid⟩
  intro owed
  refine (found owed).bind ?_
  rintro ⟨call, use⟩ _ ⟨rfl, finish⟩
  exact each call use finish _

mutual
theorem neutral_expr {ctx : Context} (own : ctx.checked = c) : (e : Expr Typed) → Neutral c (expr ctx e)
  | .int n v | .float n v | .str n v => (neutral_atLine n).bind fun _ => neutral_emitConst _ _
  | .bool n v | .unit n => (neutral_atLine n).bind fun _ => neutral_emitWith _ _
  | .interp n parts => (neutral_atLine n).bind fun _ => neutral_interpolation own 0 [] parts
  | .var n name => (neutral_atLine n).bind fun _ => neutral_nameValue own n name
  | .qualified n module name => (neutral_atLine n).bind fun _ => neutral_qualifiedValue n module name
  | .unary n op e => (neutral_atLine n).bind fun _ => (neutral_repOf n).bind fun _ =>
      (neutral_expr own e).bind fun _ => by
        cases op with
        | not => exact (neutral_boolFromJump _).bind fun _ => neutral_pure _
        | neg => exact (neutral_emit _).bind fun _ => neutral_pure _
  | .binary n op l r => by
    have left := neutral_expr own l
    have right := neutral_expr own r
    unfold expr
    refine (neutral_atLine n).bind fun _ => .ite (fun _ => ?_) fun _ => .ite (fun _ => ?_) fun _ => ?_
    · exact (neutral_repOf n).bind fun _ => (neutral_repOf _).bind fun _ => left.bind fun _ =>
        .widened fun _ => (neutral_repOf _).bind fun _ => right.bind fun _ =>
          .widened fun _ => (neutral_emit _).bind fun _ => neutral_pure _
    · exact left.bind fun _ => right.bind fun _ => (neutral_comparison _ _ _).bind fun _ =>
        neutral_pure _
    · exact left.bind fun _ => (neutral_jump _).bind fun _ => right.bind fun _ =>
        (neutral_jump _).bind fun _ => (neutral_emitWith _ _).bind fun _ => neutral_pure _
  | .cond n p t e => by
    have yes := neutral_expr own t
    have no := neutral_expr own e
    exact (neutral_atLine n).bind fun _ => (neutral_repOf n).bind fun _ =>
      (neutral_expr own p).bind fun _ => (neutral_jump _).bind fun _ => yes.asRep.bind fun _ =>
        (neutral_jump _).bind fun _ => no.asRep.bind fun _ => neutral_pure _
  | .letIn n name v b => by
    have body := neutral_expr own b
    exact (neutral_atLine n).bind fun _ => (neutral_repOf _).bind fun _ =>
      (neutral_expr own v).bind fun _ => Neutral.inScope <| (neutral_define _ _).bind fun _ =>
        (neutral_store _).bind fun _ => body.bind fun _ => neutral_pure _
  | .letRec n name fn params fb b => by
    have inner : ∀ inner : Context, inner.checked = c → Neutral c (expr inner fb) :=
      fun _ own => neutral_expr own fb
    have body := neutral_expr own b
    exact (neutral_atLine n).bind fun _ => (Neutral.closure own inner).bind fun _ =>
      Neutral.inScope <| (neutral_define _ _).bind fun _ => (neutral_store _).bind fun _ =>
        body.bind fun _ => neutral_pure _
  | .lambda n params b => by
    have inner : ∀ inner : Context, inner.checked = c → Neutral c (expr inner b) :=
      fun _ own => neutral_expr own b
    exact (neutral_atLine n).bind fun _ => Neutral.closure own inner
  | .apply n callee args => by
    have callee' := neutral_expr own callee
    unfold expr
    refine (neutral_atLine n).bind fun _ => (neutral_repOf n).bind fun use owed => ?_
    have rest : ∀ call rest, Begins c owed call rest → Accounts c rest (match call with
        | some call => callArgs ctx use call.finish [call.before] call.params args
        | none => do
          let cc ← asRep ctx callee.note .ref (expr ctx callee)
          applyArgs ctx use [cc] args) fun _ left => left = owed := by
      intro call rest begun
      cases call with
      | some call => exact callArgs_accounts own begun args
      | none =>
        cases begun
        exact (callee'.asRep.bind fun _ => neutral_applyArgs own use _ args) _
    dsimp only
    split
    · exact (directCall?_accounts own _ _ _).bind rest
    · exact begins_none.bind rest
  | .sequence n es => (neutral_atLine n).bind fun _ =>
      .ite (fun _ => neutral_emit _) fun _ => neutral_sequence own [] es
  | .print n e => (neutral_atLine n).bind fun _ => (neutral_repOf _).bind fun _ =>
      (neutral_expr own e).bind fun _ => (neutral_emit _).bind fun _ => (neutral_emit _).bind fun _ =>
        neutral_pure _
  | .list n es => by
    have all := (neutral_boxedAll own [] es).bind fun code =>
      (neutral_emitWith .newlist (.word es.length)).bind fun k => neutral_pure (code ++ k)
    exact (neutral_atLine n).bind fun _ =>
      .ite (fun _ => (neutral_fail _).bind fun _ => all) fun _ => all
  | .cons n h t => by
    have head := neutral_expr own h
    exact (neutral_atLine n).bind fun _ => head.asRep.bind fun _ => (neutral_expr own t).bind fun _ =>
      (neutral_emit _).bind fun _ => neutral_pure _
  | .matchOn n e arms => (neutral_atLine n).bind fun _ => (neutral_repOf n).bind fun r =>
      (neutral_repOf _).bind fun _ => (neutral_expr own e).bind fun _ => Neutral.inScope <|
        (neutral_define _ _).bind fun source => (neutral_store _).bind fun _ =>
          (neutral_matchArms own source r [] arms).bind fun _ =>
            Neutral.bind (neutral_modify fun _ => ⟨rfl, rfl, rfl⟩) fun _ =>
              (neutral_emit _).bind fun _ => neutral_pure _
  | .tag n name => (neutral_atLine n).bind fun _ => (neutral_holderRef name).bind fun _ =>
      neutral_emitConst _ _
  | .build n name e => by
    have arg := neutral_expr own e
    exact (neutral_atLine n).bind fun _ => (neutral_holderRef name).bind fun _ =>
      arg.asRep.bind fun _ => (neutral_emitConst _ _).bind fun _ => neutral_pure _
  | .hostCall n _ _ args => (neutral_atLine n).bind fun _ => .withHost fun call use finish owed =>
      callArgs_accounts own (finish owed) args
  | .hostMethod n receiver _ args => by
    have first := neutral_expr own receiver
    exact (neutral_atLine n).bind fun _ => .withHost fun call use finish =>
      first.asRep.bind fun _ owed => callArgs_accounts own (finish owed) args
  | .hostField n _ _ | .hostNew n _ => (neutral_atLine n).bind fun _ =>
      .withHost fun call use finish owed => (finish owed).finishCall

theorem neutral_boxedAll {ctx : Context} (own : ctx.checked = c) (done : List Fragment) :
    (es : List (Expr Typed)) → Neutral c (boxedAll ctx done es)
  | [] => neutral_pure _
  | e :: es => by
    have first := neutral_expr own e
    exact first.asRep.bind fun _ => neutral_boxedAll own _ es

theorem neutral_sequence {ctx : Context} (own : ctx.checked = c) (done : List Fragment) :
    (es : List (Expr Typed)) → Neutral c (sequence ctx done es)
  | [] => neutral_pure _
  | e :: es => (neutral_expr own e).bind fun _ =>
      .ite (fun _ => neutral_sequence own _ es) fun _ => (neutral_repOf _).bind fun _ =>
        (neutral_drop _).bind fun _ => neutral_sequence own _ es

theorem neutral_interpolation {ctx : Context} (own : ctx.checked = c) (pending : Nat) (done : List Fragment) :
    (parts : List (Part Typed)) → Neutral c (interpolation ctx pending done parts)
  | [] => .ite (fun _ => (neutral_emitConst _ _).bind fun _ => neutral_pure _) fun _ =>
      (neutral_joinTexts _).bind fun _ => neutral_pure _
  | .text t :: ps => by
    have after := fun pending done => neutral_interpolation own pending done ps
    by_cases empty : t = ""
    · subst empty
      exact after pending done
    · rw [interpolation.eq_3 _ _ _ _ _ empty]
      exact (neutral_emitConst _ _).bind fun _ =>
        .ite (fun _ => (neutral_joinTexts _).bind fun _ => after _ _) fun _ => after _ _
  | .hole e :: ps => by
    have after := fun pending done => neutral_interpolation own pending done ps
    exact (neutral_repOf _).bind fun _ => (neutral_expr own e).bind fun _ =>
      (neutral_toText _ _).bind fun _ =>
        .ite (fun _ => (neutral_joinTexts _).bind fun _ => after _ _) fun _ => after _ _

theorem callArgs_accounts {ctx : Context} (own : ctx.checked = c) {use : Rep} {finish : Gen (Fragment × Rep)}
    {owed rest : List String} (finishes : Accounts c rest finish fun _ left => left = owed)
    {done : List Fragment} {params : List (Except Defect Rep)} : (es : List (Expr Typed)) →
    Accounts c rest (callArgs ctx use finish done params es) fun _ left => left = owed
  | [] => finishes.finishCall.neutral fun _ => neutral_pure _
  | e :: es => by
    have first := neutral_expr own e
    cases params with
    | nil =>
      exact finishes.finishCall.neutral fun _ => first.asRep.bind fun _ =>
        (neutral_emit _).bind fun _ => neutral_applyArgs own use _ es
    | cons p ps =>
      refine Accounts.bind (neutral_liftDefect p rest) ?_
      rintro r _ rfl
      refine Accounts.bind (first.asRep _) ?_
      rintro code _ rfl
      exact callArgs_accounts own finishes es

theorem neutral_applyArgs {ctx : Context} (own : ctx.checked = c) (use : Rep) (done : List Fragment) :
    (es : List (Expr Typed)) → Neutral c (applyArgs ctx use done es)
  | [] => (neutral_coerce _ _).bind fun _ => neutral_pure _
  | e :: es => by
    have first := neutral_expr own e
    exact first.asRep.bind fun _ => (neutral_emit _).bind fun _ => neutral_applyArgs own use _ es

theorem neutral_matchArms {ctx : Context} (own : ctx.checked = c) (source : Local) (r : Rep) (done : List Case) :
    (arms : List (Arm Typed)) → Neutral c (matchArms ctx source r done arms)
  | [] => neutral_pure _
  | .mk p e :: arms => by
    have body := neutral_expr own e
    exact Neutral.bind (.inScope <| (neutral_testPattern source p).bind fun _ =>
      body.asRep.bind fun _ => (neutral_jump _).bind fun _ => neutral_pure _) fun _ =>
        neutral_matchArms own source r _ arms
end

end StackML.Codegen
