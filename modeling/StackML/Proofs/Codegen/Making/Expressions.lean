import StackML.Proofs.Codegen.Making.Closures
import StackML.Proofs.Codegen.Making.Patterns

/-!
The code of an expression is laid out, whatever it is made of: each form puts together what was made
for its parts, and joins ways by jumps between them.
-/

namespace StackML.Codegen

open Fragment (Closed)
open Typing (Typed Checked)

variable {c : Checked} {ctx : Context} {α : Type} {room : Nat} {front : Fragment} {Q : Product α}

/-! ### Operations -/

theorem emits_comparison (place : Position) (op : BinaryOp) (t : Ty) :
    Emits ctx.checked room [] .fragment (comparison ctx place op t) := by
  have ints : (intCompareOp op).operands = .jump := by cases op <;> rfl
  have zeros : (zeroCompareOp op).operands = .jump := by cases op <;> rfl
  unfold comparison
  split
  · exact emits_boolFromJump ints
  · exact emits_boolFromJump ints
  · exact (emits_emit rfl).bind fun _ closed => (emits_boolFromJump zeros).bind fun _ closed' =>
      .done rfl (closed.append closed')
  · exact (emits_emitConst rfl rfl fun _ => rfl).bind fun _ closed => (emits_boolFromJump zeros).bind fun _ closed' =>
      .done rfl (closed.append closed')
  · split
    · exact emits_emit rfl
    · exact (emits_emit rfl).bind fun _ closed => (emits_boolFromJump rfl).bind fun _ closed' =>
        .done rfl (closed.append closed')
    · exact .throw _

theorem emits_toText (r : Rep) (t : Ty) : Emits c room [] .fragment (toText r t) := by
  unfold toText
  split
  · exact emits_emit rfl
  · exact emits_emit rfl
  · exact emits_emit rfl
  · exact .ite (fun _ => emits_nothing) fun _ => emits_emit rfl

theorem emits_joinTexts (pending : Nat) : Emits c room [] .fragment (joinTexts pending) :=
  .ite (fun _ => emits_byte rfl _) fun _ => emits_nothing

theorem Emits.widened {p : Prop} [Decidable p] {next : Fragment → Gen α}
    (each : ∀ code, Closed code → Emits c room (front ++ code) Q (next code)) :
    Emits c room front Q (if p then emit .i2d >>= next else pure [] >>= next) :=
  .ite (fun _ => (emits_emit rfl).bind each) fun _ => emits_nothing.bind each

/-! ### Calls -/

theorem emits_finishCall {finish : Gen (Fragment × Rep)} {use : Rep}
    (h : Emits c room [] .call finish) :
    Emits c room [] .fragment (finishCall finish use) :=
  h.bind fun ⟨_, _⟩ closed => (emits_coerce _ _).bind fun _ closed' => .done rfl (closed.append closed')

theorem silent_hostCall (n : Typed) :
    Emits ctx.checked room []
      (.silent fun call => ∀ room, Emits ctx.checked room [] .call call.1.finish) (hostCall ctx n) := by
  unfold hostCall
  cases n.host with
  | none => exact .fail _
  | some signature =>
    refine (silent_repOf n).skip fun _ _ => (silent_liftDefect _).skip fun descriptor written =>
      .done rfl fun room => ?_
    have kind : (hostOp signature.kind).operands = .constant := by cases signature.kind <;> rfl
    have expected : (hostOp signature.kind).constantKind? = some .host := by
      cases signature.kind <;> rfl
    obtain ⟨d, rfl⟩ := Descriptor.write_bracket written
    exact emits_finishConst kind expected (Constant.alone_host _ _ _ d) (silent_liftDefect _)

/-! ### Pieces -/

theorem emits_piece {done : List Fragment} {code : Fragment} {x : Gen α}
    (h : Emits c room (joinPieces (code :: done)) Q x) : Emits c room (joinPieces done ++ code) Q x :=
  joinPieces_cons code done ▸ h

theorem emits_first {code : Fragment} {x : Gen α} (h : Emits c room (joinPieces [code]) Q x) :
    Emits c room code Q x := by
  rwa [joinPieces_cons] at h

theorem closed_piece {done : List Fragment} {code : Fragment} (closed : Closed (joinPieces done))
    (last : Closed code) : Closed (joinPieces (code :: done)) := by
  rw [joinPieces_cons]
  exact closed.append last

theorem closed_noPieces : Closed (joinPieces []) := trivial

theorem emits_pieces {done : List Fragment} (closed : Closed (joinPieces done)) :
    Emits c room (joinPieces done) .fragment (pure (joinPieces done)) :=
  .done rfl closed

theorem emits_joined {done : List Fragment} (next : Nat → List Fragment → Gen Fragment)
    (after : ∀ pending code, Closed code →
      Emits c room (joinPieces (code :: done)) .fragment (next pending (code :: done)))
    (pending : Nat) {code : Fragment} (last : Closed code) :
    Emits c room (joinPieces done ++ code) .fragment
      (if pending + 1 = maxJoin then do
        let joined ← joinTexts (pending + 1)
        next 1 ((code ++ joined) :: done)
      else next (pending + 1) (code :: done)) := by
  refine .ite (fun _ => (emits_joinTexts _).bind fun joined last' => ?_) fun _ =>
    emits_piece (after _ code last)
  rw [List.append_assoc]
  exact emits_piece (after _ _ (last.append last'))

mutual
theorem emits_expr (ctx : Context) (room : Nat) :
    (e : Expr Typed) → Emits ctx.checked room [] .fragment (expr ctx e)
  | .int n v | .float n v | .str n v => (silent_atLine n).skip fun _ _ => emits_constant rfl rfl (by decide)
  | .bool n v => (silent_atLine n).skip fun _ _ => emits_byte rfl _
  | .unit n => (silent_atLine n).skip fun _ _ => emits_emit rfl
  | .interp n parts => (silent_atLine n).skip fun _ _ => emits_interpolation ctx room 0 closed_noPieces parts
  | .var n name => (silent_atLine n).skip fun _ _ => emits_nameValue n name
  | .qualified n module name => (silent_atLine n).skip fun _ _ => emits_qualifiedValue n module name
  | .unary n op e => (silent_atLine n).skip fun _ _ => (silent_repOf n).skip fun r _ =>
      (emits_expr ctx room e).bind fun code closed => by
        cases op with
        | not =>
          exact (emits_boolFromJump rfl).bind fun _ closed' => .done rfl (closed.append closed')
        | neg =>
          refine Emits.bind (emits_emit ?_) fun _ closed' => .done rfl (closed.append closed')
          split <;> rfl
  | .binary n op l r => by
    have left := emits_expr ctx room l
    have right := emits_expr ctx room r
    unfold expr
    refine (silent_atLine n).skip fun _ _ => .ite (fun _ => ?_) fun _ => .ite (fun _ => ?_) fun _ => ?_
    · refine (silent_repOf n).skip fun rep _ => (silent_repOf _).skip fun _ _ => left.bind fun _ c₁ =>
        .widened fun _ c₂ => (silent_repOf _).skip fun _ _ => right.bind fun _ c₃ =>
          .widened fun _ c₄ => Emits.bind (emits_emit ?_) fun _ c₅ =>
            .done rfl ((((c₁.append c₂).append c₃).append c₄).append c₅)
      by_cases double : rep = .double <;> cases op <;> simp only [arithmeticOp, double] <;> rfl
    · exact left.bind fun _ c₁ => right.bind fun _ c₂ => (emits_comparison _ _ _).bind fun _ c₃ =>
        .done rfl ((c₁.append c₂).append c₃)
    · refine left.bind fun lc c₁ => (silent_jump _).skip ?_
      rintro short ⟨line, rfl⟩
      refine right.bind fun rc c₂ => (silent_jump .goto).skip ?_
      rintro pass ⟨line', rfl⟩
      refine (emits_byte rfl _).bind fun decided c₃ => emits_branch lc ?_ rfl c₁ c₂ c₃
      split <;> rfl
  | .cond n p t e => by
    have asked := emits_expr ctx room p
    have yes := emits_expr ctx room t
    have no := emits_expr ctx room e
    unfold expr
    refine (silent_atLine n).skip fun _ _ => (silent_repOf n).skip fun r _ => asked.bind fun cc c₁ =>
      (silent_jump .ifEq).skip ?_
    rintro leave ⟨line, rfl⟩
    refine (yes.asRep r).bind fun tc c₂ => (silent_jump .goto).skip ?_
    rintro pass ⟨line', rfl⟩
    exact (no.asRep r).bind fun ec c₃ => emits_branch cc rfl rfl c₁ c₂ c₃
  | .letIn n name v b => by
    have value := emits_expr ctx room v
    have body := fun room => emits_expr ctx room b
    unfold expr
    exact (silent_atLine n).skip fun _ _ => (silent_repOf _).skip fun r held => value.bind fun _ c₁ =>
      .inScope <| .define held fun _ _ room' _ _ c₂ => (body room').bind fun _ c₃ =>
        .done rfl ((c₁.append c₂).append c₃)
  | .letRec n name fn params fb b => by
    have inner : ∀ outer, Emits ctx.checked 0 [] .fragment (expr { ctx with outer } fb) :=
      fun outer => emits_expr { ctx with outer } 0 fb
    have body := fun room => emits_expr ctx room b
    unfold expr
    exact (silent_atLine n).skip fun _ _ => (Emits.closure inner).bind fun _ c₁ =>
      .inScope <| .define nofun fun _ _ room' _ _ c₂ => (body room').bind fun _ c₃ =>
        .done rfl ((c₁.append c₂).append c₃)
  | .lambda n params b => by
    have inner : ∀ outer, Emits ctx.checked 0 [] .fragment (expr { ctx with outer } b) :=
      fun outer => emits_expr { ctx with outer } 0 b
    exact (silent_atLine n).skip fun _ _ => Emits.closure inner
  | .apply n callee args => by
    have callee' := emits_expr ctx room callee
    unfold expr
    refine (silent_atLine n).skip fun _ _ => (silent_repOf n).skip fun use _ => ?_
    have rest : ∀ call, (Product.direct ctx.checked).good call →
        Emits ctx.checked room ((Product.direct ctx.checked).code call) .fragment (match call with
        | some call => callArgs ctx use call.finish [call.before] call.params args
        | none => do
          let cc ← asRep ctx callee.note .ref (expr ctx callee)
          applyArgs ctx use [cc] args) := by
      intro call ready
      cases call with
      | some call =>
        have ready := ready call rfl
        exact emits_first (emits_callArgs ctx room ready.finish
          (closed_piece closed_noPieces ready.before) args)
      | none =>
        exact (callee'.asRep .ref).bind fun cc closed =>
          emits_first (emits_applyArgs ctx room use (closed_piece closed_noPieces closed) args)
    dsimp only
    split
    · exact (emits_directCall? _ _ _).bind rest
    · exact emits_noCall.bind rest
  | .sequence n es => (silent_atLine n).skip fun _ _ =>
      .ite (fun _ => emits_emit rfl) fun _ => emits_sequence ctx room closed_noPieces es
  | .print n e => (silent_atLine n).skip fun _ _ => (silent_repOf _).skip fun r _ =>
      (emits_expr ctx room e).bind fun _ c₁ => Emits.bind (emits_emit (by cases r <;> rfl)) fun _ c₂ =>
        (emits_emit rfl).bind fun _ c₃ => .done rfl ((c₁.append c₂).append c₃)
  | .list n es => by
    have all : Emits ctx.checked room [] .fragment (do
        let code ← boxedAll ctx [] es
        pure (code ++ (← emitWith .newlist (.word es.length)))) :=
      (emits_boxedAll ctx room closed_noPieces es).bind fun _ c₁ =>
        (emits_emitWith (fun _ _ _ => .count rfl) nofun).bind fun _ c₂ => .done rfl (c₁.append c₂)
    exact (silent_atLine n).skip fun _ _ => .ite (fun _ => .failed _) fun _ => all
  | .cons n h t => by
    have head := emits_expr ctx room h
    exact (silent_atLine n).skip fun _ _ => (head.asRep .ref).bind fun _ c₁ =>
      (emits_expr ctx room t).bind fun _ c₂ => (emits_emit rfl).bind fun _ c₃ =>
        .done rfl ((c₁.append c₂).append c₃)
  | .matchOn n e arms => by
    have value := emits_expr ctx room e
    unfold expr
    refine (silent_atLine n).skip fun _ _ => (silent_repOf n).skip fun r _ =>
      (silent_repOf _).skip fun sr held => value.bind fun ec c₁ => .inScope <|
        .define held fun source keep room' _ placed c₂ => ?_
    have none : ∀ c ∈ ([] : List Case), c.Leaves := nofun
    have all : Emits ctx.checked room' [] .cases (matchArms ctx source r [] arms) :=
      emits_matchArms ctx room' placed r none arms
    exact all.bind fun cases each =>
      Emits.skip (silent_modify fun _ => ⟨rfl, rfl, rfl, List.Subset.refl _⟩) fun _ _ =>
        (emits_emit rfl).bind fun _ c₃ => emits_joinCases (c₁.append c₂) each c₃
  | .tag n name => (silent_atLine n).skip fun _ _ => (silent_holderRef name).skip fun _ kind =>
      emits_constant rfl (by rw [kind]; rfl) (by decide)
  | .build n name e => by
    have arg := emits_expr ctx room e
    exact (silent_atLine n).skip fun _ _ => (silent_holderRef name).skip fun _ kind =>
      (arg.asRep .ref).bind fun _ c₁ => (emits_constant rfl (by rw [kind]; rfl) (by decide)).bind fun _ c₂ =>
        .done rfl (c₁.append c₂)
  | .hostCall n _ _ args => (silent_atLine n).skip fun _ _ =>
      (silent_hostCall n).skip fun ⟨_, _⟩ finish => emits_callArgs ctx room finish closed_noPieces args
  | .hostMethod n receiver _ args => by
    have first := emits_expr ctx room receiver
    exact (silent_atLine n).skip fun _ _ => (silent_hostCall n).skip fun ⟨_, _⟩ finish =>
      (first.asRep .ref).bind fun _ closed => emits_first
        (emits_callArgs ctx room finish (closed_piece closed_noPieces closed) args)
  | .hostField n _ _ | .hostNew n _ => (silent_atLine n).skip fun _ _ =>
      (silent_hostCall n).skip fun ⟨_, _⟩ finish => emits_finishCall (finish room)

theorem emits_boxedAll (ctx : Context) (room : Nat) {done : List Fragment}
    (closed : Closed (joinPieces done)) :
    (es : List (Expr Typed)) →
      Emits ctx.checked room (joinPieces done) .fragment (boxedAll ctx done es)
  | [] => emits_pieces closed
  | e :: es => by
    have first := emits_expr ctx room e
    exact (first.asRep .ref).bind fun _ last => emits_piece (emits_boxedAll ctx room (closed_piece closed last) es)

theorem emits_sequence (ctx : Context) (room : Nat) {done : List Fragment}
    (closed : Closed (joinPieces done)) :
    (es : List (Expr Typed)) →
      Emits ctx.checked room (joinPieces done) .fragment (sequence ctx done es)
  | [] => emits_pieces closed
  | e :: es => (emits_expr ctx room e).bind fun code last => by
    have after : ∀ code, Closed code →
        Emits ctx.checked room (joinPieces (code :: done)) .fragment
          (sequence ctx (code :: done) es) :=
      fun code last => emits_sequence ctx room (closed_piece closed last) es
    refine .ite (fun _ => emits_piece (after code last)) fun _ => (silent_repOf _).skip fun r _ =>
      (emits_drop r).bind fun gone last' => ?_
    rw [List.append_assoc]
    exact emits_piece (after _ (last.append last'))

theorem emits_interpolation (ctx : Context) (room : Nat) (pending : Nat) {done : List Fragment}
    (closed : Closed (joinPieces done)) : (parts : List (Part Typed)) →
    Emits ctx.checked room (joinPieces done) .fragment (interpolation ctx pending done parts)
  | [] => .ite
      (fun _ => (emits_constant rfl rfl (by decide)).bind fun _ last =>
        emits_piece (emits_pieces (closed_piece closed last)))
      fun _ => (emits_joinTexts _).bind fun _ last =>
        emits_piece (emits_pieces (closed_piece closed last))
  | .text t :: ps => by
    have after : ∀ pending code, Closed code →
        Emits ctx.checked room (joinPieces (code :: done)) .fragment
          (interpolation ctx pending (code :: done) ps) :=
      fun pending code last => emits_interpolation ctx room pending (closed_piece closed last) ps
    by_cases empty : t = ""
    · subst empty
      exact emits_interpolation ctx room pending closed ps
    · rw [interpolation.eq_3 _ _ _ _ _ empty]
      exact (emits_constant rfl rfl (by decide)).bind fun code last =>
        emits_joined (fun pending done => interpolation ctx pending done ps) after pending last
  | .hole e :: ps => by
    have value := emits_expr ctx room e
    have after : ∀ pending code, Closed code →
        Emits ctx.checked room (joinPieces (code :: done)) .fragment
          (interpolation ctx pending (code :: done) ps) :=
      fun pending code last => emits_interpolation ctx room pending (closed_piece closed last) ps
    refine (silent_repOf _).skip fun r _ => value.bind fun code c₁ => (emits_toText _ _).bind fun _ c₂ => ?_
    rw [List.append_assoc]
    exact emits_joined (fun pending done => interpolation ctx pending done ps) after pending
      (c₁.append c₂)

theorem emits_callArgs (ctx : Context) (room : Nat) {use : Rep} {finish : Gen (Fragment × Rep)}
    (finishes : ∀ room, Emits ctx.checked room [] .call finish) {done : List Fragment}
    {params : List (Except Defect Rep)} (closed : Closed (joinPieces done)) :
    (es : List (Expr Typed)) →
    Emits ctx.checked room (joinPieces done) .fragment (callArgs ctx use finish done params es)
  | [] => (emits_finishCall (finishes room)).bind fun _ last =>
      emits_piece (emits_pieces (closed_piece closed last))
  | e :: es => by
    have first := emits_expr ctx room e
    cases params with
    | nil =>
      refine (emits_finishCall (finishes room)).bind fun call last => emits_piece <|
        (first.asRep .ref).bind fun code last' => (emits_emit rfl).bind fun _ last'' => ?_
      rw [List.append_assoc]
      exact emits_piece (emits_applyArgs ctx room use
        (closed_piece (closed_piece closed last) (last'.append last'')) es)
    | cons p ps =>
      exact (silent_liftDefect p).skip fun r _ => (first.asRep r).bind fun code last =>
        emits_piece (emits_callArgs ctx room finishes (closed_piece closed last) es)

theorem emits_applyArgs (ctx : Context) (room : Nat) (use : Rep) {done : List Fragment}
    (closed : Closed (joinPieces done)) :
    (es : List (Expr Typed)) →
      Emits ctx.checked room (joinPieces done) .fragment (applyArgs ctx use done es)
  | [] => (emits_coerce _ _).bind fun _ last => emits_piece (emits_pieces (closed_piece closed last))
  | e :: es => by
    have first := emits_expr ctx room e
    refine (first.asRep .ref).bind fun code last => (emits_emit rfl).bind fun _ last' => ?_
    rw [List.append_assoc]
    exact emits_piece (emits_applyArgs ctx room use (closed_piece closed (last.append last')) es)

theorem emits_matchArms (ctx : Context) (room : Nat) {source : Local} (placed : source.Placed room)
    (r : Rep) {done : List Case} (each : ∀ c ∈ done, c.Leaves) : (arms : List (Arm Typed)) →
    Emits ctx.checked room (caseCode done.reverse) .cases (matchArms ctx source r done arms)
  | [] => .done rfl fun c inside => each c (List.mem_reverse.1 inside)
  | .mk p e :: arms => by
    have body := emits_expr ctx room e
    have case : Emits ctx.checked room [] .case (inScope do
        let tests ← testPattern ctx source p
        let body ← asRep ctx e.note r (expr ctx e)
        pure (Case.of tests body (← jump .goto))) :=
      .inScope <| (emits_testPattern p room source placed).bind fun tests closed =>
        (body.asRep r).bind fun code inner => emits_case closed inner
    refine case.bind fun c leaves => ?_
    have rest := emits_matchArms ctx room placed r (List.forall_mem_cons.2 ⟨leaves, each⟩) arms
    have front : caseCode (c :: done).reverse = caseCode done.reverse ++ c.code := by
      simp [caseCode]
    exact front ▸ rest
end

end StackML.Codegen
