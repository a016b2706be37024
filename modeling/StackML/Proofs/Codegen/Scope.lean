import StackML.Proofs.Codegen.Emission
import StackML.Proofs.Semantics.Eval
import StackML.Proofs.Ty.Assignment

/-!
The parts of a run that generates code for a tree without functions, and what such a run leaves: the
names in scope as they were, and a pool of plain constants.
-/

namespace StackML.Codegen

open Typing (Typed Constructor)
open Semantics (FirstOrder patternNames)

variable {module : String} {ctx : Context} {s s' : State}

structure Setting (module : String) (ctx : Context) : Prop where
  named : module ≠ ""
  owned : ctx.module = module
  mapping : ctx.mapping = []
  ctors : ∀ {name c}, ctx.checked.ctors.get? name = some c → c.module = "" ∧ c.name = name ∧
    (c.sum = Names.result → name = Names.ok ∨ name = Names.error)

theorem Setting.typeOf_eq (h : Setting module ctx) (n : Typed) : ctx.typeOf n = n.type := by
  have empty : Assignment.ofMapping [] = {} := rfl
  rw [Context.typeOf, h.mapping, Ty.replace_eq_assign, empty, Ty.assign_default]

/-! ### Names in scope -/

def Scoped (bound : List String) (t : LocalTable) : Prop :=
  ∀ name ∈ bound, ∃ l, t.find? name = some l ∧ l.self = none

theorem Scoped.of_entries {bound : List String} {t t' : LocalTable} (h : Scoped bound t)
    (same : t'.entries = t.entries) : Scoped bound t' := by
  unfold Scoped LocalTable.find?
  rw [same]
  exact h

theorem Scoped.mono {bound bound' : List String} {t : LocalTable} (h : Scoped bound t)
    (less : bound' ⊆ bound) : Scoped bound' t := fun name member => h name (less member)

theorem Scoped.push {bound : List String} {t : LocalTable} {l : Local} (h : Scoped bound t)
    (plain : l.self = none) : Scoped (l.name :: bound) (t.push l) := by
  intro name member
  simp only [LocalTable.find?, LocalTable.push, List.find?_cons]
  cases same : l.name == name with
  | true => exact ⟨l, rfl, plain⟩
  | false =>
    have other : name ≠ l.name := fun equal => by simp [equal] at same
    exact h name (List.mem_of_ne_of_mem other member)

structure Binds (module : String) (names : List String) (s s' : State) : Prop
    extends Opens module s s' where
  visible : ∀ {bound}, Scoped bound s.locals → Scoped (names ++ bound) s'.locals

theorem Binds.trans {names names' : List String} {s s' s'' : State}
    (first : Binds module names s s') (second : Binds module names' s' s'') :
    Binds module (names ++ names') s s'' := by
  refine ⟨first.toOpens.trans second.toOpens, fun visible => ?_⟩
  refine (second.visible (first.visible visible)).mono fun name member => ?_
  simp only [List.mem_append] at member ⊢
  grind

theorem Binds.mono {names names' : List String} {s s' : State} (h : Binds module names s s')
    (less : names' ⊆ names) : Binds module names' s s' :=
  ⟨h.toOpens, fun visible => (h.visible visible).mono fun name member => by
    simp only [List.mem_append] at member ⊢
    exact member.imp_left (less ·)⟩

theorem Settles.binds {s s' : State} (h : Settles module s s') : Binds module [] s s' :=
  ⟨h.opens, fun visible => visible.of_entries h.entries⟩

theorem binds_define (s : State) (name : String) (r : Rep) :
    Binds module [name] s { s with locals := (s.locals.define name r).2 } := by
  refine ⟨opens_define s name r, fun visible => ?_⟩
  exact (visible.push (l := ⟨name, s.locals.next, r, none⟩) rfl).of_entries rfl

theorem binds_alias (s : State) (name : String) {l : Local} (plain : l.self = none) :
    Binds module [name] s { s with locals := s.locals.addAlias name l } :=
  ⟨opens_alias s name l, fun visible => visible.push (l := { l with name }) plain⟩

/-! ### Lists of pieces -/

theorem joinPieces_cons (code : Fragment) (done : List Fragment) :
    joinPieces (code :: done) = joinPieces done ++ code := by
  simp [joinPieces]

theorem boxedAll_done (done : List Fragment) (es : List (Expr Typed)) :
    boxedAll ctx done es =
      (boxedAll ctx [] es >>= fun rest => pure (joinPieces done ++ rest)) := by
  induction es generalizing done with
  | nil => simp [boxedAll, joinPieces]
  | cons e es ih =>
    simp only [boxedAll, bind_assoc]
    congr 1
    funext code
    rw [ih (code :: done), ih [code]]
    simp [joinPieces]

theorem sequence_done (done : List Fragment) (es : List (Expr Typed)) :
    sequence ctx done es =
      (sequence ctx [] es >>= fun rest => pure (joinPieces done ++ rest)) := by
  induction es generalizing done with
  | nil => simp [sequence, joinPieces]
  | cons e es ih =>
    simp only [sequence, bind_assoc]
    congr 1
    funext code
    split
    · rw [ih (code :: done), ih [code]]
      simp [joinPieces]
    · simp only [bind_assoc]
      congr 1
      funext r
      congr 1
      funext gone
      rw [ih ((code ++ gone) :: done), ih [code ++ gone]]
      simp [joinPieces]

theorem interpolation_done (pending : Nat) (done : List Fragment) (ps : List (Part Typed)) :
    interpolation ctx pending done ps =
      (interpolation ctx pending [] ps >>= fun rest => pure (joinPieces done ++ rest)) := by
  induction ps generalizing pending done with
  | nil => by_cases empty : pending = 0 <;> simp [interpolation, empty, joinPieces]
  | cons part ps ih =>
    cases part with
    | text t =>
      by_cases empty : t = ""
      · subst empty
        simp only [interpolation]
        exact ih pending done
      · simp only [interpolation, bind_assoc]
        congr 1
        funext code
        split
        · simp only [bind_assoc]
          congr 1
          funext joined
          rw [ih 1 ((code ++ joined) :: done), ih 1 [code ++ joined]]
          simp [joinPieces]
        · rw [ih _ (code :: done), ih _ [code]]
          simp [joinPieces]
    | hole e =>
      simp only [interpolation, bind_assoc]
      congr 1
      funext r
      congr 1
      funext code
      congr 1
      funext text
      split
      · simp only [bind_assoc]
        congr 1
        funext joined
        rw [ih 1 ((code ++ text ++ joined) :: done), ih 1 [code ++ text ++ joined]]
        simp [joinPieces]
      · rw [ih _ ((code ++ text) :: done), ih _ [code ++ text]]
        simp [joinPieces]

theorem matchArms_done (source : Local) (r : Rep) (done : List Case) (arms : List (Arm Typed)) :
    matchArms ctx source r done arms =
      (matchArms ctx source r [] arms >>= fun rest => pure (done.reverse ++ rest)) := by
  induction arms generalizing done with
  | nil => simp [matchArms]
  | cons arm arms ih =>
    obtain ⟨p, e⟩ := arm
    simp only [matchArms, bind_assoc]
    congr 1
    funext code
    rw [ih (code :: done), ih [code]]
    simp

/-! ### Parts of a run -/

theorem asRep_ok {n : Typed} {target : Rep} {x : Gen Fragment} {code : Fragment}
    (run : asRep ctx n target x s = .ok code s') :
    ∃ r c co, Rep.ofTy (ctx.typeOf n) = .ok r ∧ x s = .ok c s' ∧
      coerce r target s' = .ok co s' ∧ code = c ++ co := by
  unfold asRep at run
  obtain ⟨r, s₁, runR, run⟩ := bind_ok run
  obtain ⟨rep, rfl⟩ := repOf_ok runR
  obtain ⟨c, s₂, runX, run⟩ := bind_ok run
  obtain ⟨co, s₃, runC, run⟩ := bind_ok run
  obtain rfl := coerce_ok runC
  cases run
  exact ⟨r, c, co, rep, runX, runC, rfl⟩

theorem expr_letIn {n : Typed} {name : String} {v b : Expr Typed} {code : Fragment}
    (run : expr ctx (.letIn n name v b) s = .ok code s') :
    ∃ s₁ r vc s₂ bc s₃, atLine n s = .ok () s₁ ∧ Rep.ofTy (ctx.typeOf v.note) = .ok r ∧
      expr ctx v s₁ = .ok vc s₂ ∧
      expr ctx b { s₂ with locals := (s₂.locals.define name r).2 } = .ok bc s₃ ∧
      s' = { s₃ with locals := s₃.locals.rollback s₂.locals.checkpoint } ∧
      code = vc ++ [⟨storeOp r, .word s₂.locals.next, s₂.line⟩] ++ bc := by
  rw [expr] at run
  obtain ⟨_, s₁, runL, run⟩ := bind_ok run
  obtain ⟨r, _, runR, run⟩ := bind_ok run
  obtain ⟨rep, rfl⟩ := repOf_ok runR
  obtain ⟨vc, s₂, runV, run⟩ := bind_ok run
  obtain ⟨s₃, runI, rfl⟩ := inScope_ok run
  obtain ⟨l, _, runD, runI⟩ := bind_ok runI
  obtain ⟨rfl, rfl⟩ := define_ok runD
  obtain ⟨keep, _, runK, runI⟩ := bind_ok runI
  obtain ⟨rfl, rfl⟩ := emitWith_ok runK
  obtain ⟨bc, _, runB, runI⟩ := bind_ok runI
  cases runI
  exact ⟨s₁, r, vc, s₂, bc, _, runL, rep, runV, runB, rfl, rfl⟩

theorem boxedAll_cons {e : Expr Typed} {es : List (Expr Typed)} {code : Fragment}
    (run : boxedAll ctx [] (e :: es) s = .ok code s') :
    ∃ c s₁ rest, asRep ctx e.note .ref (expr ctx e) s = .ok c s₁ ∧
      boxedAll ctx [] es s₁ = .ok rest s' ∧ code = c ++ rest := by
  rw [boxedAll] at run
  obtain ⟨c, s₁, runE, run⟩ := bind_ok run
  rw [boxedAll_done] at run
  obtain ⟨rest, s₂, runR, run⟩ := bind_ok run
  cases run
  exact ⟨c, s₁, rest, runE, runR, by simp [joinPieces]⟩

theorem sequence_cons {e : Expr Typed} {es : List (Expr Typed)} {code : Fragment}
    (more : es ≠ []) (run : sequence ctx [] (e :: es) s = .ok code s') :
    ∃ c s₁ r gone rest, expr ctx e s = .ok c s₁ ∧ Rep.ofTy (ctx.typeOf e.note) = .ok r ∧
      drop r s₁ = .ok gone s₁ ∧ sequence ctx [] es s₁ = .ok rest s' ∧ code = c ++ gone ++ rest := by
  rw [sequence] at run
  obtain ⟨c, s₁, runE, run⟩ := bind_ok run
  rw [if_neg (by simpa using more)] at run
  obtain ⟨r, s₂, runR, run⟩ := bind_ok run
  obtain ⟨rep, rfl⟩ := repOf_ok runR
  obtain ⟨gone, s₃, runD, run⟩ := bind_ok run
  obtain rfl := drop_ok runD
  rw [sequence_done] at run
  obtain ⟨rest, s₄, runS, run⟩ := bind_ok run
  cases run
  exact ⟨c, s₁, r, gone, rest, runE, rep, runD, runS, by simp [joinPieces]⟩

theorem sequence_last {e : Expr Typed} {code : Fragment}
    (run : sequence ctx [] [e] s = .ok code s') : expr ctx e s = .ok code s' := by
  rw [sequence] at run
  obtain ⟨c, s₁, runE, run⟩ := bind_ok run
  cases run
  simpa [joinPieces] using runE

theorem matchArms_cons {source : Local} {r : Rep} {p : Pattern Typed} {e : Expr Typed}
    {arms : List (Arm Typed)} {cases : List Case}
    (run : matchArms ctx source r [] (.mk p e :: arms) s = .ok cases s') :
    ∃ tests s₁ body s₂ rest, testPattern ctx source p s = .ok tests s₁ ∧
      asRep ctx e.note r (expr ctx e) s₁ = .ok body s₂ ∧
      matchArms ctx source r [] arms
        { s₂ with locals := s₂.locals.rollback s.locals.checkpoint } = .ok rest s' ∧
      cases = Case.of tests body (fun distance => ⟨.goto, .jump distance, s₂.line⟩) :: rest := by
  rw [matchArms] at run
  obtain ⟨case, s₁, runC, run⟩ := bind_ok run
  rw [matchArms_done] at run
  obtain ⟨rest, s₂, runR, run⟩ := bind_ok run
  cases run
  obtain ⟨s₃, runI, rfl⟩ := inScope_ok runC
  obtain ⟨tests, s₄, runT, runI⟩ := bind_ok runI
  obtain ⟨body, s₅, runB, runI⟩ := bind_ok runI
  obtain ⟨leave, s₆, runJ, runI⟩ := bind_ok runI
  obtain ⟨rfl, rfl⟩ := jump_ok runJ
  cases runI
  exact ⟨tests, s₄, body, _, rest, runT, runB, runR, by simp⟩

theorem holderRef_state {name : String} {k : Constant} (run : holderRef ctx name s = .ok k s') :
    s = s' := by
  unfold holderRef at run
  cases found : ctx.checked.ctors.get? name with
  | none =>
    rw [found] at run
    exact (fail_ok run).elim
  | some c =>
    rw [found] at run
    cases run
    rfl

theorem holderRef_ok (h : Setting module ctx) {name : String} {k : Constant}
    (run : holderRef ctx name s = .ok k s') :
    s = s' ∧ k.Plain module ∧ ∃ c, ctx.checked.ctors.get? name = some c ∧
      k = { kind := .holder, name := name
            owner := if c.sum = Names.result then "" else module } := by
  unfold holderRef at run
  cases found : ctx.checked.ctors.get? name with
  | none =>
    simp only [found] at run
    exact (fail_ok run).elim
  | some c =>
    obtain ⟨noModule, ownName, builtin⟩ := h.ctors found
    simp only [found, noModule, ownName, h.owned] at run
    obtain ⟨rfl, rfl⟩ := pure_ok run
    refine ⟨rfl, ?_, c, rfl, ?_⟩
    · by_cases result : c.sum = Names.result
      · simpa [result] using Constant.Plain.builtin name (builtin result)
      · simpa [result] using Constant.Plain.own name
    · by_cases result : c.sum = Names.result <;> simp [result]

/-! ### Parts of a run for a pattern -/

def loads (l : Local) (line : Int) : Fragment := [⟨loadOp l.repr, .word l.slot, line⟩]

def stores (l : Local) (line : Int) : Fragment := [⟨storeOp l.repr, .word l.slot, line⟩]

theorem testPart_ok {source : Local} {op : Opcode} {p : Pattern Typed}
    {test : Local → Gen (List Test)} {tests : List Test}
    (run : testPart ctx source op p test s = .ok tests s') :
    (p.isWild = true ∧ tests = [] ∧ s = s') ∨
      ∃ r co rest, Rep.ofTy (ctx.typeOf p.note) = .ok r ∧ coerce .ref r s = .ok co s ∧
        test ⟨"", s.locals.next, r, none⟩ { s with locals := (s.locals.define "" r).2 } =
          .ok rest s' ∧
        tests = .code (loads source s.line ++ [⟨op, .none, s.line⟩] ++ co ++
          stores ⟨"", s.locals.next, r, none⟩ s.line) :: rest := by
  unfold testPart at run
  split at run
  · cases run
    exact .inl ⟨‹_›, rfl, rfl⟩
  · obtain ⟨r, s₁, runR, run⟩ := bind_ok run
    obtain ⟨rep, rfl⟩ := repOf_ok runR
    obtain ⟨whole, s₂, runL, run⟩ := bind_ok run
    obtain ⟨rfl, rfl⟩ := emitWith_ok runL
    obtain ⟨part, s₃, runP, run⟩ := bind_ok run
    obtain ⟨rfl, rfl⟩ := emit_ok runP
    obtain ⟨co, s₄, runC, run⟩ := bind_ok run
    obtain rfl := coerce_ok runC
    obtain ⟨l, s₅, runD, run⟩ := bind_ok run
    obtain ⟨rfl, rfl⟩ := define_ok runD
    obtain ⟨keep, s₆, runK, run⟩ := bind_ok run
    obtain ⟨rfl, rfl⟩ := emitWith_ok runK
    obtain ⟨rest, s₇, runT, run⟩ := bind_ok run
    cases run
    exact .inr ⟨r, co, rest, rep, runC, runT, rfl⟩

theorem testPattern_int {source : Local} {n : Typed} {v : Int64} {tests : List Test}
    (run : testPattern ctx source (.int n v) s = .ok tests s') :
    ∃ k, emitConst ctx .iconst { kind := .int, int := v } s = .ok k s' ∧
      tests = [.code (loads source s.line ++ k),
        .orElse fun d => ⟨.ifIcmpNe, .jump d, s'.line⟩] := by
  rw [testPattern] at run
  obtain ⟨l, s₁, runL, run⟩ := bind_ok run
  obtain ⟨rfl, rfl⟩ := emitWith_ok runL
  obtain ⟨k, s₂, runK, run⟩ := bind_ok run
  cases run
  exact ⟨k, runK, rfl⟩

theorem testPattern_str {source : Local} {n : Typed} {v : String} {tests : List Test}
    (run : testPattern ctx source (.str n v) s = .ok tests s') :
    ∃ k s₁ c, emitConst ctx .sconst { kind := .string, str := v } s = .ok k s₁ ∧
      emitConst ctx .invokehost stringCompare s₁ = .ok c s' ∧
      tests = [.code (loads source s.line ++ k ++ c),
        .orElse fun d => ⟨.ifNe, .jump d, s'.line⟩] := by
  rw [testPattern] at run
  obtain ⟨l, s₁, runL, run⟩ := bind_ok run
  obtain ⟨rfl, rfl⟩ := emitWith_ok runL
  obtain ⟨k, s₂, runK, run⟩ := bind_ok run
  obtain ⟨c, s₃, runC, run⟩ := bind_ok run
  cases run
  exact ⟨k, s₂, c, runK, runC, rfl⟩

theorem testPattern_cons {source : Local} {n : Typed} {head tail : Pattern Typed}
    {tests : List Test} (run : testPattern ctx source (.cons n head tail) s = .ok tests s') :
    ∃ heads s₁ tails,
      testPart ctx source .listHead head (fun l => testPattern ctx l head) s = .ok heads s₁ ∧
      testPart ctx source .listTail tail (fun l => testPattern ctx l tail) s₁ = .ok tails s' ∧
      tests = .code (loads source s.line ++ [⟨.listIsEmpty, .none, s.line⟩]) ::
        .orElse (fun d => ⟨.ifNe, .jump d, s.line⟩) :: (heads ++ tails) := by
  rw [testPattern] at run
  obtain ⟨l, s₁, runL, run⟩ := bind_ok run
  obtain ⟨rfl, rfl⟩ := emitWith_ok runL
  obtain ⟨e, s₂, runE, run⟩ := bind_ok run
  obtain ⟨rfl, rfl⟩ := emit_ok runE
  obtain ⟨leave, s₃, runJ, run⟩ := bind_ok run
  obtain ⟨rfl, rfl⟩ := jump_ok runJ
  obtain ⟨heads, s₄, runH, run⟩ := bind_ok run
  obtain ⟨tails, s₅, runT, run⟩ := bind_ok run
  cases run
  exact ⟨heads, s₄, tails, runH, runT, rfl⟩

theorem testPattern_tag {source : Local} {n : Typed} {name : String} {tests : List Test}
    (run : testPattern ctx source (.tag n name) s = .ok tests s') :
    ∃ k i, holderRef ctx name s = .ok k s ∧ emitConst ctx .instanceof k s = .ok i s' ∧
      tests = [.code (loads source s.line ++ i), .orElse fun d => ⟨.ifEq, .jump d, s'.line⟩] := by
  rw [testPattern] at run
  obtain ⟨k, s₁, runH, run⟩ := bind_ok run
  obtain rfl := holderRef_state runH
  obtain ⟨l, s₂, runL, run⟩ := bind_ok run
  obtain ⟨rfl, rfl⟩ := emitWith_ok runL
  obtain ⟨i, s₃, runI, run⟩ := bind_ok run
  cases run
  exact ⟨k, i, runH, runI, rfl⟩

theorem testPattern_build {source : Local} {n : Typed} {name : String} {arg : Pattern Typed}
    {tests : List Test} (run : testPattern ctx source (.build n name arg) s = .ok tests s') :
    ∃ k i s₁ args, holderRef ctx name s = .ok k s ∧ emitConst ctx .instanceof k s = .ok i s₁ ∧
      testPart ctx source .getpayload arg (fun l => testPattern ctx l arg) s₁ = .ok args s' ∧
      tests = .code (loads source s.line ++ i) ::
        .orElse (fun d => ⟨.ifEq, .jump d, s₁.line⟩) :: args := by
  rw [testPattern] at run
  obtain ⟨k, s₁, runH, run⟩ := bind_ok run
  obtain rfl := holderRef_state runH
  obtain ⟨l, s₂, runL, run⟩ := bind_ok run
  obtain ⟨rfl, rfl⟩ := emitWith_ok runL
  obtain ⟨i, s₃, runI, run⟩ := bind_ok run
  obtain ⟨leave, s₄, runJ, run⟩ := bind_ok run
  obtain ⟨rfl, rfl⟩ := jump_ok runJ
  obtain ⟨args, s₅, runA, run⟩ := bind_ok run
  cases run
  exact ⟨k, i, s₃, args, runH, runI, runA, rfl⟩

/-! ### What is left -/

theorem asRep_settles {n : Typed} {target : Rep} {x : Gen Fragment} {code : Fragment}
    (each : ∀ c s', x s = .ok c s' → Settles module s s')
    (run : asRep ctx n target x s = .ok code s') : Settles module s s' := by
  obtain ⟨r, c, co, -, runX, -, -⟩ := asRep_ok run
  exact each c s' runX

theorem patternNames_of_isWild {p : Pattern Typed} (wild : p.isWild = true) :
    patternNames p = [] := by
  cases p <;> first | rfl | cases wild

theorem testPart_binds {source : Local} {op : Opcode} {p : Pattern Typed}
    {test : Local → Gen (List Test)} {tests : List Test}
    (each : ∀ l s tests s', l.self = none → test l s = .ok tests s' →
      Binds module (patternNames p) s s')
    (run : testPart ctx source op p test s = .ok tests s') :
    Binds module (patternNames p) s s' := by
  rcases testPart_ok run with ⟨wild, -, rfl⟩ | ⟨r, co, rest, -, -, runT, -⟩
  · exact (Settles.refl s).binds.mono (by simp [patternNames_of_isWild wild])
  · exact ((binds_define s "" r).trans (each _ _ _ _ rfl runT)).mono (List.subset_cons_self _ _)

theorem testPattern_binds (h : Setting module ctx) {source : Local} {p : Pattern Typed}
    {tests : List Test} (plain : source.self = none)
    (run : testPattern ctx source p s = .ok tests s') : Binds module (patternNames p) s s' := by
  induction p generalizing source s tests s' with
  | wild n | bool n v | nil n =>
    cases run
    exact (Settles.refl s).binds
  | var n name =>
    cases run
    exact binds_alias s name plain
  | int n v =>
    obtain ⟨k, runK, -⟩ := testPattern_int run
    obtain ⟨i, -, settles, -⟩ := emitConst_ok h.named (.int v) runK
    exact settles.binds
  | str n v =>
    obtain ⟨k, s₁, c, runK, runC, -⟩ := testPattern_str run
    obtain ⟨i, -, first, -⟩ := emitConst_ok h.named (.string v) runK
    obtain ⟨j, -, second, -⟩ := emitConst_ok h.named .compare runC
    exact (first.trans second).binds
  | cons n head tail ihHead ihTail =>
    obtain ⟨heads, s₁, tails, runH, runT, -⟩ := testPattern_cons run
    exact (testPart_binds (fun l s tests s' => ihHead) runH).trans
      (testPart_binds (fun l s tests s' => ihTail) runT)
  | tag n name =>
    obtain ⟨k, i, runH, runI, -⟩ := testPattern_tag run
    obtain ⟨-, known, -⟩ := holderRef_ok h runH
    obtain ⟨-, -, settles, -⟩ := emitConst_ok h.named known runI
    exact settles.binds
  | build n name arg ih =>
    obtain ⟨k, i, s₁, args, runH, runI, runA, -⟩ := testPattern_build run
    obtain ⟨-, known, -⟩ := holderRef_ok h runH
    obtain ⟨-, -, settles, -⟩ := emitConst_ok h.named known runI
    exact settles.binds.trans (testPart_binds (fun l s tests s' => ih) runA)

def LeavesScope (module : String) (ctx : Context) (bound : List String) (e : Expr Typed) : Prop :=
  ∀ s code s', Scoped bound s.locals → expr ctx e s = .ok code s' → Settles module s s'

section Settling

variable {bound : List String}

theorem LeavesScope.asRep {n : Typed} {target : Rep} {e : Expr Typed} {code : Fragment}
    (each : LeavesScope module ctx bound e) (visible : Scoped bound s.locals)
    (run : asRep ctx n target (expr ctx e) s = .ok code s') : Settles module s s' :=
  asRep_settles (fun c s' run => each s c s' visible run) run

theorem joinTexts_ok {pending : Nat} {code : Fragment} (run : joinTexts pending s = .ok code s') :
    s = s' := by
  unfold joinTexts at run
  split at run <;> cases run <;> rfl

theorem toText_ok {r : Rep} {t : Ty} {code : Fragment} (run : toText r t s = .ok code s') :
    s = s' := by
  unfold toText at run
  split at run
  all_goals try split at run
  all_goals cases run
  all_goals rfl

/-- What follows a piece of an interpolated string: it is joined with the pieces before it when there
are as many as one instruction takes. -/
def nextPiece (ctx : Context) (pending : Nat) (ps : List (Part Typed)) : Gen Fragment :=
  if pending + 1 = maxJoin then do
    let joined ← joinTexts (pending + 1)
    let rest ← interpolation ctx 1 [] ps
    pure (joined ++ rest)
  else interpolation ctx (pending + 1) [] ps

theorem interpolation_nil {pending : Nat} {code : Fragment}
    (run : interpolation ctx pending [] [] s = .ok code s') :
    (pending = 0 ∧ emitConst ctx .sconst { kind := .string } s = .ok code s') ∨
      (pending ≠ 0 ∧ joinTexts pending s = .ok code s') := by
  rw [interpolation] at run
  split at run
  · obtain ⟨rest, s₁, runR, run⟩ := bind_ok run
    cases run
    exact .inl ⟨‹_›, by simpa [joinPieces] using runR⟩
  · obtain ⟨rest, s₁, runR, run⟩ := bind_ok run
    cases run
    exact .inr ⟨‹_›, by simpa [joinPieces] using runR⟩

theorem interpolation_text {pending : Nat} {t : String} {ps : List (Part Typed)} {code : Fragment}
    (filled : t ≠ "") (run : interpolation ctx pending [] (.text t :: ps) s = .ok code s') :
    ∃ c s₁ rest, emitConst ctx .sconst { kind := .string, str := t } s = .ok c s₁ ∧
      nextPiece ctx pending ps s₁ = .ok rest s' ∧ code = c ++ rest := by
  simp only [interpolation] at run
  obtain ⟨c, s₁, runC, run⟩ := bind_ok run
  unfold nextPiece
  split at run
  · obtain ⟨joined, s₂, runJ, run⟩ := bind_ok run
    rw [interpolation_done] at run
    obtain ⟨rest, s₃, runR, run⟩ := bind_ok run
    cases run
    refine ⟨c, s₁, joined ++ rest, runC, ?_, by simp [joinPieces]⟩
    rw [if_pos ‹_›, bind_of_ok runJ, bind_of_ok runR]
    rfl
  · rw [interpolation_done] at run
    obtain ⟨rest, s₃, runR, run⟩ := bind_ok run
    cases run
    refine ⟨c, s₁, rest, runC, ?_, by simp [joinPieces]⟩
    rw [if_neg ‹_›, runR]

theorem interpolation_hole {pending : Nat} {e : Expr Typed} {ps : List (Part Typed)}
    {code : Fragment} (run : interpolation ctx pending [] (.hole e :: ps) s = .ok code s') :
    ∃ r c s₁ text rest, Rep.ofTy (ctx.typeOf e.note) = .ok r ∧ expr ctx e s = .ok c s₁ ∧
      toText r (ctx.typeOf e.note) s₁ = .ok text s₁ ∧ nextPiece ctx pending ps s₁ = .ok rest s' ∧
      code = c ++ text ++ rest := by
  rw [interpolation] at run
  obtain ⟨r, s₁, runR, run⟩ := bind_ok run
  obtain ⟨rep, rfl⟩ := repOf_ok runR
  obtain ⟨c, s₂, runE, run⟩ := bind_ok run
  obtain ⟨text, s₃, runT, run⟩ := bind_ok run
  obtain rfl := toText_ok runT
  refine ⟨r, c, s₂, text, ?_⟩
  unfold nextPiece
  split at run
  · obtain ⟨joined, s₂, runJ, run⟩ := bind_ok run
    rw [interpolation_done] at run
    obtain ⟨rest, s₃, runR, run⟩ := bind_ok run
    cases run
    refine ⟨joined ++ rest, rep, runE, runT, ?_, by simp [joinPieces]⟩
    rw [if_pos ‹_›, bind_of_ok runJ, bind_of_ok runR]
    rfl
  · rw [interpolation_done] at run
    obtain ⟨rest, s₃, runR, run⟩ := bind_ok run
    cases run
    refine ⟨rest, rep, runE, runT, ?_, by simp [joinPieces]⟩
    rw [if_neg ‹_›, runR]

theorem nextPiece_ok {pending : Nat} {ps : List (Part Typed)} {code : Fragment}
    (run : nextPiece ctx pending ps s = .ok code s') :
    (pending + 1 = maxJoin ∧ ∃ joined rest, joinTexts (pending + 1) s = .ok joined s ∧
      interpolation ctx 1 [] ps s = .ok rest s' ∧ code = joined ++ rest) ∨
    (pending + 1 ≠ maxJoin ∧ interpolation ctx (pending + 1) [] ps s = .ok code s') := by
  unfold nextPiece at run
  split at run
  · obtain ⟨joined, s₁, runJ, run⟩ := bind_ok run
    obtain rfl := joinTexts_ok runJ
    obtain ⟨rest, s₂, runR, run⟩ := bind_ok run
    cases run
    exact .inl ⟨‹_›, joined, rest, runJ, runR, rfl⟩
  · exact .inr ⟨‹_›, run⟩

theorem interpolation_settles (h : Setting module ctx) {pending : Nat} {ps : List (Part Typed)}
    {code : Fragment} (each : ∀ e, .hole e ∈ ps → LeavesScope module ctx bound e)
    (visible : Scoped bound s.locals) (run : interpolation ctx pending [] ps s = .ok code s') :
    Settles module s s' := by
  induction ps generalizing pending s code with
  | nil =>
    rcases interpolation_nil run with ⟨-, runC⟩ | ⟨-, runJ⟩
    · obtain ⟨-, -, settles, -⟩ := emitConst_ok h.named (.string .empty) runC
      exact settles
    · obtain rfl := joinTexts_ok runJ
      exact .refl s
  | cons part ps ih =>
    have rest : ∀ {pending s code}, Scoped bound s.locals →
        nextPiece ctx pending ps s = .ok code s' → Settles module s s' := by
      intro pending s code visible run
      have inner := fun e member => each e (List.mem_cons_of_mem part member)
      rcases nextPiece_ok run with ⟨-, joined, rest, -, runR, -⟩ | ⟨-, runR⟩
      · exact ih inner visible runR
      · exact ih inner visible runR
    cases part with
    | text t =>
      by_cases empty : t = ""
      · subst empty
        rw [interpolation] at run
        exact ih (fun e member => each e (List.mem_cons_of_mem _ member)) visible run
      · obtain ⟨c, s₁, more, runC, runR, -⟩ := interpolation_text empty run
        obtain ⟨-, -, settles, -⟩ := emitConst_ok h.named (.string t) runC
        exact settles.trans (rest (visible.of_entries settles.entries) runR)
    | hole e =>
      obtain ⟨r, c, s₁, text, more, -, runE, -, runR, -⟩ := interpolation_hole run
      have first := each e List.mem_cons_self s c s₁ visible runE
      exact first.trans (rest (visible.of_entries first.entries) runR)

theorem nextPiece_settles (h : Setting module ctx) {pending : Nat} {ps : List (Part Typed)}
    {code : Fragment} (each : ∀ e, .hole e ∈ ps → LeavesScope module ctx bound e)
    (visible : Scoped bound s.locals) (run : nextPiece ctx pending ps s = .ok code s') :
    Settles module s s' := by
  rcases nextPiece_ok run with ⟨-, joined, rest, -, runR, -⟩ | ⟨-, runR⟩
  · exact interpolation_settles h each visible runR
  · exact interpolation_settles h each visible runR

theorem matchArms_settles (h : Setting module ctx) {source : Local} {r : Rep}
    {arms : List (Arm Typed)} {cases : List Case} (plain : source.self = none)
    (each : ∀ p e, .mk p e ∈ arms → LeavesScope module ctx (patternNames p ++ bound) e)
    (visible : Scoped bound s.locals) (run : matchArms ctx source r [] arms s = .ok cases s') :
    Settles module s s' := by
  induction arms generalizing s cases with
  | nil =>
    rw [matchArms] at run
    obtain ⟨-, rfl⟩ := pure_ok run
    exact .refl s'
  | cons arm arms ih =>
    obtain ⟨p, e⟩ := arm
    obtain ⟨tests, s₁, body, s₂, rest, runT, runB, runR, -⟩ := matchArms_cons run
    have binds := testPattern_binds h plain runT
    have body := (each p e List.mem_cons_self).asRep (binds.visible visible) runB
    have first := (binds.toOpens.trans body.opens).rollback
    exact first.trans (ih (fun p e member => each p e (List.mem_cons_of_mem _ member))
      (visible.of_entries first.entries) runR)

end Settling

end StackML.Codegen
