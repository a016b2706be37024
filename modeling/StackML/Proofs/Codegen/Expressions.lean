import StackML.Proofs.Codegen.Realize

/-!
The code of expressions that bind no names. There is a lemma for each kind of node, which takes what
is known of its parts.
-/

namespace StackML.Codegen

open Machine Semantics
open Typing (Typed)

variable {σ : Scene} {Γ : Typing.Context} {bound : List String} {env : NameMap Value}
variable {site : Site} {ip : Nat} {L S : List Word} {out : List Text} {v : Value}
variable {s s' s₁ s₂ s₃ : State} {code a b c : Fragment} {n : Typed} {e : Expr Typed}

/-! ### Literals and constructors -/

theorem realizes_const {k : Constant} {op : Opcode} {r : Rep} (plain : k.Plain σ.module)
    (leads : ∀ {site : Site} {ip i L S out line}, site.Located ip [⟨op, .word (i : Nat), line⟩] →
      i < 65536 → site.constants[i]? = some k →
      Leads site ⟨ip, L, S, out⟩ ⟨ip + 3, L, words r v ++ S, out⟩)
    (run : emitConst σ.ctx op k s = .ok code s') :
    Realizes σ Γ bound s code s' (fun _ => pure v) (words r) fun _ => True := by
  obtain ⟨-, -, settles, -⟩ := emitConst_ok σ.setting.named plain run
  refine .value settles (fun _ pool placed => ?_) trivial
  obtain ⟨i, line, rfl, small, found⟩ := placed.constant σ.setting.named plain pool run
  exact leads placed.located small found

theorem carries_int {value : Int64} (type : n.type = .int)
    (typed : Types σ Γ bound (.int n value)) : Carries σ Γ bound (.int n value) := by
  refine .of_body typed (by rw [expr]; rfl) (congrArg Ty.rep type) fun _ run => ?_
  simp only [eval]
  exact realizes_const (.int value) .iconst run

theorem carries_float {bits : UInt64} (type : n.type = .double)
    (typed : Types σ Γ bound (.float n bits)) : Carries σ Γ bound (.float n bits) := by
  refine .of_body typed (by rw [expr]; rfl) (congrArg Ty.rep type) fun _ run => ?_
  simp only [eval]
  exact realizes_const (.double bits) .dconst run

theorem carries_str {value : String} (type : n.type = .string)
    (typed : Types σ Γ bound (.str n value)) : Carries σ Γ bound (.str n value) := by
  refine .of_body typed (by rw [expr]; rfl) (congrArg Ty.rep type) fun _ run => ?_
  simp only [eval]
  exact realizes_const (.string value) .sconst run

theorem realizes_bool (value : Bool)
    (run : emitWith .zconst (.byte (if value then 1 else 0)) s = .ok code s') :
    Realizes σ Γ bound s code s' (fun _ => pure (.bool value)) (words .bool) fun _ => True := by
  obtain ⟨rfl, rfl⟩ := emitWith_ok run
  exact .value (.refl s) (fun _ _ placed => .zconst placed.located) trivial

theorem realizes_unit (run : emit .unit s = .ok code s') :
    Realizes σ Γ bound s code s' (fun _ => pure .unit) (words .ref) fun _ => True := by
  obtain ⟨rfl, rfl⟩ := emitWith_ok run
  exact .value (.refl s) (fun _ _ placed => .unit placed.located) trivial

theorem carries_bool {value : Bool} (type : n.type = .bool)
    (typed : Types σ Γ bound (.bool n value)) : Carries σ Γ bound (.bool n value) := by
  refine .of_body typed (by rw [expr]; rfl) (congrArg Ty.rep type) fun _ run => ?_
  simp only [eval]
  exact realizes_bool value run

theorem carries_unit (type : n.type = .unit) (typed : Types σ Γ bound (.unit n)) :
    Carries σ Γ bound (.unit n) := by
  refine .of_body typed (by rw [expr]; rfl) (congrArg Ty.rep type) fun _ run => ?_
  simp only [eval]
  exact realizes_unit run

theorem carries_tag {name : String} {cls : HolderClass}
    (listed : σ.table.lookup name = some cls) (bare : cls.hasArg = false) (sum : n.type.isSum)
    (typed : Types σ Γ bound (.tag n name)) : Carries σ Γ bound (.tag n name) := by
  refine .of_body typed (by rw [expr]; rfl) (n.type.rep_of_isSum sum) fun _ run => ?_
  obtain ⟨k, s₁, runH, run⟩ := bind_ok run
  obtain ⟨rfl, plain, -⟩ := holderRef_ok σ.setting runH
  obtain ⟨-, -, settles, -⟩ := emitConst_ok σ.setting.named plain run
  simp only [eval, listed]
  refine .value settles (fun hosts pool placed => ?_) trivial
  obtain ⟨i, line, rfl, small, found⟩ := placed.constant σ.setting.named plain pool run
  exact .newBare placed.located small found (hosts.classes runH listed).1 bare

theorem carries_build {name : String} {cls : HolderClass}
    (listed : σ.table.lookup name = some cls) (filled : cls.hasArg = true) (sum : n.type.isSum)
    (arg : Carries σ Γ bound e) (typed : Types σ Γ bound (.build n name e)) :
    Carries σ Γ bound (.build n name e) := by
  refine .of_body typed (by rw [expr]; rfl) (n.type.rep_of_isSum sum) fun visible run => ?_
  obtain ⟨k, s₁, runH, run⟩ := bind_ok run
  obtain ⟨rfl, plain, -⟩ := holderRef_ok σ.setting runH
  obtain ⟨c, s₂, runE, run⟩ := bind_ok run
  obtain ⟨new, s₃, runN, run⟩ := bind_ok run
  cases run
  obtain ⟨-, -, settles, -⟩ := emitConst_ok σ.setting.named plain runN
  simp only [eval, listed]
  refine (arg.boxed visible runE).operate settles fun _ hosts pool placed => ?_
  obtain ⟨i, line, rfl, small, found⟩ := placed.constant σ.setting.named plain pool runN
  exact .leads (.newFilled placed.located small found (hosts.classes runH listed).1 filled) rfl
    (.pure ⟨rfl, .refl _ _, rfl⟩)

/-! ### Names -/

theorem nameValue_ok {ctx : Context} {name : String} {l : Local}
    (found : s.locals.find? name = some l)
    (plain : l.self = none) (run : nameValue ctx n name s = .ok code s') :
    ∃ r co, Rep.ofTy (ctx.typeOf n) = .ok r ∧ coerce l.repr r s = .ok co s ∧ s = s' ∧
      code = loads l s.line ++ co := by
  unfold nameValue at run
  obtain ⟨r, s₁, runR, run⟩ := bind_ok run
  obtain ⟨rep, rfl⟩ := repOf_ok runR
  obtain ⟨_, _, runG, run⟩ := bind_ok run
  cases runG
  simp only [found, plain] at run
  obtain ⟨whole, s₂, runL, run⟩ := bind_ok run
  obtain ⟨rfl, rfl⟩ := emitWith_ok runL
  obtain ⟨co, s₃, runC, run⟩ := bind_ok run
  obtain rfl := coerce_ok runC
  cases run
  exact ⟨r, co, rep, runC, rfl, rfl⟩

theorem carries_var {name : String} (member : name ∈ bound)
    (typed : Types σ Γ bound (.var n name)) : Carries σ Γ bound (.var n name) := by
  refine .of_body typed (by rw [expr]; rfl) rfl fun {s code s'} visible run => ?_
  obtain ⟨l, found, plain⟩ := visible name member
  obtain ⟨r, co, rep, runC, rfl, rfl⟩ := nameValue_ok found plain run
  rw [σ.setting.typeOf_eq] at rep
  obtain rfl := Rep.eq_rep_of_ofTy rep
  refine ⟨.refl s, fun {site ip L S out env} _ ready placed => ?_⟩
  obtain ⟨v, value⟩ := ready.typed.known name member
  obtain ⟨-, l', found', held⟩ := ready.shelters name v value
  rw [found, Option.some.injEq] at found'
  subst found'
  have result : eval σ.table env (.var n name) = pure v := by simp only [eval, value]
  have type : σ.HasType n.type v := typed env ready.typed out v out (by rw [result]; rfl)
  rw [result]
  exact .leads ((held.leads rfl placed.small placed.located.left).append
    (coerce_leads held.fits type.fits runC placed.located.right)) rfl
    (.pure ⟨⟨rfl, .refl _ L, rfl⟩, trivial⟩)

/-! ### Operators -/

theorem carries_not (type : e.note.type = .bool) (result : n.type = .bool)
    (operand : Carries σ Γ bound e) (typed : Types σ Γ bound (.unary n .not e)) :
    Carries σ Γ bound (.unary n .not e) := by
  refine .of_body typed (by rw [expr]; rfl) (congrArg Ty.rep result) fun visible run => ?_
  obtain ⟨r, s₁, runR, run⟩ := bind_ok run
  obtain ⟨-, rfl⟩ := repOf_ok runR
  obtain ⟨c, s₂, runE, run⟩ := bind_ok run
  obtain ⟨rest, s₃, runJ, run⟩ := bind_ok run
  obtain rfl := boolFromJump_ok runJ
  cases run
  simp only [eval]
  refine (operand visible runE).operate (.refl _) fun typed _ _ placed => ?_
  rw [type] at typed ⊢
  obtain ⟨b, rfl⟩ := typed.bool_inv σ.known
  exact .leads (boolFromJump_zero rfl (holds_not b) runJ placed.located) rfl
    (.pure ⟨rfl, .refl _ _, rfl⟩)

theorem carries_neg (numeric : e.note.type.fitsNumeric) (result : n.type = e.note.type)
    (operand : Carries σ Γ bound e) (typed : Types σ Γ bound (.unary n .neg e)) :
    Carries σ Γ bound (.unary n .neg e) := by
  refine .of_body typed (by rw [expr]; rfl) (congrArg Ty.rep result) fun visible run => ?_
  obtain ⟨r, s₁, runR, run⟩ := bind_ok run
  obtain ⟨rep, rfl⟩ := repOf_eq runR
  rw [result] at rep
  obtain ⟨c, s₂, runE, run⟩ := bind_ok run
  obtain ⟨rest, s₃, runN, run⟩ := bind_ok run
  obtain ⟨rfl, rfl⟩ := emit_ok runN
  cases run
  simp only [eval]
  refine (operand visible runE).operate (.refl _) fun typed _ _ placed => ?_
  have at_ := placed.located
  subst rep
  rcases typed.numeric_inv σ.known numeric with ⟨type, m, rfl⟩ | ⟨type, bits, rfl⟩
  · rw [type] at at_ ⊢
    exact .leads (.ineg at_) rfl (.pure ⟨rfl, .refl _ _, rfl⟩)
  · rw [type] at at_ ⊢
    exact .leads (.dneg at_) rfl (.pure ⟨rfl, .refl _ _, rfl⟩)

/-- The words of an operand in the representation of the result, for which an integer is widened. -/
def operandWords (r : Rep) (v : Value) : List Word :=
  match r, v with
  | .double, .int n => words .double (.double (widen n))
  | r, v => words r v

theorem Realizes.widened {r : Rep} {t : Ty} {x : NameMap Value → Eval Value}
    (h : Realizes σ Γ bound s a s₁ x (words t.rep) (σ.HasType t)) (numeric : t.fitsNumeric)
    (fits : r = .double ∨ t.rep = r)
    (run : (if r = .double ∧ t.rep = .int then emit .i2d else pure []) s₁ = .ok b s₂) :
    s₁ = s₂ ∧ Realizes σ Γ bound s (a ++ b) s₂ x (operandWords r) (σ.HasType t) := by
  split at run
  · next both =>
    obtain ⟨rfl, int⟩ := both
    obtain ⟨rfl, rfl⟩ := emit_ok run
    refine ⟨rfl, h.convert fun typed _ placed => ?_⟩
    rcases typed.numeric_inv σ.known numeric with ⟨rfl, m, rfl⟩ | ⟨rfl, bits, rfl⟩
    · exact .i2d placed.located
    · cases int
  · next other =>
    cases run
    refine ⟨rfl, h.convert fun typed _ placed => ?_⟩
    rcases typed.numeric_inv σ.known numeric with ⟨rfl, m, rfl⟩ | ⟨rfl, bits, rfl⟩
    · obtain rfl : r = .int := fits.elim (fun double => (other ⟨double, rfl⟩).elim) Eq.symm
      exact .refl _
    · obtain rfl : r = .double := fits.elim id Eq.symm
      exact .refl _

theorem arithmetic_follows {op : BinaryOp} {l r t : Ty} {w : Value} {line : Int} {next : Nat}
    (known : op.isArithmetic) (fits : Typing.ArithmeticFits l r t) (typedL : σ.HasType l v)
    (typedR : σ.HasType r w)
    (at_ : site.Located ip [⟨arithmeticOp (t.rep = .double) op, .none, line⟩]) :
    Follows site ⟨ip, L, (operandWords t.rep w ++ operandWords t.rep v) ++ S, out⟩
      (arithmetic op v w) fun x => Leaves (ip + 1) next L (words t.rep x ++ S) := by
  obtain ⟨numL, numR, result⟩ := fits
  rcases typedL.numeric_inv σ.known numL with ⟨rfl, m, rfl⟩ | ⟨rfl, x, rfl⟩ <;>
    rcases typedR.numeric_inv σ.known numR with ⟨rfl, k, rfl⟩ | ⟨rfl, y, rfl⟩ <;>
    simp only [reduceCtorEq, or_self, or_true, true_or, if_true, if_false, true_and] at result <;>
    subst result
  · exact intArithmetic_follows known at_
  · exact doubleArithmetic_follows known at_
  · exact doubleArithmetic_follows known at_
  · exact doubleArithmetic_follows known at_

theorem carries_arithmetic {op : BinaryOp} {l r : Expr Typed} (known : op.isArithmetic)
    (fits : Typing.ArithmeticFits l.note.type r.note.type n.type) (left : Carries σ Γ bound l)
    (right : Carries σ Γ bound r) (typed : Types σ Γ bound (.binary n op l r)) :
    Carries σ Γ bound (.binary n op l r) := by
  have result := fits.2.2
  have fitsL : n.type.rep = .double ∨ l.note.type.rep = n.type.rep := by
    split at result
    · exact .inl (congrArg Ty.rep result)
    · exact .inr (congrArg Ty.rep result.2.symm)
  have fitsR : n.type.rep = .double ∨ r.note.type.rep = n.type.rep := by
    split at result
    · exact .inl (congrArg Ty.rep result)
    · exact .inr (congrArg Ty.rep (result.2.trans result.1).symm)
  refine .of_body typed (by rw [expr]; rfl) rfl fun visible run => ?_
  rw [if_pos known] at run
  obtain ⟨rep, s₁, runR, run⟩ := bind_ok run
  obtain ⟨rfl, rfl⟩ := repOf_eq runR
  obtain ⟨lr, s₁, runR, run⟩ := bind_ok run
  obtain ⟨rfl, rfl⟩ := repOf_eq runR
  obtain ⟨lc, s₁, runL, run⟩ := bind_ok run
  obtain ⟨lw, s₂, runLW, run⟩ := ite_bind_ok run
  obtain ⟨rr, s₃, runR, run⟩ := bind_ok run
  obtain ⟨rfl, rfl⟩ := repOf_eq runR
  obtain ⟨rc, s₄, runR, run⟩ := bind_ok run
  obtain ⟨rw, s₅, runRW, run⟩ := ite_bind_ok run
  obtain ⟨last, s₆, runO, run⟩ := bind_ok run
  obtain ⟨rfl, rfl⟩ := emit_ok runO
  cases run
  obtain ⟨rfl, onLeft⟩ := (left visible runL).widened fits.1 fitsL runLW
  have inside := visible.of_entries onLeft.settles.entries
  obtain ⟨rfl, onRight⟩ := (right inside runR).widened fits.2.1 fitsR runRW
  rw [List.append_assoc (lc ++ lw)]
  refine ((onLeft.pair onRight).operate (f := fun v => arithmetic op v.1 v.2) (.refl _)
    fun typed _ _ placed => ?_).of_eq fun env => by simp [eval, known]
  exact arithmetic_follows known fits typed.1 typed.2 placed.located

theorem carries_comparison {op : BinaryOp} {l r : Expr Typed} (known : op.isComparison)
    (same : l.note.type = r.note.type) (result : n.type = .bool) (left : Carries σ Γ bound l)
    (right : Carries σ Γ bound r) (typed : Types σ Γ bound (.binary n op l r)) :
    Carries σ Γ bound (.binary n op l r) := by
  have plain : op.isArithmetic = false := by cases op <;> first | rfl | cases known
  refine .of_body typed (by rw [expr]; rfl) (congrArg Ty.rep result) fun visible run => ?_
  rw [if_neg (by simp [plain]), if_pos known, σ.setting.typeOf_eq] at run
  obtain ⟨lc, s₁, runL, run⟩ := bind_ok run
  obtain ⟨rc, s₂, runR, run⟩ := bind_ok run
  obtain ⟨last, s₃, runC, run⟩ := bind_ok run
  cases run
  have onLeft := left visible runL
  have onRight := right (visible.of_entries onLeft.settles.entries) runR
  rw [← same] at onRight
  refine ((onLeft.pair onRight).operate (f := fun v => Semantics.comparison op v.1 v.2)
    (comparison_settles σ.setting.named runC) fun typed hosts pool placed => ?_).of_eq
    fun env => by simp [eval, known, plain]
  rw [List.append_assoc]
  exact comparison_follows σ.known σ.setting.named hosts.linked typed.1 typed.2 pool runC placed

/-! ### Branches -/

theorem Realizes.branch {x y z : NameMap Value → Eval Value} {push : Value → List Word}
    {P : Value → Prop} {op : Opcode} {taken : Bool} {line line' : Int}
    (jumps : op = if taken then .ifNe else .ifEq)
    (test : Realizes σ Γ bound s a s₁ x (words .bool) (σ.HasType .bool))
    (stays : Realizes σ Γ bound s₁ b s₂ y push P) (leaves : Realizes σ Γ bound s₂ c s₃ z push P) :
    Realizes σ Γ bound s
      (a ++ ⟨op, .jump (Fragment.size (b ++ [⟨.goto, .jump c.size, line'⟩])), line⟩ ::
        (b ++ [⟨.goto, .jump c.size, line'⟩]) ++ c) s₃
      (fun env => x env >>= fun v => asBool v >>= fun t => if t = taken then z env else y env)
      push P := by
  refine ⟨test.settles.trans (stays.settles.trans leaves.settles),
    fun {site ip L S out env} hosts ready placed => ?_⟩
  have pool₁ := test.settles.plain ready.pool
  have pool₂ := stays.settles.plain pool₁
  have front := placed.left leaves.settles.toGrows pool₂
  refine (test.follows hosts ready (front.left stays.settles.toGrows pool₁)).bind ?_
  rintro v ⟨_, L₁, _, out₁⟩ ⟨⟨rfl, keeps₁, rfl⟩, typed⟩
  obtain ⟨t, rfl⟩ := typed.bool_inv σ.known
  have result : Machine.holds op (Word.ofBool t).toInt 0 = decide (t = taken) := by
    subst jumps
    cases taken <;> cases t <;> rfl
  have atJump := (front.right keeps₁).located.head
  have zero : isZeroJump op := by
    subst jumps
    cases taken <;> rfl
  have way : Leads site ⟨ip + a.size, L₁, .ofBool t :: S, out₁⟩ _ := .zeroJump atJump zero
  rw [result] at way
  refine .leads way rfl ?_
  change Follows _ _ (if t = taken then z _ else y _) _
  have ready₁ := ready.after test.settles keeps₁
  have inside := (front.right keeps₁).right (a := [_]) (.refl 0 L₁)
  by_cases jump : t = taken
  · simp only [if_pos jump, decide_eq_true jump, if_true]
    have ready₂ := ready₁.after stays.settles (.refl _ L₁)
    have last := placed.right keeps₁
    have here : ip + a.size + 3 + Fragment.size (b ++ [⟨.goto, .jump c.size, line'⟩]) =
        ip + Fragment.size (a ++ ⟨op, .jump (Fragment.size (b ++ [⟨.goto, .jump c.size, line'⟩])),
          line⟩ :: (b ++ [⟨.goto, .jump c.size, line'⟩])) := by
      simp only [Fragment.size_append, size_cons, size_jump]
      omega
    rw [here]
    refine (leaves.follows hosts ready₂ last).mono ?_
    rintro r w ⟨⟨done, keeps₂, stack⟩, known⟩
    rw [stays.settles.next, test.settles.next] at keeps₂
    refine ⟨⟨?_, keeps₁.trans keeps₂, stack⟩, known⟩
    rw [done, Fragment.size_append _ c, Nat.add_assoc]
  · simp only [if_neg jump, decide_eq_false jump, Bool.false_eq_true, if_false, Nat.add_zero]
    refine (stays.follows hosts ready₁ (inside.left (.refl s₂) pool₂)).extend ?_
    rintro r ⟨_, L₂, _, out₂⟩ ⟨⟨rfl, keeps₂, rfl⟩, known⟩
    rw [test.settles.next] at keeps₂
    refine ⟨_, .goto inside.located.right, rfl, ⟨?_, keeps₁.trans keeps₂, rfl⟩, known⟩
    simp only [Fragment.size_append, size_cons, size_jump, size_nil]
    omega

theorem carries_cond {c t e : Expr Typed} (test : c.note.type = .bool)
    (yes : t.note.type = n.type) (no : e.note.type = n.type) (ofC : Carries σ Γ bound c)
    (ofT : Carries σ Γ bound t) (ofE : Carries σ Γ bound e)
    (typed : Types σ Γ bound (.cond n c t e)) : Carries σ Γ bound (.cond n c t e) := by
  refine .of_body typed (by rw [expr]; rfl) rfl fun visible run => ?_
  obtain ⟨r, s₁, runR, run⟩ := bind_ok run
  obtain ⟨rfl, rfl⟩ := repOf_eq runR
  obtain ⟨cc, s₁, runC, run⟩ := bind_ok run
  obtain ⟨leave, s₂, runJ, run⟩ := bind_ok run
  obtain ⟨rfl, rfl⟩ := jump_ok runJ
  obtain ⟨tc, s₃, runT, run⟩ := bind_ok run
  obtain ⟨pass, s₄, runJ, run⟩ := bind_ok run
  obtain ⟨rfl, rfl⟩ := jump_ok runJ
  obtain ⟨ec, s₅, runE, run⟩ := bind_ok run
  cases run
  have onC := ofC visible runC
  rw [test] at onC
  have visible := visible.of_entries onC.settles.entries
  have onT := ofT.asRep (fun v typed => yes ▸ typed.fits) visible runT
  have visible := visible.of_entries onT.settles.entries
  have onE := ofE.asRep (fun v typed => no ▸ typed.fits) visible runE
  rw [yes] at onT
  rw [no] at onE
  have jumps : Opcode.ifEq = if false then .ifNe else .ifEq := rfl
  refine ((Realizes.branch jumps onC onT onE).of_eq fun env => ?_).yields fun _ _ => .trivial
  simp only [eval]
  congr 1
  funext v
  congr 1
  funext t
  cases t <;> rfl

theorem carries_logic {op : BinaryOp} {l r : Expr Typed} (known : op = .and ∨ op = .or)
    (typeL : l.note.type = .bool) (typeR : r.note.type = .bool) (result : n.type = .bool)
    (left : Carries σ Γ bound l) (right : Carries σ Γ bound r)
    (typed : Types σ Γ bound (.binary n op l r)) : Carries σ Γ bound (.binary n op l r) := by
  have plain : op.isArithmetic = false ∧ op.isComparison = false := by
    rcases known with rfl | rfl <;> exact ⟨rfl, rfl⟩
  refine .of_body typed (by rw [expr]; rfl) (congrArg Ty.rep result) fun visible run => ?_
  rw [if_neg (by simp [plain.1]), if_neg (by simp [plain.2])] at run
  obtain ⟨lc, s₁, runL, run⟩ := bind_ok run
  obtain ⟨leave, s₂, runJ, run⟩ := bind_ok run
  obtain ⟨rfl, rfl⟩ := jump_ok runJ
  obtain ⟨rc, s₃, runR, run⟩ := bind_ok run
  obtain ⟨pass, s₄, runJ, run⟩ := bind_ok run
  obtain ⟨rfl, rfl⟩ := jump_ok runJ
  obtain ⟨last, s₅, runZ, run⟩ := bind_ok run
  cases run
  have onLeft := left visible runL
  have onRight := right (visible.of_entries onLeft.settles.entries) runR
  rw [typeL] at onLeft
  rw [typeR] at onRight
  have decided : Realizes σ Γ bound _ last _ _ _ _ :=
    realizes_bool (decide (op = .or)) (by simpa using runZ)
  have jumps : (if op = .or then Opcode.ifNe else .ifEq) =
      if decide (op = .or) then Opcode.ifNe else .ifEq := by simp
  refine (Realizes.branch jumps onLeft (onRight.yields fun _ _ => .trivial) decided).of_eq
    fun env => ?_
  simp only [eval, plain, Bool.false_eq_true, if_false]
  congr 1
  funext v
  congr 1
  funext t
  rcases known with rfl | rfl <;> cases t <;> rfl

/-! ### Sequences -/

theorem sequence_realizes {es : List (Expr Typed)} (some : es ≠ [])
    (each : ∀ e ∈ es, Carries σ Γ bound e) (last : Value) (visible : Scoped bound s.locals)
    (run : sequence σ.ctx [] es s = .ok code s') :
    Realizes σ Γ bound s code s' (fun env => evalLast σ.table env last es)
      (words (Typing.lastType es).rep) fun _ => True := by
  induction es generalizing s code last with
  | nil => exact (some rfl).elim
  | cons e es ih =>
    rw [List.forall_mem_cons] at each
    by_cases empty : es = []
    · subst empty
      exact ((each.1 visible (sequence_last run)).yields fun _ _ => .trivial).of_eq
        fun env => by simp [evalLast]
    · obtain ⟨c, s₁, r, gone, rest, runE, rep, runD, runS, rfl⟩ := sequence_cons empty run
      rw [σ.setting.typeOf_eq] at rep
      obtain rfl := Rep.eq_rep_of_ofTy rep
      have first : Realizes σ Γ bound s (c ++ gone) s₁ _ (fun _ => []) _ :=
        (each.1 visible runE).convert fun typed _ placed =>
          drop_leads typed.fits runD placed.located
      have type : Typing.lastType (e :: es) = Typing.lastType es := by
        simp [Typing.lastType, List.getLast?_cons_of_ne_nil empty]
      rw [type]
      have more := ih empty each.2 .unit (visible.of_entries first.settles.entries) runS
      refine (first.next more).of_eq fun env => ?_
      cases es with
      | nil => exact (empty rfl).elim
      | cons e' es => simp only [evalLast]

theorem carries_sequence {es : List (Expr Typed)} (type : n.type = Typing.lastType es)
    (each : ∀ e ∈ es, Carries σ Γ bound e) (typed : Types σ Γ bound (.sequence n es)) :
    Carries σ Γ bound (.sequence n es) := by
  refine .of_body typed (by rw [expr]; rfl) (congrArg Ty.rep type) fun visible run => ?_
  split at run
  · next empty =>
    obtain rfl : es = [] := by simpa using empty
    simp only [eval, evalLast]
    exact realizes_unit run
  · next filled =>
    simp only [eval]
    exact sequence_realizes (by simpa using filled) each .unit visible run

theorem carries_print (type : n.type = .unit) (operand : Carries σ Γ bound e)
    (typed : Types σ Γ bound (.print n e)) : Carries σ Γ bound (.print n e) := by
  refine .of_body typed (by rw [expr]; rfl) (congrArg Ty.rep type) fun visible run => ?_
  obtain ⟨r, s₁, runR, run⟩ := bind_ok run
  obtain ⟨rfl, rfl⟩ := repOf_eq runR
  obtain ⟨c, s₁, runE, run⟩ := bind_ok run
  obtain ⟨print, s₂, runP, run⟩ := bind_ok run
  obtain ⟨rfl, rfl⟩ := emit_ok runP
  obtain ⟨unit, s₃, runU, run⟩ := bind_ok run
  obtain ⟨rfl, rfl⟩ := emit_ok runU
  cases run
  rw [List.append_assoc]
  refine (operand visible runE).operate (f := fun v => printLine v >>= fun _ => pure Value.unit)
    (.refl _) fun {site ip L S out v} typed hosts _ placed => ?_
  have at_ := placed.located
  have print : Leads site ⟨ip, L, words e.note.type.rep v ++ S, out⟩ _ :=
    .print typed.fits e.note.type.rep_ne_void at_.left
  rw [hosts.heap] at print
  exact ⟨_, print.trans (.unit at_.right), rfl, rfl, .refl _ _, rfl⟩

/-! ### Lists -/

theorem boxedAll_realizes {es : List (Expr Typed)} (each : ∀ e ∈ es, Carries σ Γ bound e)
    (visible : Scoped bound s.locals) (run : boxedAll σ.ctx [] es s = .ok code s') :
    Realizes σ Γ bound s code s' (fun env => evalAll σ.table env es)
      (fun vs => vs.reverse.map .ofValue) fun vs => vs.length = es.length := by
  induction es generalizing s code with
  | nil =>
    rw [boxedAll] at run
    obtain ⟨rfl, rfl⟩ := pure_ok run
    exact .value (.refl s') (fun _ _ _ => .refl _) rfl
  | cons e es ih =>
    obtain ⟨c, s₁, rest, runE, runR, rfl⟩ := boxedAll_cons run
    rw [List.forall_mem_cons] at each
    have first := each.1.boxed visible runE
    have more := ih each.2 (visible.of_entries first.settles.entries) runR
    have both : Realizes σ Γ bound s (c ++ rest ++ []) s' _
        (fun vs : List Value => vs.reverse.map .ofValue) fun vs => vs.length = (e :: es).length :=
      (first.pair more).andThen (f := fun r => pure (r.1 :: r.2)) (.refl s') fun known _ _ _ =>
        .pure ⟨⟨rfl, .refl _ _, by simp [words]⟩, by simp [known.2]⟩
    rw [List.append_nil] at both
    exact both.of_eq fun env => by simp [evalAll]

theorem carries_list {es : List (Expr Typed)} {elem : Ty} (type : n.type = .list elem)
    (each : ∀ e ∈ es, Carries σ Γ bound e) (typed : Types σ Γ bound (.list n es)) :
    Carries σ Γ bound (.list n es) := by
  refine .of_body typed (by rw [expr]; rfl) (congrArg Ty.rep type) fun visible run => ?_
  split at run
  · exact (fail_ok run).elim
  · next short =>
    obtain ⟨c, s₁, runE, run⟩ := bind_ok run
    obtain ⟨last, s₂, runN, run⟩ := bind_ok run
    obtain ⟨rfl, rfl⟩ := emitWith_ok runN
    cases run
    simp only [eval]
    refine (boxedAll_realizes each visible runE).operate (.refl _) fun {_ _ L S out vs} count _ _ placed => ?_
    have at_ := placed.located
    rw [← count, ← List.length_reverse] at at_
    have list : Leads _ ⟨_, L, _ ++ S, out⟩ _ := .newlist at_ (by simp [count]; omega)
    rw [List.reverse_reverse] at list
    exact .leads list rfl (.pure ⟨rfl, .refl _ _, rfl⟩)

theorem carries_cons {h t : Expr Typed} {elem : Ty} (type : n.type = .list elem)
    (typeT : t.note.type = n.type) (head : Carries σ Γ bound h) (tail : Carries σ Γ bound t)
    (typed : Types σ Γ bound (.cons n h t)) : Carries σ Γ bound (.cons n h t) := by
  refine .of_body typed (by rw [expr]; rfl) (congrArg Ty.rep type) fun visible run => ?_
  obtain ⟨hc, s₁, runH, run⟩ := bind_ok run
  obtain ⟨tc, s₂, runT, run⟩ := bind_ok run
  obtain ⟨last, s₃, runC, run⟩ := bind_ok run
  obtain ⟨rfl, rfl⟩ := emit_ok runC
  cases run
  have onHead := head.boxed visible runH
  have onTail := tail (visible.of_entries onHead.settles.entries) runT
  rw [typeT, type] at onTail
  refine ((onHead.pair onTail).operate (f := fun v => asList v.2 >>= fun vs => pure (.list (v.1 :: vs)))
    (.refl _) fun typed _ _ placed => ?_).of_eq fun env => by simp [eval]
  obtain ⟨vs, same, -⟩ := typed.2.list_inv σ.known
  rw [same]
  exact .leads (.listCons placed.located) rfl (.pure ⟨rfl, .refl _ _, rfl⟩)

/-! ### Interpolation -/

def textWords (top : List Text) : List Word := top.map fun t => .ofValue (.str t)

theorem joinTexts_leads (top : List Text) (some : top ≠ []) (few : top.length ≤ maxJoin)
    (run : joinTexts top.length s = .ok code s') (at_ : site.Located ip code) :
    Leads site ⟨ip, L, textWords top ++ S, out⟩
      ⟨ip + code.size, L, .ofValue (.str (.concat top.reverse)) :: S, out⟩ := by
  unfold joinTexts at run
  split at run
  · obtain ⟨rfl, -⟩ := emitWith_ok run
    exact .strcat at_ (Nat.lt_of_le_of_lt few (by decide))
  · next single =>
    obtain ⟨rfl, -⟩ := pure_ok run
    obtain ⟨t, rfl⟩ : ∃ t, top = [t] := by
      have filled := List.length_pos_iff.2 some
      exact List.length_eq_one_iff.1 (by omega)
    have same : Text.concat [t] = t := by simp [Text.concat]
    rw [List.reverse_singleton, same]
    exact .refl _

theorem concat_concat (front back : List Text) :
    Text.concat (.concat front :: back) = .concat (front ++ back) := by
  simp [Text.concat]

theorem interpolation_follows {ps : List (Part Typed)} (top : List Text)
    (each : ∀ e, .hole e ∈ ps → Carries σ Γ bound e) (few : top.length < maxJoin)
    (hosts : Hosts σ.ctx σ.table site) (ready : Ready σ Γ bound env L s)
    (visible : Scoped bound s.locals)
    (run : interpolation σ.ctx top.length [] ps s = .ok code s') (placed : Placed site ip code s' L) :
    Follows site ⟨ip, L, textWords top ++ S, out⟩ (evalParts σ.table env ps) fun texts =>
      Leaves (ip + code.size) s.locals.next L
        (.ofValue (.str (.concat (top.reverse ++ texts))) :: S) := by
  induction ps generalizing top s code ip L out with
  | nil =>
    rcases interpolation_nil run with ⟨empty, runC⟩ | ⟨filled, runJ⟩
    · obtain rfl : top = [] := List.length_eq_zero_iff.1 empty
      obtain ⟨i, line, rfl, small, found⟩ :=
        placed.constant σ.setting.named (.string .empty) ready.pool runC
      exact .leads (.sconst placed.located small found) rfl (.pure ⟨rfl, .refl _ _, rfl⟩)
    · have some : top ≠ [] := fun empty => filled (by simp [empty])
      refine .leads (joinTexts_leads top some (Nat.le_of_lt few) runJ placed.located) rfl
        (.pure ⟨rfl, .refl _ _, ?_⟩)
      rw [List.append_nil]
  | cons part ps ih =>
    have inner := fun e member => each e (List.mem_cons_of_mem part member)
    have scopes := fun e member => (inner e member).leavesScope
    -- the pieces so far are joined first when there are as many as one instruction takes
    have next : ∀ {t top s code ip L out}, top.length < maxJoin → Ready σ Γ bound env L s →
        Scoped bound s.locals → nextPiece σ.ctx top.length ps s = .ok code s' →
        Placed site ip code s' L →
        Follows site ⟨ip, L, textWords (t :: top) ++ S, out⟩ (evalParts σ.table env ps) fun texts =>
          Leaves (ip + code.size) s.locals.next L
            (.ofValue (.str (.concat (top.reverse ++ t :: texts))) :: S) := by
      intro t top s code ip L out few ready visible run placed
      have order : ∀ texts, top.reverse ++ t :: texts = (t :: top).reverse ++ texts := by simp
      simp only [order]
      rcases nextPiece_ok run with ⟨full, joined, rest, runJ, runR, rfl⟩ | ⟨room, runR⟩
      · have way : Leads site ⟨ip, L, textWords (t :: top) ++ S, out⟩ _ :=
          joinTexts_leads (t :: top) (by simp) few runJ placed.located.left
        refine .leads way rfl ((ih [.concat (t :: top).reverse] inner (by simp [maxJoin]) ready
          visible runR (placed.right (.refl 0 L))).mono fun texts w leaves => ?_)
        obtain ⟨done, keeps, stack⟩ := leaves
        rw [List.reverse_singleton, List.singleton_append, concat_concat] at stack
        refine ⟨?_, keeps, stack⟩
        rw [done, Fragment.size_append, Nat.add_assoc]
      · exact ih (t :: top) inner (Nat.lt_of_le_of_ne few room) ready visible runR placed
    cases part with
    | text t =>
      by_cases empty : t = ""
      · subst empty
        rw [interpolation] at run
        refine (ih top inner few ready visible run placed).bind fun texts w leaves => .pure ?_
        have blank : Text.concat (top.reverse ++ Text.ofString "" :: texts) =
            .concat (top.reverse ++ texts) := by simp [Text.concat, Text.ofString]
        rwa [blank]
      · obtain ⟨c, s₁, rest, runC, runR, rfl⟩ := interpolation_text empty run
        obtain ⟨-, -, settles, -⟩ := emitConst_ok σ.setting.named (.string t) runC
        have inside := visible.of_entries settles.entries
        have later := nextPiece_settles σ.setting scopes inside runR
        obtain ⟨i, line, rfl, small, found⟩ := (placed.left later.toGrows (settles.plain ready.pool)).constant
          σ.setting.named (.string t) ready.pool runC
        refine .leads (.sconst placed.located.left small found) rfl ?_
        refine (next (t := t) few (ready.after settles (.refl _ L)) inside runR
          (placed.right (.refl 0 L))).bind fun texts w leaves => ?_
        obtain ⟨done, keeps, stack⟩ := leaves
        refine .pure ⟨?_, ?_, stack⟩
        · rw [done, Fragment.size_append, Nat.add_assoc]
        · exact settles.next ▸ keeps
    | hole e =>
      obtain ⟨r, c, s₁, text, rest, rep, runE, runT, runR, rfl⟩ := interpolation_hole run
      rw [σ.setting.typeOf_eq] at rep runT
      obtain rfl := Rep.eq_rep_of_ofTy rep
      have onHole := each e List.mem_cons_self visible runE
      have inside := visible.of_entries onHole.settles.entries
      have later := nextPiece_settles σ.setting scopes inside runR
      have pool := onHole.settles.plain ready.pool
      have front := placed.left later.toGrows pool
      refine (onHole.follows hosts ready (front.left (.refl s₁) pool)).bind ?_
      rintro v ⟨_, L₁, _, out₁⟩ ⟨⟨rfl, keeps₁, rfl⟩, typed⟩
      have string : e.note.type = .string → ∃ x, v = .str x := fun type =>
        (type ▸ typed : σ.HasType .string v).str_inv σ.known
      have way : Leads site ⟨_, L₁, words e.note.type.rep v ++ (textWords top ++ S), out₁⟩ _ :=
        toText_leads typed.fits e.note.type.rep_ne_void string hosts.heap runT
          (front.right keeps₁).located
      rw [Nat.add_assoc, ← Fragment.size_append] at way
      refine .leads way rfl ?_
      refine (next (t := textOf v) few (ready.after onHole.settles keeps₁) inside runR
        (placed.right keeps₁)).bind fun texts w leaves => ?_
      obtain ⟨done, keeps₂, stack⟩ := leaves
      refine .pure ⟨?_, ?_, stack⟩
      · rw [done, Fragment.size_append _ rest, Nat.add_assoc]
      · exact keeps₁.trans (onHole.settles.next ▸ keeps₂)

theorem carries_interp {parts : List (Part Typed)} (type : n.type = .string)
    (each : ∀ e, .hole e ∈ parts → Carries σ Γ bound e)
    (typed : Types σ Γ bound (.interp n parts)) : Carries σ Γ bound (.interp n parts) := by
  refine .of_body typed (by rw [expr]; rfl) (congrArg Ty.rep type) fun visible run => ?_
  refine ⟨interpolation_settles σ.setting (fun e member => (each e member).leavesScope) visible run,
    fun hosts ready placed => ?_⟩
  simp only [eval]
  exact (interpolation_follows [] each (by decide) hosts ready visible run placed).bind
    fun texts w leaves => .pure ⟨leaves, trivial⟩

end StackML.Codegen
