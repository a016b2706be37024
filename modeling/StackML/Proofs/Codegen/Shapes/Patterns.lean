import StackML.Proofs.Codegen.Bindings
import StackML.Proofs.Codegen.Shapes.Names
import StackML.Proofs.Typing.Derivation

/-!
The code of matches. A row of tests leads to the case behind it, where the parts of the value are in
locals of their own, or leaves for the next case with the stack as it was found. So all cases are come to
with one shape, and all of them leave the same behind.
-/

namespace StackML

theorem Pattern.note_mem_notes {α : Type} (p : Pattern α) : p.note ∈ p.notes := by
  cases p <;> exact List.mem_cons_self

namespace Codegen

open Fragment Verify
open Typing (Typed Checked)

variable {α β : Type} {w : Place} {K : Array Constant} {names names' : List String}

/-! ### Tests -/

/-- The tests lead on to where the locals hold more, and with the stack as it was to what follows after
the bytes behind them. -/
def Place.Tests (w : Place) (cells : List Cell) (K : Array Constant) (tests : List Test) : Prop :=
  ∀ rest after next, Arrives ⟨rest, cells⟩ (next 0) → Arrives ⟨rest, w.cells⟩ (next after) →
    Flows w.payload K (testCode after tests) ⟨rest, w.cells⟩ next

namespace Place.Tests

variable {cells cells' : List Cell} {a b : List Test} {code : Fragment} {p : List Kind}

protected theorem nil : w.Tests w.cells K [] := fun _ _ _ there _ => flows_nil there

protected theorem append (first : w.Tests cells K a) (more : w.cells <+: cells)
    (second : ({ w with cells } : Place).Tests cells' K b) : w.Tests cells' K (a ++ b) := by
  intro rest after next there fails
  rw [testCode_append]
  have narrow : Shape.Meets ⟨rest, cells⟩ ⟨rest, w.cells⟩ := ⟨rfl, more⟩
  refine (second rest after next there (narrow.arrives fails)).append fun next' start behind => ?_
  refine first rest _ next' start ?_
  rwa [behind after]

theorem ask (op : Opcode) (line : Int) (turns : w.Turns K code [] p) (kind : op.operands = .jump)
    (known : exchanged op = some (p, [])) :
    w.Tests w.cells K [.code code, .orElse fun d => ⟨op, .jump d, line⟩] := by
  intro rest after next there fails
  rw [testCode_code, testCode_orElse]
  refine (turns rest).flows (.branch after kind ?_ (flows_nil there) fails)
  exact (effect_exchanged known).trans (exchange_append p [] rest _)

theorem keep (leads : ∀ rest, Leads w.payload K code ⟨rest, w.cells⟩ ⟨rest, cells⟩) :
    w.Tests cells K [.code code] := by
  intro rest after next there _
  rw [testCode_code]
  exact (leads rest).flows (flows_nil there)

end Place.Tests

/-! ### Growing places -/

/-- Run at the place, the generator adds names and locals to it and gives something of which the property
holds once the constants are complete. -/
def Widens (w : Place) (x : Gen α) (names : List String) (P : List Cell → Array Constant → α → Prop) :
    Prop :=
  ∀ s a s', w.At s → x s = .ok a s' → ∃ cells, w.cells <+: cells ∧
    ({ w with names, cells } : Place).At s' ∧ Kept s s' ∧ ∀ K, Final s' K → P cells K a

namespace Widens

variable {x : Gen α} {a : α} {P : List Cell → Array Constant → α → Prop}
  {Q : List Cell → Array Constant → β → Prop}

protected theorem pure (holds : ∀ K, P w.cells K a) : Widens w (pure a) w.names P := by
  intro s b s' at_ run
  obtain ⟨rfl, rfl⟩ := pure_ok run
  exact ⟨w.cells, List.prefix_rfl, at_, .refl _, fun K _ => holds K⟩

theorem after {R : Array Constant → α → Prop} {f : α → Gen β} (first : Produces w x R)
    (next : ∀ a, Widens w (f a) names fun cells K b => R K a → Q cells K b) :
    Widens w (x >>= f) names Q := by
  intro s b s' at_ run
  obtain ⟨a, s₁, runX, run⟩ := bind_ok run
  obtain ⟨at₁, kept₁, known⟩ := first s a s₁ at_ runX
  obtain ⟨cells, more, at', kept, result⟩ := next a s₁ b s' at₁ run
  exact ⟨cells, more, at', kept₁.trans kept, fun K final => result K final (known K (final.before kept))⟩

protected theorem bind {f : α → Gen β} (first : Widens w x names P)
    (next : ∀ a cells, w.cells <+: cells →
      Widens { w with names, cells } (f a) names' fun cells' K b => P cells K a → Q cells' K b) :
    Widens w (x >>= f) names' Q := by
  intro s b s' at_ run
  obtain ⟨a, s₁, runX, run⟩ := bind_ok run
  obtain ⟨cells, more, at₁, kept₁, known⟩ := first s a s₁ at_ runX
  obtain ⟨cells', more', at', kept, result⟩ := next a cells more s₁ b s' at₁ run
  exact ⟨cells', more.trans more', at', kept₁.trans kept,
    fun K final => result K final (known K (final.before kept))⟩

theorem idle {f : α → Gen β} (good : α → Prop) (each : ∀ s a s', x s = .ok a s' → Idle s s' ∧ good a)
    (next : ∀ a, good a → Widens w (f a) names Q) : Widens w (x >>= f) names Q := by
  intro s b s' at_ run
  obtain ⟨a, s₁, runX, run⟩ := bind_ok run
  obtain ⟨idle, known⟩ := each s a s₁ runX
  obtain ⟨cells, more, at', kept, result⟩ := next a known s₁ b s' (at_.idle idle) run
  exact ⟨cells, more, at', (Kept.of_idle idle).trans kept, result⟩

theorem jump {op : Opcode} {f : (Nat → Instr) → Gen β}
    (next : ∀ line, Widens w (f fun d => ⟨op, .jump d, line⟩) names Q) :
    Widens w (Codegen.jump op >>= f) names Q :=
  idle _ (fun _ _ _ => idle_jump) fun _ known => by
    obtain ⟨line, rfl⟩ := known
    exact next line

theorem repOf {n : Typed} {f : Rep → Gen β}
    (next : ∀ r, Rep.ofTy (w.ctx.typeOf n) = .ok r → Widens w (f r) names Q) :
    Widens w (Codegen.repOf w.ctx n >>= f) names Q :=
  idle _ (fun _ _ _ => idle_liftDefect) next

theorem holderRef {name : String} {f : Constant → Gen β}
    (next : ∀ info, w.ctx.checked.ctors.get? name = some info →
      Widens w (f (classOf w.ctx.checked info)) names Q) :
    Widens w (Codegen.holderRef w.ctx name >>= f) names Q :=
  idle _ (fun _ _ _ => idle_holderRef) fun _ known => by
    obtain ⟨info, found, rfl⟩ := known
    exact next info found

theorem inScope {f : α → Gen β} {R : Array Constant → β → Prop} (first : Widens w x names P)
    (next : ∀ a cells, w.cells <+: cells →
      Produces { w with names, cells } (f a) fun K b => P cells K a → R K b) :
    Produces w (Codegen.inScope (x >>= f)) R := by
  intro s b s' at_ run
  obtain ⟨s₂, inside, rfl⟩ := inScope_ok run
  obtain ⟨a, s₁, runX, inside⟩ := bind_ok inside
  obtain ⟨cells, more, at₁, kept₁, known⟩ := first s a s₁ at_ runX
  obtain ⟨inner, kept, result⟩ := next a cells more s₁ b s₂ at₁ inside
  obtain ⟨at', kept'⟩ := at_.leave inner (kept₁.trans kept)
  refine ⟨at', kept', fun K final => ?_⟩
  have last : Final s₂ K := ⟨final.keeps, final.room⟩
  exact result K last (known K (last.before kept))

theorem store {r : Rep} {f : Local → Fragment → Gen β} (filled : r ≠ .void)
    (next : ∀ l keep, l.Held (w.cells ++ r.cells) → l.repr = r →
      Widens { w with cells := w.cells ++ r.cells } (f l keep) names fun cells K b =>
        w.Stores r K keep → Q cells K b) :
    Widens w (do
      let l ← define "" r
      let keep ← Codegen.store l
      f l keep) names Q := by
  intro s b s' at_ run
  obtain ⟨l, s₁, runD, run⟩ := bind_ok run
  obtain ⟨keep, _, runS, run⟩ := bind_ok run
  obtain ⟨rfl, rfl⟩ := define_ok runD
  obtain ⟨rfl, rfl⟩ := emitWith_ok runS
  obtain ⟨held, begun⟩ := at_.define filled (adds_blank w.names)
  obtain ⟨cells, more, at', kept, known⟩ := next _ _ held rfl _ b s' begun run
  have longer : w.cells <+: cells := (List.prefix_append _ _).trans more
  refine ⟨cells, longer, at', (kept_define s "" r).trans kept, fun K final => known K final ?_⟩
  have inside := more.length_le
  have total : s'.locals.next = cells.length := at'.next
  have most := at'.most
  have room := final.room
  rw [List.length_append] at inside
  exact stores_next at_ filled (by omega)

end Widens

/-! ### Patterns -/

structure Context.Reads (ctx : Context) (θ : Assignment) (n : Typed) : Prop where
  same : ctx.typeOf n = n.type.assign θ
  regular : (ctx.typeOf n).Regular

structure Place.Holds (w : Place) (l : Local) (n : Typed) : Prop where
  held : l.Held w.cells
  rep : Rep.ofTy (w.ctx.typeOf n) = .ok l.repr

variable {θ : Assignment} {n : Typed} {source : Local}

theorem Place.Holds.repr_eq {r : Rep} (holds : w.Holds source n) (known : Rep.ofTy (w.ctx.typeOf n) = .ok r) :
    source.repr = r := Except.ok.inj (holds.rep.symm.trans known)

theorem Place.Holds.mono {names : List String} {cells : List Cell} (holds : w.Holds source n)
    (more : w.cells <+: cells) : ({ w with names, cells } : Place).Holds source n :=
  ⟨holds.held.mono more, holds.rep⟩

theorem produces_loadRep {r : Rep} (holds : w.Holds source n) (known : Rep.ofTy (w.ctx.typeOf n) = .ok r) :
    Produces w (load source) fun K code => w.Turns K code [] r.kinds :=
  holds.repr_eq known ▸ produces_load holds.held

theorem widens_orElse {op : Opcode} {code : Fragment} {p : List Kind} (kind : op.operands = .jump)
    (known : exchanged op = some (p, [])) :
    Widens w (do pure [.code code, .orElse (← jump op)]) w.names fun cells K tests =>
      w.Turns K code [] p → w.Tests cells K tests :=
  .jump fun _ => .pure fun _ turns => .ask _ _ turns kind known

theorem widens_testPart {op : Opcode} {p : Pattern Typed} {test : Local → Gen (List Test)}
    (holds : w.Holds source n) (reference : Rep.ofTy (w.ctx.typeOf n) = .ok .ref)
    (kind : op.operands = .none) (known : exchanged op = some ([.ref], [.ref]))
    (each : ∀ l cells, ({ w with cells } : Place).Holds l p.note →
      Widens { w with cells } (test l) (p.names.reverse ++ w.names) fun cells' K tests =>
        ({ w with cells } : Place).Tests cells' K tests) :
    Widens w (testPart w.ctx source op p test) (p.names.reverse ++ w.names) fun cells K tests =>
      w.Tests cells K tests := by
  unfold testPart
  split
  · next wild =>
    cases p with
    | wild => exact .pure fun K => .nil
    | _ => cases wild
  · refine .repOf fun r rep => .after (produces_loadRep holds reference) fun whole =>
      .after (produces_emit kind known) fun part => .after (produces_coerce .ref r) fun code => ?_
    refine .store (Rep.ofTy_ne_void rep) fun l keep held repr => ?_
    refine (each l _ ⟨held, repr ▸ rep⟩).bind fun tests cells more => .pure fun K => ?_
    intro inner stored third second first
    refine Place.Tests.append (.keep fun rest => ?_) (List.prefix_append _ _) inner
    exact (((first.append second).append third) rest).append (stored rest)

theorem Widens.mono {x : Gen α} {P P' : List Cell → Array Constant → α → Prop} (h : Widens w x names P)
    (weaker : ∀ cells K a, P cells K a → P' cells K a) : Widens w x names P' := by
  intro s a s' at_ run
  obtain ⟨cells, more, at', kept, known⟩ := h s a s' at_ run
  exact ⟨cells, more, at', kept, fun K final => weaker cells K a (known K final)⟩

theorem widens_literal {r : Rep} {op : Opcode} {literal : Gen Fragment} {p q : List Kind}
    (holds : w.Holds source n) (rep : Rep.ofTy (w.ctx.typeOf n) = .ok r)
    (made : Produces w literal fun K code => w.Turns K code [] p) (kinds : r.kinds = q)
    (kind : op.operands = .jump) (known : exchanged op = some (p ++ q, [])) :
    Widens w (do
      let l ← load source
      let k ← literal
      pure [.code (l ++ k), .orElse (← jump op)]) w.names fun cells K tests => w.Tests cells K tests :=
  .after (produces_loadRep holds rep) fun _ => .after made fun _ =>
    (widens_orElse kind known).mono fun _ _ _ tests second first =>
      tests ((kinds ▸ first).append (second.over q))

theorem turns_int {v : Int64} : Produces w (emitConst w.ctx .iconst { kind := .int, int := v }) fun K code =>
    w.Turns K code [] [.int] :=
  produces_emitConst (.literal (by simp [Constant.IsLiteral])) rfl rfl fun rest => exchange_append [] _ rest _

theorem turns_double {bits : UInt64} : Produces w (emitConst w.ctx .dconst { kind := .double, bits }) fun K code =>
    w.Turns K code [] [.double] :=
  produces_emitConst (.literal (by simp [Constant.IsLiteral])) rfl rfl fun rest => exchange_append [] _ rest _

theorem turns_string {v : Text} : Produces w (emitConst w.ctx .sconst { kind := .string, str := v }) fun K code =>
    w.Turns K code [] [.ref] :=
  produces_emitConst (.literal (by simp [Constant.IsLiteral])) rfl rfl fun rest => exchange_append [] _ rest _

theorem turns_stringCompare : Produces w (emitConst w.ctx .invokehost stringCompare) fun K code =>
    w.Turns K code [.ref, .ref] [.int] := by
  have named : stringCompare.Named w.ctx.checked.module.name :=
    .host .func "strings" "Compare" "Lstring;Lstring;)I" (by constructor <;> decide) (by decide)
  refine produces_emitConst named rfl rfl fun rest => ?_
  have known : signature? stringCompare = some ⟨[.ref, .ref], .int⟩ := by decide +kernel
  simp only [effect, Option.bind_some, known, Option.bind_eq_bind]
  exact exchange_append [.ref, .ref] [.int] rest _

theorem turns_instanceof {key : String} {info : Typing.Constructor} (supported : w.Supported)
    (found : w.ctx.checked.ctors.get? key = some info) :
    Produces w (emitConst w.ctx .instanceof (classOf w.ctx.checked info)) fun K code =>
      w.Turns K code [.ref] [.int] :=
  produces_emitConst (named_classOf (supported.ctors found).named) rfl rfl fun rest => exchange_append [.ref] _ rest _

theorem Context.Reads.rep {ctx : Context} {t : Ty} {r : Rep} (reads : ctx.Reads θ n)
    (known : n.type.assign θ = t) (rep : Rep.ofTy t = .ok r) : Rep.ofTy (ctx.typeOf n) = .ok r := by
  rw [reads.same, known, rep]

theorem Builds.alone_ref {payload : Constant → Option Bool} {c : Checked} {key : String}
    {info : Typing.Constructor} (builds : Builds payload c key info) (alone : info.hasArg = false)
    (use : info.type.Instance θ t) : Rep.ofTy (t.assign θ) = .ok .ref := by
  obtain ⟨ρ, -, -, same⟩ := use
  rw [same]
  exact builds.alone alone ρ

theorem Builds.applied_ref {payload : Constant → Option Bool} {c : Checked} {key : String}
    {info : Typing.Constructor} {a : Ty} (builds : Builds payload c key info) (argument : info.hasArg = true)
    (use : info.type.Instance θ (.fn a t)) : Rep.ofTy (t.assign θ) = .ok .ref := by
  obtain ⟨ρ, -, -, same⟩ := use
  obtain ⟨a', r, body, boxed⟩ := builds.applied argument
  rw [body] at same
  rw [(Ty.fn.inj same).2]
  exact boxed ρ

theorem widens_tag {name : String} (supported : w.Supported) (holds : w.Holds source n)
    (reference : Rep.ofTy (w.ctx.typeOf n) = .ok .ref) :
    Widens w (testPattern w.ctx source (.tag n name)) w.names fun cells K tests => w.Tests cells K tests :=
  .holderRef fun _ found => .after (produces_loadRep holds reference) fun _ =>
    .after (turns_instanceof supported found) fun _ =>
      (widens_orElse rfl rfl).mono fun _ _ _ tests second first => tests (first.append second)

theorem widens_testPattern (supported : w.Supported) {p : Pattern Typed}
    (fits : Typing.PatternFits w.ctx.checked.ctors θ p) (reads : ∀ n ∈ p.notes, w.ctx.Reads θ n)
    (holds : w.Holds source p.note) :
    Widens w (testPattern w.ctx source p) (p.names.reverse ++ w.names) fun cells K tests =>
      w.Tests cells K tests := by
  induction p generalizing w source with
  | wild n => exact .pure fun _ => .nil
  | var n name =>
    intro s a s' at_ run
    obtain ⟨_, _, aliased, run⟩ := bind_ok run
    obtain ⟨rfl, rfl⟩ := pure_ok run
    cases aliased
    exact ⟨w.cells, List.prefix_rfl, at_.push (holds.held.renamed name) (adds_cons name w.names),
      ⟨.refl _, Nat.le_refl _, List.suffix_cons _ _⟩, fun _ _ => .nil⟩
  | int n v =>
    cases fits with
    | int type =>
      exact widens_literal holds ((reads n List.mem_cons_self).rep type rfl) turns_int rfl rfl rfl
  | bool n v =>
    cases fits with
    | bool type =>
      refine widens_literal holds ((reads n List.mem_cons_self).rep type rfl) (produces_zconst _ ?_) rfl rfl rfl
      split <;> decide
  | str n v =>
    cases fits with
    | str type =>
      refine .after (produces_loadRep holds ((reads n List.mem_cons_self).rep type rfl)) fun _ =>
        .after turns_string fun _ => .after turns_stringCompare fun _ => ?_
      exact (widens_orElse rfl rfl).mono fun _ _ _ tests third second first =>
        tests ((first.append (second.over [.ref])).append third)
  | nil n =>
    cases fits with
    | nil type =>
      refine .after (produces_loadRep holds ((reads n List.mem_cons_self).rep type rfl)) fun _ =>
        .after (produces_emit (p := [.ref]) rfl rfl) fun _ => ?_
      exact (widens_orElse rfl rfl).mono fun _ _ _ tests second first => tests (first.append second)
  | cons n head tail ihHead ihTail =>
    cases fits with
    | cons type _ first rest =>
      rw [Pattern.notes, List.forall_mem_cons, List.forall_mem_append] at reads
      have reference := reads.1.rep type rfl
      refine .after (produces_loadRep holds reference) fun _ => .after (produces_emit (p := [.ref]) rfl rfl) fun _ =>
        .jump fun line => ?_
      refine (widens_testPart holds reference rfl rfl fun l cells held =>
        ihHead (w := { w with cells }) supported first reads.2.1 held).bind fun heads cells more => ?_
      have names : (Pattern.cons n head tail).names.reverse ++ w.names =
          tail.names.reverse ++ (head.names.reverse ++ w.names) := by
        rw [Pattern.names, List.reverse_append, List.append_assoc]
      rw [names]
      refine (widens_testPart (holds.mono more) reference rfl rfl fun l cells held =>
        ihTail (w := { w with names := head.names.reverse ++ w.names, cells }) supported rest reads.2.2 held).bind
          fun tails cells' more' => .pure fun K => ?_
      intro second first asked loaded
      have nonempty := Place.Tests.ask .ifNe line (loaded.append asked) rfl rfl
      exact nonempty.append List.prefix_rfl (first.append more second)
  | tag n name =>
    have reference : Rep.ofTy (w.ctx.typeOf n) = .ok .ref := by
      rw [(reads n List.mem_cons_self).same]
      cases fits with
      | tag found alone use => exact (supported.ctors found).alone_ref alone use
      | tagOfArg found argument use => exact (supported.ctors found).applied_ref argument use
    exact widens_tag supported holds reference
  | build n name arg ih =>
    cases fits with
    | build found argument use inner =>
      rw [Pattern.notes, List.forall_mem_cons] at reads
      have reference : Rep.ofTy (w.ctx.typeOf n) = .ok .ref := by
        rw [reads.1.same]
        exact (supported.ctors found).applied_ref argument use
      refine .holderRef fun _ found => .after (produces_loadRep holds reference) fun _ =>
        .after (turns_instanceof supported found) fun _ => .jump fun line => ?_
      refine (widens_testPart holds reference rfl rfl fun l cells held =>
        ih (w := { w with cells }) supported inner reads.2 held).bind fun args cells more => .pure fun K => ?_
      intro inside asked loaded
      have built := Place.Tests.ask .ifEq line (loaded.append asked) rfl rfl
      exact built.append List.prefix_rfl inside

/-! ### Cases -/

def Place.Decides (w : Place) (r : Rep) (K : Array Constant) (c : Case) : Prop :=
  ∃ tests body line cells, c = .of tests body (fun d => ⟨.goto, .jump d, line⟩) ∧ w.cells <+: cells ∧
    w.Tests cells K tests ∧ ({ w with cells } : Place).Turns K body [] r.kinds

theorem turns_joinCases {r : Rep} {cases : List Case} (line : Int) (each : ∀ c ∈ cases, w.Decides r K c) :
    w.Turns K (joinCases [⟨.matchfail, .none, line⟩] cases) [] r.kinds := by
  intro rest next there
  induction cases with
  | nil => exact flows_matchfail line _ next
  | cons c cases ih =>
    rw [List.forall_mem_cons] at each
    obtain ⟨tests, body, line', cells, rfl, more, leaves, turns⟩ := each.1
    have narrow (stack : List Kind) : Shape.Meets ⟨stack, cells⟩ ⟨stack, w.cells⟩ := ⟨rfl, more⟩
    rw [joinCases_of, List.append_cons]
    refine (ih each.2).append fun next' start behind => ?_
    have pass : Flows w.payload K [⟨.goto, .jump (joinCases [⟨.matchfail, .none, line⟩] cases).size, line'⟩]
        ⟨r.kinds ++ rest, cells⟩ next' := by
      have passed : Arrives ⟨r.kinds ++ rest, cells⟩ (next' (joinCases [⟨.matchfail, .none, line⟩] cases).size) := by
        rw [← Nat.add_zero (size _), behind]
        exact (narrow _).arrives there
      have none : Flows w.payload K [] ⟨[] ++ rest, w.cells⟩ next' := flows_nil start
      have goto := none.goto line' _ passed
      rwa [size_nil, Nat.zero_add] at goto
    rw [List.append_assoc]
    refine ((turns rest).flows pass).append fun next'' start' behind' => ?_
    have after := behind' 0
    rw [size_append, Nat.add_zero] at after
    obtain ⟨u, known, meets⟩ := start
    exact leaves rest _ next'' start' ⟨u, after.trans known, meets⟩

end Codegen
end StackML
