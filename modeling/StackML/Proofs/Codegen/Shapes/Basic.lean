import StackML.Proofs.Codegen.Shapes.Constants

/-!
What generated code does to the stack, generator by generator. A generator runs where the locals of the
method hold values of known kinds, leaves that as it finds it, and gives code of which something is known
once the pool is complete: constants that are added later change nothing. `Produces` says so, and generators
are followed step by step with it.
-/

namespace StackML

open Verify

/-- With the constants that there will be, the method is verified if it is not too large. -/
def Method.Verifies (payload : Constant → Option Bool) (constants : Array Constant) (m : Method) : Prop :=
  ∃ room : Nat, m.maxLocals = .ofNat room ∧ room ≤ 2 * m.descriptor.length + m.code.size ∧
    ∀ K, Extends constants K → room ≤ 65536 → m.code.size ≤ 65535 → m.Verified payload K

theorem Method.Verifies.mono {payload : Constant → Option Bool} {constants constants' : Array Constant}
    {m : Method} (h : m.Verifies payload constants) (keeps : Extends constants constants') :
    m.Verifies payload constants' := by
  obtain ⟨room, locals, small, verified⟩ := h
  exact ⟨room, locals, small, fun K later => verified K (keeps.trans later)⟩

/-! ### Locals -/

structure Local.Held (cells : List Cell) (l : Local) : Prop where
  plain : l.self = none
  filled : l.repr ≠ .void
  slot : ∃ n : Nat, l.slot = n ∧ l.repr.cells <+: cells.drop n

theorem Local.Held.mono {cells cells' : List Cell} {l : Local} (h : l.Held cells) (more : cells <+: cells') :
    l.Held cells' := by
  obtain ⟨rest, rfl⟩ := more
  obtain ⟨n, slot, held⟩ := h.slot
  refine ⟨h.plain, h.filled, n, slot, held.trans ?_⟩
  rw [List.drop_append]
  exact List.prefix_append _ _

theorem Local.Held.renamed {cells : List Cell} {l : Local} (h : l.Held cells) (name : String) :
    Local.Held cells { l with name } := ⟨h.plain, h.filled, h.slot⟩

theorem Rep.cells_ne_nil {r : Rep} (filled : r ≠ .void) : r.cells ≠ [] := by
  cases r with
  | void => exact absurd rfl filled
  | _ => exact List.cons_ne_nil _ _

theorem Local.Held.lt {cells : List Cell} {l : Local} (h : l.Held cells) {n : Nat} (slot : l.slot = n) :
    n < cells.length := by
  obtain ⟨n', slot', held⟩ := h.slot
  obtain rfl : n = n' := Int.ofNat_inj.1 (slot.symm.trans slot')
  have words := held.length_le
  have some := List.length_pos_iff.2 (Rep.cells_ne_nil h.filled)
  rw [List.length_drop] at words
  omega

namespace Codegen

open Fragment
open Typing (Typed Checked)

/-! ### States -/

abbrev Promise := Specialization → Prop

structure State.Good (payload : Constant → Option Bool) (promise : Promise) (c : Checked) (s : State) :
    Prop where
  sane : State.Sane { s with locals := {} } c
  pool : s.pool.Holds (Constant.Named c.module.name)
  methods : ∀ m ∈ s.methods, m.Verifies payload s.pool.entries
  work : ∀ f ∈ s.work, promise f

theorem State.Good.within {payload : Constant → Option Bool} {promise : Promise} {c : Checked} {s : State}
    (h : s.Good payload promise c) (locals : LocalTable) (line : Int) :
    State.Good payload promise c { s with locals, line } :=
  ⟨⟨h.sane.locals, h.sane.pool, h.sane.methods, h.sane.titled, h.sane.work⟩, h.pool, h.methods, h.work⟩

theorem State.Good.sane_of_empty {payload : Constant → Option Bool} {promise : Promise} {c : Checked} {s : State}
    (h : s.Good payload promise c) (empty : s.locals = {}) : s.Sane c :=
  ⟨empty ▸ LocalTable.sound_empty, h.sane.pool, h.sane.methods, h.sane.titled, h.sane.work⟩

/-- Where code is generated: which constructors have an argument, what is known of the methods to be
compiled, the names in scope that come from the function itself, and what the locals hold. -/
structure Place where
  payload : Constant → Option Bool
  promise : Promise
  ctx : Context
  names : List String := []
  cells : List Cell := []

namespace Place

structure At (w : Place) (s : State) : Prop where
  good : s.Good w.payload w.promise w.ctx.checked
  next : s.locals.next = w.cells.length
  most : s.locals.next ≤ s.locals.max
  held : ∀ l ∈ s.locals.entries, l.Held w.cells
  named : ∀ l ∈ s.locals.entries, l.name = "" ∨ l.name ∈ w.names
  bound : ∀ x ∈ w.names, boundInAny (s.locals :: w.ctx.outer) x = true

theorem At.start {payload : Constant → Option Bool} {promise : Promise} {ctx : Context} {names : List String}
    {s : State} (good : s.Good payload promise ctx.checked) (empty : s.locals = {})
    (bound : ∀ x ∈ names, boundInAny ctx.outer x = true) : ({ payload, promise, ctx, names } : Place).At s := by
  have next : s.locals.next = 0 := by rw [empty]
  have entries : s.locals.entries = [] := by rw [empty]
  refine ⟨good, next, ?_, ?_, ?_, fun x member => ?_⟩
  · rw [next]
    exact Nat.zero_le _
  · rw [entries]
    exact List.forall_mem_nil _
  · rw [entries]
    exact List.forall_mem_nil _
  · rw [boundInAny, List.any_cons, Bool.or_eq_true]
    exact .inr (bound x member)

/-- The code turns what is on top of the stack into something else. -/
def Turns (w : Place) (K : Array Constant) (code : Fragment) (before after : List Kind) : Prop :=
  ∀ rest, Leads w.payload K code ⟨before ++ rest, w.cells⟩ ⟨after ++ rest, w.cells⟩

variable {w : Place} {K : Array Constant} {a b : Fragment} {p q r : List Kind}

theorem Turns.refl (p : List Kind) : w.Turns K [] p p := fun _ => .refl _

theorem Turns.append (first : w.Turns K a p q) (second : w.Turns K b q r) : w.Turns K (a ++ b) p r :=
  fun rest => (first rest).append (second rest)

theorem Turns.below (h : w.Turns K a p q) (r : List Kind) : w.Turns K a (p ++ r) (q ++ r) := fun rest => by
  rw [List.append_assoc, List.append_assoc]
  exact h (r ++ rest)

theorem Turns.over (h : w.Turns K a [] q) (r : List Kind) : w.Turns K a r (q ++ r) := h.below r

end Place

structure Kept (s s' : State) : Prop where
  keeps : Extends s.pool.entries s'.pool.entries
  grows : s.locals.max ≤ s'.locals.max
  inner : s.locals.entries <:+ s'.locals.entries

structure Final (s : State) (K : Array Constant) : Prop where
  keeps : Extends s.pool.entries K
  room : s.locals.max ≤ 65536

variable {s s' s'' : State} {K : Array Constant}

theorem Kept.refl (s : State) : Kept s s := ⟨.refl _, Nat.le_refl _, List.suffix_rfl⟩

theorem Kept.trans (first : Kept s s') (second : Kept s' s'') : Kept s s'' :=
  ⟨first.keeps.trans second.keeps, Nat.le_trans first.grows second.grows, first.inner.trans second.inner⟩

theorem Final.before (final : Final s' K) (kept : Kept s s') : Final s K :=
  ⟨kept.keeps.trans final.keeps, Nat.le_trans kept.grows final.room⟩

theorem Kept.of_idle (idle : Idle s s') : Kept s s' := by
  obtain ⟨locals, pool, -⟩ := idle
  exact ⟨pool ▸ .refl _, Nat.le_of_eq (congrArg _ locals.symm), locals ▸ List.suffix_rfl⟩

theorem State.Good.idle {payload : Constant → Option Bool} {promise : Promise} {c : Checked}
    (good : s.Good payload promise c) (idle : Idle s s') : s'.Good payload promise c := by
  obtain ⟨locals, pool, methods, work⟩ := idle
  have same : Idle { s with locals := {} } { s' with locals := {} } := ⟨rfl, pool, methods, work⟩
  refine ⟨(same.makes good.sane).sane, pool ▸ good.pool, ?_, fun f inside => good.work f (work inside)⟩
  rw [pool, methods]
  exact good.methods

theorem Place.At.idle {w : Place} (at_ : w.At s) (idle : Idle s s') : w.At s' := by
  refine ⟨at_.good.idle idle, ?_, ?_, ?_, ?_, ?_⟩
  all_goals rw [idle.1]
  · exact at_.next
  · exact at_.most
  · exact at_.held
  · exact at_.named
  · exact at_.bound

/-! ### Generators -/

variable {α β : Type} {w : Place} {x : Gen α} {a : α} {P : Array Constant → α → Prop}
  {Q : Array Constant → β → Prop}

/-- Run at the place, the generator leaves the place as it is and gives something of which the property
holds once the constants are complete. -/
def Produces (w : Place) (x : Gen α) (P : Array Constant → α → Prop) : Prop :=
  ∀ s a s', w.At s → x s = .ok a s' → w.At s' ∧ Kept s s' ∧ ∀ K, Final s' K → P K a

namespace Produces

protected theorem bind {f : α → Gen β} (first : Produces w x P)
    (next : ∀ a, Produces w (f a) fun K b => P K a → Q K b) : Produces w (x >>= f) Q := by
  intro s b s' at_ run
  obtain ⟨a, s₁, runX, run⟩ := bind_ok run
  obtain ⟨at₁, kept₁, known⟩ := first s a s₁ at_ runX
  obtain ⟨at', kept, result⟩ := next a s₁ b s' at₁ run
  exact ⟨at', kept₁.trans kept, fun K final => result K final (known K (final.before kept))⟩

protected theorem pure (holds : ∀ K, P K a) : Produces w (pure a) P := by
  intro s b s' at_ run
  obtain ⟨rfl, rfl⟩ := pure_ok run
  exact ⟨at_, .refl _, fun K _ => holds K⟩

theorem mono {P' : Array Constant → α → Prop} (h : Produces w x P) (weaker : ∀ K a, P K a → P' K a) :
    Produces w x P' := by
  intro s a s' at_ run
  obtain ⟨at', kept, known⟩ := h s a s' at_ run
  exact ⟨at', kept, fun K final => weaker K a (known K final)⟩

theorem imp {P' : Array Constant → α → Prop} (h : Produces w x P) : Produces w x fun K a => P' K a → P K a :=
  h.mono fun _ _ known _ => known

protected theorem fail (d : Defect) : Produces w (fail d : Gen α) P := fun _ _ _ _ run => (fail_ok run).elim

theorem failed (d : Defect) {f : α → Gen β} : Produces w (Codegen.fail d >>= f) Q := fun _ _ _ _ run => by
  obtain ⟨_, _, run, _⟩ := bind_ok run
  exact (fail_ok run).elim

protected theorem throw (e : Error) : Produces w (throw e : Gen α) P := fun _ _ _ _ run => nomatch run

protected theorem ite {p : Prop} [Decidable p] {y : Gen α} (yes : p → Produces w x P)
    (no : ¬ p → Produces w y P) : Produces w (if p then x else y) P := by
  split
  · next holds => exact yes holds
  · next fails => exact no fails

protected theorem get {f : State → Gen β} (next : ∀ s, w.At s → Produces w (f s) Q) :
    Produces w (get >>= f) Q := by
  intro s b s' at_ run
  obtain ⟨_, _, runG, run⟩ := bind_ok run
  cases runG
  exact next s at_ s b s' at_ run

theorem idle {f : α → Gen β} (good : α → Prop) (each : ∀ s a s', x s = .ok a s' → Idle s s' ∧ good a)
    (next : ∀ a, good a → Produces w (f a) Q) : Produces w (x >>= f) Q := by
  intro s b s' at_ run
  obtain ⟨a, s₁, runX, run⟩ := bind_ok run
  obtain ⟨idle, known⟩ := each s a s₁ runX
  obtain ⟨at', kept, result⟩ := next a known s₁ b s' (at_.idle idle) run
  exact ⟨at', (Kept.of_idle idle).trans kept, result⟩

theorem modify {g : State → State} {f : Unit → Gen β} (each : ∀ s, Idle s (g s)) (next : Produces w (f ()) Q) :
    Produces w (modify g >>= f) Q :=
  idle (fun _ => True) (fun s a s' run => by
    cases run
    exact ⟨each s, trivial⟩) fun _ _ => next

theorem lift {y : Except Defect α} {f : α → Gen β} (next : ∀ a, y = .ok a → Produces w (f a) Q) :
    Produces w (liftDefect y >>= f) Q := idle _ (fun _ _ _ => idle_liftDefect) next

theorem repOf {n : Typed} {f : Rep → Gen β}
    (next : ∀ r, Rep.ofTy (w.ctx.typeOf n) = .ok r → Produces w (f r) Q) :
    Produces w (Codegen.repOf w.ctx n >>= f) Q := lift next

theorem atLine {n : Typed} {f : Unit → Gen β} (next : Produces w (f ()) Q) :
    Produces w (Codegen.atLine n >>= f) Q :=
  idle (fun _ => True) (fun _ _ _ run => ⟨idle_atLine run, trivial⟩) fun _ _ => next

theorem jump {op : Opcode} {f : (Nat → Instr) → Gen β}
    (next : ∀ line, Produces w (f fun d => ⟨op, .jump d, line⟩) Q) : Produces w (Codegen.jump op >>= f) Q :=
  idle _ (fun _ _ _ => idle_jump) fun _ known => by
    obtain ⟨line, rfl⟩ := known
    exact next line

end Produces

/-! ### Instructions -/

namespace Place

/-- The code of an expression leaves one value, as the type of the expression says. -/
def Leaves (w : Place) (n : Typed) (K : Array Constant) (code : Fragment) : Prop :=
  ∃ r, Rep.ofTy (w.ctx.typeOf n) = .ok r ∧ w.Turns K code [] r.kinds

theorem Leaves.turns {n : Typed} {code : Fragment} {r : Rep} (h : w.Leaves n K code)
    (known : Rep.ofTy (w.ctx.typeOf n) = .ok r) : w.Turns K code [] r.kinds := by
  obtain ⟨r', same, turns⟩ := h
  obtain rfl := Except.ok.inj (known.symm.trans same)
  exact turns

end Place

theorem Place.turns_single {i : Instr} {p q : List Kind} (sized : i.Sized) (straight : i.op.operands ≠ .jump)
    (made : ∀ rest, effect w.payload i.op (i.constant? K) i.number ⟨p ++ rest, w.cells⟩ =
      some ⟨q ++ rest, w.cells⟩) : w.Turns K [i] p q :=
  fun rest => leads_single sized (made rest) straight

theorem produces_emitWith {op : Opcode} {operand : Operand} {p q : List Kind}
    (each : ∀ K line, w.Turns K [⟨op, operand, line⟩] p q) :
    Produces w (emitWith op operand) fun K code => w.Turns K code p q := by
  intro s code s' at_ run
  obtain ⟨rfl, rfl⟩ := emitWith_ok run
  exact ⟨at_, .refl s, fun K _ => each K _⟩

theorem produces_emit {op : Opcode} {p q : List Kind} (kind : op.operands = .none)
    (known : exchanged op = some (p, q)) : Produces w (emit op) fun K code => w.Turns K code p q :=
  produces_emitWith fun _ _ => w.turns_single (.none kind) (by rw [kind]; nofun) fun rest => by
    rw [effect_exchanged known]
    exact exchange_append p q rest _

theorem produces_pop {k : Kind} (one : k ≠ .double) :
    Produces w (emit .pop) fun K code => w.Turns K code [k] [] :=
  produces_emitWith fun _ _ => w.turns_single (.none rfl) nofun fun rest => by
    cases k with
    | double => exact absurd rfl one
    | int | ref => rfl

theorem produces_zconst (value : Nat) (small : value < 256) :
    Produces w (emitWith .zconst (.byte value)) fun K code => w.Turns K code [] [.int] :=
  produces_emitWith fun _ _ => w.turns_single (.byte rfl small) nofun fun rest => exchange_append [] _ rest _

theorem Local.Held.load {l : Local} {line : Int} (held : l.Held w.cells) (room : w.cells.length ≤ 65536) :
    w.Turns K [⟨loadOp l.repr, .word l.slot, line⟩] [] l.repr.kinds := by
  obtain ⟨n, slot, cells⟩ := held.slot
  have below := held.lt slot
  rw [slot]
  have kind : (loadOp l.repr).operands = .slot := by cases l.repr <;> rfl
  refine w.turns_single (.number (.inl kind) (by omega)) (by rw [kind]; nofun) fun rest => ?_
  have number : Instr.number ⟨loadOp l.repr, .word n, line⟩ = n := by
    rw [Instr.number, kind]
    rfl
  rw [number]
  cases rep : l.repr with
  | void => exact absurd rep held.filled
  | _ =>
    rw [rep] at cells
    exact if_pos cells

theorem produces_load {l : Local} (held : l.Held w.cells) :
    Produces w (load l) fun K code => w.Turns K code [] l.repr.kinds := by
  intro s code s' at_ run
  obtain ⟨rfl, rfl⟩ := emitWith_ok run
  refine ⟨at_, .refl s, fun K final => ?_⟩
  have next := at_.next
  have most := at_.most
  have room := final.room
  exact Local.Held.load held (by omega)

theorem constant_serves {k : Constant} {i : Nat} (named : k.Named w.ctx.checked.module.name) (at_ : w.At s)
    (run : constant w.ctx k s = .ok i s') :
    w.At s' ∧ Kept s s' ∧ i < 65536 ∧ ∃ d, s'.pool.entries[i]? = some d ∧ d.kind = k.kind ∧
      (k.kind = .method → d = k) ∧ ∀ op n t, op.constantKind? = some k.kind →
        effect w.payload op (some d) n t = effect w.payload op (some k) n t := by
  unfold constant at run
  obtain ⟨pool, s₁, runG, run⟩ := bind_ok run
  cases runG
  cases added : s.pool.add k with
  | none =>
    simp only [added] at run
    exact (fail_ok run).elim
  | some e =>
    obtain ⟨j, pool⟩ := e
    simp only [added] at run
    cases run
    have keeps := Pool.add_extends added
    obtain ⟨holds, small, d, found, serves⟩ := at_.good.pool.serves w.payload named added
    have sane := at_.good.sane
    have good : State.Good w.payload w.promise w.ctx.checked { s with pool } :=
      ⟨⟨LocalTable.sound_empty, (Pool.Holds.add sane.pool ⟨named.isKnown, named.alone⟩ added).1,
          fun m inside => (sane.methods m inside).mono keeps, sane.titled, sane.work⟩,
        holds, fun m inside => (at_.good.methods m inside).mono keeps, at_.good.work⟩
    exact ⟨⟨good, at_.next, at_.most, at_.held, at_.named, at_.bound⟩, ⟨keeps, Nat.le_refl _, List.suffix_rfl⟩,
      small, d, found, serves⟩

theorem produces_emitConst {op : Opcode} {k : Constant} {p q : List Kind}
    (named : k.Named w.ctx.checked.module.name) (kind : op.operands = .constant)
    (expected : op.constantKind? = some k.kind)
    (made : ∀ rest, effect w.payload op (some k) 0 ⟨p ++ rest, w.cells⟩ = some ⟨q ++ rest, w.cells⟩) :
    Produces w (emitConst w.ctx op k) fun K code => w.Turns K code p q := by
  intro s code s' at_ run
  unfold emitConst at run
  obtain ⟨i, s₁, runC, run⟩ := bind_ok run
  obtain ⟨at', kept, small, d, found, -, -, serves⟩ := constant_serves named at_ runC
  obtain ⟨rfl, rfl⟩ := emitWith_ok run
  refine ⟨at', kept, fun K final => w.turns_single (.constant kind small) (by rw [kind]; nofun) fun rest => ?_⟩
  have constant : Instr.constant? K ⟨op, .word i, s₁.line⟩ = some d := by
    rw [Instr.constant?, kind]
    exact final.keeps i d found
  have number : Instr.number ⟨op, .word i, s₁.line⟩ = 0 := by rw [Instr.number, kind]
  rw [constant, number]
  exact (serves op 0 _ expected).trans (made rest)

theorem produces_emitClosure {k : Constant} {captures : Nat} {sig : Descriptor.Signature}
    (named : k.Named w.ctx.checked.module.name) (kind : k.kind = .method) (parsed : signature? k = some sig)
    (more : captures < sig.params.length) (few : captures ≤ 255) :
    Produces w (emitClosure w.ctx k captures) fun K code =>
      w.Turns K code (List.replicate captures .ref) [.ref] := by
  intro s code s' at_ run
  unfold emitClosure at run
  obtain ⟨i, s₁, runC, run⟩ := bind_ok run
  obtain ⟨at', kept, small, d, found, -, same, -⟩ := constant_serves named at_ runC
  obtain ⟨rfl, rfl⟩ := emitWith_ok run
  obtain rfl := same kind
  refine ⟨at', kept, fun K final => ?_⟩
  have constant : K[i]? = some d := final.keeps i d found
  refine w.turns_single (.closure rfl small (by omega)) nofun fun rest => ?_
  change effect w.payload .closure K[i]? captures _ = _
  rw [constant]
  simp only [effect, Option.bind_some, parsed, Option.bind_eq_bind, if_pos more]
  exact exchange_append _ _ rest _

/-! ### Conversions -/

theorem produces_nothing (p : List Kind) : Produces w (pure []) fun K code => w.Turns K code p p :=
  .pure fun _ => .refl p

theorem produces_drop (r : Rep) : Produces w (drop r) fun K code => w.Turns K code r.kinds [] := by
  cases r with
  | int | bool | ref => exact produces_pop nofun
  | double => exact produces_emit rfl rfl
  | void => exact produces_nothing []

theorem produces_unbox (r : Rep) : Produces w (unbox r) fun K code => w.Turns K code [.ref] r.kinds := by
  cases r with
  | int | bool | double => exact produces_emit rfl rfl
  | ref => exact produces_nothing [.ref]
  | void => exact produces_pop nofun

theorem produces_coerce (source target : Rep) :
    Produces w (coerce source target) fun K code => w.Turns K code source.kinds target.kinds := by
  have unit (r : Rep) : Produces w (do
      let u ← emit .unit
      pure (u ++ (← unbox r))) fun K code => w.Turns K code [] r.kinds :=
    (produces_emit (q := [.ref]) rfl rfl).bind fun u => (produces_unbox r).bind fun c =>
      .pure fun K second first => first.append second
  have gone (r : Rep) : Produces w (drop r) fun K code => w.Turns K code r.kinds Rep.void.kinds := produces_drop r
  cases source <;> cases target <;>
    first
    | exact produces_nothing _
    | exact gone .int
    | exact gone .double
    | exact gone .ref
    | exact produces_unbox _
    | exact produces_emit rfl rfl
    | exact unit _
    | exact .fail _

theorem Produces.asRep {n : Typed} {y : Gen Fragment} (h : Produces w y (w.Leaves n)) (r : Rep) :
    Produces w (asRep w.ctx n r y) fun K code => w.Turns K code [] r.kinds :=
  .repOf fun _ known => h.bind fun _ => (produces_coerce _ r).bind fun _ =>
    .pure fun _ second first => (first.turns known).append second

/-! ### Jumps -/

theorem Place.turns_branch {asked yes no : Fragment} {test : Opcode} (line line' : Int) {p q r o : List Kind}
    (kind : test.operands = .jump) (known : exchanged test = some (p, [])) (before : w.Turns K asked o (p ++ q))
    (first : w.Turns K yes q r) (second : w.Turns K no q r) :
    let ends := yes ++ [⟨.goto, .jump (size no), line'⟩]
    w.Turns K (asked ++ ⟨test, .jump (size ends), line⟩ :: ends ++ no) o r := by
  intro ends
  rw [List.append_assoc]
  refine before.append fun rest => leads_branch kind ?_ (first rest) (second rest)
  rw [effect_exchanged known, List.append_assoc]
  exact exchange_append p [] (q ++ rest) _

theorem produces_boolFromJump {op : Opcode} {p : List Kind} (kind : op.operands = .jump)
    (known : exchanged op = some (p, [])) :
    Produces w (boolFromJump op) fun K code => w.Turns K code p [.int] :=
  .jump fun line => (produces_zconst 0 (by decide)).bind fun no => .jump fun line' =>
    (produces_zconst 1 (by decide)).bind fun yes => .pure fun K taken other => by
      have before : w.Turns K [] p (p ++ []) := by
        rw [List.append_nil]
        exact .refl p
      exact w.turns_branch line line' kind known before other taken

/-! ### Scopes -/

theorem entries_rollback {t t' : LocalTable} (inner : t.entries <:+ t'.entries) :
    (t'.rollback t.checkpoint).entries = t.entries := by
  obtain ⟨new, entries⟩ := inner
  have lengths := congrArg List.length entries
  rw [List.length_append] at lengths
  have left : t'.entries.length - t.entries.length = new.length := by omega
  have back : t.entries.length - t'.entries.length = 0 := by omega
  simp only [LocalTable.rollback, LocalTable.checkpoint, left, back, List.take_zero, List.reverse_nil,
    List.nil_append]
  rw [← entries, List.drop_left]

theorem Place.At.leave {names : List String} {cells : List Cell} (at_ : w.At s)
    (inner : ({ w with names, cells } : Place).At s') (kept : Kept s s') :
    let after : State := { s' with locals := s'.locals.rollback s.locals.checkpoint }
    w.At after ∧ Kept s after := by
  intro after
  have entries : after.locals.entries = s.locals.entries := entries_rollback kept.inner
  refine ⟨⟨inner.good.within _ _, at_.next, Nat.le_trans at_.most kept.grows, ?_, ?_, fun x member => ?_⟩,
    kept.keeps, kept.grows, entries ▸ List.suffix_rfl⟩
  · rw [entries]
    exact at_.held
  · rw [entries]
    exact at_.named
  · have bound := at_.bound x member
    rw [boundInAny, List.any_cons, LocalTable.find?] at bound ⊢
    rw [entries]
    exact bound

theorem boundInAny_push {t : LocalTable} {l : Local} {outer : List LocalTable} {x : String}
    (bound : boundInAny (t :: outer) x = true) : boundInAny (t.push l :: outer) x = true := by
  rw [boundInAny, List.any_cons, Bool.or_eq_true] at bound ⊢
  refine bound.imp_left fun found => ?_
  rw [LocalTable.find?, List.find?_isSome] at found ⊢
  obtain ⟨l', inside, same⟩ := found
  exact ⟨l', List.mem_cons_of_mem _ inside, same⟩

theorem boundInAny_new {t : LocalTable} {l : Local} {outer : List LocalTable} :
    boundInAny (t.push l :: outer) l.name = true := by
  rw [boundInAny, List.any_cons, Bool.or_eq_true, LocalTable.find?, List.find?_isSome]
  exact .inl ⟨l, List.mem_cons_self, beq_self_eq_true _⟩

structure Adds (name : String) (names names' : List String) : Prop where
  new : name = "" ∨ name ∈ names'
  old : names ⊆ names'
  only : ∀ x ∈ names', x = name ∨ x ∈ names

theorem adds_cons (name : String) (names : List String) : Adds name names (name :: names) :=
  ⟨.inr List.mem_cons_self, List.subset_cons_self _ _, fun _ => List.mem_cons.1⟩

theorem adds_blank (names : List String) : Adds "" names names :=
  ⟨.inl rfl, List.Subset.refl _, fun _ => .inr⟩

theorem Place.At.push {l : Local} {names : List String} (at_ : w.At s) (held : l.Held w.cells)
    (adds : Adds l.name w.names names) :
    ({ w with names } : Place).At { s with locals := s.locals.push l } := by
  refine ⟨at_.good.within _ _, at_.next, at_.most, List.forall_mem_cons.2 ⟨held, at_.held⟩,
    List.forall_mem_cons.2 ⟨adds.new, fun l' inside => ?_⟩, fun x member => ?_⟩
  · exact (at_.named l' inside).imp_right fun known => adds.old known
  · rcases adds.only x member with rfl | known
    · exact boundInAny_new
    · exact boundInAny_push (at_.bound x known)

theorem Place.At.define {r : Rep} {name : String} {names : List String} (at_ : w.At s) (filled : r ≠ .void)
    (adds : Adds name w.names names) :
    (s.locals.define name r).1.Held (w.cells ++ r.cells) ∧
      ({ w with names, cells := w.cells ++ r.cells } : Place).At
        { s with locals := (s.locals.define name r).2 } := by
  have held : (s.locals.define name r).1.Held (w.cells ++ r.cells) := by
    refine ⟨rfl, filled, s.locals.next, rfl, ?_⟩
    rw [at_.next, List.drop_left]
    exact List.prefix_rfl
  have wider : ({ w with cells := w.cells ++ r.cells } : Place).At
      { s with locals := { s.locals with
          next := s.locals.next + r.width
          max := Nat.max s.locals.max (s.locals.next + r.width) } } := by
    refine ⟨at_.good.within _ _, ?_, Nat.le_max_right _ _,
      fun l inside => (at_.held l inside).mono (List.prefix_append _ _),
      at_.named, at_.bound⟩
    rw [List.length_append, Rep.length_cells, ← at_.next]
  exact ⟨held, wider.push held adds⟩

theorem kept_define (s : State) (name : String) (r : Rep) :
    Kept s { s with locals := (s.locals.define name r).2 } :=
  ⟨.refl _, Nat.le_max_left _ _, List.suffix_cons _ _⟩

theorem leads_store {r : Rep} {payload : Constant → Option Bool} {cells : List Cell} (line : Int)
    (rest : List Kind) (filled : r ≠ .void) (room : cells.length < 65536) :
    Leads payload K [⟨storeOp r, .word cells.length, line⟩] ⟨r.kinds ++ rest, cells⟩
      ⟨rest, cells ++ r.cells⟩ := by
  have kind : (storeOp r).operands = .slot := by cases r <;> rfl
  refine leads_single (.number (.inl kind) room) ?_ (by rw [kind]; nofun)
  have number : Instr.number ⟨storeOp r, .word cells.length, line⟩ = cells.length := by
    rw [Instr.number, kind]
    rfl
  have stored (k : Kind) (words : List Cell) :
      Shape.store ⟨k :: rest, cells⟩ cells.length words k = some ⟨rest, cells ++ words⟩ := by
    have taken : Shape.exchange ⟨[k] ++ rest, cells⟩ [k] [] = some ⟨rest, cells⟩ := exchange_append [k] [] rest _
    rw [List.singleton_append] at taken
    rw [Shape.store, taken, Option.bind_eq_bind, Option.bind_some, if_pos (Nat.le_refl _), List.take_length,
      List.drop_of_length_le (Nat.le_add_right _ _), List.append_nil]
  rw [number]
  cases r with
  | void => exact absurd rfl filled
  | _ => exact stored _ _

def Place.Stores (w : Place) (r : Rep) (K : Array Constant) (keep : Fragment) : Prop :=
  ∀ rest, Leads w.payload K keep ⟨r.kinds ++ rest, w.cells⟩ ⟨rest, w.cells ++ r.cells⟩

theorem Place.turns_within {r : Rep} {a keep b : Fragment} {names : List String} {q : List Kind}
    (first : w.Turns K a [] r.kinds) (stored : w.Stores r K keep)
    (second : ({ w with names, cells := w.cells ++ r.cells } : Place).Turns K b [] q) :
    w.Turns K (a ++ keep ++ b) [] q := fun rest =>
  (((first rest).append (stored rest)).append (second rest)).meets ⟨rfl, List.prefix_append _ _⟩

theorem stores_next {r : Rep} {line : Int} (at_ : w.At s) (filled : r ≠ .void)
    (room : w.cells.length + r.cells.length ≤ 65536) :
    w.Stores r K [⟨storeOp r, .word s.locals.next, line⟩] := by
  have words := List.length_pos_iff.2 (Rep.cells_ne_nil filled)
  rw [at_.next]
  exact fun rest => leads_store line rest filled (by omega)

theorem Produces.define {name : String} {names : List String} {r : Rep} {f : Local → Fragment → Gen β}
    (filled : r ≠ .void) (adds : Adds name w.names names)
    (next : ∀ l keep, l.Held (w.cells ++ r.cells) → l.repr = r →
      Produces { w with names, cells := w.cells ++ r.cells } (f l keep) fun K b => w.Stores r K keep → Q K b) :
    Produces w (inScope do
      let l ← define name r
      let keep ← store l
      f l keep) Q := by
  intro s b s' at_ run
  obtain ⟨s₂, inside, rfl⟩ := inScope_ok run
  obtain ⟨l, s₁, runD, inside⟩ := bind_ok inside
  obtain ⟨keep, _, runS, inside⟩ := bind_ok inside
  obtain ⟨rfl, rfl⟩ := define_ok runD
  obtain ⟨rfl, rfl⟩ := emitWith_ok runS
  obtain ⟨held, begun⟩ := at_.define filled adds
  obtain ⟨inner, kept, known⟩ := next _ _ held rfl _ b s₂ begun inside
  have whole := (kept_define s name r).trans kept
  obtain ⟨at', kept'⟩ := at_.leave inner whole
  refine ⟨at', kept', fun K final => known K ⟨final.keeps, final.room⟩ (stores_next at_ filled ?_)⟩
  have next := inner.next
  have most := inner.most
  have room : s₂.locals.max ≤ 65536 := final.room
  rw [List.length_append] at next
  omega

end Codegen
end StackML
