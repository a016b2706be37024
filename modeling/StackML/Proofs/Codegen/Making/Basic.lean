import StackML.Proofs.Codegen.Layout

/-!
What the generation of code leaves behind. Finished methods are laid out, locals have their places, the
pool tells constants of different kinds apart; this is kept by every generator, and the code that comes
out of it is laid out with regard to the state that it leaves. `Emits` says so of a generator that runs
after other code was made, so that the generators are followed step by step.
-/

namespace StackML

open Fragment (Closed Near Lands Boundary size_append)

/-! ### Constants -/

namespace Constant

def marks : List (ConstantKind × UInt8) :=
  [(.int, 0x69), (.double, 0x64), (.string, 0x73), (.host, 0x68), (.method, 0x33), (.field, 0x34),
    (.holder, 0x35), (.exported, 0x37)]

def IsKnown (kind : ConstantKind) : Prop := ∃ mark, (kind, mark) ∈ marks

theorem head_key {k : Constant} {mark : UInt8} (known : (k.kind, mark) ∈ marks) :
    k.key.bytes.head? = some mark := by
  simp only [marks, List.mem_cons, Prod.mk.injEq, List.not_mem_nil, or_false] at known
  rcases known with ⟨kind, rfl⟩ | ⟨kind, rfl⟩ | ⟨kind, rfl⟩ | ⟨kind, rfl⟩ | ⟨kind, rfl⟩ | ⟨kind, rfl⟩ |
    ⟨kind, rfl⟩ | ⟨kind, rfl⟩ <;> (rw [key, kind]; rfl)

theorem kind_of_key {k k' : Constant} (known : IsKnown k.kind) (known' : IsKnown k'.kind)
    (same : k.key = k'.key) : k.kind = k'.kind := by
  obtain ⟨mark, inside⟩ := known
  obtain ⟨mark', inside'⟩ := known'
  have marks_eq : mark = mark' :=
    Option.some.inj ((head_key inside).symm.trans (same ▸ head_key inside'))
  have apart : ∀ x ∈ marks, ∀ y ∈ marks, x.2 = y.2 → x.1 = y.1 := by decide
  exact apart _ inside _ inside' marks_eq

theorem isKnown_of_constantKind? {op : Opcode} {kind : ConstantKind}
    (expected : op.constantKind? = some kind) : IsKnown kind := by
  have known : ∀ kind ∈ [ConstantKind.int, .double, .string, .host, .method, .field, .holder, .exported],
      ∃ x ∈ marks, x.1 = kind := by decide
  have listed : kind ∈ [ConstantKind.int, .double, .string, .host, .method, .field, .holder,
      .exported] := by
    cases op <;> cases expected <;> decide
  obtain ⟨⟨_, mark⟩, inside, rfl⟩ := known kind listed
  exact ⟨mark, inside⟩

theorem alone_of_ne_host {k : Constant} (known : IsKnown k.kind) (other : k.kind ≠ .host) : k.Alone :=
  fun same => absurd (kind_of_key known ⟨0x68, by decide⟩ same) other

end Constant

namespace Pool

variable {p p' : Pool} {k : Constant} {i : Nat}

/-- Every constant is found by its key, which tells its kind, and the comparison of texts from the others. -/
abbrev Sound : Pool → Prop := Holds fun k => Constant.IsKnown k.kind ∧ k.Alone

theorem Sound.comparesAlone (sound : p.Sound) : p.ComparesAlone :=
  ⟨fun k inside => (sound.each k inside).2, sound.found, sound.small⟩

theorem add_extends (added : p.add k = some (i, p')) : Extends p.entries p'.entries := by
  unfold add at added
  dsimp only at added
  split at added
  · cases added
    exact .refl _
  · split at added
    · cases added
    · cases added
      intro j old found
      have below : j < p.entries.size := (Array.getElem?_eq_some_iff.1 found).1
      rw [Array.getElem?_push, if_neg (Nat.ne_of_lt below)]
      exact found

theorem Sound.refers {op : Opcode} (sound : p.Sound) (expected : op.constantKind? = some k.kind)
    (alone : k.Alone) (added : p.add k = some (i, p')) : p'.Sound ∧ op.Refers p'.entries i := by
  have known := Constant.isKnown_of_constantKind? expected
  obtain ⟨sound', -, k', found, ⟨known', -⟩, same⟩ := Holds.add sound ⟨known, alone⟩ added
  have below : i < p'.entries.size := (Array.getElem?_eq_some_iff.1 found).1
  refine ⟨sound', Nat.lt_of_lt_of_le below sound'.small, k', found, ?_⟩
  rw [expected, Constant.kind_of_key known' known same]

end Pool

/-! ### Locals -/

structure Local.Placed (room : Nat) (l : Local) : Prop where
  plain : l.self = none
  positive : 0 ≤ l.slot
  held : l.repr ≠ .void
  below : l.slot + l.repr.width ≤ room

theorem Local.Placed.mono {room room' : Nat} {l : Local} (h : l.Placed room) (more : room ≤ room') :
    l.Placed room' :=
  ⟨h.plain, h.positive, h.held, h.below.trans (Int.ofNat_le.2 more)⟩

namespace LocalTable

def all (t : LocalTable) : List Local := t.entries ++ t.past

structure Sound (t : LocalTable) : Prop where
  placed : ∀ l ∈ t.all, l.self = none → l.Placed t.max
  apart : ∀ l ∈ t.all, ∀ self, l.self = some self →
    ∀ l' ∈ t.all, l'.self.isSome → l'.name ∉ self.captures

theorem sound_empty : Sound {} := ⟨List.forall_mem_nil _, List.forall_mem_nil _⟩

variable {t t' : LocalTable} {l l' : Local} {name : String} {r : Rep}

theorem Sound.of_subset (h : t.Sound) (fewer : ∀ l ∈ t'.all, l ∈ t.all) (more : t.max ≤ t'.max) :
    t'.Sound :=
  ⟨fun l inside plain => (h.placed l (fewer l inside) plain).mono more,
    fun l inside self same l' inside' => h.apart l (fewer l inside) self same l' (fewer l' inside')⟩

theorem mem_all_push (inside : l ∈ (t.push l').all) : l = l' ∨ l ∈ t.all := by
  rcases List.mem_append.1 inside with entry | past
  · exact (List.mem_cons.1 entry).imp_right fun old => List.mem_append_left _ old
  · exact .inr (List.mem_append_right _ (List.mem_of_mem_tail past))

theorem mem_all_rollback {c : Checkpoint} (inside : l ∈ (t.rollback c).all) : l ∈ t.all := by
  simp only [all, rollback, List.mem_append, List.mem_reverse] at inside ⊢
  rcases inside with (back | entry) | (left | past)
  · exact .inr (List.mem_of_mem_take back)
  · exact .inl (List.mem_of_mem_drop entry)
  · exact .inl (List.mem_of_mem_take left)
  · exact .inr (List.mem_of_mem_drop past)

theorem find?_mem (found : t.find? name = some l) : l ∈ t.all ∧ l.name = name := by
  have same := @List.find?_some _ (fun l : Local => l.name == name) l t.entries found
  exact ⟨List.mem_append_left _ (List.mem_of_find?_eq_some found), eq_of_beq same⟩

theorem Sound.push (h : t.Sound) (placed : l.Placed t.max) : (t.push l).Sound := by
  refine ⟨fun l' inside plain => ?_, fun l' inside self same l'' inside' isSelf => ?_⟩
  · rcases mem_all_push inside with rfl | old
    · exact placed
    · exact h.placed l' old plain
  · rcases mem_all_push inside with rfl | old
    · cases placed.plain.symm.trans same
    · rcases mem_all_push inside' with rfl | old'
      · rw [placed.plain] at isSelf
        cases isSelf
      · exact h.apart l' old self same l'' old' isSelf

theorem placed_define (t : LocalTable) (name : String) (held : r ≠ .void) :
    (t.define name r).1.Placed (t.define name r).2.max :=
  have below : t.next + r.width ≤ (t.define name r).2.max := Nat.le_max_right _ _
  ⟨rfl, Int.natCast_nonneg _, held, Int.ofNat_le.2 below⟩

theorem Sound.define (h : t.Sound) (name : String) (held : r ≠ .void) : (t.define name r).2.Sound := by
  have more : t.max ≤ (t.define name r).2.max := Nat.le_max_left _ _
  have grown : ({ t with max := (t.define name r).2.max } : LocalTable).Sound :=
    h.of_subset (fun _ => id) more
  exact (grown.push (placed_define t name held)).of_subset (fun _ => id) (Nat.le_refl _)

end LocalTable

/-! ### Methods -/

namespace Codegen

open Typing (Checked Typed)

inductive Generated (c : Checked) : Fragment → Prop where
  | body {ctx : Context} {e : Expr Typed} {r : Rep} {s s' : State} {code : Fragment} :
      ctx.checked = c → bodyCode ctx e.note r (expr ctx e) s = .ok code s' → Generated c code
  | straight {code : Fragment} : (∀ i ∈ code, i.op.operands ≠ .jump) → Generated c code

def Checks (c : Checked) (name : Text) (code : Fragment) : Prop :=
  name = Text.ofString Names.initializer ∨ Near code ∧ Generated c code

end Codegen

open Codegen (Checks)

structure Method.Laid (c : Typing.Checked) (constants : Array Constant) (m : Method) : Prop where
  code : ∃ (body : Fragment) (last : Instr) (room : Nat),
    m.code = (Fragment.bytesOf (body ++ [last])).toArray ∧ m.maxLocals = .ofNat room ∧
    room ≤ 2 * m.descriptor.length + m.code.size ∧
    (∀ i ∈ body ++ [last], i.Fits constants room) ∧ Closed body ∧ last.op.isReturn = true ∧
    Checks c m.name (body ++ [last])
  lines : m.lines.size = m.code.size

theorem Method.Laid.mono {c : Typing.Checked} {constants constants' : Array Constant} {m : Method}
    (h : m.Laid c constants) (keeps : Extends constants constants') : m.Laid c constants' := by
  obtain ⟨⟨body, last, room, code, locals, small, fits, rest⟩, lines⟩ := h
  exact ⟨⟨body, last, room, code, locals, small,
    fun i inside => (fits i inside).mono keeps (Nat.le_refl _), rest⟩, lines⟩

namespace Codegen

open Typing (Checked)

theorem laid_methodOf {c : Checked} {constants : Array Constant} {name descriptor : String} {room : Nat}
    {body : Fragment} {last : Instr}
    (small : room ≤ 2 * (Text.ofString descriptor).length + (body ++ [last]).size)
    (fits : ∀ i ∈ body ++ [last], i.Fits constants room) (closed : Closed body)
    (returns : last.op.isReturn = true) (checks : Checks c name (body ++ [last])) :
    (methodOf name descriptor room (body ++ [last])).Laid c constants := by
  have code : (methodOf name descriptor room (body ++ [last])).code =
      (Fragment.bytesOf (body ++ [last])).toArray :=
    congrArg List.toArray (Fragment.bytesOf_eq _)
  refine ⟨⟨body, last, room, code, rfl, ?_, fits, closed, returns, checks⟩, ?_⟩
  · rw [code, List.size_toArray, Fragment.length_bytesOf]
    exact small
  · simp [methodOf]

/-! ### Names of methods -/

structure Specialization.IsOf (f : Specialization) (c : Checked) : Prop where
  known : ∃ name, c.functions.get? name = some f.fn
  named : f.name = f.fn.decl.name ∨ ∃ m, f.type = f.fn.type.body.replace m ∧
    f.name = f.type.specializedName f.fn.decl.name f.fn.arity

def Titled (c : Checked) (m : Method) : Prop :=
  m.function = .empty ∨ ∃ f : Specialization, f.IsOf c ∧ m.function = Text.ofString f.fn.decl.name ∧
    m.name = Text.ofString f.name ∧ m.signature = Text.ofString (Signature.render f.type)

/-! ### States -/

structure State.Sane (s : State) (c : Checked) : Prop where
  locals : s.locals.Sound
  pool : s.pool.Sound
  methods : ∀ m ∈ s.methods, m.Laid c s.pool.entries
  titled : ∀ m ∈ s.methods, Titled c m
  work : ∀ f ∈ s.work, f.IsOf c

/-- From the first state to the second the code was made: the pool and the words of the locals only
grew, the latter by no more than the code can use, and the code is in order. -/
structure Makes (c : Checked) (s s' : State) (code : Fragment) : Prop where
  keeps : Extends s.pool.entries s'.pool.entries
  grows : s.locals.max ≤ s'.locals.max
  next : s'.locals.next ≤ s.locals.next + code.size
  most : s'.locals.max ≤ s.locals.max ∨ s'.locals.max ≤ s.locals.next + code.size
  sane : s'.Sane c
  fits : ∀ i ∈ code, i.Fits s'.pool.entries s'.locals.max

variable {c : Checked} {s s' s₁ : State} {a b : Fragment}

theorem Makes.refl (sane : s.Sane c) : Makes c s s [] :=
  ⟨.refl _, Nat.le_refl _, Nat.le_refl _, .inl (Nat.le_refl _), sane, List.forall_mem_nil _⟩

theorem Makes.of_same (keeps : Extends s.pool.entries s'.pool.entries)
    (most : s'.locals.max = s.locals.max) (next : s'.locals.next = s.locals.next) (sane : s'.Sane c) :
    Makes c s s' [] :=
  ⟨keeps, Nat.le_of_eq most.symm, Nat.le_of_eq next, .inl (Nat.le_of_eq most), sane,
    List.forall_mem_nil _⟩

theorem Makes.trans (first : Makes c s s₁ a) (second : Makes c s₁ s' b) : Makes c s s' (a ++ b) := by
  have next := first.next
  have next' := second.next
  have most := first.most
  have most' := second.most
  refine ⟨first.keeps.trans second.keeps, Nat.le_trans first.grows second.grows, ?_, ?_,
    second.sane, fun i inside => ?_⟩
  · rw [size_append]
    omega
  · rw [size_append]
    omega
  · rcases List.mem_append.1 inside with before | behind
    · exact (first.fits i before).mono second.keeps second.grows
    · exact second.fits i behind

def IsJump (i : Instr) : Prop := ∃ op d line, op.operands = .jump ∧ i = ⟨op, .jump d, line⟩

theorem Makes.arrange (h : Makes c s s' a) (inside : ∀ i ∈ b, i ∈ a ∨ IsJump i)
    (longer : a.size ≤ b.size) : Makes c s s' b := by
  have next := h.next
  have most := h.most
  refine ⟨h.keeps, h.grows, by omega, by omega, h.sane, fun i member => ?_⟩
  rcases inside i member with made | ⟨op, d, line, kind, rfl⟩
  · exact h.fits i made
  · exact .jump kind

/-! ### Generators -/

structure Product (α : Type) where
  code : α → Fragment
  good : α → Prop

namespace Product

def fragment : Product Fragment := ⟨id, Closed⟩

def call : Product (Fragment × Rep) := ⟨Prod.fst, fun c => Closed c.1⟩

def silent {α : Type} (good : α → Prop) : Product α := ⟨fun _ => [], good⟩

end Product

variable {α β : Type} {room : Nat} {front : Fragment} {P : Product α} {Q : Product β} {ctx : Context}

/-- Run where the front was made and the locals have some room, the generator makes code that takes
the front up. -/
def Emits (c : Checked) (room : Nat) (front : Fragment) (P : Product α) (x : Gen α) : Prop :=
  ∀ s₀ s a s', Makes c s₀ s front → room ≤ s.locals.max → x s = .ok a s' →
    Makes c s₀ s' (P.code a) ∧ P.good a ∧ front.size ≤ (P.code a).size

namespace Emits

theorem run {x : Gen α} {a : α} (h : Emits c room [] P x) (sane : s.Sane c)
    (fits : room ≤ s.locals.max) (ok : x s = .ok a s') : Makes c s s' (P.code a) ∧ P.good a :=
  have made := h s s a s' (.refl sane) fits ok
  ⟨made.1, made.2.1⟩

theorem of_run {x : Gen α}
    (each : ∀ s a s', s.Sane c → room ≤ s.locals.max → x s = .ok a s' →
      Makes c s s' (P.code a) ∧ P.good a) : Emits c room [] P x := by
  intro s₀ s a s' made fits ok
  obtain ⟨makes, good⟩ := each s a s' made.sane fits ok
  exact ⟨made.trans makes, good, Nat.zero_le _⟩

protected theorem bind {x : Gen α} {f : α → Gen β} (first : Emits c room [] P x)
    (next : ∀ a, P.good a → Emits c room (front ++ P.code a) Q (f a)) :
    Emits c room front Q (x >>= f) := by
  intro s₀ s b s' made fits ok
  obtain ⟨a, s₁, runX, ok⟩ := bind_ok ok
  obtain ⟨makes, good⟩ := first.run made.sane fits runX
  obtain ⟨all, done, longer⟩ :=
    next a good s₀ s₁ b s' (made.trans makes) (Nat.le_trans fits makes.grows) ok
  refine ⟨all, done, Nat.le_trans ?_ longer⟩
  rw [size_append]
  exact Nat.le_add_right _ _

protected theorem get {f : State → Gen β}
    (next : ∀ s, s.Sane c → room ≤ s.locals.max → Emits c s.locals.max front Q (f s)) :
    Emits c room front Q (get >>= f) := by
  intro s₀ s b s' made fits ok
  obtain ⟨_, _, runG, ok⟩ := bind_ok ok
  cases runG
  exact next s made.sane fits s₀ s b s' made (Nat.le_refl _) ok

theorem skip {x : Gen α} {f : α → Gen β} {good : α → Prop} (first : Emits c room [] (.silent good) x)
    (next : ∀ a, good a → Emits c room front Q (f a)) : Emits c room front Q (x >>= f) := by
  refine first.bind fun a known => ?_
  change Emits c room (front ++ []) Q (f a)
  rw [List.append_nil]
  exact next a known

protected theorem pure {a : α} (inside : ∀ i ∈ P.code a, i ∈ front ∨ IsJump i)
    (longer : front.size ≤ (P.code a).size) (good : P.good a) : Emits c room front P (pure a) := by
  intro s₀ s b s' made _ ok
  obtain ⟨rfl, rfl⟩ := pure_ok ok
  exact ⟨made.arrange inside longer, good, longer⟩

theorem done {a : α} (same : front = P.code a) (good : P.good a) : Emits c room front P (pure a) :=
  .pure (fun _ inside => .inl (same ▸ inside)) (Nat.le_of_eq (congrArg Fragment.size same)) good

protected theorem fail (d : Defect) : Emits c room front P (fail d) :=
  fun _ _ _ _ _ _ ok => (fail_ok ok).elim

theorem failed (d : Defect) {f : α → Gen β} : Emits c room front Q (Codegen.fail d >>= f) :=
  fun _ _ _ _ _ _ ok => by
    obtain ⟨_, _, run, _⟩ := bind_ok ok
    exact (fail_ok run).elim

protected theorem throw (e : Error) : Emits c room front P (throw e) :=
  fun _ _ _ _ _ _ ok => nomatch ok

protected theorem ite {p : Prop} [Decidable p] {x y : Gen α} (yes : p → Emits c room front P x)
    (no : ¬ p → Emits c room front P y) : Emits c room front P (if p then x else y) := by
  split
  · next holds => exact yes holds
  · next fails => exact no fails

end Emits

def Idle (s s' : State) : Prop :=
  s'.locals = s.locals ∧ s'.pool = s.pool ∧ s'.methods = s.methods ∧ s'.work ⊆ s.work

theorem Idle.refl (s : State) : Idle s s := ⟨rfl, rfl, rfl, List.Subset.refl _⟩

theorem Idle.makes (h : Idle s s') (sane : s.Sane c) : Makes c s s' [] := by
  obtain ⟨locals, pool, methods, work⟩ := h
  refine .of_same (pool ▸ .refl _) (congrArg _ locals) (congrArg _ locals)
    ⟨?_, ?_, ?_, methods ▸ sane.titled, fun f inside => sane.work f (work inside)⟩
  · rw [locals]
    exact sane.locals
  · rw [pool]
    exact sane.pool
  · rw [pool, methods]
    exact sane.methods

theorem idle_liftDefect {x : Except Defect α} {a : α} (run : liftDefect x s = .ok a s') :
    Idle s s' ∧ x = .ok a := by
  obtain ⟨same, rfl⟩ := liftDefect_ok run
  exact ⟨.refl s, same⟩

theorem idle_atLine {n : Typing.Typed} {u : Unit} (run : atLine n s = .ok u s') : Idle s s' := by
  unfold atLine at run
  split at run
  all_goals
    cases run
    exact ⟨rfl, rfl, rfl, List.Subset.refl _⟩

theorem idle_jump {op : Opcode} {leave : Nat → Instr} (run : jump op s = .ok leave s') :
    Idle s s' ∧ ∃ line, leave = fun d => ⟨op, .jump d, line⟩ := by
  obtain ⟨same, rfl⟩ := jump_ok run
  exact ⟨.refl s, s.line, same⟩

theorem silent_of_idle {x : Gen α} {good : α → Prop}
    (each : ∀ s a s', x s = .ok a s' → Idle s s' ∧ good a) : Emits c room [] (.silent good) x :=
  .of_run fun s a s' sane _ ok => ⟨(each s a s' ok).1.makes sane, (each s a s' ok).2⟩

theorem silent_modify {f : State → State} (each : ∀ s, Idle s (f s)) :
    Emits c room [] (.silent fun _ => True) (modify f : Gen Unit) :=
  silent_of_idle fun s a s' ok => by
    cases ok
    exact ⟨each s, trivial⟩

theorem silent_liftDefect (x : Except Defect α) :
    Emits c room [] (.silent fun a => x = .ok a) (liftDefect x) :=
  silent_of_idle fun _ _ _ => idle_liftDefect

theorem silent_rep (x : Except Defect Rep) (held : ∀ r, x = .ok r → r ≠ .void) :
    Emits c room [] (.silent fun r => r ≠ .void) (liftDefect x) :=
  silent_of_idle fun _ r _ ok => (idle_liftDefect ok).imp_right (held r)

theorem silent_repOf (n : Typing.Typed) : Emits c room [] (.silent fun r => r ≠ .void) (repOf ctx n) :=
  silent_rep _ fun _ => Rep.ofTy_ne_void

theorem silent_atLine (n : Typing.Typed) : Emits c room [] (.silent fun _ => True) (atLine n) :=
  silent_of_idle fun _ _ _ ok => ⟨idle_atLine ok, trivial⟩

theorem silent_jump (op : Opcode) :
    Emits c room [] (.silent fun leave => ∃ line, leave = fun d => ⟨op, .jump d, line⟩) (jump op) :=
  silent_of_idle fun _ _ _ => idle_jump

/-! ### Instructions -/

theorem Makes.single {op : Opcode} {operand : Operand} {line : Int} (h : Makes c s s' [])
    (fits : Instr.Fits s'.pool.entries s'.locals.max ⟨op, operand, line⟩)
    (plain : ∀ d, operand ≠ .jump d) :
    Makes c s s' [⟨op, operand, line⟩] ∧ Closed [⟨op, operand, line⟩] := by
  have next := h.next
  have most := h.most
  have nothing : Fragment.size [] = 0 := rfl
  exact ⟨⟨h.keeps, h.grows, by omega, by omega, h.sane, List.forall_mem_singleton.2 fits⟩,
    Fragment.closed_single plain⟩

theorem emits_emitWith {op : Opcode} {operand : Operand}
    (fits : ∀ constants room line, Instr.Fits constants room ⟨op, operand, line⟩)
    (plain : ∀ d, operand ≠ .jump d) : Emits c room [] .fragment (emitWith op operand) :=
  .of_run fun s code s' sane _ ok => by
    obtain ⟨rfl, rfl⟩ := emitWith_ok ok
    exact (Makes.refl sane).single (fits _ _ _) plain

theorem emits_emit {op : Opcode} (kind : op.operands = .none) : Emits c room [] .fragment (emit op) :=
  emits_emitWith (fun _ _ _ => .none kind) nofun

theorem emits_byte {op : Opcode} (kind : op.operands = .byte) (value : Nat) :
    Emits c room [] .fragment (emitWith op (.byte value)) :=
  emits_emitWith (fun _ _ _ => .byte kind) nofun

def Moves (op : Opcode) (r : Rep) : Prop :=
  op.operands = .slot ∧ (r ≠ .void → op.slotWords ≤ r.width)

theorem moves_load (r : Rep) : Moves (loadOp r) r := by
  cases r <;> exact ⟨rfl, by decide⟩

theorem moves_store (r : Rep) : Moves (storeOp r) r := by
  cases r <;> exact ⟨rfl, by decide⟩

theorem Moves.fits {op : Opcode} {l : Local} {constants : Array Constant} {line : Int}
    (moves : Moves op l.repr) (placed : l.Placed room) :
    Instr.Fits constants room ⟨op, .word l.slot, line⟩ := by
  have below := placed.below
  have words := moves.2 placed.held
  exact .slot moves.1 placed.positive (by omega)

theorem Moves.emits {op : Opcode} {l : Local} (moves : Moves op l.repr) (placed : l.Placed room) :
    Emits c room [] .fragment (emitWith op (.word l.slot)) :=
  .of_run fun s code s' sane fits ok => by
    obtain ⟨rfl, rfl⟩ := emitWith_ok ok
    exact (Makes.refl sane).single (moves.fits (placed.mono fits)) nofun

theorem emits_load {l : Local} (placed : l.Placed room) : Emits c room [] .fragment (load l) :=
  (moves_load l.repr).emits placed

theorem constant_makes {op : Opcode} {k : Constant} {i : Nat} (sane : s.Sane c)
    (expected : op.constantKind? = some k.kind) (alone : k.Alone) (ok : constant ctx k s = .ok i s') :
    Makes c s s' [] ∧ op.Refers s'.pool.entries i := by
  unfold constant at ok
  obtain ⟨pool, s₁, runG, ok⟩ := bind_ok ok
  cases runG
  cases added : s.pool.add k with
  | none =>
    simp only [added] at ok
    exact (fail_ok ok).elim
  | some e =>
    obtain ⟨j, pool⟩ := e
    simp only [added] at ok
    cases ok
    have keeps := Pool.add_extends added
    obtain ⟨sound, refers⟩ := Pool.Sound.refers sane.pool expected alone added
    have sane' : State.Sane { s with pool } c :=
      ⟨sane.locals, sound, fun m inside => (sane.methods m inside).mono keeps, sane.titled, sane.work⟩
    exact ⟨.of_same keeps rfl rfl sane', refers⟩

theorem emitConst_makes {op : Opcode} {k : Constant} {code : Fragment} (sane : s.Sane c)
    (expected : op.constantKind? = some k.kind) (alone : k.Alone) (ok : emitConst ctx op k s = .ok code s') :
    ∃ (i : Nat) (line : Int), code = [⟨op, .word i, line⟩] ∧ Makes c s s' [] ∧
      op.Refers s'.pool.entries i := by
  unfold emitConst at ok
  obtain ⟨i, s₁, runC, ok⟩ := bind_ok ok
  obtain ⟨makes, refers⟩ := constant_makes sane expected alone runC
  obtain ⟨rfl, rfl⟩ := emitWith_ok ok
  exact ⟨i, _, rfl, makes, refers⟩

theorem emits_emitConst {op : Opcode} {k : Constant} (kind : op.operands = .constant)
    (expected : op.constantKind? = some k.kind) (alone : k.Alone) :
    Emits c room [] .fragment (emitConst ctx op k) :=
  .of_run fun s code s' sane _ ok => by
    obtain ⟨i, line, rfl, makes, refers⟩ := emitConst_makes sane expected alone ok
    exact makes.single (.constant kind refers) nofun

theorem alone_of_constantKind? {op : Opcode} {k : Constant} (expected : op.constantKind? = some k.kind)
    (other : op.constantKind? ≠ some .host) : k.Alone :=
  Constant.alone_of_ne_host (Constant.isKnown_of_constantKind? expected) fun same => other (same ▸ expected)

theorem emits_constant {op : Opcode} {k : Constant} (kind : op.operands = .constant)
    (expected : op.constantKind? = some k.kind) (other : op.constantKind? ≠ some .host) :
    Emits c room [] .fragment (emitConst ctx op k) :=
  emits_emitConst kind expected (alone_of_constantKind? expected other)

theorem emits_emitClosure {k : Constant} (kind : k.kind = .method) (captures : Nat) :
    Emits c room [] .fragment (emitClosure ctx k captures) :=
  .of_run fun s code s' sane _ ok => by
    unfold emitClosure at ok
    obtain ⟨i, s₁, runC, ok⟩ := bind_ok ok
    have expected : Opcode.closure.constantKind? = some k.kind := by rw [kind]; rfl
    obtain ⟨makes, refers⟩ := constant_makes sane expected (alone_of_constantKind? expected (by decide)) runC
    obtain ⟨rfl, rfl⟩ := emitWith_ok ok
    exact makes.single (.closure rfl refers) nofun

theorem emits_nothing : Emits c room [] .fragment (pure []) := .done rfl trivial

theorem emits_drop (r : Rep) : Emits c room [] .fragment (drop r) := by
  cases r <;> first | exact emits_emit rfl | exact emits_nothing

theorem emits_unbox (r : Rep) : Emits c room [] .fragment (unbox r) := by
  cases r <;> first | exact emits_emit rfl | exact emits_nothing

theorem emits_coerce (source target : Rep) : Emits c room [] .fragment (coerce source target) := by
  have unit (r : Rep) : Emits c room [] .fragment (do
      let u ← emit .unit
      pure (u ++ (← unbox r))) :=
    (emits_emit rfl).bind fun u closed => (emits_unbox r).bind fun c closed' =>
      .done rfl (closed.append closed')
  cases source <;> cases target <;>
    first
    | exact emits_nothing
    | exact emits_drop _
    | exact emits_unbox _
    | exact emits_emit rfl
    | exact unit _
    | exact .fail _

theorem emits_branch (cond : Fragment) {yes no : Fragment} {test : Opcode} {line line' : Int}
    (kind : test.operands = .jump) (same : front = cond ++ yes ++ no) (hc : Closed cond)
    (hy : Closed yes) (hn : Closed no) :
    let asked := yes ++ [⟨.goto, .jump no.size, line'⟩]
    Emits c room front .fragment
      (pure (cond ++ ⟨test, .jump (Fragment.size asked), line⟩ :: asked ++ no)) := by
  intro asked
  subst same
  refine .pure ?_ ?_ ?_
  · intro i inside
    have inside : i ∈ cond ++ ⟨test, .jump (Fragment.size asked), line⟩ :: asked ++ no := inside
    simp only [asked, List.mem_append, List.mem_cons, List.not_mem_nil, or_false] at inside ⊢
    rcases inside with (before | rfl | after | rfl) | behind
    · exact .inl (.inl (.inl before))
    · exact .inr ⟨test, _, line, kind, rfl⟩
    · exact .inl (.inl (.inr after))
    · exact .inr ⟨.goto, _, line', rfl, rfl⟩
    · exact .inl (.inr behind)
  · change Fragment.size (cond ++ yes ++ no) ≤
      Fragment.size (cond ++ ⟨test, .jump (Fragment.size asked), line⟩ :: asked ++ no)
    simp only [asked, size_append, size_cons]
    omega
  · change Closed (cond ++ ⟨test, .jump (Fragment.size asked), line⟩ :: asked ++ no)
    rw [List.append_assoc]
    exact hc.append (Fragment.closed_branch test .goto line line' hy hn)

theorem emits_boolFromJump {op : Opcode} (kind : op.operands = .jump) :
    Emits c room [] .fragment (boolFromJump op) := by
  refine (silent_jump op).skip ?_
  rintro taken ⟨line, rfl⟩
  refine (emits_byte rfl 0).bind fun no closed => (silent_jump .goto).skip ?_
  rintro pass ⟨line', rfl⟩
  exact (emits_byte rfl 1).bind fun yes closed' =>
    emits_branch [] kind rfl trivial closed closed'

/-! ### Scopes -/

theorem Emits.inScope {x : Gen α} (h : Emits c room front P x) : Emits c room front P (inScope x) := by
  intro s₀ s a s' made fits ok
  obtain ⟨s₁, runX, rfl⟩ := inScope_ok ok
  obtain ⟨all, good, longer⟩ := h s₀ s a s₁ made fits runX
  have next := made.next
  refine ⟨⟨all.keeps, all.grows, Nat.le_trans next (Nat.add_le_add_left longer _), all.most, ?_,
    all.fits⟩, good, longer⟩
  exact { all.sane with
    locals := all.sane.locals.of_subset (fun _ => LocalTable.mem_all_rollback) (Nat.le_refl _) }

theorem Emits.define {name : String} {r : Rep} {f : Local → Fragment → Gen β} (held : r ≠ .void)
    (next : ∀ l keep room', room ≤ room' → l.Placed room' → Closed keep →
      Emits c room' (front ++ keep) Q (f l keep)) :
    Emits c room front Q (do
      let l ← define name r
      let keep ← store l
      f l keep) := by
  intro s₀ s b s' made fits ok
  obtain ⟨l, s₁, runD, ok⟩ := bind_ok ok
  obtain ⟨keep, s₂, runS, ok⟩ := bind_ok ok
  obtain ⟨rfl, rfl⟩ := define_ok runD
  obtain ⟨rfl, rfl⟩ := emitWith_ok runS
  have placed := LocalTable.placed_define s.locals name held
  have more : s.locals.max ≤ (s.locals.define name r).2.max := Nat.le_max_left _ _
  have words : r.width ≤ 2 := by cases r <;> decide
  have closed : Closed [⟨storeOp r, .word s.locals.next, s.line⟩] := Fragment.closed_single nofun
  have makes : Makes c s { s with locals := (s.locals.define name r).2 }
      [⟨storeOp r, .word s.locals.next, s.line⟩] := by
    refine ⟨.refl _, more, Nat.add_le_add_left (Nat.le_trans words (Nat.le_succ 2)) _, ?_, ?_, ?_⟩
    · rcases Nat.le_total s.locals.max (s.locals.next + r.width) with larger | smaller
      · refine .inr (Nat.le_trans (Nat.le_of_eq (Nat.max_eq_right larger)) ?_)
        exact Nat.add_le_add_left (Nat.le_trans words (Nat.le_succ 2)) _
      · exact .inl (Nat.le_of_eq (Nat.max_eq_left smaller))
    · exact { made.sane with locals := made.sane.locals.define name held }
    · intro i inside
      cases List.mem_singleton.1 inside
      exact (moves_store r).fits placed
  obtain ⟨all, good, longer⟩ := next _ _ _ (Nat.le_trans fits more) placed closed s₀ _ b s'
    (made.trans makes) (Nat.le_refl _) ok
  refine ⟨all, good, Nat.le_trans ?_ longer⟩
  rw [size_append]
  exact Nat.le_add_right _ _

end Codegen
end StackML
