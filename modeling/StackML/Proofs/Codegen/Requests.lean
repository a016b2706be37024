import Mathlib.Data.Finset.Card
import Mathlib.Data.Finset.Prod
import StackML.Codegen.Module
import StackML.Proofs.Codegen.Emission
import StackML.Proofs.Expr.Notes
import StackML.Proofs.Ty.Suffix

/-!
The methods that code generation calls for. A name that is queued while code is generated is owed a
constant, and gets it when the call is written; so after the code of an expression every new name
has a constant of the pool that calls it. A constant belongs to at most one name of each function,
and the pool is bounded. Hence so are the names.
-/

namespace StackML

structure Pool.Bounded (p : Pool) : Prop where
  keys : p.index.size ≤ p.entries.size
  small : p.entries.size ≤ limit

theorem Pool.bounded_empty : Pool.Bounded {} := ⟨by decide, by decide⟩

theorem Pool.add_ok {p p' : Pool} {k : Constant} {i : Nat} (run : p.add k = some (i, p')) :
    k.key ∈ p'.index ∧ (∀ key ∈ p.index, key ∈ p'.index) ∧ (p.Bounded → p'.Bounded) := by
  unfold Pool.add at run
  cases known : p.index.get? k.key with
  | some j =>
    simp only [known, Option.some.injEq, Prod.mk.injEq] at run
    obtain ⟨rfl, rfl⟩ := run
    have member : k.key ∈ p.index := by
      rw [Std.TreeMap.mem_iff_isSome_getElem?, ← Std.TreeMap.get?_eq_getElem?, known]
      rfl
    exact ⟨member, fun _ h => h, id⟩
  | none =>
    simp only [known] at run
    split at run
    · cases run
    · next room =>
      simp only [Option.some.injEq, Prod.mk.injEq] at run
      obtain ⟨rfl, rfl⟩ := run
      refine ⟨Std.TreeMap.mem_insert_self, fun key h => Std.TreeMap.mem_insert.2 (.inr h), ?_⟩
      rintro ⟨keys, -⟩
      have grown : (p.index.insert k.key p.entries.size).size ≤ p.index.size + 1 :=
        Std.TreeMap.size_insert_le
      exact ⟨by rw [Array.size_push]; exact grown.trans (by omega), by rw [Array.size_push]; omega⟩

namespace Codegen

open Typing (Typed Checked)

variable {c : Checked} {ctx : Context} {α β : Type}

/-! ### Names of methods -/

def functionNames (c : Checked) : List String := c.functions.values.map (·.decl.name)

/-- A name that a method of a function may have: the function's own and, behind it, what tells its
methods apart. -/
def MethodName (c : Checked) (name : String) : Prop :=
  ∃ f ∈ functionNames c, ∃ ext : String, name = f ++ ext ∧ '(' ∉ ext.toList

def callKey (c : Checked) (name descriptor : String) : Text :=
  (methodRef { checked := c } name descriptor).key

theorem callKey_eq (name descriptor : String) :
    callKey c name descriptor = Text.ofString ("3:" ++ c.module.name ++ "." ++ (name ++ descriptor)) := by
  have key : callKey c name descriptor =
      .concat [Text.ofInt 3, ":", c.module.name, ".", name, descriptor] := rfl
  have three : (Text.ofInt 3).bytes ++ (Text.ofString ":").bytes = (Text.ofString "3:").bytes := rfl
  refine Text.ext_bytes ?_
  rw [key]
  simp only [Text.bytes_concat, Text.bytes_ofString_append, List.map_cons, List.map_nil,
    List.flatten_cons, List.flatten_nil, List.append_nil, ← three, List.append_assoc]

theorem ext_of_callKey {f ext ext' d d' : String} (plain : '(' ∉ ext.toList)
    (plain' : '(' ∉ ext'.toList)
    (same : callKey c (f ++ ext) ("(" ++ d) = callKey c (f ++ ext') ("(" ++ d')) : ext = ext' := by
  have front : ∀ x r : List Char, '(' ∉ x → (x ++ '(' :: r).takeWhile (· != '(') = x := by
    intro x r absent
    rw [List.takeWhile_append_of_pos]
    · simp
    · intro a member
      simpa using fun h : a = '(' => absent (h ▸ member)
  rw [callKey_eq, callKey_eq] at same
  have lists := congrArg String.toList (Text.ofString_injective same)
  simp only [String.toList_append, List.append_assoc, List.append_cancel_left_eq] at lists
  have bracket : "(".toList = ['('] := rfl
  rw [bracket, List.singleton_append, List.singleton_append] at lists
  rw [← String.toList_inj, ← front _ _ plain, lists, front _ _ plain']

def Called (c : Checked) (p : Pool) (name : String) : Prop :=
  MethodName c name ∧ ∃ descriptor : String, callKey c name ("(" ++ descriptor) ∈ p.index

theorem Called.mono {p p' : Pool} {name : String} (h : Called c p name)
    (kept : ∀ key ∈ p.index, key ∈ p'.index) : Called c p' name := by
  obtain ⟨named, d, found⟩ := h
  exact ⟨named, d, kept _ found⟩

theorem length_le_of_called {p : Pool} {names : List String} (bounded : p.Bounded)
    (distinct : names.Nodup) (called : ∀ name ∈ names, Called c p name) :
    names.length ≤ c.functions.size * Pool.limit := by
  classical
  unfold Called MethodName at called
  choose! named d found using called
  choose! f member ext same plain using named
  let pairs := (functionNames c).toFinset ×ˢ p.index.keys.toFinset
  have inside : Set.MapsTo (fun name => (f name, callKey c name ("(" ++ d name)))
      (names.toFinset : Set String) pairs := by
    intro name inside
    have inside : name ∈ names := by simpa using inside
    simp only [pairs, Finset.coe_product, Set.mem_prod, Finset.mem_coe, List.mem_toFinset,
      Std.TreeMap.mem_keys]
    exact ⟨member name inside, found name inside⟩
  have injective : Set.InjOn (fun name => (f name, callKey c name ("(" ++ d name)))
      (names.toFinset : Set String) := by
    intro a inA b inB equal
    have inA : a ∈ names := by simpa using inA
    have inB : b ∈ names := by simpa using inB
    obtain ⟨sameF, sameKey⟩ := Prod.mk.inj equal
    rw [same a inA, same b inB, sameF] at sameKey ⊢
    rw [ext_of_callKey (plain a inA) (plain b inB) sameKey]
  have count := Finset.card_le_card_of_injOn _ inside injective
  rw [List.toFinset_card_of_nodup distinct, Finset.card_product] at count
  refine count.trans (Nat.mul_le_mul ?_ ?_)
  · refine (List.toFinset_card_le _).trans ?_
    simp [functionNames, NameMap.size, NameMap.values]
  · refine (List.toFinset_card_le _).trans ?_
    rw [Std.TreeMap.length_keys]
    exact bounded.keys.trans bounded.small

/-! ### What is owed -/

structure Requests (c : Checked) (owed : List String) (s s' : State) : Prop where
  queued : ∃ new : List Specialization, s'.work = s.work ++ new ∧
    s'.queued = (new.map (·.name)).reverse ++ s.queued ∧
    ∀ m ∈ new, m.name ∈ owed ∨ Called c s'.pool m.name
  distinct : s.queued.Nodup → s'.queued.Nodup
  kept : ∀ key ∈ s.pool.index, key ∈ s'.pool.index
  bounded : s.pool.Bounded → s'.pool.Bounded

theorem Requests.of_same {owed : List String} {s s' : State} (work : s'.work = s.work)
    (queued : s'.queued = s.queued) (pool : s'.pool = s.pool) : Requests c owed s s' :=
  ⟨⟨[], by simp [work], by simp [queued], by simp⟩, by rw [queued]; exact id,
    by rw [pool]; exact fun _ h => h, by rw [pool]; exact id⟩

/-- A run that begins with names that are owed a constant and ends with others that are. -/
def Accounts (c : Checked) (owed : List String) (x : Gen α) (left : α → List String → Prop) : Prop :=
  ∀ s a s', x s = .ok a s' → ∃ rest, left a rest ∧ Requests c rest s s' ∧
    ∀ name ∈ owed, name ∈ rest ∨ Called c s'.pool name

def Neutral (c : Checked) (x : Gen α) : Prop :=
  ∀ owed, Accounts c owed x fun _ rest => rest = owed

section Accounts

variable {owed : List String} {x : Gen α} {next : α → Gen β} {left : α → List String → Prop}
  {left' : β → List String → Prop}

theorem Accounts.bind (first : Accounts c owed x left)
    (second : ∀ a rest, left a rest → Accounts c rest (next a) left') :
    Accounts c owed (x >>= next) left' := by
  intro s b s' run
  obtain ⟨a, s₁, runX, runN⟩ := bind_ok run
  obtain ⟨rest₁, holds₁, requests₁, paid₁⟩ := first s a s₁ runX
  obtain ⟨rest₂, holds₂, requests₂, paid₂⟩ := second a rest₁ holds₁ s₁ b s' runN
  -- a name that is owed or called half-way is owed or called at the end
  have later : ∀ name, name ∈ rest₁ ∨ Called c s₁.pool name →
      name ∈ rest₂ ∨ Called c s'.pool name := by
    rintro name (inside | called)
    · exact paid₂ name inside
    · exact .inr (called.mono requests₂.kept)
  refine ⟨rest₂, holds₂, ⟨?_, requests₂.distinct ∘ requests₁.distinct,
    fun key h => requests₂.kept key (requests₁.kept key h), requests₂.bounded ∘ requests₁.bounded⟩,
    fun name inside => later name (paid₁ name inside)⟩
  obtain ⟨new₁, work₁, queued₁, each₁⟩ := requests₁.queued
  obtain ⟨new₂, work₂, queued₂, each₂⟩ := requests₂.queued
  refine ⟨new₁ ++ new₂, by rw [work₂, work₁, List.append_assoc], by simp [queued₂, queued₁], ?_⟩
  intro m member
  rcases List.mem_append.1 member with early | late
  · exact later m.name (each₁ m early)
  · exact each₂ m late

theorem Neutral.bind (first : Neutral c x) (second : ∀ a, Neutral c (next a)) :
    Neutral c (x >>= next) := by
  intro owed
  refine Accounts.bind (first owed) ?_
  rintro a rest rfl
  exact second a rest

theorem Neutral.of_same (same : ∀ s a s', x s = .ok a s' →
    s'.work = s.work ∧ s'.queued = s.queued ∧ s'.pool = s.pool) : Neutral c x := by
  intro owed s a s' run
  obtain ⟨work, queued, pool⟩ := same s a s' run
  exact ⟨owed, rfl, .of_same work queued pool, fun name inside => .inl inside⟩

theorem Neutral.of_state (same : ∀ s a s', x s = .ok a s' → s = s') : Neutral c x :=
  .of_same fun s a s' run => by cases same s a s' run; exact ⟨rfl, rfl, rfl⟩

theorem neutral_pure (a : α) : Neutral c (pure a) := .of_state fun s b s' run => by cases run; rfl

theorem Neutral.ite {p : Prop} [Decidable p] {y : Gen α} (yes : p → Neutral c x)
    (no : ¬p → Neutral c y) : Neutral c (if p then x else y) := by
  split
  · exact yes ‹_›
  · exact no ‹_›

theorem Neutral.mapM {l : List β} {f : β → Gen α} (each : ∀ b ∈ l, Neutral c (f b)) :
    Neutral c (l.mapM f) := by
  induction l with
  | nil => exact neutral_pure []
  | cons b l ih =>
    rw [List.forall_mem_cons] at each
    rw [List.mapM_cons]
    exact each.1.bind fun a => (ih each.2).bind fun as => neutral_pure (a :: as)

theorem Accounts.forIn {l : List β} {f : β → α → Gen (ForInStep α)}
    (each : ∀ b ∈ l, ∀ a, Accounts c owed (f b a) fun _ rest => rest = owed) (start : α) :
    Accounts c owed (forIn l start f) fun _ rest => rest = owed := by
  induction l generalizing start with
  | nil => exact neutral_pure start owed
  | cons b l ih =>
    rw [List.forall_mem_cons] at each
    rw [List.forIn_cons]
    refine (each.1 start).bind ?_
    rintro step _ rfl
    cases step with
    | done a => exact neutral_pure a _
    | yield a => exact ih each.2 a

theorem Neutral.forIn {l : List β} {f : β → α → Gen (ForInStep α)}
    (each : ∀ b a, Neutral c (f b a)) (start : α) : Neutral c (forIn l start f) :=
  fun owed => Accounts.forIn (fun b _ a => each b a owed) start

end Accounts

/-! ### Instructions, scopes and methods -/

theorem neutral_fail (d : Defect) : Neutral c (fail d : Gen α) :=
  .of_state fun _ _ _ run => (fail_ok run).elim

theorem neutral_throw (e : Error) : Neutral c (throw e : Gen α) :=
  .of_state fun _ _ _ run => by cases run

theorem neutral_get : Neutral c (get : Gen State) := .of_state fun s a s' run => by cases run; rfl

theorem neutral_modify {f : State → State}
    (same : ∀ s, (f s).work = s.work ∧ (f s).queued = s.queued ∧ (f s).pool = s.pool) :
    Neutral c (modify f : Gen PUnit) := .of_same fun s a s' run => by cases run; exact same s

theorem neutral_liftDefect (x : Except Defect α) : Neutral c (liftDefect x) :=
  .of_state fun _ _ _ run => (liftDefect_ok run).2

theorem neutral_repOf (n : Typed) : Neutral c (repOf ctx n) := neutral_liftDefect _

theorem neutral_emitWith (op : Opcode) (operand : Operand) : Neutral c (emitWith op operand) :=
  .of_state fun _ _ _ run => (emitWith_ok run).2

theorem neutral_emit (op : Opcode) : Neutral c (emit op) := neutral_emitWith op .none

theorem neutral_jump (op : Opcode) : Neutral c (jump op) :=
  .of_state fun _ _ _ run => (jump_ok run).2

theorem neutral_atLine (n : Typed) : Neutral c (atLine n) := by
  unfold atLine
  exact .ite (fun _ => neutral_modify fun _ => ⟨rfl, rfl, rfl⟩) fun _ => neutral_pure ()

theorem neutral_load (l : Local) : Neutral c (load l) := neutral_emitWith _ _

theorem neutral_store (l : Local) : Neutral c (store l) := neutral_emitWith _ _

theorem neutral_drop (r : Rep) : Neutral c (drop r) := .of_state fun _ _ _ run => drop_ok run

theorem neutral_coerce (source target : Rep) : Neutral c (coerce source target) :=
  .of_state fun _ _ _ run => coerce_ok run

theorem neutral_boolFromJump (op : Opcode) : Neutral c (boolFromJump op) :=
  .of_state fun _ _ _ run => boolFromJump_ok run

theorem neutral_define (name : String) (r : Rep) : Neutral c (define name r) :=
  .of_same fun s l s' run => by
    obtain ⟨-, rfl⟩ := define_ok run
    exact ⟨rfl, rfl, rfl⟩

theorem constant_requests {k : Constant} {i : Nat} {s s' : State} (owed : List String)
    (run : constant ctx k s = .ok i s') : Requests c owed s s' ∧ k.key ∈ s'.pool.index := by
  unfold constant at run
  obtain ⟨pool, s₁, runG, run⟩ := bind_ok run
  cases runG
  cases added : s.pool.add k with
  | none =>
    simp only [added] at run
    exact (fail_ok run).elim
  | some e =>
    obtain ⟨j, pool⟩ := e
    simp only [added] at run
    cases run
    obtain ⟨found, kept, bounded⟩ := Pool.add_ok added
    exact ⟨⟨⟨[], by simp, by simp, by simp⟩, id, kept, bounded⟩, found⟩

theorem neutral_constant (k : Constant) : Neutral c (constant ctx k) := by
  intro owed s i s' run
  exact ⟨owed, rfl, (constant_requests owed run).1, fun name inside => .inl inside⟩

theorem neutral_emitConst (op : Opcode) (k : Constant) : Neutral c (emitConst ctx op k) :=
  (neutral_constant k).bind fun _ => neutral_emitWith _ _

theorem neutral_emitClosure (k : Constant) (captures : Nat) :
    Neutral c (emitClosure ctx k captures) :=
  (neutral_constant k).bind fun _ => neutral_emitWith _ _

theorem Neutral.asRep {n : Typed} {target : Rep} {x : Gen Fragment} (h : Neutral c x) :
    Neutral c (asRep ctx n target x) :=
  (neutral_repOf n).bind fun _ => h.bind fun _ => (neutral_coerce _ _).bind fun _ => neutral_pure _

theorem Neutral.inScope {x : Gen α} (h : Neutral c x) : Neutral c (inScope x) :=
  neutral_get.bind fun _ => h.bind fun _ =>
    Neutral.bind (neutral_modify fun _ => ⟨rfl, rfl, rfl⟩) fun _ => neutral_pure _

theorem neutral_addMethod (m : Method) : Neutral c (addMethod m) :=
  neutral_modify fun _ => ⟨rfl, rfl, rfl⟩

theorem Accounts.separately {owed : List String} {left : α → List String → Prop} {line : Int}
    {x : Gen α} (h : Accounts c owed x left) : Accounts c owed (separately line x) left := by
  intro s a s' run
  unfold Codegen.separately at run
  obtain ⟨_, _, runG, run⟩ := bind_ok run
  cases runG
  obtain ⟨_, _, runS, run⟩ := bind_ok run
  cases runS
  obtain ⟨a, s₁, runX, run⟩ := bind_ok run
  cases run
  obtain ⟨rest, holds, ⟨queued, distinct, kept, bounded⟩, paid⟩ := h _ a s₁ runX
  exact ⟨rest, holds, ⟨queued, distinct, kept, bounded⟩, paid⟩

theorem Neutral.separately {line : Int} {x : Gen α} (h : Neutral c x) :
    Neutral c (separately line x) := fun owed => (h owed).separately

theorem Neutral.bodyCode {n : Typed} {result : Rep} {x : Gen Fragment} (h : Neutral c x) :
    Neutral c (bodyCode ctx n result x) := by
  refine h.asRep.bind fun _ => (neutral_emit _).bind fun _ => ?_
  exact .ite (fun _ => (neutral_fail _).bind fun _ => neutral_pure _) fun _ => neutral_pure _

/-! ### Calls of functions -/

theorem enqueue_accounts (m : Specialization) {owed : List String} :
    Accounts c owed (enqueue m) fun _ rest => rest = m.name :: owed := by
  intro s u s' run
  cases run
  refine ⟨_, rfl, ?_, fun name inside => .inl (List.mem_cons_of_mem _ inside)⟩
  dsimp only
  split
  · exact .of_same rfl rfl rfl
  · next free =>
    refine ⟨⟨[m], rfl, rfl, by simp⟩, fun distinct => ?_, fun _ h => h, id⟩
    exact List.nodup_cons.2 ⟨by simpa using free, distinct⟩

theorem specialize_accounts {fn : Typing.Function} {t : Ty} {owed : List String}
    (known : fn.decl.name ∈ functionNames c) :
    Accounts c owed (specialize fn t) fun r rest => rest = r.1 :: owed ∧ MethodName c r.1 := by
  unfold specialize
  dsimp only
  split
  · exact fun s r s' run => by cases run
  · refine Accounts.bind (neutral_modify (fun s => ?_) owed) ?_
    · split <;> exact ⟨rfl, rfl, rfl⟩
    · rintro _ rest rfl
      refine Accounts.bind (enqueue_accounts _) ?_
      rintro _ rest rfl
      intro s r s' run
      cases run
      refine ⟨_, ⟨rfl, fn.decl.name, known, _, String.append_assoc .., ?_⟩, .of_same rfl rfl rfl,
        fun name inside => .inl inside⟩
      rw [String.toList_append, List.mem_append, not_or]
      exact ⟨by decide, Ty.suffix_not_mem (by decide +kernel) (by decide)⟩

theorem target_accounts {fn : Typing.Function} {t : Ty} {owed : List String}
    (known : fn.decl.name ∈ functionNames c) :
    Accounts c owed (target fn t) fun r rest => rest = r.1 :: owed ∧ MethodName c r.1 := by
  unfold target
  split
  · exact specialize_accounts known
  · intro s r s' run
    cases run
    refine ⟨_, ⟨rfl, fn.decl.name, known, "", by simp, by simp⟩, .of_same rfl rfl rfl, ?_⟩
    exact fun name inside => .inl (List.mem_cons_of_mem _ inside)

theorem NameMap.mem_values {γ : Type} {m : NameMap γ} {name : String} {v : γ}
    (found : m.get? name = some v) : v ∈ m.values := by
  obtain ⟨l, r, split, -⟩ := List.lookup_eq_some_iff.1 found
  rw [NameMap.values, split]
  simp

theorem mem_functionNames {name : String} {fn : Typing.Function} (own : ctx.checked = c)
    (found : ctx.checked.functions.get? name = some fn) : fn.decl.name ∈ functionNames c :=
  own ▸ List.mem_map_of_mem (NameMap.mem_values found)

theorem write_eq {params : List Ty} {result : Ty} {descriptor : String}
    (written : Descriptor.write params result = .ok descriptor) :
    ∃ rest, descriptor = "(" ++ rest := by
  unfold Descriptor.write at written
  cases items : params.mapM Descriptor.ofTy with
  | error d =>
    rw [items] at written
    cases written
  | ok ps =>
    cases last : Descriptor.ofResult result with
    | error d =>
      rw [items, last] at written
      cases written
    | ok r =>
      rw [items, last] at written
      cases written
      exact ⟨String.join ps ++ ")" ++ r, by simp only [String.append_assoc]⟩

theorem constant_pays {name descriptor : String} {owed : List String} (own : ctx.checked = c)
    (named : MethodName c name) (opens : ∃ rest, descriptor = "(" ++ rest) :
    Accounts c (name :: owed) (constant ctx (methodRef ctx name descriptor))
      fun _ rest => rest = owed := by
  obtain ⟨rest, rfl⟩ := opens
  intro s i s' run
  obtain ⟨requests, found⟩ := constant_requests (c := c) owed run
  refine ⟨owed, rfl, requests, fun other inside => ?_⟩
  rcases List.mem_cons.1 inside with rfl | inside
  · subst own
    exact .inr ⟨named, rest, found⟩
  · exact .inl inside

theorem Accounts.neutral {owed rest : List String} {x : Gen α} {next : α → Gen β}
    (first : Accounts c owed x fun _ left => left = rest) (second : ∀ a, Neutral c (next a)) :
    Accounts c owed (x >>= next) fun _ left => left = rest := by
  refine first.bind ?_
  rintro a _ rfl
  exact second a _

theorem descriptorOf_accounts {t : Ty} {arity : Nat} {owed : List String} :
    Accounts c owed (descriptorOf t arity) fun d rest => rest = owed ∧ ∃ tail, d = "(" ++ tail := by
  intro s d s' run
  obtain ⟨written, rfl⟩ := liftDefect_ok run
  exact ⟨owed, ⟨rfl, write_eq written⟩, .of_same rfl rfl rfl, fun name inside => .inl inside⟩

theorem neutral_functionValue {fn : Typing.Function} {t : Ty} {use : Rep} (own : ctx.checked = c)
    (known : fn.decl.name ∈ functionNames c) : Neutral c (functionValue ctx fn t use) := by
  intro owed
  refine Accounts.bind (target_accounts known) ?_
  rintro ⟨name, type⟩ _ ⟨rfl, named⟩
  refine Accounts.bind descriptorOf_accounts ?_
  rintro descriptor _ ⟨rfl, opens⟩
  have paid : Accounts c (name :: owed) (constant ctx (methodRef ctx name descriptor))
      fun _ rest => rest = owed := constant_pays own named opens
  dsimp only
  split
  · refine Accounts.neutral (paid.neutral fun _ => neutral_emitWith _ _) fun _ => ?_
    exact (neutral_liftDefect _).bind fun _ => (neutral_coerce _ _).bind fun _ => neutral_pure _
  · exact paid.neutral fun _ => neutral_emitWith _ _

def Finishes (c : Checked) (owed : List String) (call : DirectCall) (rest : List String) : Prop :=
  Accounts c rest call.finish fun _ left => left = owed

theorem functionCall_accounts {fn : Typing.Function} {t : Ty} {owed : List String}
    (own : ctx.checked = c) (known : fn.decl.name ∈ functionNames c) :
    Accounts c owed (functionCall ctx fn t) (Finishes c owed) := by
  refine Accounts.bind (target_accounts known) ?_
  rintro ⟨name, type⟩ _ ⟨rfl, named⟩ s call s' run
  cases run
  refine ⟨_, ?_, .of_same rfl rfl rfl, fun name inside => .inl inside⟩
  intro s r s' run
  obtain ⟨descriptor, s₁, runD, run⟩ := bind_ok run
  obtain ⟨written, rfl⟩ := liftDefect_ok runD
  have paid : Accounts c (name :: owed) (constant ctx (methodRef ctx name descriptor))
      fun _ rest => rest = owed := constant_pays own named (write_eq written)
  refine Accounts.neutral (paid.neutral fun i => neutral_emitWith .invokestatic (.word i))
    (fun call => ?_) s r s' run
  exact (neutral_liftDefect _).bind fun _ => neutral_pure _

end Codegen
end StackML
