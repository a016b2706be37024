import StackML.Proofs.Codegen.Scope
import StackML.Proofs.Semantics.Soundness

/-!
Code that carries out evaluation. `Follows` says that a running method does what a computation of the
evaluator does: it prints the same, ends with the same fault, or gets to a view that shows the
result. The pieces of code below leave a value on the stack, take it off or move it.
-/

namespace StackML

def Semantics.Stop.issue? : Semantics.Stop → Option FaultIssue
  | divideByZero => some .divideByZero
  | noCase => some .noCase
  | stuck => none

def Ty.rep : Ty → Rep
  | int => .int
  | bool => .bool
  | double => .double
  | _ => .ref

theorem Ty.rep_ne_void (t : Ty) : t.rep ≠ .void := by
  cases t <;> simp [rep]

theorem Ty.rep_of_isSum (t : Ty) (sum : t.isSum) : t.rep = .ref := by
  cases t <;> first | rfl | cases sum

theorem Rep.eq_rep_of_ofTy {t : Ty} {r : Rep} (h : Rep.ofTy t = .ok r) : r = t.rep := by
  cases t <;> cases h <;> rfl

namespace Codegen

open Machine Semantics
open Typing (Typed)

variable {site : Site} {ip : Nat} {L S : List Word} {out : List Text} {w w' : View}
variable {A B : Type}

/-! ### Following the evaluator -/

/-- The method does, from a view on, what the evaluator does from what was printed there. -/
def Follows (site : Site) (w : View) (x : Eval A) (Q : A → View → Prop) : Prop :=
  match x w.output with
  | .ok a out => ∃ w', Leads site w w' ∧ w'.output = out ∧ Q a w'
  | .error stop out => ∃ issue, stop.issue? = some issue ∧ Ends site w issue out

namespace Follows

variable {x : Eval A} {f : A → Eval B} {P Q : A → View → Prop} {R : B → View → Prop}

theorem pure {a : A} (h : Q a w) : Follows site w (Pure.pure a) Q := ⟨w, .refl w, rfl, h⟩

theorem fault (stop : Stop) {issue : FaultIssue} (known : stop.issue? = some issue)
    (ends : Ends site w issue w.output) : Follows site w (throw stop : Eval A) Q :=
  ⟨issue, known, ends⟩

theorem mono (h : Follows site w x P) (weaker : ∀ a w, P a w → Q a w) : Follows site w x Q := by
  unfold Follows at h ⊢
  split at h
  · obtain ⟨w', leads, same, holds⟩ := h
    exact ⟨w', leads, same, weaker _ _ holds⟩
  · exact h

theorem leads (way : Leads site w w') (same : w'.output = w.output) (h : Follows site w' x Q) :
    Follows site w x Q := by
  unfold Follows at h ⊢
  rw [same] at h
  split at h
  · obtain ⟨w'', leads, printed, holds⟩ := h
    exact ⟨w'', way.trans leads, printed, holds⟩
  · obtain ⟨issue, known, ends⟩ := h
    exact ⟨issue, known, way.ends ends⟩

theorem bind (first : Follows site w x P) (next : ∀ a w', P a w' → Follows site w' (f a) R) :
    Follows site w (x >>= f) R := by
  unfold Follows at first
  cases run : x w.output with
  | ok a out =>
    rw [run] at first
    obtain ⟨w', way, rfl, holds⟩ := first
    have rest := next a w' holds
    unfold Follows at rest ⊢
    rw [bind_of_ok run]
    split at rest
    · obtain ⟨w'', leads, printed, holds⟩ := rest
      exact ⟨w'', way.trans leads, printed, holds⟩
    · obtain ⟨issue, known, ends⟩ := rest
      exact ⟨issue, known, way.ends ends⟩
  | error stop out =>
    rw [run] at first
    unfold Follows
    rw [bind_of_error run]
    exact first

theorem extend (h : Follows site w x P)
    (next : ∀ a w', P a w' → ∃ w'', Leads site w' w'' ∧ w''.output = w'.output ∧ Q a w'') :
    Follows site w x Q := by
  unfold Follows at h ⊢
  split at h
  · obtain ⟨w', leads, same, holds⟩ := h
    obtain ⟨w'', more, kept, done⟩ := next _ _ holds
    exact ⟨w'', leads.trans more, kept.trans same, done⟩
  · exact h

theorem yields {P : A → Prop} (h : Follows site w x Q) (yields : Yields P x) :
    Follows site w x fun a w => Q a w ∧ P a := by
  unfold Follows at h ⊢
  cases run : x w.output with
  | ok a out =>
    rw [run] at h
    obtain ⟨w', leads, same, holds⟩ := h
    exact ⟨w', leads, same, holds, yields _ _ _ run⟩
  | error stop out =>
    rw [run] at h
    exact h

end Follows

/-! ### Values and their words -/

variable {table : List (String × HolderClass)} {ctors : NameMap Typing.Constructor}

theorem HasType.fits (known : Describes table ctors) {v : Value} {t : Ty}
    (h : HasType table ctors v t) : Fits t.rep v := by
  cases t with
  | int =>
    obtain ⟨n, rfl⟩ := h.int_inv known
    exact .int n
  | bool =>
    obtain ⟨b, rfl⟩ := h.bool_inv known
    exact .bool b
  | double =>
    obtain ⟨bits, rfl⟩ := h.double_inv known
    exact .double bits
  | _ => exact .ref v

structure Keeps (next : Nat) (L L' : List Word) : Prop where
  length : L'.length = L.length
  below : ∀ i < next, L'[i]? = L[i]?

theorem Keeps.refl (next : Nat) (L : List Word) : Keeps next L L := ⟨rfl, fun _ _ => rfl⟩

theorem Keeps.trans {next : Nat} {L L' L'' : List Word} (first : Keeps next L L')
    (second : Keeps next L' L'') : Keeps next L L'' :=
  ⟨second.length.trans first.length,
    fun i less => (second.below i less).trans (first.below i less)⟩

theorem Keeps.mono {next next' : Nat} {L L' : List Word} (h : Keeps next' L L')
    (le : next ≤ next') : Keeps next L L' :=
  ⟨h.length, fun i less => h.below i (Nat.lt_of_lt_of_le less le)⟩

structure Leaves (ip next : Nat) (L S : List Word) (w : View) : Prop where
  ip : w.ip = ip
  locals : Keeps next L w.locals
  operands : w.operands = S

variable {s s' : State} {code : Fragment} {v : Value} {module : String} {ctx : Context}

/-! ### Places of code -/

theorem constant_found {p : Pool} {i : Nat} {k : Constant}
    (given : p.entries.toList <+: site.constants.toList) (small : p.entries.size ≤ Pool.limit)
    (found : p.entries[i]? = some k) : i < 65536 ∧ site.constants[i]? = some k := by
  have size : i < p.entries.size := (Array.getElem?_eq_some_iff.1 found).1
  obtain ⟨rest, all⟩ := given
  refine ⟨Nat.lt_of_lt_of_le size small, ?_⟩
  rw [← Array.getElem?_toList, ← all, List.getElem?_append_left (by simpa using size),
    Array.getElem?_toList, found]

structure Placed (site : Site) (ip : Nat) (code : Fragment) (s : State) (L : List Word) : Prop where
  located : site.Located ip code
  constants : s.pool.entries.toList <+: site.constants.toList
  room : s.locals.max ≤ L.length
  small : L.length ≤ 65536

namespace Placed

variable {a b : Fragment}

theorem left (h : Placed site ip (a ++ b) s' L) (grows : Grows module s s')
    (plain : s.pool.Plain module) : Placed site ip a s L :=
  ⟨h.located.left, (grows.pool plain).trans h.constants, Nat.le_trans grows.max h.room, h.small⟩

theorem right (h : Placed site ip (a ++ b) s L) {next : Nat} {L' : List Word}
    (keeps : Keeps next L L') : Placed site (ip + a.size) b s L' :=
  ⟨h.located.right, h.constants, keeps.length ▸ h.room, keeps.length ▸ h.small⟩

theorem constant {op : Opcode} {k : Constant} (named : module ≠ "") (known : k.Plain module)
    (plain : s.pool.Plain module) (run : emitConst ctx op k s = .ok code s')
    (h : Placed site ip code s' L) :
    ∃ (i : Nat) (line : Int), code = [⟨op, .word i, line⟩] ∧ i < 65536 ∧
      site.constants[i]? = some k := by
  obtain ⟨i, rfl, settles, found⟩ := emitConst_ok named known run
  exact ⟨i, _, rfl, constant_found h.constants (settles.plain plain).small (found plain)⟩

end Placed

/-! ### Conversions -/

theorem coerce_leads {r r' : Rep} (fits : Fits r v) (fits' : Fits r' v)
    (run : coerce r r' s = .ok code s') (at_ : site.Located ip code) :
    Leads site ⟨ip, L, words r v ++ S, out⟩ ⟨ip + code.size, L, words r' v ++ S, out⟩ := by
  cases fits with
  | int n =>
    cases fits' with
    | int =>
      cases run
      exact .refl _
    | ref =>
      cases run
      exact .boxI at_
  | bool b =>
    cases fits' with
    | bool =>
      cases run
      exact .refl _
    | ref =>
      cases run
      exact .boxZ at_
  | double bits =>
    cases fits' with
    | double =>
      cases run
      exact .refl _
    | ref =>
      cases run
      exact .boxD at_
  | ref =>
    cases fits' with
    | int n =>
      cases run
      exact .unboxI at_
    | bool b =>
      cases run
      exact .unboxZ at_
    | double bits =>
      cases run
      exact .unboxD at_
    | ref =>
      cases run
      exact .refl _
    | void =>
      cases run
      exact .pop at_
  | void =>
    cases fits' with
    | ref =>
      cases run
      exact .unit at_
    | void =>
      cases run
      exact .refl _

theorem drop_leads {r : Rep} (fits : Fits r v) (run : drop r s = .ok code s')
    (at_ : site.Located ip code) :
    Leads site ⟨ip, L, words r v ++ S, out⟩ ⟨ip + code.size, L, S, out⟩ := by
  cases fits with
  | int | bool | ref =>
    cases run
    exact .pop at_
  | double =>
    cases run
    exact .pop2 at_
  | void =>
    cases run
    exact .refl _

theorem toText_leads {r : Rep} {t : Ty} (fits : Fits r v) (visible : r ≠ .void)
    (text : t = .string → ∃ x, v = .str x) (heap : site.world.heap = {})
    (run : toText r t s = .ok code s') (at_ : site.Located ip code) :
    Leads site ⟨ip, L, words r v ++ S, out⟩
      ⟨ip + code.size, L, .ofValue (.str (textOf v)) :: S, out⟩ := by
  unfold textOf
  rw [← heap]
  cases fits with
  | int | bool | double =>
    cases run
    exact .tostr (by constructor) visible at_
  | ref =>
    simp only [toText] at run
    split at run
    · obtain ⟨x, rfl⟩ := text ‹_›
      cases run
      exact .refl _
    · cases run
      exact .tostr (r := .ref) (.ref v) visible at_
  | void => exact (visible rfl).elim

/-! ### Arithmetic -/

theorem intArithmetic_follows {op : BinaryOp} {a b : Int64} {line : Int} {next : Nat}
    (known : op.isArithmetic) (at_ : site.Located ip [⟨arithmeticOp false op, .none, line⟩]) :
    Follows site ⟨ip, L, .ofInt b :: .ofInt a :: S, out⟩ (intArithmetic op a b)
      fun v => Leaves (ip + 1) next L (words .int v ++ S) := by
  have done : ∀ {c : Int64}, Machine.intOp (arithmeticOp false op) a b = pure c →
      Follows site ⟨ip, L, .ofInt b :: .ofInt a :: S, out⟩ (pure (.int c))
        fun v => Leaves (ip + 1) next L (words .int v ++ S) := by
    intro c result
    have isInt : isIntOp (arithmeticOp false op) := by cases op <;> rfl
    exact .leads (.intOp at_ isInt result) rfl (.pure ⟨rfl, .refl next L, rfl⟩)
  cases op with
  | add | sub | mul => exact done rfl
  | div | mod =>
    unfold intArithmetic
    by_cases zero : b = 0
    · subst zero
      exact .fault .divideByZero rfl (.divideByZero at_ (by simp [arithmeticOp]))
    · simp only [if_neg zero]
      exact done (by simp [Machine.intOp, arithmeticOp, zero])
  | _ => cases known

theorem doubleArithmetic_follows {op : BinaryOp} {a b : UInt64} {line : Int} {next : Nat}
    (known : op.isArithmetic) (at_ : site.Located ip [⟨arithmeticOp true op, .none, line⟩]) :
    Follows site ⟨ip, L, words .double (.double b) ++ (words .double (.double a) ++ S), out⟩
      (doubleArithmetic op a b) fun v => Leaves (ip + 1) next L (words .double v ++ S) := by
  have isDouble : isDoubleOp (arithmeticOp true op) := by cases op <;> rfl
  cases op with
  | add | sub | mul | div | mod =>
    exact .leads (.doubleOp at_ isDouble) rfl (.pure ⟨rfl, .refl next L, rfl⟩)
  | _ => cases known

/-! ### Comparisons -/

theorem boolFromJump_eq {op : Opcode} (run : boolFromJump op s = .ok code s') :
    code = [⟨op, .jump 5, s.line⟩, ⟨.zconst, .byte 0, s.line⟩, ⟨.goto, .jump 2, s.line⟩,
      ⟨.zconst, .byte 1, s.line⟩] := by
  cases run
  rfl

theorem boolBranch_leads {op : Opcode} {line : Int} {c : Bool}
    (at_ : site.Located ip [⟨op, .jump 5, line⟩, ⟨.zconst, .byte 0, line⟩, ⟨.goto, .jump 2, line⟩,
      ⟨.zconst, .byte 1, line⟩]) :
    Leads site ⟨ip + 3 + if c then 5 else 0, L, S, out⟩ ⟨ip + 10, L, .ofBool c :: S, out⟩ := by
  have no := at_.tail
  have pass := no.tail
  have yes := pass.tail
  cases c with
  | true => exact .zconst (b := true) yes
  | false => exact (Leads.zconst (b := false) no.head).trans (.goto pass.head)

theorem boolFromJump_zero {op : Opcode} {w : Word} {c : Bool} (known : isZeroJump op)
    (result : Machine.holds op w.toInt 0 = c) (run : boolFromJump op s = .ok code s')
    (at_ : site.Located ip code) :
    Leads site ⟨ip, L, w :: S, out⟩ ⟨ip + code.size, L, .ofBool c :: S, out⟩ := by
  obtain rfl := boolFromJump_eq run
  subst result
  exact (Leads.zeroJump at_.head known).trans (boolBranch_leads at_)

theorem boolFromJump_int {op : Opcode} {v w : Word} {c : Bool} (known : isIntJump op)
    (result : Machine.holds op w.toInt v.toInt = c) (run : boolFromJump op s = .ok code s')
    (at_ : site.Located ip code) :
    Leads site ⟨ip, L, v :: w :: S, out⟩ ⟨ip + code.size, L, .ofBool c :: S, out⟩ := by
  obtain rfl := boolFromJump_eq run
  subst result
  exact (Leads.intJump at_.head known).trans (boolBranch_leads at_)

theorem isIntJump_intCompareOp (op : BinaryOp) : isIntJump (intCompareOp op) := by
  cases op <;> rfl

theorem isZeroJump_zeroCompareOp (op : BinaryOp) : isZeroJump (zeroCompareOp op) := by
  cases op <;> rfl

theorem holds_ints (op : BinaryOp) (a b : Int64) :
    Machine.holds (intCompareOp op) a b = Semantics.holds op (compare a b) := by
  have order : compare a b = if a < b then .lt else if a = b then .eq else .gt := rfl
  rcases Int.lt_trichotomy a.toInt b.toInt with less | same | greater
  · have other : a ≠ b := fun same => by simp [same] at less
    have le := Int.le_of_lt less
    cases op <;> simp [Machine.holds, intCompareOp, Semantics.holds, order, other, less, le,
      Int.not_lt.2 le, Int64.lt_iff_toInt_lt, Int64.le_iff_toInt_le]
  · obtain rfl := Int64.toInt_inj.1 same
    cases op <;> simp [Machine.holds, intCompareOp, Semantics.holds]
  · have other : a ≠ b := fun same => by simp [same] at greater
    have le := Int.le_of_lt greater
    cases op <;> simp [Machine.holds, intCompareOp, Semantics.holds, order, other, greater, le,
      Int.not_lt.2 le, Int64.lt_iff_toInt_lt, Int64.le_iff_toInt_le]

theorem holds_bools (op : BinaryOp) (a b : Bool) :
    Machine.holds (intCompareOp op) (if a then 1 else 0) (if b then 1 else 0) =
      Semantics.holds op (compare a b) := by
  cases op <;> cases a <;> cases b <;> rfl

theorem holds_not (b : Bool) : Machine.holds .ifEq (Word.ofBool b).toInt 0 = !b := by
  cases b <;> rfl

def orderNumber : Ordering → Int64
  | .lt => -1
  | .eq => 0
  | .gt => 1

theorem holds_orderNumber (op : BinaryOp) (o : Ordering) :
    Machine.holds (zeroCompareOp op) (orderNumber o) 0 = Semantics.holds op o := by
  cases op <;> cases o <;> rfl

theorem holds_differ (a b : Text) :
    Machine.holds .ifNe (orderNumber (compare a b)) 0 = decide (a ≠ b) := by
  by_cases same : a = b
  · subst same
    simp [Machine.holds, Std.ReflCmp.compare_self, orderNumber]
  · have apart : compare a b ≠ .eq := fun equal => same (Std.LawfulEqOrd.eq_of_compare equal)
    cases h : compare a b with
    | eq => exact (apart h).elim
    | _ => simp [Machine.holds, orderNumber, same]

theorem compareDoubles_eq (a b : Float) : compareDoubles a b = orderNumber (orderDoubles a b) := by
  unfold compareDoubles orderDoubles
  split
  · rfl
  · split <;> rfl

theorem compareTexts_eq (a b : Text) : Host.compareTexts a b = .int (orderNumber (compare a b)) := by
  unfold Host.compareTexts
  cases compare a b <;> rfl

theorem order?_none {a b : Value} {t : Ty} (typed : HasType table ctors a t)
    (plain : t.rep = .ref) (text : t ≠ .string) : order? a b = none := by
  cases typed with
  | int | double | bool => cases plain
  | str => exact (text rfl).elim
  | _ => rfl

theorem comparison_boxed {op : BinaryOp} {t : Ty} {place : Position} (plain : t.rep = .ref)
    (text : t ≠ .string) (run : comparison ctx place op t s = .ok code s') :
    (op = .eq ∧ emit .objEq s = .ok code s') ∨
      (op = .ne ∧ ∃ c rest, emit .objEq s = .ok c s ∧ boolFromJump .ifEq s = .ok rest s' ∧
        code = c ++ rest) := by
  cases op with
  | eq =>
    have same : comparison ctx place .eq t = emit .objEq := by
      cases t <;> first | rfl | exact (text rfl).elim | cases plain
    exact .inl ⟨rfl, same ▸ run⟩
  | ne =>
    have same : comparison ctx place .ne t =
        (emit .objEq >>= fun c => boolFromJump .ifEq >>= fun rest => pure (c ++ rest)) := by
      cases t <;> first | rfl | exact (text rfl).elim | cases plain
    rw [same] at run
    obtain ⟨c, s₁, runC, run⟩ := bind_ok run
    obtain ⟨rfl, rfl⟩ := emit_ok runC
    obtain ⟨rest, s₂, runB, run⟩ := bind_ok run
    cases run
    exact .inr ⟨rfl, _, rest, runC, runB, rfl⟩
  | _ => cases t <;> first | exact (text rfl).elim | (cases plain; done) | cases run

theorem comparison_settles (named : module ≠ "") {op : BinaryOp} {t : Ty} {place : Position}
    (run : comparison ctx place op t s = .ok code s') : Settles module s s' := by
  cases t with
  | int | bool =>
    obtain rfl := boolFromJump_ok run
    exact .refl s
  | double =>
    obtain ⟨c, s₁, runC, run⟩ := bind_ok run
    obtain ⟨-, rfl⟩ := emit_ok runC
    obtain ⟨rest, s₂, runB, run⟩ := bind_ok run
    obtain rfl := boolFromJump_ok runB
    cases run
    exact .refl s
  | string =>
    obtain ⟨c, s₁, runC, run⟩ := bind_ok run
    obtain ⟨-, -, settles, -⟩ := emitConst_ok named .compare runC
    obtain ⟨rest, s₂, runB, run⟩ := bind_ok run
    obtain rfl := boolFromJump_ok runB
    cases run
    exact settles
  | _ =>
    rcases comparison_boxed rfl (by simp) run with ⟨-, runE⟩ | ⟨-, c, rest, -, runB, -⟩
    · obtain ⟨-, rfl⟩ := emit_ok runE
      exact .refl s
    · obtain rfl := boolFromJump_ok runB
      exact .refl s

inductive Comparable : Ty → Value → Prop where
  | int (n : Int64) : Comparable .int (.int n)
  | bool (b : Bool) : Comparable .bool (.bool b)
  | double (bits : UInt64) : Comparable .double (.double bits)
  | str (t : Text) : Comparable .string (.str t)

theorem HasType.ordered (known : Describes table ctors) {v : Value} {t : Ty}
    (h : HasType table ctors v t) (sorted : t.rep = .ref → t = .string) : Comparable t v := by
  cases t with
  | int =>
    obtain ⟨n, rfl⟩ := h.int_inv known
    exact .int n
  | bool =>
    obtain ⟨b, rfl⟩ := h.bool_inv known
    exact .bool b
  | double =>
    obtain ⟨bits, rfl⟩ := h.double_inv known
    exact .double bits
  | string =>
    obtain ⟨x, rfl⟩ := h.str_inv known
    exact .str x
  | _ => cases sorted rfl

def FindsCompare (site : Site) (ctx : Context) (s s' : State) : Prop :=
  ∀ code, emitConst ctx .invokehost stringCompare s = .ok code s' →
    ∃ (i : Nat) (line : Int), code = [⟨.invokehost, .word i, line⟩] ∧ i < 65536 ∧
      site.constants[i]? = some stringCompare

theorem comparison_ordered (linked : ComparesTexts site.setup.registry) {op : BinaryOp} {t : Ty}
    {place : Position} {a b : Value} (first : Comparable t a) (second : Comparable t b)
    (finds : t = .string → FindsCompare site ctx s s')
    (run : comparison ctx place op t s = .ok code s') (at_ : site.Located ip code) :
    ∃ o, order? a b = some o ∧
      Leads site ⟨ip, L, words t.rep b ++ (words t.rep a ++ S), out⟩
        ⟨ip + code.size, L, .ofBool (Semantics.holds op o) :: S, out⟩ := by
  cases first with
  | int m =>
    cases second with | int n =>
    have result : Machine.holds (intCompareOp op) (Word.ofInt m).toInt (Word.ofInt n).toInt =
        Semantics.holds op (compare m n) := by rw [toInt_ofInt, toInt_ofInt, holds_ints]
    exact ⟨_, rfl, boolFromJump_int (isIntJump_intCompareOp op) result run at_⟩
  | bool m =>
    cases second with | bool n =>
    have result : Machine.holds (intCompareOp op) (Word.ofBool m).toInt (Word.ofBool n).toInt =
        Semantics.holds op (compare m n) := by rw [toInt_ofBool, toInt_ofBool, holds_bools]
    exact ⟨_, rfl, boolFromJump_int (isIntJump_intCompareOp op) result run at_⟩
  | double x =>
    cases second with | double y =>
    obtain ⟨c, s₁, runC, run⟩ := bind_ok run
    obtain ⟨rfl, rfl⟩ := emit_ok runC
    obtain ⟨rest, s₂, runB, run⟩ := bind_ok run
    cases run
    have result : Machine.holds (zeroCompareOp op)
        (Word.ofInt (compareDoubles (.ofBits x) (.ofBits y))).toInt 0 =
        Semantics.holds op (orderDoubles (.ofBits x) (.ofBits y)) := by
      rw [toInt_ofInt, compareDoubles_eq, holds_orderNumber]
    rw [Fragment.size_append, ← Nat.add_assoc]
    exact ⟨_, rfl, .trans (.dcmp at_.left)
      (boolFromJump_zero (isZeroJump_zeroCompareOp op) result runB at_.right)⟩
  | str x =>
    cases second with | str y =>
    obtain ⟨c, s₁, runC, run⟩ := bind_ok run
    obtain ⟨rest, s₂, runB, run⟩ := bind_ok run
    obtain rfl := boolFromJump_ok runB
    cases run
    obtain ⟨i, line, rfl, small, found⟩ := finds rfl c runC
    have result : Machine.holds (zeroCompareOp op) (Word.ofInt (orderNumber (compare x y))).toInt 0 =
        Semantics.holds op (compare x y) := by rw [toInt_ofInt, holds_orderNumber]
    rw [Fragment.size_append, ← Nat.add_assoc]
    refine ⟨_, rfl, .trans (.compareTexts linked at_.left small found) ?_⟩
    rw [compareTexts_eq]
    exact boolFromJump_zero (isZeroJump_zeroCompareOp op) result runB at_.right

theorem comparison_equal {op : BinaryOp} {t : Ty} {place : Position} {a b : Value}
    (boxed : t.rep = .ref) (text : t ≠ .string) (run : comparison ctx place op t s = .ok code s')
    (at_ : site.Located ip code) :
    (op = .eq ∧ Leads site ⟨ip, L, words t.rep b ++ (words t.rep a ++ S), out⟩
        ⟨ip + code.size, L, .ofBool (a.equal b) :: S, out⟩) ∨
      (op = .ne ∧ Leads site ⟨ip, L, words t.rep b ++ (words t.rep a ++ S), out⟩
        ⟨ip + code.size, L, .ofBool (!a.equal b) :: S, out⟩) := by
  rw [boxed]
  rcases comparison_boxed boxed text run with ⟨rfl, runE⟩ | ⟨rfl, c, rest, runE, runB, rfl⟩
  · obtain ⟨rfl, rfl⟩ := emit_ok runE
    exact .inl ⟨rfl, .objEq at_⟩
  · obtain ⟨rfl, -⟩ := emit_ok runE
    rw [Fragment.size_append, ← Nat.add_assoc]
    exact .inr ⟨rfl, .trans (.objEq at_.left) (boolFromJump_zero rfl (holds_not _) runB at_.right)⟩

theorem comparison_follows (known : Describes table ctors) (named : module ≠ "")
    (linked : ComparesTexts site.setup.registry) {op : BinaryOp} {t : Ty} {place : Position}
    {a b : Value} {next : Nat} (typedA : HasType table ctors a t) (typedB : HasType table ctors b t)
    (plain : s.pool.Plain module) (run : comparison ctx place op t s = .ok code s')
    (placed : Placed site ip code s' L) :
    Follows site ⟨ip, L, words t.rep b ++ (words t.rep a ++ S), out⟩ (Semantics.comparison op a b)
      fun v => Leaves (ip + code.size) next L (words .bool v ++ S) := by
  have done : ∀ {c : Bool}, Leads site ⟨ip, L, words t.rep b ++ (words t.rep a ++ S), out⟩
      ⟨ip + code.size, L, .ofBool c :: S, out⟩ → Semantics.comparison op a b = pure (.bool c) →
      Follows site ⟨ip, L, words t.rep b ++ (words t.rep a ++ S), out⟩ (Semantics.comparison op a b)
        fun v => Leaves (ip + code.size) next L (words .bool v ++ S) := by
    intro c way result
    rw [result]
    exact .leads way rfl (.pure ⟨rfl, .refl next L, rfl⟩)
  by_cases boxed : t.rep = .ref ∧ t ≠ .string
  · obtain ⟨boxed, text⟩ := boxed
    have unordered := order?_none (b := b) typedA boxed text
    rcases comparison_equal boxed text run placed.located with ⟨rfl, way⟩ | ⟨rfl, way⟩
    · exact done way (by simp [Semantics.comparison, unordered])
    · exact done way (by simp [Semantics.comparison, unordered])
  · have sorted : t.rep = .ref → t = .string := fun ref => not_not.1 fun other => boxed ⟨ref, other⟩
    have finds : FindsCompare site ctx s s' := by
      intro c runC
      obtain ⟨i, rfl, settles, found⟩ := emitConst_ok named .compare runC
      exact ⟨i, _, rfl, constant_found placed.constants (settles.plain plain).small (found plain)⟩
    obtain ⟨o, order, way⟩ := comparison_ordered linked (HasType.ordered known typedA sorted)
      (HasType.ordered known typedB sorted) (fun _ => finds) run placed.located
    exact done way (by simp [Semantics.comparison, order])

end Codegen
end StackML
