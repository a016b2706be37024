import StackML.Codegen.Pattern
import StackML.Proofs.Machine.View

/-!
What each instruction does to the view of a running method.
-/

namespace StackML.Machine

variable {s : Site} {ip : Nat} {L S : List Word} {out : List Text} {w : Word} {line : Int}

/-! ### Operands -/

theorem twoBytes_eq {n : Nat} (small : n < 65536) :
    ∃ high low : UInt8, Operand.twoBytes n = [high, low] ∧ high.toNat * 256 + low.toNat = n := by
  refine ⟨_, _, rfl, ?_⟩
  have high : ((n : Int) / 256 % 256).toNat = n / 256 := by omega
  have low : ((n : Int) % 256).toNat = n % 256 := by omega
  rw [high, low]
  have fits : n / 256 < 256 := by omega
  have fits' : n % 256 < 256 := by omega
  rw [show (n / 256).toUInt8.toNat = n / 256 from Nat.mod_eq_of_lt fits,
    show (n % 256).toUInt8.toNat = n % 256 from Nat.mod_eq_of_lt fits']
  omega

theorem Site.Located.two {op : Opcode} {operand : Operand} {n : Nat}
    (at_ : s.Located ip [⟨op, operand, line⟩]) (bytes : operand.bytes = Operand.twoBytes n)
    (small : n < 65536) :
    ∃ high low : UInt8, s.frame.code.method.code[ip + 1]? = some high ∧
      s.frame.code.method.code[ip + 1 + 1]? = some low ∧ high.toNat * 256 + low.toNat = n := by
  obtain ⟨high, low, two, value⟩ := twoBytes_eq small
  refine ⟨high, low, at_.byte (j := 1) ?_, at_.byte (j := 2) ?_, value⟩
  · simp [Instr.bytes, bytes, two]
  · simp [Instr.bytes, bytes, two]

theorem Site.Located.distance {op : Opcode} {d : Nat}
    (at_ : s.Located ip [⟨op, .jump d, line⟩]) :
    d < 65536 ∧ (d : Int) = Nat.min d Operand.maxJump := by
  have near : d ≤ 65535 := Nat.not_lt.1 (of_decide_eq_false at_.isFar)
  refine ⟨by omega, ?_⟩
  rw [show Nat.min d Operand.maxJump = d from Nat.min_eq_left near]

/-! ### Words of values -/

inductive Fits : Rep → Value → Prop where
  | int (n : Int64) : Fits .int (.int n)
  | bool (b : Bool) : Fits .bool (.bool b)
  | double (bits : UInt64) : Fits .double (.double bits)
  | ref (v : Value) : Fits .ref v
  | void : Fits .void .unit

/-- The words of a value, the topmost first. -/
def words : Rep → Value → List Word
  | .int, .int n => [.ofInt n]
  | .bool, .bool b => [.ofBool b]
  | .double, .double bits => [{}, { data := bits }]
  | .ref, v => [.ofValue v]
  | _, _ => []

theorem length_words {r : Rep} {v : Value} (fits : Fits r v) : (words r v).length = r.width := by
  cases fits <;> rfl

@[simp] theorem toInt_ofInt (n : Int64) : (Word.ofInt n).toInt = n := Int64.toInt64_toUInt64 n

@[simp] theorem toInt_ofBool (b : Bool) : (Word.ofBool b).toInt = if b then 1 else 0 := by
  cases b <;> rfl

@[simp] theorem ref_ofValue (v : Value) : (Word.ofValue v).ref = v := rfl

@[simp] theorem toBool_ofBool (b : Bool) : (Word.ofBool b).toBool = b := by
  cases b <;> rfl

/-! ### Groups of opcodes -/

def isIntOp (op : Opcode) : Bool := op matches .iadd | .isub | .imul | .idiv | .irem

def isDoubleOp (op : Opcode) : Bool := op matches .dadd | .dsub | .dmul | .ddiv | .drem

theorem step_intOp {op : Opcode} (known : isIntOp op) (setup : Setup) (init : Code → Exec Unit) :
    step setup init op = popInt >>= fun b => popInt >>= fun a => intOp op a b >>= pushInt := by
  cases op <;> first | rfl | cases known

def isZeroJump (op : Opcode) : Bool := op matches .ifEq | .ifNe | .ifLt | .ifGe | .ifGt | .ifLe

def isIntJump (op : Opcode) : Bool :=
  op matches .ifIcmpEq | .ifIcmpNe | .ifIcmpLt | .ifIcmpGe | .ifIcmpGt | .ifIcmpLe

/-! ### Constants -/

namespace Leads

theorem iconst {i : Nat} {k : Constant} (at_ : s.Located ip [⟨.iconst, .word i, line⟩])
    (small : i < 65536) (found : s.constants[i]? = some k) :
    Leads s ⟨ip, L, S, out⟩ ⟨ip + 3, L, .ofInt k.int :: S, out⟩ := by
  obtain ⟨high, low, first, second, value⟩ := at_.two rfl small
  refine .step (by simp) fun m init h => .fetch at_ h fun m h => ?_
  exact .readConstant first second (by rwa [value]) h fun m h => push_gives h

theorem dconst {i : Nat} {k : Constant} (at_ : s.Located ip [⟨.dconst, .word i, line⟩])
    (small : i < 65536) (found : s.constants[i]? = some k) :
    Leads s ⟨ip, L, S, out⟩ ⟨ip + 3, L, {} :: { data := k.bits } :: S, out⟩ := by
  obtain ⟨high, low, first, second, value⟩ := at_.two rfl small
  refine .step (by simp) fun m init h => .fetch at_ h fun m h => ?_
  exact .readConstant first second (by rwa [value]) h fun m h => pushDouble_gives h

theorem sconst {i : Nat} {k : Constant} (at_ : s.Located ip [⟨.sconst, .word i, line⟩])
    (small : i < 65536) (found : s.constants[i]? = some k) :
    Leads s ⟨ip, L, S, out⟩ ⟨ip + 3, L, .ofValue (.str k.str) :: S, out⟩ := by
  obtain ⟨high, low, first, second, value⟩ := at_.two rfl small
  refine .step (by simp) fun m init h => .fetch at_ h fun m h => ?_
  exact .readConstant first second (by rwa [value]) h fun m h => push_gives h

theorem zconst {b : Bool} (at_ : s.Located ip [⟨.zconst, .byte (if b then 1 else 0), line⟩]) :
    Leads s ⟨ip, L, S, out⟩ ⟨ip + 2, L, .ofBool b :: S, out⟩ := by
  refine .step (by simp) fun m init h => .fetch at_ h fun m h => ?_
  refine .readByte (at_.byte (j := 1) rfl) h fun m h => ?_
  have word : ({ data := (Nat.toUInt8 (if b then 1 else 0)).toNat.toUInt64 } : Word) = .ofBool b := by
    cases b <;> rfl
  rw [word]
  exact push_gives h

theorem unit (at_ : s.Located ip [⟨.unit, .none, line⟩]) :
    Leads s ⟨ip, L, S, out⟩ ⟨ip + 1, L, .ofValue .unit :: S, out⟩ :=
  .step (by simp) fun _ _ h => .fetch at_ h fun _ h => push_gives h

/-! ### Locals -/

theorem load1 {op : Opcode} {i : Nat} (at_ : s.Located ip [⟨op, .word i, line⟩])
    (known : op = .iload ∨ op = .aload) (small : i < 65536) (found : L[i]? = some w) :
    Leads s ⟨ip, L, S, out⟩ ⟨ip + 3, L, w :: S, out⟩ := by
  obtain ⟨high, low, first, second, value⟩ := at_.two rfl small
  refine .step (by simp) fun m init h => .fetch at_ h fun m h => ?_
  rcases known with rfl | rfl <;>
  · refine .readSlot first second h fun m h => ?_
    rw [value]
    exact .wordAt found h (push_gives h)

theorem load2 {i : Nat} {v : Word} (at_ : s.Located ip [⟨.dload, .word i, line⟩])
    (small : i < 65536) (found : L[i]? = some w) (found' : L[i + 1]? = some v) :
    Leads s ⟨ip, L, S, out⟩ ⟨ip + 3, L, v :: w :: S, out⟩ := by
  obtain ⟨high, low, first, second, value⟩ := at_.two rfl small
  refine .step (by simp) fun m init h => .fetch at_ h fun m h => ?_
  refine .readSlot first second h fun m h => ?_
  rw [value]
  refine .wordAt found h (.bind (push_gives h) fun _ m h => ?_)
  exact .wordAt found' h (push_gives h)

theorem store1 {op : Opcode} {i : Nat} (at_ : s.Located ip [⟨op, .word i, line⟩])
    (known : op = .istore ∨ op = .astore) (small : i < 65536) (inside : i < L.length) :
    Leads s ⟨ip, L, w :: S, out⟩ ⟨ip + 3, L.set i w, S, out⟩ := by
  obtain ⟨high, low, first, second, value⟩ := at_.two rfl small
  refine .step (by simp) fun m init h => .fetch at_ h fun m h => ?_
  rcases known with rfl | rfl <;>
  · refine .readSlot first second h fun m h => ?_
    rw [value]
    exact .pop h fun m h => setWordAt_gives inside h

theorem store2 {i : Nat} {v : Word} (at_ : s.Located ip [⟨.dstore, .word i, line⟩])
    (small : i < 65536) (inside : i + 1 < L.length) :
    Leads s ⟨ip, L, v :: w :: S, out⟩ ⟨ip + 3, (L.set (i + 1) v).set i w, S, out⟩ := by
  obtain ⟨high, low, first, second, value⟩ := at_.two rfl small
  refine .step (by simp) fun m init h => .fetch at_ h fun m h => ?_
  refine .readSlot first second h fun m h => ?_
  rw [value]
  refine .pop h fun m h => .bind (setWordAt_gives inside h) fun _ m h => ?_
  exact .pop h fun m h => setWordAt_gives (by rw [List.length_set]; omega) h

theorem pop (at_ : s.Located ip [⟨.pop, .none, line⟩]) :
    Leads s ⟨ip, L, w :: S, out⟩ ⟨ip + 1, L, S, out⟩ :=
  .step (by simp) fun _ _ h => .fetch at_ h fun _ h => .pop h fun _ h => .pure h

theorem pop2 {v : Word} (at_ : s.Located ip [⟨.pop2, .none, line⟩]) :
    Leads s ⟨ip, L, v :: w :: S, out⟩ ⟨ip + 1, L, S, out⟩ :=
  .step (by simp) fun _ _ h => .fetch at_ h fun _ h => .pop h fun _ h => .pop h fun _ h => .pure h

/-! ### Arithmetic -/

theorem intOp {op : Opcode} {a b c : Int64} (at_ : s.Located ip [⟨op, .none, line⟩])
    (known : isIntOp op) (result : Machine.intOp op a b = Pure.pure c) :
    Leads s ⟨ip, L, .ofInt b :: .ofInt a :: S, out⟩ ⟨ip + 1, L, .ofInt c :: S, out⟩ := by
  refine .step (by simp) fun m init h => .fetch at_ h fun m h => ?_
  rw [step_intOp known]
  refine .popInt h fun m h => .popInt h fun m h => ?_
  rw [toInt_ofInt, toInt_ofInt, result, pure_bind]
  exact push_gives h

theorem doubleOp {op : Opcode} {a b : UInt64} {v v' : Word}
    (at_ : s.Located ip [⟨op, .none, line⟩]) (known : isDoubleOp op) :
    Leads s ⟨ip, L, v :: { data := b } :: v' :: { data := a } :: S, out⟩
      ⟨ip + 1, L, {} :: { data := (Machine.doubleOp op (.ofBits a) (.ofBits b)).toBits } :: S, out⟩ := by
  refine .step (by simp) fun m init h => .fetch at_ h fun m h => ?_
  have split : Machine.step s.setup init op = popDouble >>= fun b => popDouble >>= fun a =>
      pushDouble (Machine.doubleOp op (.ofBits a) (.ofBits b)).toBits := by
    cases op <;> first | rfl | cases known
  rw [split]
  exact .popDouble h fun m h => .popDouble h fun m h => pushDouble_gives h

theorem ineg {n : Int64} (at_ : s.Located ip [⟨.ineg, .none, line⟩]) :
    Leads s ⟨ip, L, .ofInt n :: S, out⟩ ⟨ip + 1, L, .ofInt (-n) :: S, out⟩ := by
  refine .step (by simp) fun m init h => .fetch at_ h fun m h => .popInt h fun m h => ?_
  rw [toInt_ofInt]
  exact push_gives h

theorem dneg {bits : UInt64} {v : Word} (at_ : s.Located ip [⟨.dneg, .none, line⟩]) :
    Leads s ⟨ip, L, v :: { data := bits } :: S, out⟩
      ⟨ip + 1, L, {} :: { data := (-Float.ofBits bits).toBits } :: S, out⟩ :=
  .step (by simp) fun _ _ h => .fetch at_ h fun _ h => .popDouble h fun _ h => pushDouble_gives h

theorem i2d {n : Int64} (at_ : s.Located ip [⟨.i2d, .none, line⟩]) :
    Leads s ⟨ip, L, .ofInt n :: S, out⟩
      ⟨ip + 1, L, {} :: { data := n.toFloat.toBits } :: S, out⟩ := by
  refine .step (by simp) fun m init h => .fetch at_ h fun m h => .popInt h fun m h => ?_
  rw [toInt_ofInt]
  exact pushDouble_gives h

theorem dcmp {a b : UInt64} {v v' : Word} (at_ : s.Located ip [⟨.dcmp, .none, line⟩]) :
    Leads s ⟨ip, L, v :: { data := b } :: v' :: { data := a } :: S, out⟩
      ⟨ip + 1, L, .ofInt (compareDoubles (.ofBits a) (.ofBits b)) :: S, out⟩ :=
  .step (by simp) fun _ _ h => .fetch at_ h fun _ h => .popDouble h fun _ h =>
    .popDouble h fun _ h => push_gives h

/-! ### Jumps -/

theorem goto {d : Nat} (at_ : s.Located ip [⟨.goto, .jump d, line⟩]) :
    Leads s ⟨ip, L, S, out⟩ ⟨ip + 3 + d, L, S, out⟩ := by
  obtain ⟨small, near⟩ := at_.distance
  obtain ⟨high, low, first, second, value⟩ := at_.two (n := d) (by rw [near]; rfl) small
  refine .step (by simp; omega) fun m init h => .fetch at_ h fun m h => ?_
  refine .readWord first second h fun m h => ?_
  rw [value]
  exact .advance h

theorem zeroJump {op : Opcode} {d : Nat} (at_ : s.Located ip [⟨op, .jump d, line⟩])
    (known : isZeroJump op) :
    Leads s ⟨ip, L, w :: S, out⟩ ⟨ip + 3 + if holds op w.toInt 0 then d else 0, L, S, out⟩ := by
  obtain ⟨small, near⟩ := at_.distance
  obtain ⟨high, low, first, second, value⟩ := at_.two (n := d) (by rw [near]; rfl) small
  refine .step (by simp; omega) fun m init h => .fetch at_ h fun m h => ?_
  have split : Machine.step s.setup init op = readWord >>= fun d => popInt >>= fun a =>
      if holds op a 0 then advance d else Pure.pure () := by
    cases op <;> first | rfl | cases known
  rw [split]
  refine .readWord first second h fun m h => .popInt h fun m h => ?_
  rw [value]
  split
  · exact .advance h
  · exact .pure h

theorem intJump {op : Opcode} {d : Nat} {v : Word} (at_ : s.Located ip [⟨op, .jump d, line⟩])
    (known : isIntJump op) :
    Leads s ⟨ip, L, v :: w :: S, out⟩
      ⟨ip + 3 + if holds op w.toInt v.toInt then d else 0, L, S, out⟩ := by
  obtain ⟨small, near⟩ := at_.distance
  obtain ⟨high, low, first, second, value⟩ := at_.two (n := d) (by rw [near]; rfl) small
  refine .step (by simp; omega) fun m init h => .fetch at_ h fun m h => ?_
  have split : Machine.step s.setup init op = readWord >>= fun d => popInt >>= fun b => popInt >>= fun a =>
      if holds op a b then advance d else Pure.pure () := by
    cases op <;> first | rfl | cases known
  rw [split]
  refine .readWord first second h fun m h => .popInt h fun m h => .popInt h fun m h => ?_
  rw [value]
  split
  · exact .advance h
  · exact .pure h

/-! ### Boxes -/

theorem boxI {n : Int64} (at_ : s.Located ip [⟨.boxI, .none, line⟩]) :
    Leads s ⟨ip, L, .ofInt n :: S, out⟩ ⟨ip + 1, L, .ofValue (.int n) :: S, out⟩ := by
  refine .step (by simp) fun m init h => .fetch at_ h fun m h => .popInt h fun m h => ?_
  rw [toInt_ofInt]
  exact push_gives h

theorem boxZ {b : Bool} (at_ : s.Located ip [⟨.boxZ, .none, line⟩]) :
    Leads s ⟨ip, L, .ofBool b :: S, out⟩ ⟨ip + 1, L, .ofValue (.bool b) :: S, out⟩ := by
  refine .step (by simp) fun m init h => .fetch at_ h fun m h => .pop h fun m h => ?_
  rw [toBool_ofBool]
  exact push_gives h

theorem boxD {bits : UInt64} {v : Word} (at_ : s.Located ip [⟨.boxD, .none, line⟩]) :
    Leads s ⟨ip, L, v :: { data := bits } :: S, out⟩
      ⟨ip + 1, L, .ofValue (.double bits) :: S, out⟩ :=
  .step (by simp) fun _ _ h => .fetch at_ h fun _ h => .popDouble h fun _ h => push_gives h

theorem unboxI {n : Int64} (at_ : s.Located ip [⟨.unboxI, .none, line⟩]) :
    Leads s ⟨ip, L, .ofValue (.int n) :: S, out⟩ ⟨ip + 1, L, .ofInt n :: S, out⟩ :=
  .step (by simp) fun _ _ h => .fetch at_ h fun _ h => .popValue h fun _ h => push_gives h

theorem unboxZ {b : Bool} (at_ : s.Located ip [⟨.unboxZ, .none, line⟩]) :
    Leads s ⟨ip, L, .ofValue (.bool b) :: S, out⟩ ⟨ip + 1, L, .ofBool b :: S, out⟩ :=
  .step (by simp) fun _ _ h => .fetch at_ h fun _ h => .popValue h fun _ h => push_gives h

theorem unboxD {bits : UInt64} (at_ : s.Located ip [⟨.unboxD, .none, line⟩]) :
    Leads s ⟨ip, L, .ofValue (.double bits) :: S, out⟩
      ⟨ip + 1, L, {} :: { data := bits } :: S, out⟩ :=
  .step (by simp) fun _ _ h => .fetch at_ h fun _ h => .popValue h fun _ h => pushDouble_gives h

theorem objEq {a b : Value} (at_ : s.Located ip [⟨.objEq, .none, line⟩]) :
    Leads s ⟨ip, L, .ofValue b :: .ofValue a :: S, out⟩
      ⟨ip + 1, L, .ofBool (a.equal b) :: S, out⟩ :=
  .step (by simp) fun _ _ h => .fetch at_ h fun _ h => .popValue h fun _ h =>
    .popValue h fun _ h => push_gives h

end Leads

/-! ### Texts -/

theorem Gives.popTexts {β : Type} {f : Text → Exec β} {Q : β → Machine → Prop} {m : Machine}
    {top parts : List Text}
    (h : Shows s ⟨ip, L, top.map (fun t => .ofValue (.str t)) ++ S, out⟩ m)
    (next : ∀ m', Shows s ⟨ip, L, S, out⟩ m' → Gives (f (.concat (top.reverse ++ parts))) m' Q) :
    Gives (Machine.popTexts top.length parts >>= f) m Q := by
  induction top generalizing parts m with
  | nil => exact next m h
  | cons t top ih =>
    simp only [List.length_cons, Machine.popTexts, bind_assoc]
    refine .popValue h fun m h => ih h fun m h => ?_
    simpa using next m h

theorem Gives.popValues {β : Type} {f : List Value → Exec β} {Q : β → Machine → Prop} {m : Machine}
    {top rest : List Value} (h : Shows s ⟨ip, L, top.map .ofValue ++ S, out⟩ m)
    (next : ∀ m', Shows s ⟨ip, L, S, out⟩ m' → Gives (f (top.reverse ++ rest)) m' Q) :
    Gives (Machine.popValues top.length rest >>= f) m Q := by
  induction top generalizing rest m with
  | nil => exact next m h
  | cons v top ih =>
    simp only [List.length_cons, Machine.popValues, bind_assoc]
    refine .popValue h fun m h => ih h fun m h => ?_
    simpa using next m h

theorem Gives.popList {β : Type} {f : List Value → Exec β} {Q : β → Machine → Prop} {m : Machine}
    {vs : List Value} (h : Shows s ⟨ip, L, .ofValue (.list vs) :: S, out⟩ m)
    (next : ∀ m', Shows s ⟨ip, L, S, out⟩ m' → Gives (f vs) m' Q) :
    Gives (Machine.popList >>= f) m Q := by
  unfold Machine.popList
  rw [bind_assoc]
  exact .popValue h fun m h => next m h

theorem pushText_gives {m : Machine} {v : Value} (h : Shows s ⟨ip, L, S, out⟩ m) :
    Gives (pushText v) m fun _ m' =>
      Shows s ⟨ip, L, .ofValue (.str (v.text s.world.heap.text)) :: S, out⟩ m' := by
  have heap : m.heap = s.world.heap := by rw [h.same]
  unfold pushText
  refine .get ?_
  rw [heap]
  exact push_gives h

theorem printValue_gives {m : Machine} {v : Value} (h : Shows s ⟨ip, L, S, out⟩ m) :
    Gives (printValue v) m fun _ m' =>
      Shows s ⟨ip, L, S, (v.text s.world.heap.text ++ "\n") :: out⟩ m' := by
  have heap : m.heap = s.world.heap := by rw [h.same]
  have printed : m.output = out := by rw [h.same]
  have run : printValue v m =
      .ok () { m with output := (v.text m.heap.text ++ "\n") :: m.output } := rfl
  unfold Gives
  rw [run]
  refine ⟨?_, h.room, h.words⟩
  rw [heap, printed]
  rw [h.same]

namespace Leads

theorem strcat {top : List Text} (at_ : s.Located ip [⟨.strcat, .byte top.length, line⟩])
    (small : top.length < 256) :
    Leads s ⟨ip, L, top.map (fun t => .ofValue (.str t)) ++ S, out⟩
      ⟨ip + 2, L, .ofValue (.str (.concat top.reverse)) :: S, out⟩ := by
  refine .step (by simp) fun m init h => .fetch at_ h fun m h => ?_
  refine .readByte (at_.byte (j := 1) rfl) h fun m h => ?_
  rw [show (Nat.toUInt8 top.length).toNat = top.length from Nat.mod_eq_of_lt small]
  refine .popTexts h fun m h => ?_
  rw [List.append_nil]
  exact push_gives h

def tostrOp : Rep → Opcode
  | .int => .tostrI
  | .bool => .tostrZ
  | .double => .tostrD
  | _ => .tostrA

theorem tostr {r : Rep} {v : Value} (fits : Fits r v) (visible : r ≠ .void)
    (at_ : s.Located ip [⟨tostrOp r, .none, line⟩]) :
    Leads s ⟨ip, L, words r v ++ S, out⟩
      ⟨ip + 1, L, .ofValue (.str (v.text s.world.heap.text)) :: S, out⟩ := by
  refine .step (by simp) fun m init h => .fetch at_ h fun m h => ?_
  cases fits with
  | int n =>
    refine .popInt h fun m h => ?_
    rw [toInt_ofInt]
    exact pushText_gives h
  | bool b =>
    refine .pop h fun m h => ?_
    rw [toBool_ofBool]
    exact pushText_gives h
  | double bits => exact .popDouble h fun m h => pushText_gives h
  | ref v => exact .popValue h fun m h => pushText_gives h
  | void => exact (visible rfl).elim

theorem print {r : Rep} {v : Value} (fits : Fits r v) (visible : r ≠ .void)
    (at_ : s.Located ip [⟨Codegen.printOp r, .none, line⟩]) :
    Leads s ⟨ip, L, words r v ++ S, out⟩
      ⟨ip + 1, L, S, (v.text s.world.heap.text ++ "\n") :: out⟩ := by
  refine .step (by simp) fun m init h => .fetch at_ h fun m h => ?_
  cases fits with
  | int n =>
    refine .popInt h fun m h => ?_
    rw [toInt_ofInt]
    exact printValue_gives h
  | bool b =>
    refine .pop h fun m h => ?_
    rw [toBool_ofBool]
    exact printValue_gives h
  | double bits => exact .popDouble h fun m h => printValue_gives h
  | ref v => exact .popValue h fun m h => printValue_gives h
  | void => exact (visible rfl).elim

/-! ### Lists -/

theorem newlist {top : List Value} (at_ : s.Located ip [⟨.newlist, .word top.length, line⟩])
    (small : top.length < 65536) :
    Leads s ⟨ip, L, top.map .ofValue ++ S, out⟩
      ⟨ip + 3, L, .ofValue (.list top.reverse) :: S, out⟩ := by
  obtain ⟨high, low, first, second, value⟩ := at_.two rfl small
  refine .step (by simp) fun m init h => .fetch at_ h fun m h => ?_
  refine .readWord first second h fun m h => ?_
  rw [value]
  refine .popValues h fun m h => ?_
  rw [List.append_nil]
  exact push_gives h

theorem listCons {v : Value} {vs : List Value} (at_ : s.Located ip [⟨.listCons, .none, line⟩]) :
    Leads s ⟨ip, L, .ofValue (.list vs) :: .ofValue v :: S, out⟩
      ⟨ip + 1, L, .ofValue (.list (v :: vs)) :: S, out⟩ :=
  .step (by simp) fun _ _ h => .fetch at_ h fun _ h => .popList h fun _ h =>
    .popValue h fun _ h => push_gives h

theorem listIsEmpty {vs : List Value} (at_ : s.Located ip [⟨.listIsEmpty, .none, line⟩]) :
    Leads s ⟨ip, L, .ofValue (.list vs) :: S, out⟩ ⟨ip + 1, L, .ofBool vs.isEmpty :: S, out⟩ :=
  .step (by simp) fun _ _ h => .fetch at_ h fun _ h => .popList h fun _ h => push_gives h

theorem listHead {v : Value} {vs : List Value} (at_ : s.Located ip [⟨.listHead, .none, line⟩]) :
    Leads s ⟨ip, L, .ofValue (.list (v :: vs)) :: S, out⟩ ⟨ip + 1, L, .ofValue v :: S, out⟩ :=
  .step (by simp) fun _ _ h => .fetch at_ h fun _ h => .popList h fun _ h => push_gives h

theorem listTail {v : Value} {vs : List Value} (at_ : s.Located ip [⟨.listTail, .none, line⟩]) :
    Leads s ⟨ip, L, .ofValue (.list (v :: vs)) :: S, out⟩
      ⟨ip + 1, L, .ofValue (.list vs) :: S, out⟩ :=
  .step (by simp) fun _ _ h => .fetch at_ h fun _ h => .popList h fun _ h => push_gives h

end Leads

/-! ### Constructed values -/

def Site.Class (s : Site) (k : Constant) (cls : HolderClass) : Prop :=
  ∀ init w m, Shows s w m → holderClass s.setup init k m = .ok cls m

theorem Site.class_own {k : Constant} {a : Artifact} (named : k.owner.isEmpty = false)
    (own : s.frame.code.module = k.owner)
    (found : (s.world.instances.getD s.frame.code.home default).holders.get? k.name = some a) :
    s.Class k ⟨k.owner, a.name, a.sum, a.tag, a.payload⟩ := by
  intro init w m h
  have instances : m.instances = s.world.instances := by rw [h.same]
  have owner : ownerOf s.setup init k.owner m = .ok s.frame.code.home m := by
    unfold ownerOf
    refine (bind_of_ok (get_eq m)).trans ?_
    simp only [h.frames_eq, own, if_true]
    rfl
  have home : instanceAt s.frame.code.home m =
      .ok (m.instances.getD s.frame.code.home default) m := rfl
  unfold holderClass
  rw [named]
  refine (bind_of_ok owner).trans ((bind_of_ok home).trans ?_)
  rw [instances, found]
  rfl

theorem Site.class_ok : s.Class { kind := .holder, owner := "", name := Names.ok }
    ⟨.empty, Names.ok, Names.result, 0, true⟩ := fun _ _ _ _ => rfl

theorem Site.class_error : s.Class { kind := .holder, owner := "", name := Names.error }
    ⟨.empty, Names.error, Names.result, 1, true⟩ := fun _ _ _ _ => rfl

namespace Leads

theorem newBare {i : Nat} {k : Constant} {cls : HolderClass}
    (at_ : s.Located ip [⟨.new, .word i, line⟩]) (small : i < 65536)
    (found : s.constants[i]? = some k) (named : s.Class k cls) (bare : cls.hasArg = false) :
    Leads s ⟨ip, L, S, out⟩ ⟨ip + 3, L, .ofValue (.holder cls .null) :: S, out⟩ := by
  obtain ⟨high, low, first, second, value⟩ := at_.two rfl small
  refine .step (by simp) fun m init h => .fetch at_ h fun m h => ?_
  refine .readConstant first second (by rwa [value]) h fun m h => ?_
  refine .of_ok (named init _ m h) ?_
  rw [bare]
  exact push_gives h

theorem newFilled {i : Nat} {k : Constant} {cls : HolderClass} {v : Value}
    (at_ : s.Located ip [⟨.new, .word i, line⟩]) (small : i < 65536)
    (found : s.constants[i]? = some k) (named : s.Class k cls) (filled : cls.hasArg = true) :
    Leads s ⟨ip, L, .ofValue v :: S, out⟩ ⟨ip + 3, L, .ofValue (.holder cls v) :: S, out⟩ := by
  obtain ⟨high, low, first, second, value⟩ := at_.two rfl small
  refine .step (by simp) fun m init h => .fetch at_ h fun m h => ?_
  refine .readConstant first second (by rwa [value]) h fun m h => ?_
  refine .of_ok (named init _ m h) ?_
  rw [filled]
  exact .popValue h fun m h => push_gives h

theorem instanceof {i : Nat} {k : Constant} {cls : HolderClass} {v : Value}
    (at_ : s.Located ip [⟨.instanceof, .word i, line⟩]) (small : i < 65536)
    (found : s.constants[i]? = some k) :
    Leads s ⟨ip, L, .ofValue (.holder cls v) :: S, out⟩
      ⟨ip + 3, L, .ofBool (cls.owner = k.owner ∧ cls.name = k.name) :: S, out⟩ := by
  obtain ⟨high, low, first, second, value⟩ := at_.two rfl small
  refine .step (by simp) fun m init h => .fetch at_ h fun m h => ?_
  refine .readConstant first second (by rwa [value]) h fun m h => .popValue h fun m h => ?_
  exact push_gives h

theorem getpayload {cls : HolderClass} {v : Value} (at_ : s.Located ip [⟨.getpayload, .none, line⟩])
    (filled : cls.hasArg = true) :
    Leads s ⟨ip, L, .ofValue (.holder cls v) :: S, out⟩ ⟨ip + 1, L, .ofValue v :: S, out⟩ := by
  refine .step (by simp) fun m init h => .fetch at_ h fun m h => .popValue h fun m h => ?_
  simp only [ref_ofValue, filled, if_true]
  exact push_gives h

end Leads

/-! ### Comparison of texts -/

/-- The registry compares texts by their bytes. -/
def ComparesTexts (r : Host.Registry) : Prop :=
  r.functions.get? "strings.Compare" = some (Host.ofTexts Host.compareTexts)

theorem comparesTexts_wellKnown : ComparesTexts .wellKnown := rfl

theorem call_compare {r : Host.Registry} (linked : ComparesTexts r) (a b : Text) (h : Host.Heap) :
    r.call "strings.Compare" [.str a, .str b] h = (.ok (Host.compareTexts a b), h) := by
  unfold Host.Registry.call
  rw [linked]
  rfl

theorem Leads.compareTexts {i : Nat} {a b : Text} (linked : ComparesTexts s.setup.registry)
    (at_ : s.Located ip [⟨.invokehost, .word i, line⟩]) (small : i < 65536)
    (found : s.constants[i]? = some Codegen.stringCompare) :
    Leads s ⟨ip, L, .ofValue (.str b) :: .ofValue (.str a) :: S, out⟩
      ⟨ip + 3, L, words .int (Host.compareTexts a b) ++ S, out⟩ := by
  obtain ⟨high, low, first, second, value⟩ := at_.two rfl small
  refine .step (by simp) fun m init h => .fetch at_ h fun m h => ?_
  refine .readConstant first second (by rwa [value]) h fun m h => ?_
  have parsed : Descriptor.parse Codegen.stringCompare.descriptor = .ok ⟨[.ref, .ref], .int⟩ := rfl
  have key : Codegen.stringCompare.owner.display ++ "." ++ Codegen.stringCompare.name.display =
      "strings.Compare" := by decide +kernel
  change Gives (callHost s.setup .invokehost Codegen.stringCompare) m _
  unfold callHost
  simp only [parsed, popAll, popBoxed, bind_assoc, pure_bind]
  refine .popValue h fun m h => .popValue h fun m h => .get ?_
  simp only [List.map_cons, List.map_nil, ref_ofValue, toHost, key, call_compare linked]
  obtain ⟨n, compared⟩ : ∃ n, Host.compareTexts a b = .int n := ⟨_, rfl⟩
  rw [compared]
  have answered : hostAnswer Codegen.stringCompare (.ok (.int n), m.heap) m = .ok (.int n) m := rfl
  exact .of_ok answered (push_gives h)

/-! ### Faults -/

theorem Ends.matchfail (at_ : s.Located ip [⟨.matchfail, .none, line⟩]) :
    Ends s ⟨ip, L, S, out⟩ .noCase out := by
  refine .step at_ fun m init h => ?_
  have printed : m.output = out := by rw [h.same]
  exact printed ▸ raises_raise .noCase

theorem Ends.divideByZero {op : Opcode} {a : Int64} (at_ : s.Located ip [⟨op, .none, line⟩])
    (known : op = .idiv ∨ op = .irem) :
    Ends s ⟨ip, L, .ofInt 0 :: .ofInt a :: S, out⟩ .divideByZero out := by
  refine .step at_ fun m init h => ?_
  have isInt : isIntOp op := by rcases known with rfl | rfl <;> rfl
  rw [show Machine.step s.setup init op = _ from step_intOp isInt s.setup init]
  unfold popInt
  obtain ⟨m, run, h⟩ := pop_ok h
  rw [bind_assoc]
  refine .of_ok run ?_
  obtain ⟨m, run, h⟩ := pop_ok h
  rw [pure_bind, bind_assoc]
  refine .of_ok run ?_
  have printed : m.output = out := by rw [h.same]
  rw [pure_bind, toInt_ofInt, toInt_ofInt]
  refine .first ?_
  rcases known with rfl | rfl <;> exact printed ▸ raises_raise .divideByZero

end StackML.Machine
