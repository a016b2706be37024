import StackML.Proofs.Machine.Frames
import StackML.Proofs.Machine.Layout

/-!
Where opcodes are read. Execution of a well-formed method stays on the offsets that decoding passes:
every instruction leaves its frame at one of them, or at none, and new frames start at the first. An
executor that looks at the machine before it reads an opcode never gets to see another offset of such a
method, whatever is run.
-/

namespace StackML.Machine

open Disassembly (byteAt Lists)

/-! ### Runs that agree -/

variable {α β : Type} {P : List Frame → Prop} {Q : α → List Frame → Prop} {R : β → List Frame → Prop}

/-- From frames of the first kind the computations do the same, and a success leaves frames of the
second kind. -/
def Lockstep (P : List Frame → Prop) (Q : α → List Frame → Prop) (x y : Exec α) : Prop :=
  ∀ m, P m.frames → x m = y m ∧ ∀ a m', x m = .ok a m' → Q a m'.frames

namespace Lockstep

variable {x y : Exec α} {f g : α → Exec β}

theorem same (each : ∀ m a m', P m.frames → x m = .ok a m' → Q a m'.frames) : Lockstep P Q x x :=
  fun m start => ⟨rfl, fun a m' ok => each m a m' start ok⟩

theorem still (h : Still x) : Lockstep P (fun _ => P) x x :=
  .same fun m a m' start ok => h m a m' ok ▸ start

protected theorem pure {a : α} (start : ∀ frames, P frames → Q a frames) :
    Lockstep P Q (pure a) (pure a) :=
  .same fun m b m' known ok => by
    obtain ⟨rfl, rfl⟩ := pure_ok ok
    exact start _ known

protected theorem raise (issue : FaultIssue) : Lockstep P Q (raise issue) (raise issue) :=
  .same fun _ _ _ _ ok => nomatch ok

protected theorem throw (e : Halt) : Lockstep P Q (throw e) (throw e) :=
  .same fun _ _ _ _ ok => nomatch ok

protected theorem bind (first : Lockstep P Q x y) (next : ∀ a, Lockstep (Q a) R (f a) (g a)) :
    Lockstep P R (x >>= f) (y >>= g) := by
  intro m start
  obtain ⟨agree, after⟩ := first m start
  cases run : x m with
  | error e m₁ =>
    rw [bind_of_error run, bind_of_error (agree ▸ run)]
    exact ⟨rfl, fun b m' ok => nomatch ok⟩
  | ok a m₁ =>
    rw [bind_of_ok run, bind_of_ok (agree ▸ run)]
    exact next a m₁ (after a m₁ run)

theorem after (h : Still x) (next : ∀ a, Lockstep P R (f a) (g a)) : Lockstep P R (x >>= f) (x >>= g) :=
  (still h).bind next

theorem mono {P' : List Frame → Prop} (h : Lockstep P Q x y) (less : ∀ frames, P' frames → P frames) :
    Lockstep P' Q x y := fun m start => h m (less _ start)

protected theorem ite {p : Prop} [Decidable p] {x' y' : Exec α} (yes : p → Lockstep P Q x y)
    (no : ¬ p → Lockstep P Q x' y') :
    Lockstep P Q (if p then x else x') (if p then y else y') := by
  split
  · next holds => exact yes holds
  · next fails => exact no fails

theorem guarded (h : Lockstep P Q x y) {m : Machine} (start : P m.frames) :
    guarded x m = guarded y m := by
  unfold Machine.guarded
  rw [(h m start).1]

end Lockstep

/-! ### Modules -/

section Modules

variable {setup : Setup} {init init' : Code → Exec Unit}
  (inits : ∀ code, Lockstep P (fun _ => P) (init code) (init' code))

include inits

theorem Lockstep.initialized (i : Nat) :
    Lockstep P (fun _ => P) (initialized init i) (initialized init' i) := by
  refine .after (still_instanceAt i) fun inst => .ite (fun _ => .pure fun _ => id) fun _ => ?_
  refine .after (.modify fun _ => rfl) fun _ => ?_
  cases inst.methods.get? Names.initializer with
  | some m => exact .after (still_codeOf _ _ _) inits
  | none => exact .pure fun _ => id

theorem Lockstep.found (known : Option Nat) (name : Text) :
    Lockstep P (fun _ => P)
      (match known with
      | none => raise (.notLoaded name)
      | some i => do
        Machine.initialized init i
        pure i)
      (match known with
      | none => raise (.notLoaded name)
      | some i => do
        Machine.initialized init' i
        pure i) := by
  cases known with
  | none => exact .raise _
  | some i => exact (Lockstep.initialized inits i).bind fun _ => .pure fun _ => id

theorem Lockstep.moduleOf (name : Text) :
    Lockstep P (fun _ => P) (moduleOf setup init name) (moduleOf setup init' name) := by
  refine .after .get fun m => .ite (fun _ => ?_) fun _ => .after .get fun m => .found inits _ name
  split
  · exact .after (.raise _) fun _ => .after .get fun m => .found inits _ name
  · split
    · exact .after (.raise _) fun _ => .after .get fun m => .found inits _ name
    · exact .after (still_load _) fun _ => .after .get fun m => .found inits _ name

theorem Lockstep.ownerOf (name : Text) :
    Lockstep P (fun _ => P) (ownerOf setup init name) (ownerOf setup init' name) := by
  refine .after .get fun m => ?_
  cases m.frames with
  | nil => exact Lockstep.moduleOf inits name
  | cons f rest => exact .ite (fun _ => .pure fun _ => id) fun _ => Lockstep.moduleOf inits name

theorem Lockstep.methodRef (k : Constant) :
    Lockstep P (fun _ => P) (methodRef setup init k) (methodRef setup init' k) := by
  refine (Lockstep.ownerOf inits k.owner).bind fun i => .after (still_instanceAt i) fun inst => ?_
  cases inst.methods.get? k.name with
  | none => exact .raise _
  | some m =>
    exact .ite (fun _ => .after (.raise _) fun _ => .still (still_codeOf _ _ _))
      fun _ => .still (still_codeOf _ _ _)

theorem Lockstep.getField (k : Constant) :
    Lockstep P (fun _ => P) (getField setup init k) (getField setup init' k) := by
  refine (Lockstep.ownerOf inits k.owner).bind fun i => .after (still_fieldRep _) fun r =>
    .after (still_instanceAt i) fun inst => ?_
  cases inst.fields.get? k.name with
  | some v => exact .still (still_pushUnboxed _ _)
  | none => exact .raise _

theorem Lockstep.putField (k : Constant) :
    Lockstep P (fun _ => P) (putField setup init k) (putField setup init' k) :=
  (Lockstep.ownerOf inits k.owner).bind fun _ => .after (still_fieldRep _) fun r =>
    .after (still_popBoxed r) fun _ => .still (.modify fun _ => rfl)

theorem Lockstep.holderClass (k : Constant) :
    Lockstep P (fun _ => P) (holderClass setup init k) (holderClass setup init' k) := by
  refine .ite (fun _ => .ite (fun _ => .pure fun _ => id) fun _ => .ite (fun _ => .pure fun _ => id)
    fun _ => .raise _) fun _ => ?_
  refine (Lockstep.ownerOf inits k.owner).bind fun i => .after (still_instanceAt i) fun inst => ?_
  cases inst.holders.get? k.name with
  | none => exact .raise _
  | some a => exact .pure fun _ => id

end Modules

/-! ### Positions -/

def Sits (method : Method) (f : Frame) : Prop :=
  f.code.method = method → Starts method.code f.ip ∧ f.ip < method.code.size

def Aligned (method : Method) (frames : List Frame) : Prop := ∀ f ∈ frames, Sits method f

def Reading (method : Method) (op : Opcode) (bytes : Nat) : List Frame → Prop
  | [] => False
  | f :: rest =>
    (f.code.method = method → ∃ offset, method.Has offset op ∧ f.ip = offset + bytes) ∧
      Aligned method rest

variable {constants : Array Constant} {method : Method} {op : Opcode} {bytes : Nat}
  {frames : List Frame} {m m' : Machine}

theorem Reading.aligned (formed : method.WellFormed constants) (stays : op.isReturn = false)
    (h : Reading method op op.width frames) : Aligned method frames := by
  cases frames with
  | nil => exact h.elim
  | cons f rest =>
    refine List.forall_mem_cons.2 ⟨fun own => ?_, h.2⟩
    obtain ⟨offset, has, ip⟩ := h.1 own
    rw [ip]
    exact ⟨has.start.next has.here, formed.stays offset op has stays⟩

theorem readByte_ok {b : Nat} (ok : readByte m = .ok b m') :
    ∃ f rest, m.frames = f :: rest ∧ b = byteAt f.code.method.code f.ip ∧
      m'.frames = { f with ip := f.ip + 1 } :: rest := by
  unfold readByte at ok
  split at ok
  · cases ok
  · next f rest frames =>
    split at ok
    · next inside =>
      cases ok
      refine ⟨f, rest, frames, ?_, rfl⟩
      simp [byteAt, Array.getD_eq_getD_getElem?, inside]
    · cases ok

theorem Lockstep.readByte :
    Lockstep (Reading method op bytes) (fun _ => Reading method op (bytes + 1)) readByte readByte :=
  .same fun m b m' start ok => by
    obtain ⟨f, rest, frames, -, frames'⟩ := readByte_ok ok
    rw [frames] at start
    rw [frames']
    refine ⟨fun own => ?_, start.2⟩
    obtain ⟨offset, has, ip⟩ := start.1 own
    exact ⟨offset, has, congrArg (· + 1) ip⟩

theorem Lockstep.readWord :
    Lockstep (Reading method op bytes) (fun _ => Reading method op (bytes + 2)) readWord readWord :=
  Lockstep.readByte.bind fun _ => Lockstep.readByte.bind fun _ => .pure fun _ => id

theorem Lockstep.readConstant :
    Lockstep (Reading method op bytes) (fun _ => Reading method op (bytes + 2)) readConstant
      readConstant := by
  refine Lockstep.readWord.bind fun i => .after .get fun m => ?_
  cases m.frames with
  | nil => exact .raise _
  | cons f rest =>
    dsimp only
    split
    · exact .pure fun _ => id
    · exact .raise _

theorem Lockstep.readSlot :
    Lockstep (Reading method op bytes) (fun _ => Reading method op (bytes + 2)) readSlot readSlot := by
  refine Lockstep.readWord.bind fun i => .after .get fun m => ?_
  cases m.frames with
  | nil => exact .pure fun _ => id
  | cons f rest => exact .pure fun _ => id

/-! ### Jumps -/

def Passes (method : Method) (distance : Nat) (frames : List Frame) : Prop :=
  Aligned method frames ∧ ∀ f ∈ frames.head?, f.code.method = method →
    Starts method.code (f.ip + distance) ∧ f.ip + distance < method.code.size

theorem readWord_ok {w : Nat} (ok : readWord m = .ok w m') :
    ∃ f rest, m.frames = f :: rest ∧ w = Disassembly.wordAt f.code.method.code f.ip ∧
      m'.frames = { f with ip := f.ip + 2 } :: rest := by
  obtain ⟨high, m₁, run, ok⟩ := bind_ok ok
  obtain ⟨low, m₂, run', ok⟩ := bind_ok ok
  obtain ⟨rfl, rfl⟩ := pure_ok ok
  obtain ⟨f, rest, frames, rfl, frames₁⟩ := readByte_ok run
  obtain ⟨f', rest', frames', rfl, frames₂⟩ := readByte_ok run'
  rw [frames₁] at frames'
  cases frames'
  exact ⟨f, rest, frames, rfl, frames₂⟩

theorem Lockstep.readDistance (formed : method.WellFormed constants) (jump : op.operands = .jump) :
    Lockstep (Reading method op 1) (Passes method) Machine.readWord Machine.readWord :=
  .same fun m w m' start ok => by
    have width : op.width = 3 := by rw [Opcode.width, jump]; rfl
    have stays : op.isReturn = false := by cases op <;> first | rfl | cases jump
    have reading := (Lockstep.readWord m start).2 w m' ok
    refine ⟨Reading.aligned formed stays (width ▸ reading), fun f inside own => ?_⟩
    obtain ⟨f', rest, frames, rfl, frames'⟩ := readWord_ok ok
    rw [frames'] at inside
    cases inside
    rw [frames] at start
    obtain ⟨offset, has, ip⟩ := start.1 own
    have target := formed.jumps offset op has jump
    have own : f'.code.method = method := own
    rw [own, ip]
    rw [width] at target
    exact target

theorem Lockstep.advance (distance : Nat) :
    Lockstep (Passes method distance) (fun _ => Aligned method) (advance distance) (advance distance) :=
  .same fun m u m' start ok => by
    rw [advance_frames ok]
    cases frames : m.frames with
    | nil => exact fun f inside => absurd inside List.not_mem_nil
    | cons f rest =>
      rw [frames] at start
      exact List.forall_mem_cons.2
        ⟨fun own => start.2 f rfl own, fun g inside => start.1 g (List.mem_cons_of_mem _ inside)⟩

/-! ### Calls and returns -/

theorem Lockstep.enter (formed : method.WellFormed constants) (setup : Setup) (code : Code)
    (boxResult : Bool) :
    Lockstep (Aligned method) (fun _ => Aligned method) (enter setup code boxResult)
      (enter setup code boxResult) :=
  .same fun m u m' start ok => by
    obtain ⟨-, frames⟩ := enter_frames ok
    rw [frames]
    exact List.forall_mem_cons.2 ⟨fun own => ⟨.first, formed.nonempty⟩, start⟩

theorem Lockstep.leave (r : Rep) :
    Lockstep (Reading method op bytes) (fun _ => Aligned method) (leave r) (leave r) :=
  .same fun m u m' start ok => by
    rw [leave_frames ok]
    cases frames : m.frames with
    | nil => exact fun f inside => absurd inside List.not_mem_nil
    | cons f rest =>
      rw [frames] at start
      exact start.2

/-! ### Instructions -/

section Instructions

variable {f g : Nat → Exec α} {f' g' : Constant → Exec α}

theorem Lockstep.plain (formed : method.WellFormed constants) (kind : op.operands = .none)
    (stays : op.isReturn = false) {x y : Exec α} (next : Lockstep (Aligned method) Q x y) :
    Lockstep (Reading method op 1) Q x y :=
  next.mono fun _ reading => by
    have width : op.width = 1 := by rw [Opcode.width, kind]; rfl
    exact Reading.aligned formed stays (width ▸ reading)

theorem Lockstep.plainStill (formed : method.WellFormed constants) (kind : op.operands = .none)
    (stays : op.isReturn = false) {x : Exec α} (h : Still x) :
    Lockstep (Reading method op 1) (fun _ => Aligned method) x x :=
  .plain formed kind stays (.still h)

theorem Lockstep.operand (formed : method.WellFormed constants) (stays : op.isReturn = false)
    {bytes' : Nat} (width : op.width = bytes') {read : Exec β}
    (reads : Lockstep (Reading method op bytes) (fun _ => Reading method op bytes') read read)
    {f g : β → Exec α} (next : ∀ b, Lockstep (Aligned method) Q (f b) (g b)) :
    Lockstep (Reading method op bytes) Q (read >>= f) (read >>= g) :=
  reads.bind fun b => (next b).mono fun _ reading =>
    Reading.aligned formed stays (width ▸ reading)

theorem Lockstep.jump (formed : method.WellFormed constants) (kind : op.operands = .jump)
    (next : ∀ distance, Lockstep (Passes method distance) Q (f distance) (g distance)) :
    Lockstep (Reading method op 1) Q (Machine.readWord >>= f) (Machine.readWord >>= g) :=
  (Lockstep.readDistance formed kind).bind next

end Instructions

variable {setup : Setup} {init init' : Code → Exec Unit}

theorem Lockstep.advanceIf {p : Prop} [Decidable p] (distance : Nat) :
    Lockstep (Passes method distance) (fun _ => Aligned method)
      (if p then Machine.advance distance else pure ()) (if p then Machine.advance distance else pure ()) :=
  .ite (fun _ => .advance distance) fun _ => .pure fun _ passes => passes.1

theorem Lockstep.applyOne (formed : method.WellFormed constants) :
    Lockstep (Aligned method) (fun _ => Aligned method) (applyOne setup) (applyOne setup) := by
  refine .after still_popValue fun arg => .after still_popValue fun callee => ?_
  cases callee with
  | closure id code args =>
    exact .ite (fun _ => .still (still_pushClosure _ _)) fun _ =>
      .after (still_pushArgs _ _) fun _ => .enter formed setup code true
  | _ => exact .raise _

theorem Lockstep.getExport (formed : method.WellFormed constants)
    (inits : ∀ code, Lockstep (Aligned method) (fun _ => Aligned method) (init code) (init' code))
    (k : Constant) :
    Lockstep (Aligned method) (fun _ => Aligned method) (getExport setup init k)
      (getExport setup init' k) := by
  refine (Lockstep.moduleOf inits k.owner).bind fun i => .after (still_instanceAt i) fun inst => ?_
  cases inst.fields.get? k.name with
  | some v => exact .still (still_push _)
  | none =>
    cases inst.methods.get? k.name with
    | none => exact .raise _
    | some m =>
      have rest : Lockstep (Aligned method) (fun _ => Aligned method)
          (do
            let code ← codeOf i inst m
            if code.signature.params.isEmpty then Machine.enter setup code true else pushClosure code [])
          (do
            let code ← codeOf i inst m
            if code.signature.params.isEmpty then Machine.enter setup code true else pushClosure code []) :=
        .after (still_codeOf _ _ _) fun code =>
          .ite (fun _ => .enter formed setup code true) fun _ => .still (still_pushClosure _ _)
      exact .ite (fun _ => .after (.raise _) fun _ => rest) fun _ => rest

theorem Lockstep.step (formed : method.WellFormed constants)
    (inits : ∀ code, Lockstep (Aligned method) (fun _ => Aligned method) (init code) (init' code))
    (op : Opcode) :
    Lockstep (Reading method op 1) (fun _ => Aligned method) (step setup init op)
      (step setup init' op) := by
  cases op with
  | iconst | sconst => exact .operand formed rfl rfl .readConstant fun k => .still (still_push _)
  | dconst => exact .operand formed rfl rfl .readConstant fun k => .still (still_pushDouble _)
  | zconst => exact .operand formed rfl rfl .readByte fun b => .still (still_push _)
  | iload | aload =>
    exact .operand formed rfl rfl .readSlot fun i => .after (still_wordAt i) fun w => .still (still_push w)
  | dload =>
    exact .operand formed rfl rfl .readSlot fun i => .after (still_wordAt i) fun w =>
      .after (still_push w) fun _ => .after (still_wordAt _) fun w => .still (still_push w)
  | istore | astore =>
    exact .operand formed rfl rfl .readSlot fun i => .after still_pop fun w => .still (still_setWordAt i w)
  | dstore =>
    exact .operand formed rfl rfl .readSlot fun i => .after still_pop fun w =>
      .after (still_setWordAt _ w) fun _ => .after still_pop fun w => .still (still_setWordAt i w)
  | strcat =>
    exact .operand formed rfl rfl .readByte fun n => .after (still_popTexts n []) fun _ =>
      .still (still_push _)
  | newlist =>
    exact .operand formed rfl rfl .readWord fun n => .after (still_popValues n []) fun _ =>
      .still (still_push _)
  | instanceof =>
    exact .operand formed rfl rfl .readConstant fun k => .after still_popValue fun v => by
      split <;> exact .still (still_push _)
  | invokehost | invokehostvirtual | gethostfield | newhost =>
    exact .operand formed rfl rfl .readConstant fun k => .still (still_callHost _ _ k)
  | getstatic => exact .operand formed rfl rfl .readConstant fun k => .getField inits k
  | putstatic => exact .operand formed rfl rfl .readConstant fun k => .putField inits k
  | getexport => exact .operand formed rfl rfl .readConstant fun k => .getExport formed inits k
  | invokestatic =>
    exact .operand formed rfl rfl .readConstant fun k => (Lockstep.methodRef inits k).bind fun code =>
      .enter formed setup code false
  | new =>
    exact .operand formed rfl rfl .readConstant fun k => (Lockstep.holderClass inits k).bind fun cls =>
      .ite (fun _ => .after still_popValue fun _ => .still (still_push _)) fun _ => .still (still_push _)
  | closure =>
    exact Lockstep.readConstant.bind fun k => .operand formed rfl rfl .readByte fun captures =>
      (Lockstep.methodRef inits k).bind fun code => .still (still_makeClosure code captures)
  | ifEq | ifNe | ifLt | ifGe | ifGt | ifLe =>
    exact .jump formed rfl fun d => .after still_popInt fun a => .advanceIf d
  | ifIcmpEq | ifIcmpNe | ifIcmpLt | ifIcmpGe | ifIcmpGt | ifIcmpLe =>
    exact .jump formed rfl fun d => .after still_popInt fun b => .after still_popInt fun a => .advanceIf d
  | goto => exact .jump formed rfl .advance
  | ireturn =>
    refine .after .get fun m => ?_
    cases m.frames with
    | nil => exact .raise _
    | cons f rest => exact .leave _
  | dreturn | areturn | vreturn => exact .leave _
  | apply => exact .plain formed rfl rfl (.applyOne formed)
  | unit => exact .plainStill formed rfl rfl (still_push _)
  | pop => exact .plainStill formed rfl rfl (still_pop.bind fun _ => .pure _)
  | pop2 => exact .plainStill formed rfl rfl (still_pop.bind fun _ => still_pop.bind fun _ => .pure _)
  | dup =>
    exact .plainStill formed rfl rfl (still_pop.bind fun w => (still_push w).bind fun _ => still_push w)
  | iadd | isub | imul | idiv | irem =>
    exact .plainStill formed rfl rfl (still_popInt.bind fun b => still_popInt.bind fun a =>
      (still_intOp _ a b).bind fun _ => still_push _)
  | dadd | dsub | dmul | ddiv | drem =>
    exact .plainStill formed rfl rfl (still_popDouble.bind fun _ => still_popDouble.bind fun _ =>
      still_pushDouble _)
  | dcmp =>
    exact .plainStill formed rfl rfl (still_popDouble.bind fun _ => still_popDouble.bind fun _ =>
      still_push _)
  | ineg | boxI => exact .plainStill formed rfl rfl (still_popInt.bind fun _ => still_push _)
  | dneg => exact .plainStill formed rfl rfl (still_popDouble.bind fun _ => still_pushDouble _)
  | i2d => exact .plainStill formed rfl rfl (still_popInt.bind fun _ => still_pushDouble _)
  | boxZ => exact .plainStill formed rfl rfl (still_pop.bind fun _ => still_push _)
  | boxD => exact .plainStill formed rfl rfl (still_popDouble.bind fun _ => still_push _)
  | unboxI | unboxZ | unboxD =>
    exact .plainStill formed rfl rfl (still_popValue.bind fun _ => still_pushUnboxed _ _)
  | objEq =>
    exact .plainStill formed rfl rfl (still_popValue.bind fun _ => still_popValue.bind fun _ =>
      still_push _)
  | tostrI => exact .plainStill formed rfl rfl (still_popInt.bind fun _ => still_pushText _)
  | tostrZ => exact .plainStill formed rfl rfl (still_pop.bind fun _ => still_pushText _)
  | tostrD => exact .plainStill formed rfl rfl (still_popDouble.bind fun _ => still_pushText _)
  | tostrA => exact .plainStill formed rfl rfl (still_popValue.bind fun _ => still_pushText _)
  | listCons =>
    exact .plainStill formed rfl rfl (still_popList.bind fun _ => still_popValue.bind fun _ =>
      still_push _)
  | listIsEmpty => exact .plainStill formed rfl rfl (still_popList.bind fun _ => still_push _)
  | listHead | listTail =>
    exact .plainStill formed rfl rfl (still_popList.bind fun vs => by
      cases vs with
      | nil => exact .raise _
      | cons v vs => exact still_push _)
  | getpayload =>
    exact .plainStill formed rfl rfl (still_popValue.bind fun v => by
      split
      · exact .ite (fun _ => still_push _) fun _ => .raise _
      · exact .raise _)
  | printI => exact .plainStill formed rfl rfl (still_popInt.bind fun _ => still_printValue _)
  | printZ => exact .plainStill formed rfl rfl (still_pop.bind fun _ => still_printValue _)
  | printD => exact .plainStill formed rfl rfl (still_popDouble.bind fun _ => still_printValue _)
  | printA => exact .plainStill formed rfl rfl (still_popValue.bind fun _ => still_printValue _)
  | matchfail => exact .raise _

end StackML.Machine
