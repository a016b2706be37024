import StackML.Machine.Run
import StackML.Proofs.Machine.Layout
import StackML.Proofs.Text

/-!
Instructions taken apart. Apart from entering and leaving methods, an instruction is put together from
a few operations of the machine; what else it reads is the innermost frame and what lies outside the
stack. `Parallel` relates two computations that are put together alike and differ in what runs
initializers only. What holds of the operations, and of one computation behind another, holds of every
instruction, be it of one run or of two that are compared.
-/

namespace StackML

/-! ### Outside the stack -/

def Instance.Linked (inst : Instance) : Prop :=
  ∀ name method, inst.methods.get? name = some method →
    method.signature = Descriptor.parse method.method.descriptor

structure Instance.Follows (inst inst' : Instance) : Prop where
  methods : inst'.methods = inst.methods
  initialized : inst.initialized = true → inst'.initialized = true

namespace Machine

structure Grows (old new : Array Instance) : Prop where
  size : old.size ≤ new.size
  kept : ∀ i, i < old.size → (old.getD i default).Follows (new.getD i default)
  linked : ∀ i, old.size ≤ i → i < new.size → (new.getD i default).Linked

structure SameStack (m m' : Machine) : Prop where
  stack : m'.stack = m.stack
  height : m'.height = m.height
  frames : m'.frames = m.frames
  depth : m'.depth = m.depth

structure SameWorld (m m' : Machine) : Prop where
  instances : m'.instances = m.instances
  modules : m'.modules = m.modules
  heap : m'.heap = m.heap
  output : m'.output = m.output
  functions : m'.functions = m.functions
  cancelled : m'.cancelled = m.cancelled

def Frame.sight (f : Frame) : Code × Nat × Nat := (f.code, f.ip, f.base)

structure Resembles (m m' : Machine) : Prop where
  world : SameWorld m m'
  innermost : m'.frames.head?.map Frame.sight = m.frames.head?.map Frame.sight

structure Outside (change : Machine → Machine) : Prop where
  stack : ∀ m, SameStack m (change m)
  grows : ∀ m, Grows m.instances (change m).instances
  world : ∀ m m', SameWorld m m' → SameWorld (change m) (change m')
  steady : ∀ m : Machine, m.cancelled = false → (change m).cancelled = false

inductive Parallel (locals : Prop) (init init' : Code → Exec Unit) : {α : Type} → Exec α → Exec α → Prop where
  | pure {α : Type} (a : α) : Parallel locals init init' (pure a) (pure a)
  | bind {α β : Type} {x y : Exec α} {f g : α → Exec β} :
      Parallel locals init init' x y → (∀ a, Parallel locals init init' (f a) (g a)) →
      Parallel locals init init' (x >>= f) (y >>= g)
  | get {β : Type} {f g : Machine → Exec β} :
      (∀ m m', Resembles m m' → f m = f m' ∧ g m = g m') →
      (∀ m, Parallel locals init init' (f m) (g m)) → Parallel locals init init' (get >>= f) (get >>= g)
  | modify {change : Machine → Machine} :
      Outside change → Parallel locals init init' (modify change) (modify change)
  | raise {α : Type} (issue : FaultIssue) :
      Parallel locals init init' (raise issue : Exec α) (raise issue)
  | push (w : Word) : Parallel locals init init' (push w) (push w)
  | pop : Parallel locals init init' pop pop
  | closure (code : Code) (args : List Value) :
      Parallel locals init init' (pushClosure code args) (pushClosure code args)
  | byte : Parallel locals init init' readByte readByte
  | advance (n : Nat) : Parallel locals init init' (advance n) (advance n)
  | word (allowed : locals) (i : Nat) : Parallel locals init init' (wordAt i) (wordAt i)
  | setWord (allowed : locals) (i : Nat) (w : Word) :
      Parallel locals init init' (setWordAt i w) (setWordAt i w)
  | init (code : Code) : Parallel locals init init' (init code) (init' code)

inductive Turn (setup : Setup) (locals ends : Prop) (init init' : Code → Exec Unit) :
    Exec Unit → Exec Unit → Prop where
  | plain {x y : Exec Unit} : Parallel locals init init' x y → Turn setup locals ends init init' x y
  | after {α : Type} {x y : Exec α} {f g : α → Exec Unit} :
      Parallel locals init init' x y → (∀ a, Turn setup locals ends init init' (f a) (g a)) →
      Turn setup locals ends init init' (x >>= f) (y >>= g)
  | get {f g : Machine → Exec Unit} :
      (∀ m m', Resembles m m' → f m = f m' ∧ g m = g m') →
      (∀ m, Turn setup locals ends init init' (f m) (g m)) → Turn setup locals ends init init' (get >>= f) (get >>= g)
  | enter (code : Code) (boxResult : Bool) :
      Turn setup locals ends init init' (enter setup code boxResult) (enter setup code boxResult)
  | leave (allowed : ends) (r : Rep) : Turn setup locals ends init init' (leave r) (leave r)

namespace Turn

variable {setup : Setup} {locals ends : Prop} {init init' : Code → Exec Unit}

protected theorem ite {p : Prop} [Decidable p] {x y x' y' : Exec Unit}
    (yes : p → Turn setup locals ends init init' x y) (no : ¬ p → Turn setup locals ends init init' x' y') :
    Turn setup locals ends init init' (if p then x else x') (if p then y else y') := by
  split
  · next holds => exact yes holds
  · next fails => exact no fails

end Turn

variable {setup : Setup} {locals ends : Prop} {init init' : Code → Exec Unit} {α β : Type}

namespace Parallel

protected theorem ite {p : Prop} [Decidable p] {x y x' y' : Exec α} (yes : p → Parallel locals init init' x y)
    (no : ¬ p → Parallel locals init init' x' y') :
    Parallel locals init init' (if p then x else x') (if p then y else y') := by
  split
  · next holds => exact yes holds
  · next fails => exact no fails

end Parallel

/-! ### Changes outside the stack -/

theorem Grows.refl (instances : Array Instance) : Grows instances instances :=
  ⟨Nat.le_refl _, fun _ _ => ⟨rfl, id⟩, fun _ inside outside => absurd outside (Nat.not_lt.2 inside)⟩

theorem Grows.trans {a b c : Array Instance} (first : Grows a b) (second : Grows b c) : Grows a c := by
  refine ⟨Nat.le_trans first.size second.size, fun i inside => ?_, fun i new inside => ?_⟩
  · have one := first.kept i inside
    have two := second.kept i (Nat.lt_of_lt_of_le inside first.size)
    exact ⟨two.methods.trans one.methods, two.initialized ∘ one.initialized⟩
  · by_cases old : i < b.size
    · intro name method found
      rw [(second.kept i old).methods] at found
      exact first.linked i new old name method found
    · exact second.linked i (Nat.not_lt.1 old) inside

theorem grows_modify {instances : Array Instance} {i : Nat} {change : Instance → Instance}
    (follows : ∀ inst : Instance, inst.Follows (change inst)) : Grows instances (instances.modify i change) := by
  refine ⟨Nat.le_of_eq Array.size_modify.symm, fun j inside => ?_, fun j new inside => ?_⟩
  · rw [Array.getD_eq_getD_getElem?, Array.getD_eq_getD_getElem?, Array.getElem?_modify,
      Array.getElem?_eq_getElem inside]
    split
    · exact follows _
    · exact ⟨rfl, id⟩
  · rw [Array.size_modify] at inside
    exact absurd inside (Nat.not_lt.2 new)

theorem linked_fold {methods : List Method} {t : Std.TreeMap Text LinkedMethod compare}
    (start : ∀ name method, t.get? name = some method →
      method.signature = Descriptor.parse method.method.descriptor) {name : Text}
    {method : LinkedMethod}
    (found : (methods.foldl (fun t m => t.insert m.name ⟨m, Descriptor.parse m.descriptor⟩) t).get?
      name = some method) :
    method.signature = Descriptor.parse method.method.descriptor := by
  induction methods generalizing t with
  | nil => exact start name method found
  | cons m methods ih =>
    refine ih (fun name method found => ?_) found
    rw [Std.TreeMap.get?_eq_getElem?, Std.TreeMap.getElem?_insert] at found
    split at found
    · cases found
      rfl
    · exact start name method found

theorem linked_ofArtifacts (module : Artifact) (holders : List Artifact) :
    (Instance.ofArtifacts module holders).Linked :=
  fun _ _ found => linked_fold (fun _ _ none => absurd none (by simp)) found

theorem outside_load {module : Artifact} {holders : List Artifact} :
    Outside fun m => { m with
      modules := m.modules.insert module.name m.instances.size
      instances := m.instances.push (.ofArtifacts module holders) } := by
  refine ⟨fun m => ⟨rfl, rfl, rfl, rfl⟩, fun m => ⟨?_, fun i inside => ?_, fun i new inside => ?_⟩,
    fun m m' same => { same with
      modules := by simp only [same.modules, same.instances]
      instances := by simp only [same.instances] }, fun _ => id⟩
  · simp
  · rw [Array.getD_eq_getD_getElem?, Array.getD_eq_getD_getElem?, Array.getElem?_push_lt inside,
      Array.getElem?_eq_getElem inside]
    exact ⟨rfl, id⟩
  · rw [Array.size_push] at inside
    obtain rfl : i = m.instances.size := by omega
    rw [Array.getD_eq_getD_getElem?, Array.getElem?_push_size]
    exact linked_ofArtifacts module holders

theorem outside_modify {i : Nat} {change : Instance → Instance}
    (follows : ∀ inst : Instance, inst.Follows (change inst)) :
    Outside fun m => { m with instances := m.instances.modify i change } :=
  ⟨fun m => ⟨rfl, rfl, rfl, rfl⟩, fun m => grows_modify follows,
    fun m m' same => { same with instances := by simp only [same.instances] }, fun _ => id⟩

def marked (i : Nat) (m : Machine) : Machine :=
  { m with instances := m.instances.modify i fun inst => { inst with initialized := true } }

theorem outside_marked (i : Nat) : Outside (marked i) := outside_modify fun _ => ⟨rfl, fun _ => rfl⟩

namespace Resembles

variable {m m' : Machine}

theorem frames (h : Resembles m m') :
    (m.frames = [] ∧ m'.frames = []) ∨
      ∃ f rest f' rest', m.frames = f :: rest ∧ m'.frames = f' :: rest' ∧
        f'.code = f.code ∧ f'.ip = f.ip ∧ f'.base = f.base := by
  have same := h.innermost
  cases frames : m.frames with
  | nil =>
    rw [frames, List.head?_nil, Option.map_none, Option.map_eq_none_iff, List.head?_eq_none_iff] at same
    exact .inl ⟨rfl, same⟩
  | cons f rest =>
    cases frames' : m'.frames with
    | nil =>
      rw [frames, frames'] at same
      cases same
    | cons f' rest' =>
      rw [frames, frames'] at same
      simp only [List.head?_cons, Option.map_some, Option.some.injEq, Frame.sight, Prod.mk.injEq] at same
      exact .inr ⟨f, rest, f', rest', rfl, rfl, same.1, same.2.1, same.2.2⟩

end Resembles

namespace Parallel

/-! ### The stack -/

theorem pushDouble (bits : UInt64) :
    Parallel locals init init' (Machine.pushDouble bits) (Machine.pushDouble bits) :=
  (Parallel.push _).bind fun _ => .push _

theorem popValue : Parallel locals init init' Machine.popValue Machine.popValue :=
  Parallel.pop.bind fun _ => .pure _

theorem popInt : Parallel locals init init' Machine.popInt Machine.popInt :=
  Parallel.pop.bind fun _ => .pure _

theorem popDouble : Parallel locals init init' Machine.popDouble Machine.popDouble :=
  Parallel.pop.bind fun _ => Parallel.pop.bind fun _ => .pure _

theorem pushUnboxed (r : Rep) (v : Value) :
    Parallel locals init init' (Machine.pushUnboxed r v) (Machine.pushUnboxed r v) := by
  unfold Machine.pushUnboxed
  split
  · exact .push _
  · exact .push _
  · exact .pushDouble _
  · exact .raise _
  · exact .raise _
  · exact .raise _
  · exact .push _
  · exact .push _

theorem popBoxed (r : Rep) : Parallel locals init init' (Machine.popBoxed r) (Machine.popBoxed r) := by
  cases r with
  | int => exact popInt.bind fun _ => .pure _
  | bool => exact Parallel.pop.bind fun _ => .pure _
  | double => exact popDouble.bind fun _ => .pure _
  | ref => exact popValue
  | void => exact .pure _

theorem popAll (rs : List Rep) : Parallel locals init init' (Machine.popAll rs) (Machine.popAll rs) := by
  induction rs with
  | nil => exact .pure _
  | cons r rs ih => exact ih.bind fun _ => (popBoxed r).bind fun _ => .pure _

theorem popValues (n : Nat) (vs : List Value) :
    Parallel locals init init' (Machine.popValues n vs) (Machine.popValues n vs) := by
  induction n generalizing vs with
  | zero => exact .pure _
  | succ n ih => exact popValue.bind fun _ => ih _

theorem popTexts (n : Nat) (parts : List Text) :
    Parallel locals init init' (Machine.popTexts n parts) (Machine.popTexts n parts) := by
  induction n generalizing parts with
  | zero => exact .pure _
  | succ n ih =>
    refine popValue.bind fun v => ?_
    cases v with
    | str s => exact ih _
    | _ => exact .raise _

theorem popList : Parallel locals init init' Machine.popList Machine.popList := by
  refine popValue.bind fun v => ?_
  cases v with
  | list vs => exact .pure _
  | null => exact .pure _
  | _ => exact .raise _

theorem pushArgs (rs : List Rep) (vs : List Value) :
    Parallel locals init init' (Machine.pushArgs rs vs) (Machine.pushArgs rs vs) := by
  induction rs generalizing vs with
  | nil => exact .pure _
  | cons r rs ih =>
    cases vs with
    | nil => exact .pure _
    | cons v vs => exact (pushUnboxed r v).bind fun _ => ih vs

theorem pushText (v : Value) : Parallel locals init init' (Machine.pushText v) (Machine.pushText v) := by
  refine .get (fun m m' same => ?_) fun m => .push _
  simp only [same.world.heap, and_self]

theorem printValue (v : Value) : Parallel locals init init' (Machine.printValue v) (Machine.printValue v) := by
  refine .modify ⟨fun m => ⟨rfl, rfl, rfl, rfl⟩, fun m => .refl _, fun m m' same => ?_, fun _ => id⟩
  exact { same with output := by simp only [same.heap, same.output] }

theorem intOp (op : Opcode) (a b : Int64) :
    Parallel locals init init' (Machine.intOp op a b) (Machine.intOp op a b) := by
  unfold Machine.intOp
  split
  · exact .pure _
  · exact .pure _
  · exact .pure _
  · exact .ite (fun _ => .raise _) fun _ => .ite (fun _ => .pure _) fun _ => .pure _

/-! ### Reading code -/

theorem readWord : Parallel locals init init' Machine.readWord Machine.readWord :=
  Parallel.byte.bind fun _ => Parallel.byte.bind fun _ => .pure _

theorem readConstant : Parallel locals init init' Machine.readConstant Machine.readConstant := by
  refine readWord.bind fun i => .get (fun m m' same => ?_) fun m => ?_
  · rcases same.frames with ⟨none, none'⟩ | ⟨f, rest, f', rest', here, here', code, -⟩
    · simp only [none, none', and_self]
    · simp only [here, here', code, same.world.instances, and_self]
  · cases m.frames with
    | nil => exact .raise _
    | cons f rest =>
      dsimp only
      split
      · exact .pure _
      · exact .raise _

theorem readSlot : Parallel locals init init' Machine.readSlot Machine.readSlot := by
  refine readWord.bind fun i => .get (fun m m' same => ?_) fun m => ?_
  · rcases same.frames with ⟨none, none'⟩ | ⟨f, rest, f', rest', here, here', -, -, base⟩
    · simp only [none, none', and_self]
    · simp only [here, here', base, and_self]
  · cases m.frames with
    | nil => exact .pure _
    | cons f rest => exact .pure _

/-! ### Modules -/

theorem load (artifacts : List Artifact) :
    Parallel locals init init' (Machine.load artifacts) (Machine.load artifacts) := by
  unfold Machine.load
  split
  · exact .raise _
  · exact .modify outside_load
  · exact .raise _

theorem instanceAt (i : Nat) :
    Parallel locals init init' (Machine.instanceAt i) (Machine.instanceAt i) := by
  refine .get (fun m m' same => ?_) fun m => .pure _
  simp only [same.world.instances, and_self]

theorem codeOf (i : Nat) (inst : Instance) (m : LinkedMethod) :
    Parallel locals init init' (Machine.codeOf i inst m) (Machine.codeOf i inst m) := by
  unfold Machine.codeOf
  split
  · exact .pure _
  · exact .raise _

theorem initialized (i : Nat) :
    Parallel locals init init' (Machine.initialized init i) (Machine.initialized init' i) := by
  refine (instanceAt i).bind fun inst => .ite (fun _ => .pure _) fun _ => ?_
  refine (Parallel.modify (outside_marked i)).bind fun _ => ?_
  cases inst.methods.get? Names.initializer with
  | some m => exact (codeOf _ _ _).bind fun _ => .init _
  | none => exact .pure _

theorem found (known : Option Nat) (name : Text) :
    Parallel locals init init'
      (match known with
      | none => Machine.raise (.notLoaded name)
      | some i => do
        Machine.initialized init i
        Pure.pure i)
      (match known with
      | none => Machine.raise (.notLoaded name)
      | some i => do
        Machine.initialized init' i
        Pure.pure i) := by
  cases known with
  | none => exact .raise _
  | some i => exact (initialized i).bind fun _ => .pure _

theorem moduleOf (name : Text) :
    Parallel locals init init' (Machine.moduleOf setup init name) (Machine.moduleOf setup init' name) := by
  have known {β : Type} {f g : Option Nat → Exec β} (m m' : Machine) (same : Resembles m m') :
      f (m.modules.get? name) = f (m'.modules.get? name) ∧
        g (m.modules.get? name) = g (m'.modules.get? name) := by
    simp only [same.world.modules, and_self]
  have rest : Parallel locals init init' _ _ :=
    .get (f := fun m => match m.modules.get? name with
        | none => Machine.raise (.notLoaded name)
        | some i => do
          Machine.initialized init i
          Pure.pure i)
      (g := fun m => match m.modules.get? name with
        | none => Machine.raise (.notLoaded name)
        | some i => do
          Machine.initialized init' i
          Pure.pure i)
      (fun m m' same => by simp only [same.world.modules, and_self]) fun m => found _ name
  refine .get (fun m m' same => by simp only [same.world.modules, and_self]) fun m =>
    .ite (fun _ => ?_) fun _ => rest
  split
  · exact (Parallel.raise _).bind fun _ => rest
  · split
    · exact (Parallel.raise _).bind fun _ => rest
    · exact (load _).bind fun _ => rest

theorem ownerOf (name : Text) :
    Parallel locals init init' (Machine.ownerOf setup init name) (Machine.ownerOf setup init' name) := by
  refine .get (fun m m' same => ?_) fun m => ?_
  · rcases same.frames with ⟨none, none'⟩ | ⟨f, rest, f', rest', here, here', code, -⟩
    · simp only [none, none', and_self]
    · simp only [here, here', code, and_self]
  · cases m.frames with
    | nil => exact moduleOf name
    | cons f rest => exact .ite (fun _ => .pure _) fun _ => moduleOf name

theorem methodRef (k : Constant) :
    Parallel locals init init' (Machine.methodRef setup init k) (Machine.methodRef setup init' k) := by
  refine (ownerOf k.owner).bind fun i => (instanceAt i).bind fun inst => ?_
  cases inst.methods.get? k.name with
  | none => exact .raise _
  | some m =>
    exact .ite (fun _ => (Parallel.raise _).bind fun _ => codeOf _ _ _) fun _ => codeOf _ _ _

theorem fieldRep (descriptor : Text) :
    Parallel locals init init' (Machine.fieldRep descriptor) (Machine.fieldRep descriptor) := by
  unfold Machine.fieldRep
  split
  · exact .pure _
  · exact .raise _

theorem getField (k : Constant) :
    Parallel locals init init' (Machine.getField setup init k) (Machine.getField setup init' k) := by
  refine (ownerOf k.owner).bind fun i => (fieldRep _).bind fun r => (instanceAt i).bind fun inst => ?_
  cases inst.fields.get? k.name with
  | some v => exact pushUnboxed _ _
  | none => exact .raise _

theorem putField (k : Constant) :
    Parallel locals init init' (Machine.putField setup init k) (Machine.putField setup init' k) :=
  (ownerOf k.owner).bind fun _ => (fieldRep _).bind fun r => (popBoxed r).bind fun _ =>
    .modify (outside_modify fun _ => ⟨rfl, id⟩)

theorem holderClass (k : Constant) :
    Parallel locals init init' (Machine.holderClass setup init k) (Machine.holderClass setup init' k) := by
  refine .ite (fun _ => .ite (fun _ => .pure _) fun _ => .ite (fun _ => .pure _) fun _ => .raise _)
    fun _ => (ownerOf k.owner).bind fun i => (instanceAt i).bind fun inst => ?_
  cases inst.holders.get? k.name with
  | none => exact .raise _
  | some a => exact .pure _

/-! ### Functions and the host -/

theorem makeClosure (code : Code) (captures : Nat) :
    Parallel locals init init' (Machine.makeClosure code captures) (Machine.makeClosure code captures) := by
  have rest : Parallel locals init init' _ _ :=
    (popValues captures []).bind fun args => .closure code args
  exact .ite (fun _ => (Parallel.raise _).bind fun _ => rest) fun _ => rest

theorem hostAnswer (k : Constant) (answer : Except Text Value × Host.Heap) :
    Parallel locals init init' (Machine.hostAnswer k answer) (Machine.hostAnswer k answer) := by
  have kept : Outside fun m => { m with heap := answer.2 } :=
    ⟨fun m => ⟨rfl, rfl, rfl, rfl⟩, fun m => .refl _, fun m m' same => { same with heap := rfl },
      fun _ => id⟩
  refine (Parallel.modify kept).bind fun _ => ?_
  split
  · exact .pure _
  · exact .pure _
  · exact .raise _

theorem callHost (op : Opcode) (k : Constant) :
    Parallel locals init init' (Machine.callHost setup op k) (Machine.callHost setup op k) := by
  unfold Machine.callHost
  split
  · exact .raise _
  · next signature _ =>
    have rest (answer : Except Text Value × Host.Heap) : Parallel locals init init' (do
        let v ← Machine.hostAnswer k answer
        if signature.result = .void then Pure.pure () else Machine.pushUnboxed signature.result v) (do
        let v ← Machine.hostAnswer k answer
        if signature.result = .void then Pure.pure () else Machine.pushUnboxed signature.result v) :=
      (hostAnswer k answer).bind fun _ => .ite (fun _ => .pure _) fun _ => pushUnboxed _ _
    refine (popAll _).bind fun args => ?_
    dsimp only
    split
    · exact popValue.bind fun _ =>
        .get (fun m m' same => by simp only [same.world.heap, and_self]) fun m => rest _
    · exact .get (fun m m' same => by simp only [same.world.heap, and_self]) fun m => rest _
    · exact .get (fun m m' same => by simp only [same.world.heap, and_self]) fun m => rest _
    · exact .get (fun m m' same => by simp only [same.world.heap, and_self]) fun m => rest _

theorem advanceIf {p : Prop} [Decidable p] (distance : Nat) :
    Parallel locals init init' (if p then Machine.advance distance else Pure.pure ())
      (if p then Machine.advance distance else Pure.pure ()) :=
  .ite (fun _ => .advance _) fun _ => .pure _

theorem opcode (b : Nat) :
    Parallel locals init init'
      (match Opcode.ofCode? b.toUInt8 with
      | some op => Pure.pure op
      | none => Machine.raise (.unknownOpcode b.toUInt8))
      (match Opcode.ofCode? b.toUInt8 with
      | some op => Pure.pure op
      | none => Machine.raise (.unknownOpcode b.toUInt8)) := by
  split
  · exact .pure _
  · exact .raise _

theorem fetch : Parallel locals init init' Machine.fetch Machine.fetch := by
  refine .get (fun m m' same => ?_) fun m => ?_
  · rcases same.frames with ⟨none, none'⟩ | ⟨f, rest, f', rest', here, here', code, ip, -⟩
    · simp only [none, none', and_self]
    · simp only [here, here', code, ip, and_self]
  · cases m.frames with
    | nil => exact .raise _
    | cons f rest =>
      have read : Parallel locals init init' _ _ := Parallel.byte.bind fun b => opcode b
      exact .ite (fun _ => (Parallel.raise _).bind fun _ => read) fun _ => read

end Parallel

/-! ### Instructions -/

namespace Turn

theorem applyOne : Turn setup locals ends init init' (applyOne setup) (applyOne setup) := by
  refine .after .popValue fun arg => .after .popValue fun callee => ?_
  cases callee with
  | closure id code args =>
    exact .ite (fun _ => .plain (.closure _ _)) fun _ => .after (.pushArgs _ _) fun _ => .enter _ _
  | _ => exact .plain (.raise _)

theorem getExport (k : Constant) :
    Turn setup locals ends init init' (getExport setup init k) (getExport setup init' k) := by
  refine .after (.moduleOf k.owner) fun i => .after (.instanceAt i) fun inst => ?_
  cases inst.fields.get? k.name with
  | some v => exact .plain (.push _)
  | none =>
    cases inst.methods.get? k.name with
    | none => exact .plain (.raise _)
    | some m =>
      have rest : Turn setup locals ends init init' _ _ := .after (.codeOf i inst m) fun code =>
        .ite (p := code.signature.params.isEmpty = true) (fun _ => .enter code true)
          fun _ => .plain (.closure code [])
      exact .ite (fun _ => .after (.raise _) fun _ => rest) fun _ => rest

/-- Every instruction is put together from the operations; only loads and stores are about locals, and
only returns leave a method. -/
theorem step (op : Opcode) (slots : op.operands = .slot → locals) (returns : op.isReturn = true → ends) :
    Turn setup locals ends init init' (step setup init op) (Machine.step setup init' op) := by
  cases op with
  | iconst | sconst => exact .plain (Parallel.readConstant.bind fun k => .push _)
  | dconst => exact .plain (Parallel.readConstant.bind fun k => .pushDouble _)
  | zconst => exact .plain (Parallel.byte.bind fun b => .push _)
  | iload | aload =>
    exact .plain (Parallel.readSlot.bind fun i => (Parallel.word (slots rfl) i).bind fun w => .push w)
  | dload =>
    exact .plain (Parallel.readSlot.bind fun i => (Parallel.word (slots rfl) i).bind fun w =>
      (Parallel.push w).bind fun _ => (Parallel.word (slots rfl) _).bind fun w => .push w)
  | istore | astore =>
    exact .plain (Parallel.readSlot.bind fun i => Parallel.pop.bind fun w => .setWord (slots rfl) i w)
  | dstore =>
    exact .plain (Parallel.readSlot.bind fun i => Parallel.pop.bind fun w =>
      (Parallel.setWord (slots rfl) _ w).bind fun _ => Parallel.pop.bind fun w => .setWord (slots rfl) i w)
  | strcat =>
    exact .plain (Parallel.byte.bind fun n => (Parallel.popTexts n []).bind fun _ => .push _)
  | newlist =>
    exact .plain (Parallel.readWord.bind fun n => (Parallel.popValues n []).bind fun _ => .push _)
  | instanceof =>
    exact .plain (Parallel.readConstant.bind fun k => Parallel.popValue.bind fun v => by
      split <;> exact .push _)
  | invokehost | invokehostvirtual | gethostfield | newhost =>
    exact .plain (Parallel.readConstant.bind fun k => .callHost _ k)
  | getstatic => exact .plain (Parallel.readConstant.bind fun k => .getField k)
  | putstatic => exact .plain (Parallel.readConstant.bind fun k => .putField k)
  | getexport => exact .after .readConstant fun k => .getExport k
  | invokestatic => exact .after .readConstant fun k => .after (.methodRef k) fun code => .enter code false
  | new =>
    exact .plain (Parallel.readConstant.bind fun k => (Parallel.holderClass k).bind fun cls =>
      .ite (fun _ => Parallel.popValue.bind fun _ => .push _) fun _ => .push _)
  | closure =>
    exact .plain (Parallel.readConstant.bind fun k => Parallel.byte.bind fun captures =>
      (Parallel.methodRef k).bind fun code => .makeClosure code captures)
  | ifEq | ifNe | ifLt | ifGe | ifGt | ifLe =>
    exact .plain (Parallel.readWord.bind fun d => Parallel.popInt.bind fun a => .advanceIf d)
  | ifIcmpEq | ifIcmpNe | ifIcmpLt | ifIcmpGe | ifIcmpGt | ifIcmpLe =>
    exact .plain (Parallel.readWord.bind fun d => Parallel.popInt.bind fun b =>
      Parallel.popInt.bind fun a => .advanceIf d)
  | goto => exact .plain (Parallel.readWord.bind fun d => .advance d)
  | ireturn =>
    refine .get (fun m m' same => ?_) fun m => ?_
    · rcases same.frames with ⟨none, none'⟩ | ⟨f, rest, f', rest', here, here', code, -⟩
      · simp only [none, none', and_self]
      · simp only [here, here', code, and_self]
    · cases m.frames with
      | nil => exact .plain (.raise _)
      | cons f rest => exact .leave (returns rfl) _
  | dreturn | areturn | vreturn => exact .leave (returns rfl) _
  | apply => exact .applyOne
  | unit => exact .plain (.push _)
  | pop => exact .plain (Parallel.pop.bind fun _ => .pure _)
  | pop2 => exact .plain (Parallel.pop.bind fun _ => Parallel.pop.bind fun _ => .pure _)
  | dup => exact .plain (Parallel.pop.bind fun w => (Parallel.push w).bind fun _ => .push w)
  | iadd | isub | imul | idiv | irem =>
    exact .plain (Parallel.popInt.bind fun b => Parallel.popInt.bind fun a =>
      (Parallel.intOp _ a b).bind fun _ => .push _)
  | dadd | dsub | dmul | ddiv | drem =>
    exact .plain (Parallel.popDouble.bind fun _ => Parallel.popDouble.bind fun _ => .pushDouble _)
  | dcmp => exact .plain (Parallel.popDouble.bind fun _ => Parallel.popDouble.bind fun _ => .push _)
  | ineg | boxI => exact .plain (Parallel.popInt.bind fun _ => .push _)
  | dneg => exact .plain (Parallel.popDouble.bind fun _ => .pushDouble _)
  | i2d => exact .plain (Parallel.popInt.bind fun _ => .pushDouble _)
  | boxZ => exact .plain (Parallel.pop.bind fun _ => .push _)
  | boxD => exact .plain (Parallel.popDouble.bind fun _ => .push _)
  | unboxI | unboxZ | unboxD => exact .plain (Parallel.popValue.bind fun _ => .pushUnboxed _ _)
  | objEq => exact .plain (Parallel.popValue.bind fun _ => Parallel.popValue.bind fun _ => .push _)
  | tostrI => exact .plain (Parallel.popInt.bind fun _ => .pushText _)
  | tostrZ => exact .plain (Parallel.pop.bind fun _ => .pushText _)
  | tostrD => exact .plain (Parallel.popDouble.bind fun _ => .pushText _)
  | tostrA => exact .plain (Parallel.popValue.bind fun _ => .pushText _)
  | listCons => exact .plain (Parallel.popList.bind fun _ => Parallel.popValue.bind fun _ => .push _)
  | listIsEmpty => exact .plain (Parallel.popList.bind fun _ => .push _)
  | listHead | listTail =>
    exact .plain (Parallel.popList.bind fun vs => by
      cases vs with
      | nil => exact .raise _
      | cons v vs => exact .push _)
  | getpayload =>
    exact .plain (Parallel.popValue.bind fun v => by
      split
      · exact .ite (fun _ => .push _) fun _ => .raise _
      · exact .raise _)
  | printI => exact .plain (Parallel.popInt.bind fun _ => .printValue _)
  | printZ => exact .plain (Parallel.pop.bind fun _ => .printValue _)
  | printD => exact .plain (Parallel.popDouble.bind fun _ => .printValue _)
  | printA => exact .plain (Parallel.popValue.bind fun _ => .printValue _)
  | matchfail => exact .plain (.raise _)

end Turn

end Machine
end StackML
