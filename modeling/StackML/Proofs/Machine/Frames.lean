import StackML.Machine.Run
import StackML.Proofs.Computation

/-!
What the machine does to its frames. Nearly everything leaves them as they are; a method that is
entered gets one, which starts at its first byte, and a return takes the innermost one away.
-/

namespace StackML.Machine

variable {α β : Type} {x : Exec α} {f : α → Exec β}

def Still (x : Exec α) : Prop := ∀ m a m', x m = .ok a m' → m'.frames = m.frames

namespace Still

protected theorem pure (a : α) : Still (pure a) := fun m b m' ok => by
  obtain ⟨-, rfl⟩ := pure_ok ok
  rfl

protected theorem bind (first : Still x) (next : ∀ a, Still (f a)) : Still (x >>= f) :=
  fun m b m' ok => by
    obtain ⟨a, m₁, run, ok⟩ := bind_ok ok
    rw [next a m₁ b m' ok, first m a m₁ run]

protected theorem get : Still get := fun m a m' ok => by
  cases ok
  rfl

protected theorem modify {g : Machine → Machine} (same : ∀ m, (g m).frames = m.frames) :
    Still (modify g) := fun m a m' ok => by
  cases ok
  exact same m

protected theorem raise (issue : FaultIssue) : Still (raise issue : Exec α) :=
  fun _ _ _ ok => nomatch ok

protected theorem ite {p : Prop} [Decidable p] {y : Exec α} (yes : p → Still x) (no : ¬ p → Still y) :
    Still (if p then x else y) := by
  split
  · next holds => exact yes holds
  · next fails => exact no fails

protected theorem throw (e : Halt) : Still (throw e : Exec α) := fun _ _ _ ok => nomatch ok

end Still

theorem still_look : Still look := by
  refine Still.get.bind fun _ => .bind (.modify fun _ => rfl) fun _ => ?_
  exact .ite (fun _ => .throw _) fun _ => .pure _

theorem still_glance (count : Nat) : Still (glance count) := .ite (fun _ => still_look) fun _ => .pure _

/-! ### The stack -/

theorem still_push (w : Word) : Still (push w) := fun m a m' ok => by
  unfold push at ok
  split at ok
  · cases ok
    rfl
  · split at ok <;> cases ok
    rfl

theorem still_pop : Still pop := fun m a m' ok => by
  unfold pop at ok
  split at ok <;> cases ok
  rfl

theorem still_pushDouble (bits : UInt64) : Still (pushDouble bits) :=
  (still_push _).bind fun _ => still_push _

theorem still_popValue : Still popValue := still_pop.bind fun _ => .pure _

theorem still_popInt : Still popInt := still_pop.bind fun _ => .pure _

theorem still_popDouble : Still popDouble := still_pop.bind fun _ => still_pop.bind fun _ => .pure _

theorem still_pushUnboxed (r : Rep) (v : Value) : Still (pushUnboxed r v) := by
  unfold pushUnboxed
  split
  · exact still_push _
  · exact still_push _
  · exact still_pushDouble _
  · exact .raise _
  · exact .raise _
  · exact .raise _
  · exact still_push _
  · exact still_push _

theorem still_popBoxed (r : Rep) : Still (popBoxed r) := by
  cases r with
  | int => exact still_popInt.bind fun _ => .pure _
  | bool => exact still_pop.bind fun _ => .pure _
  | double => exact still_popDouble.bind fun _ => .pure _
  | ref => exact still_popValue
  | void => exact .pure _

theorem still_popAll (rs : List Rep) : Still (popAll rs) := by
  induction rs with
  | nil => exact .pure _
  | cons r rs ih => exact ih.bind fun _ => (still_popBoxed r).bind fun _ => .pure _

theorem still_popValues (n : Nat) (vs : List Value) : Still (popValues n vs) := by
  induction n generalizing vs with
  | zero => exact .pure _
  | succ n ih => exact still_popValue.bind fun _ => ih _

theorem still_pushEmpty (n : Nat) : Still (pushEmpty n) := by
  induction n with
  | zero => exact .pure _
  | succ n ih => exact (still_push _).bind fun _ => ih

theorem still_popWords (n : Nat) (ws : List Word) : Still (popWords n ws) := by
  induction n generalizing ws with
  | zero => exact .pure _
  | succ n ih => exact still_pop.bind fun _ => ih _

theorem still_forM_push (ws : List Word) : Still (ws.forM push) := by
  induction ws with
  | nil => exact .pure _
  | cons w ws ih => exact (still_push w).bind fun _ => ih

theorem still_wordAt (i : Nat) : Still (wordAt i) :=
  Still.get.bind fun _ => by split <;> first | exact .pure _ | exact .raise _

theorem still_setWordAt (i : Nat) (w : Word) : Still (setWordAt i w) := fun m a m' ok => by
  unfold setWordAt at ok
  split at ok <;> cases ok
  rfl

theorem still_printValue (v : Value) : Still (printValue v) := .modify fun _ => rfl

theorem still_pushClosure (code : Code) (args : List Value) : Still (pushClosure code args) :=
  fun m a m' ok => still_push (.ofValue (.closure m.functions code args))
    { m with functions := m.functions + 1 } a m' ok

theorem still_popList : Still popList :=
  still_popValue.bind fun _ => by split <;> first | exact .pure _ | exact .raise _

theorem still_popTexts (n : Nat) (parts : List Text) : Still (popTexts n parts) := by
  induction n generalizing parts with
  | zero => exact .pure _
  | succ n ih => exact still_popValue.bind fun _ => by split <;> first | exact ih _ | exact .raise _

theorem still_pushText (v : Value) : Still (pushText v) := Still.get.bind fun _ => still_push _

theorem still_pushArgs (rs : List Rep) (vs : List Value) : Still (pushArgs rs vs) := by
  induction rs generalizing vs with
  | nil => exact .pure _
  | cons r rs ih =>
    cases vs with
    | nil => exact .pure _
    | cons v vs => exact (still_pushUnboxed r v).bind fun _ => ih vs

theorem still_intOp (op : Opcode) (a b : Int64) : Still (intOp op a b) := by
  unfold intOp
  split
  · exact .pure _
  · exact .pure _
  · exact .pure _
  · exact .ite (fun _ => .raise _) fun _ => .ite (fun _ => .pure _) fun _ => .pure _

/-! ### Modules, functions and the host -/

theorem still_load (artifacts : List Artifact) : Still (load artifacts) := by
  unfold load
  split
  · exact .raise _
  · exact .modify fun _ => rfl
  · exact .raise _

theorem still_instanceAt (i : Nat) : Still (instanceAt i) := Still.get.bind fun _ => .pure _

theorem still_codeOf (i : Nat) (inst : Instance) (m : LinkedMethod) : Still (codeOf i inst m) := by
  unfold codeOf
  split
  · exact .pure _
  · exact .raise _

theorem still_fieldRep (descriptor : Text) : Still (fieldRep descriptor) := by
  unfold fieldRep
  split
  · exact .pure _
  · exact .raise _

theorem still_makeClosure (code : Code) (captures : Nat) : Still (makeClosure code captures) := by
  have rest : Still (do
      let args ← popValues captures []
      pushClosure code args) := (still_popValues _ _).bind fun _ => still_pushClosure _ _
  exact .ite (fun _ => (Still.raise _).bind fun _ => rest) fun _ => rest

theorem still_hostAnswer (k : Constant) (answer : Except Text Value × Host.Heap) :
    Still (hostAnswer k answer) := by
  refine Still.bind (.modify fun _ => rfl) fun _ => ?_
  split
  · exact .pure _
  · exact .pure _
  · exact .raise _

theorem still_callHost (setup : Setup) (op : Opcode) (k : Constant) : Still (callHost setup op k) := by
  unfold callHost
  split
  · exact .raise _
  · next signature _ =>
    have rest (answer : Except Text Value × Host.Heap) : Still (do
        let v ← hostAnswer k answer
        if signature.result = .void then pure () else pushUnboxed signature.result v) :=
      (still_hostAnswer k answer).bind fun _ =>
        .ite (fun _ => .pure _) fun _ => still_pushUnboxed _ _
    refine (still_popAll _).bind fun args => ?_
    dsimp only
    split
    · exact still_popValue.bind fun _ => Still.get.bind fun _ => rest _
    · exact Still.get.bind fun _ => rest _
    · exact Still.get.bind fun _ => rest _
    · exact Still.get.bind fun _ => rest _

/-! ### Jumps, calls and returns -/

theorem advance_frames {n : Nat} {m m' : Machine} {u : Unit} (ok : advance n m = .ok u m') :
    m'.frames = m.frames.modifyHead fun f => { f with ip := f.ip + n } := by
  cases ok
  cases frames : m.frames <;> simp [frames]

theorem enter_frames {setup : Setup} {code : Code} {boxResult : Bool} {m m' : Machine} {u : Unit}
    (ok : enter setup code boxResult m = .ok u m') :
    code.signature.words ≤ m.height ∧
      m'.frames = { code, base := m.height - code.signature.words, boxResult } :: m.frames := by
  unfold enter at ok
  obtain ⟨_, _, runG, ok⟩ := bind_ok ok
  cases runG
  have words : Still (pushEmpty (missingLocals (m.height - code.signature.words) m.height
    code.method.maxLocals)) := still_pushEmpty _
  dsimp only at ok
  split at ok
  · obtain ⟨_, _, run, _⟩ := bind_ok ok
    cases run
  · split at ok
    · obtain ⟨_, _, run, _⟩ := bind_ok ok
      cases run
    · next enough =>
      obtain ⟨_, m₁, runE, ok⟩ := bind_ok ok
      cases ok
      exact ⟨Nat.not_lt.1 enough, congrArg _ (words m _ m₁ runE)⟩

theorem leave_frames {r : Rep} {m m' : Machine} {u : Unit} (ok : leave r m = .ok u m') :
    m'.frames = m.frames.tail := by
  unfold leave at ok
  obtain ⟨words, m₁, runP, ok⟩ := bind_ok ok
  obtain ⟨_, _, runG, ok⟩ := bind_ok ok
  cases runG
  rw [← still_popWords _ _ m words m₁ runP]
  cases frames : m₁.frames with
  | nil =>
    rw [frames] at ok
    cases ok
  | cons f rest =>
    rw [frames] at ok
    obtain ⟨_, m₂, runM, ok⟩ := bind_ok ok
    cases runM
    split at ok
    · exact still_push _ _ _ _ ok
    · exact still_forM_push _ _ _ _ ok

end StackML.Machine
