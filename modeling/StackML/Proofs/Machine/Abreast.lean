import StackML.Proofs.Machine.Likeness

/-!
Runs of one method abreast. A look before each instruction tells whether it loads and stores below the
top of the stack, and with what the method is left. Where it always does so, a run of the method over
other callers, whose result is to be boxed, comes to the same end.
-/

namespace StackML

/-- The representation of the result that a return leaves. -/
def Opcode.result (s : Descriptor.Signature) : Opcode → Rep
  | ireturn => s.result
  | dreturn => .double
  | areturn => .ref
  | _ => .void

namespace Machine

variable {limit base : Nat} {rest rest' : List Frame} {m m' m₁' k k' : Machine} {setup : Setup}
  {init init' : Code → Exec Unit} {u : Unit} {w : Word} {op : Opcode} {r : Rep}

def reaches (op : Opcode) (m : Machine) : Bool :=
  match readSlot m with
  | .ok i k => i + op.slotWords ≤ k.height
  | .error .. => true

/-- The next instruction loads and stores only below the top of the stack, and with `depth` frames it
returns only with a result of representation `r`. -/
def orderly (depth : Nat) (r : Rep) (m : Machine) : Bool :=
  match m.frames, fetch m with
  | f :: _, .ok op k =>
    if op.operands = .slot then reaches op k
    else !(op.isReturn && m.depth = depth) || op.result f.code.signature = r
  | _, _ => true

def attend (depth : Nat) (r : Rep) : Exec Unit := fun m =>
  if orderly depth r m then .ok () m else raise .badSlot m

theorem attend_ok {depth : Nat} (ok : attend depth r m = .ok u k) : orderly depth r m = true ∧ k = m := by
  unfold attend at ok
  split at ok
  · next good =>
    cases ok
    exact ⟨good, rfl⟩
  · cases ok

/-! ### Loads and stores -/

def transfer (op : Opcode) (i : Nat) : Exec Unit :=
  match op with
  | .dload => do
    wordAt i >>= push
    wordAt (i + 1) >>= push
  | .istore | .astore => pop >>= setWordAt i
  | .dstore => do
    pop >>= setWordAt (i + 1)
    pop >>= setWordAt i
  | _ => wordAt i >>= push

theorem step_slot (slot : op.operands = .slot) : step setup init op = readSlot >>= transfer op := by
  cases op with
  | iload | aload | istore | astore => rfl
  | dload | dstore => exact bind_congr fun i => by simp only [transfer, bind_assoc]
  | _ => cases slot

theorem alongside_load {i : Nat} (alike : Alike limit base rest rest' m m') (low : i < m'.height)
    (ok : (wordAt i >>= push) m' = .ok u k') :
    ∃ k, (wordAt i >>= push) m = .ok u k ∧ k'.height = m'.height + 1 ∧ Alike limit base rest rest' k k' := by
  obtain ⟨w, m₁', read', pushed⟩ := bind_ok ok
  obtain ⟨read, rfl⟩ := alongside_word alike low read'
  obtain ⟨k, run, alike'⟩ := Alongside.push w m m₁' alike u k' pushed
  exact ⟨k, (bind_of_ok read).trans run, push_height pushed, alike'⟩

theorem alongside_store {i : Nat} (alike : Alike limit base rest rest' m m') (inside : i < m.stack.size)
    (ok : (pop >>= setWordAt i) m' = .ok u k') :
    ∃ k, (pop >>= setWordAt i) m = .ok u k ∧ k.stack.size = m.stack.size ∧ Alike limit base rest rest' k k' := by
  obtain ⟨w, m₁', popped', set⟩ := bind_ok ok
  obtain ⟨m₁, popped, alike₁⟩ := Alongside.pop m m' alike w m₁' popped'
  have size : m₁.stack.size = m.stack.size := by
    obtain ⟨-, -, rfl⟩ := pop_spec popped
    rfl
  obtain ⟨k, run, kept, alike'⟩ := alongside_setWord alike₁ (size ▸ inside) set
  exact ⟨k, (bind_of_ok popped).trans run, kept.trans size, alike'⟩

theorem alongside_transfer {i : Nat} (alike : Alike limit base rest rest' m m')
    (low : i + op.slotWords ≤ m'.height) (ok : transfer op i m' = .ok u k') :
    ∃ k, transfer op i m = .ok u k ∧ Alike limit base rest rest' k k' := by
  have room : i + op.slotWords ≤ m.stack.size := Nat.le_trans (alike.height ▸ low) alike.sound.room
  unfold transfer at ok ⊢
  split at ok
  · obtain ⟨_, m₁', first', ok⟩ := bind_ok ok
    change i + 2 ≤ _ at low
    obtain ⟨m₁, first, high, alike₁⟩ := alongside_load alike (by omega) first'
    obtain ⟨k, second, -, alike'⟩ := alongside_load alike₁ (by omega) ok
    exact ⟨k, (bind_of_ok first).trans second, alike'⟩
  · obtain ⟨k, run, -, alike'⟩ := alongside_store alike room ok
    exact ⟨k, run, alike'⟩
  · obtain ⟨k, run, -, alike'⟩ := alongside_store alike room ok
    exact ⟨k, run, alike'⟩
  · obtain ⟨_, m₁', first', ok⟩ := bind_ok ok
    change i + 2 ≤ _ at room
    obtain ⟨m₁, first, size, alike₁⟩ := alongside_store alike (by omega) first'
    obtain ⟨k, second, -, alike'⟩ := alongside_store alike₁ (by omega) ok
    exact ⟨k, (bind_of_ok first).trans second, alike'⟩
  · have one : 1 ≤ op.slotWords := by cases op <;> decide
    obtain ⟨k, run, -, alike'⟩ := alongside_load alike (by omega) ok
    exact ⟨k, run, alike'⟩

theorem alongside_slot (init : Code → Exec Unit) (slot : op.operands = .slot)
    (alike : Alike limit base rest rest' m m')
    (low : reaches op m' = true) (ok : step setup init' op m' = .ok u k') :
    ∃ k, step setup init op m = .ok u k ∧ Alike limit base rest rest' k k' := by
  have reads : Parallel False (fun _ => pure ()) (fun _ => pure ()) readSlot readSlot := .readSlot
  rw [step_slot slot] at ok ⊢
  obtain ⟨i, m₁', read', ok⟩ := bind_ok ok
  obtain ⟨m₁, read, alike₁⟩ := reads.alongside (fun _ => .pure _) m m' alike i m₁' read'
  unfold reaches at low
  rw [read'] at low
  obtain ⟨k, run, alike'⟩ := alongside_transfer alike₁ (of_decide_eq_true low) ok
  exact ⟨k, (bind_of_ok read).trans run, alike'⟩

/-! ### Instructions -/

theorem step_return_eq {f : Frame} {callers : List Frame} (returns : op.isReturn = true)
    (frames : m.frames = f :: callers) :
    step setup init op m = leave (op.result f.code.signature) m := by
  cases op with
  | ireturn =>
    refine (bind_of_ok (get_eq m)).trans ?_
    rw [frames]
    rfl
  | dreturn | areturn | vreturn => rfl
  | _ => cases returns

theorem alongside_cycle (allowed : setup.maxFrames ≤ limit) (free : base < maxStack)
    (inits : ∀ code, Alongside limit base rest rest' (init code) (init' code))
    (alike : Alike limit base rest rest' m m') (good : orderly (rest'.length + 1) r m' = true)
    (ok : cycle setup init' m' = .ok u k') :
    ∃ k, cycle setup init m = .ok u k ∧
      (Alike limit base rest rest' k k' ∨ Returned r base rest rest' k k') := by
  obtain ⟨op, m₁', fetched', ok⟩ := bind_ok ok
  have reads : Parallel False init init' fetch fetch := .fetch
  obtain ⟨m₁, fetched, alike₁⟩ := reads.alongside inits m m' alike op m₁' fetched'
  have run {k : Machine} (stepped : step setup init op m₁ = .ok u k) : cycle setup init m = .ok u k :=
    (bind_of_ok fetched).trans stepped
  obtain ⟨g, callers, frames, frames₁, -⟩ := fetch_frames fetched'
  unfold orderly at good
  rw [frames, fetched'] at good
  dsimp only at good
  split at good
  · next slot =>
    obtain ⟨k, stepped, alike'⟩ := alongside_slot init slot alike₁ good ok
    exact ⟨k, run stepped, .inl alike'⟩
  · next other =>
    by_cases returns : op.isReturn = true
    · -- the method leaves as it was seen to, if it is the one that returns
      rw [step_return_eq returns frames₁] at ok
      obtain ⟨k, left, outcome⟩ := alongside_leave free _ alike₁ ok
      rcases alike₁.resembles.frames with ⟨-, none⟩ | ⟨h, above, h', above', same, same', code, -⟩
      · cases none.symm.trans frames₁
      · obtain ⟨rfl, rfl⟩ := List.cons.inj (same'.symm.trans frames₁)
        refine ⟨k, run ?_, ?_⟩
        · rw [step_return_eq returns same, ← code]
          exact left
        · rcases outcome with alike' | ⟨last, returned⟩
          · exact .inl alike'
          · have depth : m'.depth = rest'.length + 1 := by
              rw [alike.sound'.counted, ← last, frames, frames₁]
              rfl
            rw [returns, depth] at good
            have same : op.result g.code.signature = r := by simpa using good
            exact .inr (same ▸ returned)
    · have turn : Turn setup False False init init' (step setup init op) (step setup init' op) :=
        .step op (fun slot => other slot) returns
      obtain ⟨k, stepped, alike'⟩ := turn.alongside allowed inits m₁ m₁' alike₁ u k' ok
      exact ⟨k, run stepped, .inl alike'⟩

/-! ### Runs -/

def Escorts (limit base : Nat) (rest rest' : List Frame) (run run' : (stop : Nat) → Exec Unit) : Prop :=
  ∀ {b : Nat} {outer : List Frame} {m m' k' : Machine}, rest.length < outer.length →
    Alike limit base rest rest' m m' → Above b outer m.frames → run' outer.length m' = .ok () k' →
    ∃ k, run outer.length m = .ok () k ∧ Alike limit base rest rest' k k'

theorem Alike.deeper (h : Alike limit base rest rest' m m') : rest.length < m.frames.length := by
  obtain ⟨inner, f, top, shared⟩ := h.shared
  rw [shared.frames, List.length_append, List.length_cons]
  omega

variable {run run' : (stop : Nat) → Exec Unit}

theorem alongside_invokeBy (allowed : setup.maxFrames ≤ limit)
    (runs : Escorts limit base rest rest' run run') (code : Code) (args : List Value) :
    Alongside limit base rest rest' (invokeBy run setup code args) (invokeBy run' setup code args) := by
  intro m m' alike v k' ok
  unfold invokeBy at ok ⊢
  dsimp only at ok ⊢
  split at ok
  · cases ok
  · next arity =>
    rw [bind_of_ok (get_eq m'), alike.depth, alike.sound.counted] at ok
    rw [if_neg arity, bind_of_ok (get_eq m), alike.sound.counted]
    obtain ⟨_, m₁', passed', ok⟩ := bind_ok ok
    obtain ⟨_, m₂', entered', ok⟩ := bind_ok ok
    obtain ⟨_, m₃', ran', ok⟩ := bind_ok ok
    have passes : Parallel False (fun _ => pure ()) (fun _ => pure ())
        (pushArgs code.signature.params args) (pushArgs code.signature.params args) := .pushArgs _ _
    have pops : Parallel False (fun _ => pure ()) (fun _ => pure ()) popValue popValue := .popValue
    obtain ⟨m₁, passed, alike₁⟩ := passes.alongside (fun _ => .pure _) m m' alike _ m₁' passed'
    obtain ⟨m₂, entered, alike₂⟩ := alongside_enter allowed code true m₁ m₁' alike₁ _ m₂' entered'
    obtain ⟨-, frames⟩ := enter_frames entered
    rw [still_pushArgs _ _ m _ m₁ passed] at frames
    obtain ⟨m₃, ran, alike₃⟩ := runs alike.deeper alike₂ ⟨[], _, frames, rfl, rfl⟩ ran'
    obtain ⟨k, popped, alike'⟩ := pops.alongside (fun _ => .pure _) m₃ m₃' alike₃ v k' ok
    refine ⟨k, ?_, alike'⟩
    rw [bind_of_ok passed, bind_of_ok entered, bind_of_ok ran]
    exact popped

theorem alongside_starting (allowed : setup.maxFrames ≤ limit) (runs : Escorts limit base rest rest' run run')
    (code : Code) : Alongside limit base rest rest' (starting run setup code) (starting run' setup code) :=
  (alongside_invokeBy allowed runs code []).bind fun _ => .pure _

theorem stops_at {watch : Exec Unit} {steps stop count' : Nat} (count : Nat) (done : m.depth ≤ stop)
    (done' : m'.depth ≤ stop) (ok : executeWatched watch setup steps stop count' m' = .ok u k') :
    k' = m' ∧ execute setup steps stop count m = .ok u m := by
  cases steps with
  | zero => cases ok
  | succ steps =>
    rw [executeWatched_done done'] at ok
    cases ok
    exact ⟨rfl, execute_done done⟩

theorem Alike.glance {count count' : Nat} (alike : Alike limit base rest rest' m m')
    (calm : m.cancelled = false ∨ count = count') (glanced : glance count' m' = .ok u k') :
    ∃ k, glance count m = .ok u k ∧ Alike limit base rest rest' k k' ∧
      (k.cancelled = false ∨ counted count = counted count') := by
  rcases calm with quiet | rfl
  · rw [glance_eq (alike.world.cancelled.trans quiet)] at glanced
    cases glanced
    exact ⟨m, glance_eq quiet count, alike, .inl quiet⟩
  · unfold Machine.glance at glanced ⊢
    split at glanced
    · next due =>
      unfold look at glanced ⊢
      rw [bind_of_ok (get_eq m')] at glanced
      obtain ⟨_, m₁', rested', glanced⟩ := bind_ok glanced
      obtain ⟨m₁, rested, alike₁⟩ := Alongside.modify outside_rest m m' alike _ m₁' rested'
      split at glanced
      · cases glanced
      · next going =>
        cases glanced
        rw [alike.world.cancelled] at going
        refine ⟨m₁, ?_, alike₁, .inr rfl⟩
        rw [if_pos due, bind_of_ok (get_eq m), bind_of_ok rested, if_neg going]
        rfl
    · next early =>
      cases glanced
      exact ⟨m, if_neg early ▸ rfl, alike, .inr rfl⟩

/-- The run of the method over other callers comes to the same end, and so does the run of what it
calls. It makes no difference how long ago each machine was last seen not to be cancelled. -/
theorem execute_alongside (allowed : setup.maxFrames ≤ limit) (free : base < maxStack)
    {steps count count' b : Nat} {outer : List Frame} (high : rest.length ≤ outer.length)
    (alike : Alike limit base rest rest' m m') (calm : m.cancelled = false ∨ count = count')
    (above : Above b outer m.frames)
    (ok : executeWatched (attend (rest'.length + 1) r) setup steps outer.length count' m' = .ok u k') :
    ∃ k, execute setup steps outer.length count m = .ok u k ∧
      (rest.length < outer.length ∧ Alike limit base rest rest' k k' ∨
        rest = outer ∧ Returned r base rest rest' k k') := by
  induction steps generalizing count count' b outer m m' u k' with
  | zero => cases ok
  | succ steps ih =>
    have runs : Escorts limit base rest rest' (fun stop => execute setup steps stop 0)
        (fun stop => executeWatched (attend (rest'.length + 1) r) setup steps stop 0) := by
      intro b outer m m' k' deeper alike above ok
      obtain ⟨k, run, ⟨-, alike'⟩ | ⟨same, -⟩⟩ :=
        ih (Nat.le_of_lt deeper) alike (.inr rfl) above ok
      · exact ⟨k, run, alike'⟩
      · rw [same] at deeper
        exact absurd deeper (Nat.lt_irrefl _)
    have inits (code : Code) : Alongside limit base rest rest'
        (starting (fun stop => execute setup steps stop 0) setup code)
        (starting (fun stop => executeWatched (attend (rest'.length + 1) r) setup steps stop 0) setup code) :=
      alongside_starting allowed runs code
    have deeper := above.deeper alike.sound
    rw [executeWatched_round] at ok
    obtain ⟨m₀', _, m₁', glanced', looked, turned', goes⟩ := round_ok (alike.depth ▸ deeper) ok
    obtain ⟨good, rfl⟩ := attend_ok looked
    obtain ⟨m₀, glanced, alike₀, calm₀⟩ := alike.glance calm glanced'
    have above₀ : Above b outer m₀.frames := by
      rw [still_glance count m () m₀ glanced]
      exact above
    obtain ⟨m₁, turned, outcome⟩ := alongside_cycle allowed free inits alike₀ good turned'
    rw [execute_eq_of_cycle deeper glanced turned]
    -- on the side whose result is boxed, it is seen whether the method above `outer` was left
    have keeps : ∀ stop, Keeps limit (execute setup steps stop 0) (execute setup steps stop 0) :=
      keeps_running allowed steps
    have kept := (keeps_cycle allowed (keeps_starting allowed keeps)).ok alike₀.sound alike₀.shallow turned
    have place := Turn.cycle.above (keeps_starting allowed keeps)
      (moves_starting allowed keeps (execute_leaves allowed steps 0)) alike₀.sound alike₀.shallow above₀ turned
    rcases outcome with alike₁ | returned
    · rcases place with still | left
      · exact ih high alike₁ (calm₀.imp_left kept.steady) still goes
      · have done := left.done kept.sound
        obtain ⟨rfl, run⟩ := stops_at (counted count) done (alike₁.depth ▸ done) goes
        exact ⟨m₁, run, .inl ⟨left.frames ▸ alike₁.deeper, alike₁⟩⟩
    · rcases place with ⟨inner, f, still, -⟩ | left
      · have fewer := congrArg List.length (returned.frames.symm.trans still)
        rw [List.length_append, List.length_cons] at fewer
        omega
      · have done := left.done kept.sound
        obtain ⟨rfl, run⟩ := stops_at (counted count) done (returned.depth ▸ done) goes
        exact ⟨m₁, run, .inr ⟨returned.frames.symm.trans left.frames, returned⟩⟩

/-! ### Watched runs -/

def Obeys {α : Type} (x y : Exec α) : Prop := ∀ m a k, x m = .ok a k → y m = .ok a k

theorem Obeys.bind {α β : Type} {x y : Exec α} {f g : α → Exec β} (first : Obeys x y)
    (next : ∀ a, Obeys (f a) (g a)) : Obeys (x >>= f) (y >>= g) := fun m b k ok => by
  obtain ⟨a, m₁, run, ok⟩ := bind_ok ok
  exact (bind_of_ok (first m a m₁ run)).trans (next a m₁ b k ok)

theorem congruence_obeys : Congruence fun x y => Obeys x y where
  pure _ _ _ _ := id
  bind := .bind
  state next m := next m m
  throw _ _ _ _ := id
  raise _ _ _ _ := id
  modify _ _ _ _ := id
  push _ _ _ _ := id
  pop _ _ _ := id
  closure _ _ _ _ _ := id
  byte _ _ _ := id
  advance _ _ _ _ := id
  word _ _ _ _ := id
  setWord _ _ _ _ _ := id
  leave _ _ _ _ := id

theorem obeys_execute {watch : Exec Unit} (idle : ∀ m u k, watch m = .ok u k → k = m) (steps stop count : Nat) :
    Obeys (executeWatched watch setup steps stop count) (execute setup steps stop count) := by
  refine congruence_obeys.execute (fun _ _ _ _ _ => id) (fun {x y} same m u k ok => ?_) steps stop count
  obtain ⟨_, m₁, looked, runs⟩ := bind_ok ok
  obtain rfl := idle m _ m₁ looked
  exact same m₁ u k runs

end Machine
end StackML
