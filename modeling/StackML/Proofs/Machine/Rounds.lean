import StackML.Proofs.Machine.Parallel
import StackML.Proofs.Machine.View
import StackML.Proofs.Machine.Watching

/-!
Runs taken apart. Execution goes in rounds, each of which looks at the machine and takes one instruction;
a round runs initializers, which are rounds again. A relation of computations that the operations respect
is respected by a round if what the round runs respects it, and so by whole runs.
-/

namespace StackML.Machine

variable {setup : Setup} {locals ends : Prop} {init init' : Code → Exec Unit} {watch : Exec Unit}
  {run run' : (stop : Nat) → Exec Unit} {next next' : (count : Nat) → Exec Unit} {stop count : Nat}
  {m k : Machine} {u : Unit}

/-! ### One round -/

def starting (run : (stop : Nat) → Exec Unit) (setup : Setup) (code : Code) : Exec Unit := do
  let _ ← invokeBy run setup code []

/-- Takes one instruction, unless no more than `stop` frames are left, and goes on. -/
def round (watch : Exec Unit) (setup : Setup) (init : Code → Exec Unit) (next : (count : Nat) → Exec Unit)
    (stop count : Nat) : Exec Unit := do
  let m ← get
  if m.depth ≤ stop then return
  glance count
  watch
  cycle setup init
  next (counted count)

theorem Turn.cycle : Turn setup True True init init' (cycle setup init) (cycle setup init') :=
  .after .fetch fun op => .step op (fun _ => trivial) fun _ => trivial

theorem executeWatched_round (steps : Nat) :
    executeWatched watch setup (steps + 1) stop count =
      round watch setup (starting (fun stop => executeWatched watch setup steps stop 0) setup)
        (executeWatched watch setup steps stop) stop count := by
  unfold round cycle
  simp only [executeWatched, bind_assoc]
  rfl

theorem execute_round (steps : Nat) :
    execute setup (steps + 1) stop count =
      round (pure ()) setup (starting (fun stop => execute setup steps stop 0) setup)
        (execute setup steps stop) stop count := by
  unfold round cycle
  simp only [execute, pure_bind, bind_assoc]
  rfl

theorem round_done (done : m.depth ≤ stop) : round watch setup init next stop count m = .ok () m := by
  unfold round
  rw [bind_of_ok (get_eq m), if_pos done]
  rfl

theorem round_eq (deeper : ¬ m.depth ≤ stop) : round watch setup init next stop count m = (do
    glance count
    watch
    cycle setup init
    next (counted count)) m := by
  unfold round
  rw [bind_of_ok (get_eq m), if_neg deeper]

theorem round_ok (deeper : ¬ m.depth ≤ stop) (ok : round watch setup init next stop count m = .ok u k) :
    ∃ m₀ m₁ m₂, glance count m = .ok () m₀ ∧ watch m₀ = .ok () m₁ ∧ cycle setup init m₁ = .ok () m₂ ∧
      next (counted count) m₂ = .ok u k := by
  rw [round_eq deeper] at ok
  obtain ⟨_, m₀, glanced, ok⟩ := bind_ok ok
  obtain ⟨_, m₁, looked, ok⟩ := bind_ok ok
  obtain ⟨_, m₂, done, goes⟩ := bind_ok ok
  exact ⟨m₀, m₁, m₂, glanced, looked, done, goes⟩

theorem executeWatched_done {steps : Nat} (done : m.depth ≤ stop) :
    executeWatched watch setup (steps + 1) stop count m = .ok () m := by
  rw [executeWatched_round, round_done done]

theorem execute_done {steps : Nat} (done : m.depth ≤ stop) :
    execute setup (steps + 1) stop count m = .ok () m := by
  rw [execute_round, round_done done]

theorem execute_eq_of_cycle {steps : Nat} {m₀ m₁ : Machine} (deeper : ¬ m.depth ≤ stop)
    (glanced : glance count m = .ok () m₀)
    (done : cycle setup (starting (fun stop => execute setup steps stop 0) setup) m₀ = .ok () m₁) :
    execute setup (steps + 1) stop count m = execute setup steps stop (counted count) m₁ := by
  rw [execute_round, round_eq deeper, bind_of_ok glanced]
  exact bind_of_ok done

/-! ### Relations of computations -/

theorem outside_rest : Outside fun m => { m with cancelled := m.cancelled.rest } where
  stack _ := ⟨rfl, rfl, rfl, rfl⟩
  grows _ := .refl _
  world _ _ same := { same with cancelled := congrArg Signal.rest same.cancelled }
  steady _ calm := congrArg Signal.rest calm

structure Congruence (R : {α : Type} → Exec α → Exec α → Prop) : Prop where
  pure {α : Type} (a : α) : R (pure a) (pure a)
  bind {α β : Type} {x y : Exec α} {f g : α → Exec β} :
    R x y → (∀ a, R (f a) (g a)) → R (x >>= f) (y >>= g)
  state {β : Type} {f g : Machine → Exec β} : (∀ m, R (f m) (g m)) → R (get >>= f) (get >>= g)
  throw {α : Type} (e : Halt) : R (throw e : Exec α) (throw e)
  raise {α : Type} (issue : FaultIssue) : R (raise issue : Exec α) (raise issue)
  modify {change : Machine → Machine} : Outside change → R (modify change) (modify change)
  push (w : Word) : R (push w) (push w)
  pop : R pop pop
  closure (code : Code) (args : List Value) : R (pushClosure code args) (pushClosure code args)
  byte : R readByte readByte
  advance (n : Nat) : R (advance n) (advance n)
  word (i : Nat) : R (wordAt i) (wordAt i)
  setWord (i : Nat) (w : Word) : R (setWordAt i w) (setWordAt i w)
  leave (r : Rep) : R (leave r) (leave r)

namespace Congruence

theorem ite {α : Type} {R : Exec α → Exec α → Prop} {p : Prop} [Decidable p] {x y x' y' : Exec α}
    (yes : p → R x y) (no : ¬ p → R x' y') : R (if p then x else x') (if p then y else y') := by
  split
  · next holds => exact yes holds
  · next fails => exact no fails

variable {R : {α : Type} → Exec α → Exec α → Prop} (respects : Congruence R)
include respects

theorem glance (count : Nat) : R (glance count) (glance count) :=
  ite (fun _ => respects.state fun _ => respects.bind (respects.modify outside_rest) fun _ =>
    ite (fun _ => respects.throw _) fun _ => respects.pure _) fun _ => respects.pure _

theorem parallel {α : Type} {x y : Exec α} (inits : ∀ code, R (init code) (init' code))
    (h : Parallel locals init init' x y) : R x y := by
  induction h with
  | pure a => exact respects.pure a
  | bind _ _ ih ih' => exact respects.bind ih ih'
  | get _ _ ih => exact respects.state ih
  | modify outside => exact respects.modify outside
  | raise issue => exact respects.raise issue
  | push w => exact respects.push w
  | pop => exact respects.pop
  | closure code args => exact respects.closure code args
  | byte => exact respects.byte
  | advance n => exact respects.advance n
  | word _ i => exact respects.word i
  | setWord _ i w => exact respects.setWord i w
  | init code => exact inits code

theorem apart {α : Type} {x y : Exec α} (h : Parallel True (fun _ => Pure.pure ()) (fun _ => Pure.pure ()) x y) :
    R x y := respects.parallel (fun _ => respects.pure ()) h

variable (enters : ∀ code boxResult, R (enter setup code boxResult) (enter setup code boxResult))
include enters

theorem turn {x y : Exec Unit} (inits : ∀ code, R (init code) (init' code))
    (h : Turn setup locals ends init init' x y) : R x y := by
  induction h with
  | plain h => exact respects.parallel inits h
  | after first _ ih => exact respects.bind (respects.parallel inits first) ih
  | get _ _ ih => exact respects.state ih
  | enter code boxResult => exact enters code boxResult
  | leave _ r => exact respects.leave r

theorem invokeBy (runs : ∀ stop, R (run stop) (run' stop)) (code : Code) (args : List Value) :
    R (invokeBy run setup code args) (invokeBy run' setup code args) := by
  have rest : R
      (do
        let depth := (← get).depth
        pushArgs code.signature.params args
        enter setup code true
        run depth
        popValue)
      (do
        let depth := (← get).depth
        pushArgs code.signature.params args
        enter setup code true
        run' depth
        popValue) :=
    respects.state fun m => respects.bind (respects.apart (.pushArgs _ _)) fun _ =>
      respects.bind (enters code true) fun _ => respects.bind (runs _) fun _ => respects.apart .popValue
  exact ite (fun _ => respects.bind (respects.raise _) fun _ => rest) fun _ => rest

theorem starting (runs : ∀ stop, R (run stop) (run' stop)) (code : Code) :
    R (starting run setup code) (starting run' setup code) :=
  respects.bind (respects.invokeBy enters runs code []) fun _ => respects.pure ()

theorem round (looks : ∀ {x y : Exec Unit}, R x y → R (do watch; x) (do Pure.pure (); y))
    (inits : ∀ code, R (init code) (init' code)) (nexts : ∀ count, R (next count) (next' count))
    (stop count : Nat) :
    R (round watch setup init next stop count) (round (Pure.pure ()) setup init' next' stop count) := by
  have turn := looks (respects.bind (respects.turn enters inits .cycle) fun _ => nexts (counted count))
  exact respects.state fun m => ite (fun _ => respects.pure ()) fun _ =>
    respects.bind (respects.glance count) fun _ => turn

theorem execute (looks : ∀ {x y : Exec Unit}, R x y → R (do watch; x) (do Pure.pure (); y))
    (steps stop count : Nat) :
    R (executeWatched watch setup steps stop count) (execute setup steps stop count) := by
  induction steps generalizing stop count with
  | zero => exact respects.throw _
  | succ steps ih =>
    rw [executeWatched_round, execute_round]
    exact respects.round enters looks (respects.starting enters fun stop => ih stop 0) (ih stop) stop count

end Congruence
end StackML.Machine
