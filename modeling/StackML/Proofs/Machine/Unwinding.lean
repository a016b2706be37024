import StackML.Proofs.Machine.Upkeep

/-!
How requests end. A method that was called leaves the frames that were there and one word more, and the
call takes that word away; a failure puts the stack and the frames back. It makes no difference whether
every call inside, for an initializer, puts them back for itself.
-/

namespace StackML

/-! ### Parameters -/

namespace Descriptor

theorem nonvoid_items {params : List Rep} {inName : Bool} {bytes : List UInt8} {s : Signature}
    (nonvoid : Rep.void ∉ params) (read : items params inName bytes = .ok s) : Rep.void ∉ s.params := by
  induction bytes generalizing params inName with
  | nil => cases inName <;> cases read
  | cons b rest ih =>
    have more (r : Rep) (other : Rep.void ≠ r) : Rep.void ∉ r :: params := by
      rw [List.mem_cons, not_or]
      exact ⟨other, nonvoid⟩
    cases inName with
    | true => exact ih nonvoid read
    | false =>
      unfold items at read
      split at read
      · cases last : result rest with
        | error issue =>
          rw [last] at read
          cases read
        | ok r =>
          rw [last] at read
          cases read
          rwa [List.mem_reverse]
      · split at read
        · exact ih (more .int nofun) read
        · split at read
          · exact ih (more .bool nofun) read
          · split at read
            · exact ih (more .double nofun) read
            · split at read
              · cases read
              · split at read
                · exact ih (more .ref nofun) read
                · cases read

theorem nonvoid_parse {text : Text} {s : Signature} (read : parse text = .ok s) : Rep.void ∉ s.params := by
  unfold parse at read
  dsimp only at read
  split at read
  · next signature parsed =>
    cases read
    split at parsed
    · exact nonvoid_items List.not_mem_nil parsed
    · cases parsed
  · cases read

end Descriptor

namespace Machine

variable {α β : Type} {limit : Nat} {m m' : Machine} {x y : Exec α} {f g : α → Exec β}
  {setup : Setup} {locals ends : Prop} {init init' : Code → Exec Unit}

/-! ### Methods that were called -/

structure SameLevel (m m' : Machine) : Prop where
  height : m'.height = m.height
  frames : m'.frames = m.frames
  depth : m'.depth = m.depth

theorem SameLevel.refl (m : Machine) : SameLevel m m := ⟨rfl, rfl, rfl⟩

theorem SameLevel.trans {k : Machine} (first : SameLevel m m') (second : SameLevel m' k) : SameLevel m k :=
  ⟨second.height.trans first.height, second.frames.trans first.frames, second.depth.trans first.depth⟩

/-- Above the frames `outer` a method is running whose locals begin at `base` and whose result is
left boxed. -/
def Above (base : Nat) (outer frames : List Frame) : Prop :=
  ∃ inner f, frames = inner ++ f :: outer ∧ f.base = base ∧ f.boxResult = true

theorem Above.moved {base : Nat} {outer frames frames' : List Frame} (h : Above base outer frames)
    (moved : Moved frames frames') : Above base outer frames' := by
  obtain ⟨inner, f, rfl, based, boxed⟩ := h
  obtain ⟨ip, rfl⟩ := moved
  cases inner with
  | nil => exact ⟨[], _, rfl, based, boxed⟩
  | cons g inner => exact ⟨_ :: inner, f, rfl, based, boxed⟩

structure Left (base : Nat) (outer : List Frame) (m : Machine) : Prop where
  frames : m.frames = outer
  height : m.height = base + 1

theorem push_height {w : Word} {u : Unit} (ok : push w m = .ok u m') : m'.height = m.height + 1 := by
  unfold push at ok
  split at ok
  · cases ok
    rfl
  · split at ok <;> cases ok
    rfl

theorem pop_height {w : Word} (ok : pop m = .ok w m') : m'.height + 1 = m.height := by
  unfold pop at ok
  split at ok
  · cases ok
  · cases ok
    exact Nat.succ_pred_eq_of_pos (Nat.pos_of_ne_zero ‹_›)

theorem leave_boxed {r : Rep} {f : Frame} {rest : List Frame} {u : Unit} (frames : m.frames = f :: rest)
    (boxed : f.boxResult = true) (ok : leave r m = .ok u m') : Left f.base rest m' := by
  refine ⟨by rw [leave_frames ok, frames, List.tail_cons], ?_⟩
  unfold leave at ok
  obtain ⟨words, m₁, popped, ok⟩ := bind_ok ok
  rw [bind_of_ok (get_eq m₁),
    still_popWords _ _ m words m₁ popped, frames] at ok
  obtain ⟨_, m₂, moved, ok⟩ := bind_ok ok
  rw [if_pos boxed] at ok
  cases moved
  exact push_height ok

def Moves (limit : Nat) (x : Exec α) : Prop :=
  ∀ m, Sound m → m.depth ≤ limit → ∀ a m', x m = .ok a m' → Moved m.frames m'.frames

theorem Still.moves (h : Still x) : Moves limit x := fun m _ _ a m' ok => by
  rw [h m a m' ok]
  exact .refl _

theorem Parallel.moves (keeps : ∀ code, Keeps limit (init code) (init' code))
    (moves : ∀ code, Moves limit (init code)) (h : Parallel locals init init' x y) : Moves limit x := by
  induction h with
  | pure a => exact (Still.pure a).moves
  | bind first _ ih ih' =>
    intro m sound shallow b m' ok
    obtain ⟨a, m₁, run, ok⟩ := bind_ok ok
    have kept := (first.keeps keeps).ok sound shallow run
    exact (ih m sound shallow a m₁ run).trans (ih' a m₁ kept.sound kept.shallow b m' ok)
  | get _ _ ih => exact fun m => ih m m
  | modify outside => exact (Still.modify fun m => (outside.stack m).frames).moves
  | raise issue => exact (Still.raise issue).moves
  | push w => exact (still_push w).moves
  | pop => exact still_pop.moves
  | closure code args => exact (still_pushClosure code args).moves
  | byte =>
    intro m _ _ b m' ok
    obtain ⟨f, rest, frames, -, frames'⟩ := readByte_ok ok
    exact ⟨(· + 1), by rw [frames, frames']; rfl⟩
  | advance n => exact fun m _ _ u m' ok => ⟨(· + n), advance_frames ok⟩
  | word _ i => exact (still_wordAt i).moves
  | setWord _ i w => exact (still_setWordAt i w).moves
  | init code => exact moves code

theorem Turn.above {x y : Exec Unit} (keeps : ∀ code, Keeps limit (init code) (init' code))
    (moves : ∀ code, Moves limit (init code)) (h : Turn setup locals ends init init' x y) {base : Nat}
    {outer : List Frame} {u : Unit} (sound : Sound m) (shallow : m.depth ≤ limit)
    (above : Above base outer m.frames) (ok : x m = .ok u m') :
    Above base outer m'.frames ∨ Left base outer m' := by
  induction h generalizing m with
  | plain h => exact .inl (above.moved (h.moves keeps moves m sound shallow u m' ok))
  | after first _ ih =>
    obtain ⟨a, m₁, run, ok⟩ := bind_ok ok
    have kept := (first.keeps keeps).ok sound shallow run
    exact ih a kept.sound kept.shallow (above.moved (first.moves keeps moves m sound shallow a m₁ run)) ok
  | get _ _ ih => exact ih m sound shallow above ok
  | enter code boxResult =>
    obtain ⟨inner, f, frames, based, boxed⟩ := above
    obtain ⟨-, entered⟩ := enter_frames ok
    rw [frames] at entered
    exact .inl ⟨_ :: inner, f, entered, based, boxed⟩
  | leave _ r =>
    obtain ⟨inner, f, frames, rfl, boxed⟩ := above
    cases inner with
    | nil => exact .inr (leave_boxed frames boxed ok)
    | cons g inner =>
      refine .inl ⟨inner, f, ?_, rfl, boxed⟩
      rw [leave_frames ok, frames]
      rfl

theorem pushUnboxed_height {r : Rep} {v : Value} {u : Unit} (nonvoid : r ≠ .void)
    (ok : pushUnboxed r v m = .ok u m') : m'.height = m.height + r.width := by
  unfold pushUnboxed at ok
  split at ok
  · exact push_height ok
  · exact push_height ok
  · obtain ⟨_, m₁, first, ok⟩ := bind_ok ok
    rw [push_height ok, push_height first]
    rfl
  · cases ok
  · cases ok
  · cases ok
  · exact push_height ok
  · exact absurd rfl nonvoid

theorem pushArgs_height {rs : List Rep} {vs : List Value} {u : Unit} (nonvoid : Rep.void ∉ rs)
    (same : vs.length = rs.length) (ok : pushArgs rs vs m = .ok u m') :
    m'.height = m.height + rs.foldr (fun r n => r.width + n) 0 := by
  induction rs generalizing vs m with
  | nil =>
    cases ok
    rfl
  | cons r rs ih =>
    cases vs with
    | nil => cases same
    | cons v vs =>
      obtain ⟨other, nonvoid⟩ := not_or.1 (mt List.mem_cons.2 nonvoid)
      obtain ⟨_, m₁, first, ok⟩ := bind_ok ok
      rw [ih nonvoid (Nat.succ.inj same) ok, pushUnboxed_height (Ne.symm other) first, List.foldr_cons,
        Nat.add_assoc]

/-- Every method that is running above the frames `outer` is left before the run ends. -/
def Leaves (limit : Nat) (run : (stop : Nat) → Exec Unit) : Prop :=
  ∀ {base : Nat} {outer : List Frame} {m m' : Machine} {u : Unit}, Sound m → m.depth ≤ limit →
    Above base outer m.frames → run outer.length m = .ok u m' → Left base outer m'

variable {run run' : (stop : Nat) → Exec Unit} {code : Code} {args : List Value}

theorem invokeBy_level (allowed : setup.maxFrames ≤ limit) (keeps : ∀ stop, Keeps limit (run stop) (run' stop))
    (leaves : Leaves limit run) (nonvoid : args.length = code.signature.params.length →
      Rep.void ∉ code.signature.params) (sound : Sound m) (shallow : m.depth ≤ limit) {v : Value}
    (ok : invokeBy run setup code args m = .ok v m') : SameLevel m m' := by
  have kept := (keeps_invokeBy allowed keeps code args).ok sound shallow ok
  unfold invokeBy at ok
  dsimp only at ok
  split at ok
  · cases ok
  · next arity =>
    have arity : args.length = code.signature.params.length := by simpa using arity
    rw [bind_of_ok (get_eq m)] at ok
    obtain ⟨_, m₁, passed, ok⟩ := bind_ok ok
    obtain ⟨_, m₂, entered, ok⟩ := bind_ok ok
    obtain ⟨_, m₃, ran, ok⟩ := bind_ok ok
    obtain ⟨w, m₄, popped, ok⟩ := bind_ok ok
    obtain ⟨-, rfl⟩ := pure_ok ok
    have kept₁ := (keeps_pushArgs _ _).ok sound shallow passed
    have kept₂ := (keeps_enter allowed code true).ok kept₁.sound kept₁.shallow entered
    -- the locals begin where the arguments do, which is where the stack ended
    have height := pushArgs_height (nonvoid arity) arity passed
    have still := still_pushArgs _ _ m _ m₁ passed
    obtain ⟨-, frames⟩ := enter_frames entered
    have based : m₁.height - code.signature.words = m.height := by
      rw [height]
      exact Nat.add_sub_cancel _ _
    have above : Above m.height m.frames m₂.frames :=
      ⟨[], _, by rw [frames, still, List.nil_append], based, rfl⟩
    rw [sound.counted] at ran
    have left := leaves kept₂.sound kept₂.shallow above ran
    have height := pop_height popped
    have same : m'.frames = m.frames := by rw [still_pop m₃ w m' popped, left.frames]
    refine ⟨?_, same, ?_⟩
    · have one := left.height
      omega
    · rw [kept.sound.counted, sound.counted]
      exact congrArg List.length same

theorem moves_starting (allowed : setup.maxFrames ≤ limit) (keeps : ∀ stop, Keeps limit (run stop) (run' stop))
    (leaves : Leaves limit run) (code : Code) : Moves limit (starting run setup code) :=
  fun m sound shallow u m' ok => by
    obtain ⟨v, m₁, called, ok⟩ := bind_ok ok
    cases ok
    have level := invokeBy_level allowed keeps leaves
      (fun none => by rw [List.eq_nil_of_length_eq_zero none.symm]; exact List.not_mem_nil)
      sound shallow called
    rw [level.frames]
    exact .refl _

theorem Above.deeper {base : Nat} {outer : List Frame} (h : Above base outer m.frames) (sound : Sound m) :
    ¬ m.depth ≤ outer.length := by
  obtain ⟨inner, f, frames, -⟩ := h
  rw [sound.counted, frames, List.length_append, List.length_cons]
  omega

theorem Left.done {base : Nat} {outer : List Frame} (h : Left base outer m) (sound : Sound m) :
    m.depth ≤ outer.length := Nat.le_of_eq (sound.counted.trans (congrArg List.length h.frames))

theorem execute_leaves (allowed : setup.maxFrames ≤ limit) (steps count : Nat) :
    Leaves limit fun stop => execute setup steps stop count := by
  induction steps generalizing count with
  | zero => exact fun _ _ _ ok => nomatch ok
  | succ steps ih =>
    intro base outer m m' u sound shallow above ok
    have runs : ∀ stop, Keeps limit (execute setup steps stop 0) (execute setup steps stop 0) :=
      keeps_running allowed steps
    have keeps := keeps_starting allowed runs
    have moves := moves_starting allowed runs (ih 0)
    dsimp only at ok
    rw [execute_round] at ok
    obtain ⟨_, m₀, m₁, glanced, looked, turned, goes⟩ := round_ok (above.deeper sound) ok
    obtain ⟨-, rfl⟩ := pure_ok looked
    have glancing := (congruence_keeps.glance count).ok sound shallow glanced
    have above₀ : Above base outer m₀.frames := by
      rw [still_glance count m () m₀ glanced]
      exact above
    have kept := (keeps_cycle allowed keeps).ok glancing.sound glancing.shallow turned
    rcases Turn.cycle.above keeps moves glancing.sound glancing.shallow above₀ turned with still | left
    · exact ih _ kept.sound kept.shallow still goes
    · cases steps with
      | zero => cases goes
      | succ steps =>
        rw [execute_done (left.done kept.sound)] at goes
        cases goes
        exact left

/-! ### Failures inside -/

def putBack (level m : Machine) : Machine :=
  { m with height := level.height, frames := level.frames, depth := level.depth }

theorem guarded_of_ok {a : α} (run : x m = .ok a m') : guarded x m = .ok a m' := by
  unfold guarded
  dsimp only
  rw [run]

theorem guarded_of_error {e : Halt} (run : x m = .error e m') : guarded x m = .error e (putBack m m') := by
  unfold guarded
  dsimp only
  rw [run]
  rfl

theorem guarded_eq_cases (same : guarded x m = guarded y m) :
    (∃ a m', x m = .ok a m' ∧ y m = .ok a m') ∨
      ∃ e m₁ m₂, x m = .error e m₁ ∧ y m = .error e m₂ ∧ putBack m m₁ = putBack m m₂ := by
  cases run : x m with
  | ok a m₁ =>
    cases run' : y m with
    | ok b m₂ =>
      rw [guarded_of_ok run, guarded_of_ok run'] at same
      cases same
      exact .inl ⟨a, m₁, rfl, rfl⟩
    | error e m₂ =>
      rw [guarded_of_ok run, guarded_of_error run'] at same
      cases same
  | error e m₁ =>
    cases run' : y m with
    | ok b m₂ =>
      rw [guarded_of_error run, guarded_of_ok run'] at same
      cases same
    | error e' m₂ =>
      rw [guarded_of_error run, guarded_of_error run'] at same
      injection same with issue rest
      exact .inr ⟨e, m₁, m₂, rfl, issue ▸ rfl, rest⟩

theorem putBack_congr {level level' m₁ m₂ : Machine} (same : putBack level m₁ = putBack level m₂) :
    putBack level' m₁ = putBack level' m₂ := by
  have again (m : Machine) : putBack level' m = putBack level' (putBack level m) := rfl
  rw [again m₁, same, ← again m₂]

theorem guarded_bind (first : guarded x = guarded y) (next : ∀ a, guarded (f a) = guarded (g a)) :
    guarded (x >>= f) = guarded (y >>= g) := by
  funext m
  rcases guarded_eq_cases (congrFun first m) with ⟨a, m₁, run, run'⟩ | ⟨e, m₁, m₂, run, run', same⟩
  · have join {h : α → Exec β} {z : Exec α} (ran : z m = .ok a m₁) : (z >>= h) m = h a m₁ := bind_of_ok ran
    rcases guarded_eq_cases (congrFun (next a) m₁) with ⟨b, m', ran, ran'⟩ | ⟨e, k, k', ran, ran', same⟩
    · rw [guarded_of_ok ((join run).trans ran), guarded_of_ok ((join run').trans ran')]
    · rw [guarded_of_error ((join run).trans ran), guarded_of_error ((join run').trans ran'),
        putBack_congr same]
  · rw [guarded_of_error (bind_of_error run), guarded_of_error (bind_of_error run'), same]

theorem guarded_guarded (x : Exec α) : guarded (guarded x) = guarded x := by
  funext m
  cases run : x m with
  | ok a m' => rw [guarded_of_ok (guarded_of_ok run), guarded_of_ok run]
  | error e m' => rw [guarded_of_error (guarded_of_error run), guarded_of_error run]; rfl

theorem congruence_guarded : Congruence fun x y => guarded x = guarded y where
  pure _ := rfl
  bind := guarded_bind
  state := guarded_bind rfl
  throw _ := rfl
  raise _ := rfl
  modify _ := rfl
  push _ := rfl
  pop := rfl
  closure _ _ := rfl
  byte := rfl
  advance _ := rfl
  word _ := rfl
  setWord _ _ := rfl
  leave _ := rfl

theorem guarded_invokeBy (runs : ∀ stop, guarded (run stop) = guarded (run' stop)) :
    guarded (invokeBy run setup code args) = guarded (invokeBy run' setup code args) :=
  congruence_guarded.invokeBy (fun _ _ => rfl) runs code args

/-- Executes as `execute` does, and puts the stack and the frames back where an initializer fails. -/
def executeUnwinding (setup : Setup) : (steps : Nat) → (stop count : Nat) → Exec Unit
  | 0, _, _ => throw .outOfSteps
  | steps + 1, stop, count => do
    let m ← get
    if m.depth ≤ stop then return
    glance count
    let op ← fetch
    step setup (fun code => do
      let _ ← guarded (invokeBy (fun stop => executeUnwinding setup steps stop 0) setup code [])) op
    executeUnwinding setup steps stop (counted count)

theorem executeUnwinding_round (steps stop count : Nat) :
    executeUnwinding setup (steps + 1) stop count = round (pure ()) setup (fun code => do
      let _ ← guarded (invokeBy (fun stop => executeUnwinding setup steps stop 0) setup code []))
      (executeUnwinding setup steps stop) stop count := by
  unfold round cycle
  simp only [executeUnwinding, pure_bind, bind_assoc]

theorem guarded_execute (steps stop count : Nat) :
    guarded (executeUnwinding setup steps stop count) = guarded (execute setup steps stop count) := by
  induction steps generalizing stop count with
  | zero => rfl
  | succ steps ih =>
    have calls (code : Code) :
        guarded (guarded (invokeBy (fun stop => executeUnwinding setup steps stop 0) setup code [])) =
          guarded (invokeBy (fun stop => execute setup steps stop 0) setup code []) := by
      rw [guarded_guarded]
      exact guarded_invokeBy fun stop => ih stop 0
    rw [executeUnwinding_round, execute_round]
    exact congruence_guarded.round (fun _ _ => rfl) (guarded_bind rfl fun _ => ·)
      (fun code => guarded_bind (calls code) fun _ => rfl) (ih stop) stop count

/-! ### Requests -/

/-- Does what is asked of a loaded module; `call` runs a method with boxed arguments. -/
def Request.respond (call : Code → List Value → Exec Value) (r : Request) (i : Nat) : Exec Value := do
  let inst ← instanceAt i
  match r with
  | .evaluate _ =>
    match inst.methods.get? Names.entry with
    | some m => call (← codeOf i inst m) []
    | none => pure .unit
  | .call module method args =>
    match inst.methods.get? method with
    | some m => call (← codeOf i inst m) args
    | none => raise (.noMethod module method)
  | .read module field =>
    match inst.fields.get? field with
    | some v => pure v
    | none => raise (.noField module field)

def Request.serve (call : Code → List Value → Exec Value) (setup : Setup) (r : Request) : Exec Value := do
  r.respond call (← moduleOf setup (fun code => do let _ ← call code []) r.module)

theorem Request.answer_eq_guarded (run : (stop : Nat) → Exec Unit) (setup : Setup) (r : Request) :
    r.answer run setup = guarded (r.serve (invokeBy run setup) setup) := rfl

/-- Answers a request where every call puts the stack and the frames back for itself, and nothing else
does. -/
def Request.answerUnwinding (setup : Setup) (steps : Nat) (r : Request) : Exec Value :=
  r.serve (fun code args =>
    guarded (invokeBy (fun stop => executeUnwinding setup steps stop 0) setup code args)) setup

theorem Keeps.guarded (h : Keeps limit x y) : Keeps limit (guarded x) (guarded y) := by
  intro m sound shallow
  obtain ⟨agree, kept⟩ := h m sound shallow
  cases run : x m with
  | ok a m' =>
    rw [guarded_of_ok run, guarded_of_ok (agree ▸ run)]
    exact ⟨rfl, h.ok sound shallow run⟩
  | error e m' =>
    rw [guarded_of_error run, guarded_of_error (agree ▸ run)]
    rw [run] at kept
    have order : Sound m' := kept.sound
    exact ⟨rfl, ⟨sound.counted, Nat.le_trans sound.room kept.grown, order.doubled,
      fun f inside => Nat.le_trans (sound.based f inside) kept.grown, order.linked⟩, shallow, kept.grown,
      kept.grows, kept.steady⟩

namespace Congruence

variable {R : {α : Type} → Exec α → Exec α → Prop} (respects : Congruence R)
  {call call' : Code → List Value → Exec Value} (calls : ∀ code args, R (call code args) (call' code args))
include respects calls

theorem dropped (code : Code) : R (do let _ ← call code []) (do let _ ← call' code []) :=
  respects.bind (calls code []) fun _ => respects.pure ()

theorem respond (r : Request) (i : Nat) : R (r.respond call i) (r.respond call' i) := by
  refine respects.bind (respects.apart (.instanceAt i)) fun inst => ?_
  cases r with
  | evaluate _ =>
    dsimp only
    cases inst.methods.get? Names.entry with
    | some method => exact respects.bind (respects.apart (.codeOf i inst method)) fun code => calls code []
    | none => exact respects.pure _
  | call module name args =>
    dsimp only
    cases inst.methods.get? name with
    | some method => exact respects.bind (respects.apart (.codeOf i inst method)) fun code => calls code args
    | none => exact respects.raise _
  | read module name =>
    dsimp only
    cases inst.fields.get? name with
    | some v => exact respects.pure _
    | none => exact respects.raise _

theorem serve (r : Request) : R (r.serve call setup) (r.serve call' setup) := by
  have found : Parallel True (fun code => do let _ ← call code []) (fun code => do let _ ← call' code [])
      (moduleOf setup _ r.module) (moduleOf setup _ r.module) := .moduleOf r.module
  exact respects.bind (respects.parallel (respects.dropped calls) found) (respects.respond calls r)

end Congruence

def Levels (limit : Nat) (x : Exec α) : Prop :=
  ∀ m, Sound m → m.depth ≤ limit → SameLevel m (final (x m))

namespace Levels

protected theorem pure (a : α) : Levels limit (pure a) := fun m _ _ => .refl m

protected theorem raise (issue : FaultIssue) : Levels limit (raise issue : Exec α) := fun m _ _ => .refl m

protected theorem modify {change : Machine → Machine} (outside : Outside change) :
    Levels limit (modify change) := fun m _ _ =>
  ⟨(outside.stack m).height, (outside.stack m).frames, (outside.stack m).depth⟩

protected theorem get {f : Machine → Exec β} (next : ∀ m, Levels limit (f m)) : Levels limit (get >>= f) :=
  fun m => next m m

protected theorem bind (keeps : Keeps limit x y) (first : Levels limit x) (next : ∀ a, Levels limit (f a)) :
    Levels limit (x >>= f) := by
  intro m sound shallow
  have level := first m sound shallow
  cases run : x m with
  | error e m₁ =>
    rw [run] at level
    rw [bind_of_error run]
    exact level
  | ok a m₁ =>
    rw [run] at level
    rw [bind_of_ok run]
    have kept := keeps.ok sound shallow run
    exact level.trans (next a m₁ kept.sound kept.shallow)

protected theorem ite {p : Prop} [Decidable p] {x y : Exec α} (yes : p → Levels limit x)
    (no : ¬ p → Levels limit y) : Levels limit (if p then x else y) := by
  split
  · next holds => exact yes holds
  · next fails => exact no fails

theorem codeOf (i : Nat) (inst : Instance) (method : LinkedMethod) :
    Levels limit (codeOf i inst method) := by
  unfold Machine.codeOf
  split
  · exact .pure _
  · exact .raise _

theorem load (artifacts : List Artifact) : Levels limit (load artifacts) := by
  unfold Machine.load
  split
  · exact .raise _
  · exact .modify outside_load
  · exact .raise _

theorem initialized (inits : ∀ code, Levels limit (init code)) (i : Nat) :
    Levels limit (initialized init i) := by
  refine .get fun m => .ite (fun _ => .pure _) fun _ =>
    .bind (.modify (outside_marked i)) (.modify (outside_marked i)) fun _ => ?_
  cases (m.instances.getD i default).methods.get? Names.initializer with
  | some method =>
    exact .bind (keeps_codeOf i _ method) (codeOf i _ method) fun code => inits code
  | none => exact .pure _

theorem found (keeps : ∀ code, Keeps limit (init code) (init' code))
    (inits : ∀ code, Levels limit (init code)) (known : Option Nat) (name : Text) :
    Levels limit
      (match known with
      | none => Machine.raise (.notLoaded name)
      | some i => do
        Machine.initialized init i
        Pure.pure i) := by
  cases known with
  | none => exact .raise _
  | some i => exact .bind (.of (.initialized i) keeps) (initialized inits i) fun _ => .pure _

theorem moduleOf (keeps : ∀ code, Keeps limit (init code) (init' code))
    (inits : ∀ code, Levels limit (init code)) (name : Text) : Levels limit (moduleOf setup init name) := by
  refine .get fun m => .ite (fun _ => ?_) fun _ => .get fun m => found keeps inits _ name
  split
  · exact .bind (.raise _) (.raise _) fun _ => .get fun m => found keeps inits _ name
  · split
    · exact .bind (.raise _) (.raise _) fun _ => .get fun m => found keeps inits _ name
    · next artifacts _ =>
      exact .bind (keeps_load artifacts) (load artifacts) fun _ => .get fun m => found keeps inits _ name

end Levels

theorem guarded_of_level (level : SameLevel m (final (x m))) : guarded x m = x m := by
  cases run : x m with
  | ok a m' => rw [guarded_of_ok run]
  | error e m' =>
    rw [run] at level
    rw [guarded_of_error run]
    unfold putBack
    rw [← level.height, ← level.frames, ← level.depth]
    rfl

section

variable (allowed : setup.maxFrames ≤ limit) (steps : Nat)
include allowed

theorem keeps_guarded_call (code : Code) (args : List Value) :
    Keeps limit (guarded (invokeBy (running setup steps) setup code args))
      (guarded (invokeBy (running setup steps) setup code args)) :=
  (keeps_invokeBy allowed (keeps_running allowed steps) code args).guarded

theorem levels_guarded_call (code : Code) (args : List Value)
    (nonvoid : args.length = code.signature.params.length → Rep.void ∉ code.signature.params) :
    Levels limit (guarded (invokeBy (running setup steps) setup code args)) := fun m sound shallow => by
  cases run : invokeBy (running setup steps) setup code args m with
  | ok v m' =>
    rw [guarded_of_ok run]
    exact invokeBy_level allowed (keeps_running allowed steps) (execute_leaves allowed steps 0) nonvoid
      sound shallow run
  | error e m' =>
    rw [guarded_of_error run]
    exact ⟨rfl, rfl, rfl⟩

theorem level_call (i : Nat) (name : Text) (method : LinkedMethod) (args : List Value) (sound : Sound m)
    (shallow : m.depth ≤ limit) (found : (m.instances.getD i default).methods.get? name = some method) :
    SameLevel m (final ((do
      let code ← codeOf i (m.instances.getD i default) method
      guarded (invokeBy (running setup steps) setup code args)) m)) := by
  have linked := sound.linked i name method found
  unfold codeOf
  cases parsed : method.signature with
  | error issue => exact .refl m
  | ok signature =>
    rw [parsed] at linked
    exact levels_guarded_call allowed steps _ args (fun _ => Descriptor.nonvoid_parse linked.symm) m sound
      shallow

theorem levels_respond (r : Request) (i : Nat) :
    Levels limit
      (r.respond (fun code args => guarded (invokeBy (running setup steps) setup code args)) i) := by
  intro m sound shallow
  unfold Request.respond
  rw [bind_of_ok (instanceAt_eq i m)]
  cases r with
  | evaluate _ =>
    dsimp only
    cases found : (m.instances.getD i default).methods.get? Names.entry with
    | some method => exact level_call allowed steps i _ method [] sound shallow found
    | none => exact .refl m
  | call module name args =>
    dsimp only
    cases found : (m.instances.getD i default).methods.get? name with
    | some method => exact level_call allowed steps i _ method args sound shallow found
    | none => exact .refl m
  | read module name =>
    dsimp only
    cases (m.instances.getD i default).fields.get? name with
    | some v => exact .refl m
    | none => exact .refl m

theorem levels_serve (r : Request) :
    Levels limit (r.serve (fun code args => guarded (invokeBy (running setup steps) setup code args)) setup) := by
  have keeps := congruence_keeps.dropped (keeps_guarded_call allowed steps)
  have inits (code : Code) : Levels limit (do
      let _ ← guarded (invokeBy (running setup steps) setup code [])) :=
    .bind (keeps_guarded_call allowed steps code []) (levels_guarded_call allowed steps code [] fun none => by
      rw [List.eq_nil_of_length_eq_zero none.symm]
      exact List.not_mem_nil) fun _ => .pure _
  exact .bind (.of (.moduleOf r.module) keeps) (.moduleOf keeps inits r.module)
    (levels_respond allowed steps r)

end

structure Bounded (limit : Nat) (m : Machine) : Prop extends Sound m where
  shallow : m.depth ≤ limit
  height : m.height ≤ maxStack

/-- Before each instruction of what a request runs this holds: a look that does nothing where it holds
does nothing. -/
def AllAlong (P : Machine → Prop) (setup : Setup) (steps : Nat) (r : Request) (m : Machine) : Prop :=
  ∀ watch : Exec Unit, (∀ k, P k → watch k = .ok () k) →
    r.answer (fun stop => executeWatched watch setup steps stop 0) setup m =
      r.answer (running setup steps) setup m

theorem le_depthLimit (setup : Setup) (m : Machine) :
    setup.maxFrames ≤ (max m.depth setup.maxFrames.toNat : Nat) := by
  omega

theorem kept_answer (setup : Setup) (steps : Nat) (r : Request) (sound : Sound m) :
    Kept (max m.depth setup.maxFrames.toNat) m (final (r.answer (running setup steps) setup m)) := by
  have allowed := le_depthLimit setup m
  exact ((congruence_keeps.serve (keeps_invokeBy allowed (keeps_running allowed steps)) r).guarded m sound
    (Nat.le_max_left _ _)).2

theorem kept_load (artifacts : List Artifact) (sound : Sound m) :
    Kept m.depth m (final (load artifacts m)) := by
  exact (keeps_load artifacts m sound (Nat.le_refl _)).2

theorem answerUnwinding_eq (setup : Setup) (steps : Nat) (r : Request) :
    r.answerUnwinding setup steps =
      r.serve (fun code args => guarded (invokeBy (running setup steps) setup code args)) setup := by
  have each (code : Code) (args : List Value) :
      guarded (invokeBy (fun stop => executeUnwinding setup steps stop 0) setup code args) =
        guarded (invokeBy (running setup steps) setup code args) :=
    guarded_invokeBy fun stop => guarded_execute steps stop 0
  unfold Request.answerUnwinding
  simp only [each]

theorem answerUnwinding_eq_answer (setup : Setup) (steps : Nat) (r : Request) (sound : Sound m) :
    r.answerUnwinding setup steps m = r.answer (running setup steps) setup m := by
  have level := levels_serve (le_depthLimit setup m) steps r m sound (Nat.le_max_left _ _)
  rw [answerUnwinding_eq, Request.answer_eq_guarded, ← guarded_of_level level]
  exact congrFun (congruence_guarded.serve (fun _ _ => guarded_guarded _) r) m

theorem sameLevel_answer (setup : Setup) (steps : Nat) (r : Request) (sound : Sound m) :
    SameLevel m (final (r.answer (running setup steps) setup m)) := by
  rw [← answerUnwinding_eq_answer setup steps r sound, answerUnwinding_eq]
  exact levels_serve (le_depthLimit setup m) steps r m sound (Nat.le_max_left _ _)

/-- A request leaves the height and the frames as they were, whatever comes of it; it does the same if
every call inside puts them back for itself. All along the frames are counted right and no more than
allowed, or than there were, and the stack is no higher than it may be. -/
theorem answer_level (setup : Setup) (steps : Nat) (r : Request) {m : Machine} (sound : Sound m) :
    Sound (final (r.answer (running setup steps) setup m)) ∧
      SameLevel m (final (r.answer (running setup steps) setup m)) ∧
      r.answerUnwinding setup steps m = r.answer (running setup steps) setup m ∧
      AllAlong (Bounded (max m.depth setup.maxFrames.toNat)) setup steps r m := by
  have allowed := le_depthLimit setup m
  refine ⟨(kept_answer setup steps r sound).sound, sameLevel_answer setup steps r sound,
    answerUnwinding_eq_answer setup steps r sound, fun watch quiet => ?_⟩
  have watched (stop : Nat) : Keeps (max m.depth setup.maxFrames.toNat)
      (executeWatched watch setup steps stop 0) (running setup steps stop) :=
    keeps_execute allowed (fun k sound shallow => quiet k ⟨sound, shallow, sound.height_le⟩) steps stop 0
  exact ((congruence_keeps.serve (keeps_invokeBy allowed watched) r).guarded m sound (Nat.le_max_left _ _)).1

def failing : Artifact where
  name := "M"
  methods := [{ name := Names.initializer, descriptor := "()V", code := #[Opcode.matchfail.code] }]

/-- A module whose main expression asks for an export of the failing one while there is a word on the
stack. -/
def dependent : Artifact where
  name := "N"
  constants := #[{ kind := .exported, owner := "M", name := "x" }]
  methods := [{
    name := Names.entry
    descriptor := "()V"
    code := #[Opcode.unit.code, Opcode.getexport.code, 0, 0, Opcode.vreturn.code] }]

def faultOf {α : Type} : EStateM.Result Halt Machine α → Option (FaultIssue × Text)
  | .error (.fault f) _ => some (f.issue, f.method)
  | _ => none

theorem answer_level_nested :
    let m := final (load [dependent] (final (load [failing] {})))
    let r := Request.evaluate "N"
    Sound m ∧ m.height = 0 ∧ m.depth = 0 ∧
      (final (r.serve (invokeBy (running {} endless) {}) {} m)).height = 1 ∧
      (final (r.serve (invokeBy (running {} endless) {}) {} m)).depth = 2 ∧
      faultOf (r.answer (running {} endless) {} m) = some (.noCase, ("M.<clinit>" : Text)) ∧
      Sound (final (r.answer (running {} endless) {} m)) ∧
      SameLevel m (final (r.answer (running {} endless) {} m)) ∧
      r.answerUnwinding {} endless m = r.answer (running {} endless) {} m ∧
      AllAlong (Bounded (max m.depth 4096)) {} endless r m := by
  have sound : Sound (final (load [dependent] (final (load [failing] {})))) :=
    (kept_load _ (kept_load _ sound_new).sound).sound
  exact ⟨sound, by decide +kernel, by decide +kernel, by decide +kernel, by decide +kernel,
    by decide +kernel, answer_level {} endless (.evaluate "N") sound⟩

theorem runModuleWithin_level (steps : Nat) (setup : Setup) (name : Text) (sound : Sound m) :
    SameLevel m (final (runModuleWithin steps setup name m)) := by
  rw [runModuleWithin_eq_answer]
  exact sameLevel_answer setup steps _ sound

theorem callMethod_level (setup : Setup) (module method : Text) (args : List Value) (sound : Sound m) :
    SameLevel m (final (callMethod setup module method args m)) := by
  rw [callMethod_eq_answer]
  exact sameLevel_answer setup endless _ sound

theorem fieldValue_level (setup : Setup) (module name : Text) (sound : Sound m) :
    SameLevel m (final (fieldValue setup module name m)) := by
  rw [fieldValue_eq_answer]
  exact sameLevel_answer setup endless _ sound

end Machine
end StackML
