import StackML.Proofs.Machine.Fetching

/-!
Runs that are watched. Looking at the machine before every opcode tells what is fetched; a look that
does nothing at the offsets that are listed for a well-formed method does nothing at all.
-/

namespace StackML.Machine

open Disassembly (Lists)

/-- Executes as `execute` does, and looks at the machine before it reads an opcode. -/
def executeWatched (watch : Exec Unit) (setup : Setup) : (steps : Nat) → (stop count : Nat) → Exec Unit
  | 0, _, _ => throw .outOfSteps
  | steps + 1, stop, count => do
    let m ← get
    if m.depth ≤ stop then return
    glance count
    watch
    let op ← fetch
    step setup (fun code => do
      let _ ← invokeBy (fun stop => executeWatched watch setup steps stop 0) setup code []) op
    executeWatched watch setup steps stop (counted count)

theorem executeWatched_pure (setup : Setup) (steps stop count : Nat) :
    executeWatched (pure ()) setup steps stop count = execute setup steps stop count := by
  induction steps generalizing stop count with
  | zero => rfl
  | succ steps ih => simp only [executeWatched, execute, ih, pure_bind]

inductive Request where
  | evaluate (module : Text)
  | call (module method : Text) (args : List Value)
  | read (module field : Text)

def Request.module : Request → Text
  | evaluate module => module
  | call module _ _ => module
  | read module _ => module

/-- Answers a request; `run` executes until the given number of frames is left. -/
def Request.answer (run : (stop : Nat) → Exec Unit) (setup : Setup) (r : Request) : Exec Value :=
  guarded do
    let i ← moduleOf setup (fun code => do let _ ← invokeBy run setup code []) r.module
    let inst ← instanceAt i
    match r with
    | .evaluate _ =>
      match inst.methods.get? Names.entry with
      | some m => invokeBy run setup (← codeOf i inst m) []
      | none => pure .unit
    | .call module method args =>
      match inst.methods.get? method with
      | some m => invokeBy run setup (← codeOf i inst m) args
      | none => raise (.noMethod module method)
    | .read module field =>
      match inst.fields.get? field with
      | some v => pure v
      | none => raise (.noField module field)

/-- The executor with a bound on its steps. -/
def running (setup : Setup) (steps stop : Nat) : Exec Unit := execute setup steps stop 0

theorem runModuleWithin_eq_answer (steps : Nat) (setup : Setup) (name : Text) :
    runModuleWithin steps setup name = (Request.evaluate name).answer (running setup steps) setup := rfl

theorem callMethod_eq_answer (setup : Setup) (module method : Text) (args : List Value) :
    callMethod setup module method args =
      (Request.call module method args).answer (running setup endless) setup := rfl

theorem fieldValue_eq_answer (setup : Setup) (module name : Text) :
    fieldValue setup module name = (Request.read module name).answer (running setup endless) setup := rfl

/-- Opcodes are fetched in such frames only: on any run, a look that does nothing where the innermost
frame is such a one does nothing. -/
def FetchesOnly (good : Frame → Prop) : Prop :=
  ∀ watch : Exec Unit, (∀ m, (∀ f ∈ m.frames.head?, good f) → watch m = .ok () m) →
    ∀ (setup : Setup) (steps : Nat) (r : Request) (m : Machine), m.frames = [] →
      r.answer (fun stop => executeWatched watch setup steps stop 0) setup m =
        r.answer (running setup steps) setup m

/-! ### Lockstep -/

variable {α : Type} {P : List Frame → Prop} {Q : α → List Frame → Prop}
variable {constants : Array Constant} {method : Method} {setup : Setup} {watch : Exec Unit}
variable {run run' : (stop : Nat) → Exec Unit}

theorem Lockstep.look {x y : Exec α} (quiet : ∀ m, P m.frames → watch m = .ok () m) (h : Lockstep P Q x y) :
    Lockstep P Q (do watch; x) y := by
  intro m start
  rw [bind_of_ok (quiet m start)]
  exact h m start

theorem fetch_frames {m m' : Machine} {op : Opcode} (ok : fetch m = .ok op m') :
    ∃ f rest, m.frames = f :: rest ∧ m'.frames = { f with ip := f.ip + 1 } :: rest ∧
      (f.code.method.code[f.ip]?).bind Opcode.ofCode? = some op := by
  unfold fetch at ok
  obtain ⟨_, _, runG, ok⟩ := bind_ok ok
  cases runG
  cases frames : m.frames with
  | nil =>
    rw [frames] at ok
    cases ok
  | cons f rest =>
    rw [frames] at ok
    dsimp only at ok
    split at ok
    · obtain ⟨_, _, run, _⟩ := bind_ok ok
      cases run
    · next inside =>
      obtain ⟨b, m₁, runB, ok⟩ := bind_ok ok
      obtain ⟨g, rest', frames', rfl, frames₁⟩ := readByte_ok runB
      rw [frames] at frames'
      cases frames'
      have below : f.ip < f.code.method.code.size := Nat.not_le.1 inside
      have byte : (Disassembly.byteAt f.code.method.code f.ip).toUInt8 = f.code.method.code[f.ip] := by
        simp [Disassembly.byteAt, Array.getD_eq_getD_getElem?, below]
      rw [byte] at ok
      refine ⟨f, rest, rfl, ?_⟩
      rw [Array.getElem?_eq_getElem below, Option.bind_some]
      cases known : Opcode.ofCode? f.code.method.code[f.ip] with
      | none =>
        rw [known] at ok
        cases ok
      | some op' =>
        rw [known] at ok
        obtain ⟨rfl, rfl⟩ := pure_ok ok
        exact ⟨frames₁, rfl⟩

theorem Lockstep.fetch (formed : method.WellFormed constants) :
    Lockstep (Aligned method) (fun op => Reading method op 1) fetch fetch :=
  .same fun m op m' start ok => by
    obtain ⟨f, rest, frames, frames', here⟩ := fetch_frames ok
    rw [frames] at start
    rw [frames']
    refine ⟨fun own => ?_, fun g inside => start g (List.mem_cons_of_mem _ inside)⟩
    have own : f.code.method = method := own
    obtain ⟨starts, below⟩ := start f List.mem_cons_self own
    obtain ⟨op', has⟩ := formed.decodes f.ip starts below
    have same := has.here
    rw [opcodeAt, ← own, here, Option.filter_eq_some_iff] at same
    exact ⟨f.ip, Option.some.inj same.1 ▸ has, rfl⟩

theorem Lockstep.invokeBy (formed : method.WellFormed constants)
    (runs : ∀ stop, Lockstep (Aligned method) (fun _ => Aligned method) (run stop) (run' stop))
    (code : Code) (args : List Value) :
    Lockstep (Aligned method) (fun _ => Aligned method) (invokeBy run setup code args)
      (invokeBy run' setup code args) := by
  have rest : Lockstep (Aligned method) (fun _ => Aligned method)
      (do
        let depth := (← get).depth
        pushArgs code.signature.params args
        Machine.enter setup code true
        run depth
        popValue)
      (do
        let depth := (← get).depth
        pushArgs code.signature.params args
        Machine.enter setup code true
        run' depth
        popValue) :=
    .after .get fun m => .after (still_pushArgs _ _) fun _ =>
      (Lockstep.enter formed setup code true).bind fun _ => (runs _).bind fun _ => .still still_popValue
  exact .ite (fun _ => .after (.raise _) fun _ => rest) fun _ => rest

theorem Lockstep.execute (formed : method.WellFormed constants)
    (quiet : ∀ m, Aligned method m.frames → watch m = .ok () m) (steps stop count : Nat) :
    Lockstep (Aligned method) (fun _ => Aligned method) (executeWatched watch setup steps stop count)
      (execute setup steps stop count) := by
  induction steps generalizing stop count with
  | zero => exact .throw _
  | succ steps ih =>
    have inits (code : Code) : Lockstep (Aligned method) (fun _ => Aligned method)
        (do let _ ← Machine.invokeBy (fun stop => executeWatched watch setup steps stop 0) setup code [])
        (do let _ ← Machine.invokeBy (fun stop => Machine.execute setup steps stop 0) setup code []) :=
      (Lockstep.invokeBy formed (fun stop => ih stop 0) code []).bind fun _ => .pure fun _ => id
    refine .after .get fun m => .ite (fun _ => .pure fun _ => id) fun _ => .after (still_glance count) fun _ => ?_
    exact .look quiet ((Lockstep.fetch formed).bind fun op => (Lockstep.step formed inits op).bind fun _ => ih _ _)

theorem fetchesOnly_listed {a : Artifact} (formed : method.WellFormed constants) :
    FetchesOnly fun f => f.code.method = method → Lists a method f.ip := by
  intro watch quiet setup steps r m none
  have runs (stop : Nat) : Lockstep (Aligned method) (fun _ => Aligned method)
      (executeWatched watch setup steps stop 0) (running setup steps stop) :=
    .execute formed (fun m aligned => quiet m fun f inner own => by
      obtain ⟨starts, below⟩ := aligned f (List.mem_of_head? inner) own
      exact Disassembly.lists_of_starts starts below) steps stop 0
  have invokes (code : Code) (args : List Value) : Lockstep (Aligned method) (fun _ => Aligned method)
      (invokeBy (fun stop => executeWatched watch setup steps stop 0) setup code args)
      (invokeBy (running setup steps) setup code args) := .invokeBy formed runs code args
  refine Lockstep.guarded (P := Aligned method) (Q := fun _ => Aligned method) ?_ (none ▸ nofun)
  refine (Lockstep.moduleOf (fun code => (invokes code []).bind fun _ => .pure fun _ => id) r.module).bind
    fun i => .after (still_instanceAt i) fun inst => ?_
  cases r with
  | evaluate _ =>
    dsimp only
    cases inst.methods.get? Names.entry with
    | some m => exact .after (still_codeOf _ _ _) fun code => invokes code []
    | none => exact .pure fun _ => id
  | call module name args =>
    dsimp only
    cases inst.methods.get? name with
    | some m => exact .after (still_codeOf _ _ _) fun code => invokes code args
    | none => exact .raise _
  | read module name =>
    dsimp only
    cases inst.fields.get? name with
    | some v => exact .pure fun _ => id
    | none => exact .raise _

end StackML.Machine
