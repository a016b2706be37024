import Mathlib.Tactic.Common
import StackML.Proofs.Machine.Rounds

/-!
What the machine keeps in order. The number of frames is the number that is counted, the stack is as
large as doubling makes it, and no local begins behind its end. Every instruction keeps this, whether it
succeeds or not, and enters no method beyond the limit; so does every run, at each of its instructions.
-/

namespace StackML.Machine

/-- The machine that a computation leaves, after a success and after a failure. -/
def final {α : Type} : EStateM.Result Halt Machine α → Machine
  | .ok _ m => m
  | .error _ m => m

structure Sound (m : Machine) : Prop where
  counted : m.depth = m.frames.length
  room : m.height ≤ m.stack.size
  /-- The stack was doubled ten times at most. -/
  doubled : ∃ k ≤ 10, m.stack.size = 1024 * Nat.pow 2 k
  based : ∀ f ∈ m.frames, f.base ≤ m.stack.size
  linked : ∀ i, (m.instances.getD i default).Linked

theorem linked_default : (default : Instance).Linked := fun name method found => by
  rw [show (default : Instance).methods = ∅ from rfl, Std.TreeMap.get?_eq_getElem?] at found
  simp at found

theorem sound_new : Sound {} where
  counted := rfl
  room := Nat.zero_le _
  doubled := ⟨0, Nat.zero_le _, by simp⟩
  based := List.forall_mem_nil _
  linked i := by
    have none : (#[] : Array Instance).getD i default = default := by simp
    rw [show ({} : Machine).instances.getD i default = default from none]
    exact linked_default

/-- From one machine to the next: it is still in order, no deeper than allowed, and its stack as large
as before or larger; the modules that were loaded are still there, and what is never cancelled stays so. -/
structure Kept (limit : Nat) (m m' : Machine) : Prop where
  sound : Sound m'
  shallow : m'.depth ≤ limit
  grown : m.stack.size ≤ m'.stack.size
  grows : Grows m.instances m'.instances
  steady : m.cancelled = false → m'.cancelled = false

variable {α β : Type} {limit : Nat} {m m' : Machine} {x y : Exec α} {f g : α → Exec β}
  {setup : Setup} {locals ends : Prop} {init init' : Code → Exec Unit}

theorem Sound.height_le (h : Sound m) : m.height ≤ maxStack := by
  obtain ⟨k, few, size⟩ := h.doubled
  have power : Nat.pow 2 k ≤ 1024 := Nat.pow_le_pow_right (by decide) few
  have room := h.room
  unfold maxStack
  omega

theorem Kept.refl (sound : Sound m) (shallow : m.depth ≤ limit) : Kept limit m m :=
  ⟨sound, shallow, Nat.le_refl _, .refl _, id⟩

theorem Kept.trans {k : Machine} (first : Kept limit m m') (second : Kept limit m' k) : Kept limit m k :=
  ⟨second.sound, second.shallow, Nat.le_trans first.grown second.grown, first.grows.trans second.grows,
    second.steady ∘ first.steady⟩

def Moved (frames frames' : List Frame) : Prop :=
  ∃ ip : Nat → Nat, frames' = frames.modifyHead fun f => { f with ip := ip f.ip }

theorem Moved.refl (frames : List Frame) : Moved frames frames :=
  ⟨id, by cases frames <;> rfl⟩

theorem Moved.trans {a b c : List Frame} (first : Moved a b) (second : Moved b c) : Moved a c := by
  obtain ⟨ip, rfl⟩ := first
  obtain ⟨ip', rfl⟩ := second
  exact ⟨ip' ∘ ip, by cases a <;> rfl⟩

theorem Moved.length (h : Moved m.frames m'.frames) : m'.frames.length = m.frames.length := by
  obtain ⟨ip, same⟩ := h
  rw [same, List.length_modifyHead]

theorem Moved.based (h : Moved m.frames m'.frames) {bound : Nat} (below : ∀ f ∈ m.frames, f.base ≤ bound) :
    ∀ f ∈ m'.frames, f.base ≤ bound := by
  obtain ⟨ip, same⟩ := h
  rw [same]
  cases frames : m.frames with
  | nil => exact List.forall_mem_nil _
  | cons f rest =>
    rw [frames, List.forall_mem_cons] at below
    exact List.forall_mem_cons.2 below

theorem Sound.moved (h : Sound m) (shallow : m.depth ≤ limit) (moved : Moved m.frames m'.frames)
    (depth : m'.depth = m.depth) (stack : m'.stack.size = m.stack.size) (room : m'.height ≤ m.stack.size)
    (instances : m'.instances = m.instances) (cancelled : m'.cancelled = m.cancelled) : Kept limit m m' := by
  refine ⟨⟨?_, ?_, ?_, ?_, ?_⟩, ?_, Nat.le_of_eq stack.symm, instances ▸ .refl _,
    cancelled.trans⟩
  · rw [depth, moved.length, h.counted]
  · rw [stack]
    exact room
  · rw [stack]
    exact h.doubled
  · rw [stack]
    exact moved.based h.based
  · rw [instances]
    exact h.linked
  · rw [depth]
    exact shallow

theorem Sound.outside {change : Machine → Machine} (h : Sound m) (shallow : m.depth ≤ limit)
    (outside : Outside change) : Kept limit m (change m) := by
  have same := outside.stack m
  have grows := outside.grows m
  refine ⟨⟨?_, ?_, ?_, ?_, fun i => ?_⟩, ?_, ?_, grows, outside.steady m⟩
  · rw [same.depth, same.frames, h.counted]
  · rw [same.height, same.stack]
    exact h.room
  · rw [same.stack]
    exact h.doubled
  · rw [same.frames, same.stack]
    exact h.based
  · by_cases old : i < m.instances.size
    · intro name method found
      rw [(grows.kept i old).methods] at found
      exact h.linked i name method found
    · by_cases new : i < (change m).instances.size
      · exact grows.linked i (Nat.not_lt.1 old) new
      · rw [Array.getD_eq_getD_getElem?, Array.getElem?_eq_none (Nat.not_lt.1 new), Option.getD_none]
        exact linked_default
  · rw [same.depth]
    exact shallow
  · exact Nat.le_of_eq (congrArg Array.size same.stack.symm)

/-! ### Computations -/

/-- On a machine in order the computations do the same, and leave a machine in order. -/
def Keeps (limit : Nat) (x y : Exec α) : Prop :=
  ∀ m, Sound m → m.depth ≤ limit → x m = y m ∧ Kept limit m (final (x m))

namespace Keeps

theorem same (each : ∀ m, Sound m → m.depth ≤ limit → Kept limit m (final (x m))) : Keeps limit x x :=
  fun m sound shallow => ⟨rfl, each m sound shallow⟩

theorem ok (h : Keeps limit x y) (sound : Sound m) (shallow : m.depth ≤ limit) {a : α}
    (run : x m = .ok a m') : Kept limit m m' := by
  obtain ⟨-, kept⟩ := h m sound shallow
  rwa [run] at kept

protected theorem pure (a : α) : Keeps limit (pure a) (pure a) :=
  .same fun _ sound shallow => .refl sound shallow

protected theorem raise (issue : FaultIssue) : Keeps limit (raise issue : Exec α) (raise issue) :=
  .same fun _ sound shallow => .refl sound shallow

protected theorem throw (e : Halt) : Keeps limit (throw e : Exec α) (throw e) :=
  .same fun _ sound shallow => .refl sound shallow

protected theorem bind (first : Keeps limit x y) (next : ∀ a, Keeps limit (f a) (g a)) :
    Keeps limit (x >>= f) (y >>= g) := by
  intro m sound shallow
  obtain ⟨agree, kept⟩ := first m sound shallow
  cases run : x m with
  | error e m₁ =>
    rw [bind_of_error run, bind_of_error (agree ▸ run)]
    rw [run] at kept
    exact ⟨rfl, kept⟩
  | ok a m₁ =>
    rw [bind_of_ok run, bind_of_ok (agree ▸ run)]
    rw [run] at kept
    obtain ⟨agree', kept'⟩ := next a m₁ kept.sound kept.shallow
    exact ⟨agree', kept.trans kept'⟩

protected theorem get {f g : Machine → Exec β} (next : ∀ m, Keeps limit (f m) (g m)) :
    Keeps limit (get >>= f) (get >>= g) := fun m => next m m

protected theorem modify {change : Machine → Machine} (outside : Outside change) :
    Keeps limit (modify change) (modify change) :=
  .same fun _ sound shallow => sound.outside shallow outside

protected theorem push (w : Word) : Keeps limit (push w) (push w) := .same fun m sound shallow => by
  have room := sound.room
  unfold Machine.push
  split
  · exact sound.moved shallow (.refl _) rfl (Array.size_setIfInBounds) ‹_› rfl rfl
  · next full =>
    split
    · exact .refl sound shallow
    · next free =>
      -- the stack is full, but not of its largest size
      obtain ⟨k, few, size⟩ := sound.doubled
      have more : k < 10 := by
        refine Nat.lt_of_le_of_ne few fun last => ?_
        have whole : m.stack.size = 1048576 := by rw [size, last]
        unfold maxStack at free
        omega
      have positive : 1 ≤ Nat.pow 2 k := Nat.one_le_two_pow
      have doubled : m.stack.size + max 1024 m.stack.size = 1024 * Nat.pow 2 (k + 1) := by
        have twice : Nat.pow 2 (k + 1) = Nat.pow 2 k * 2 := rfl
        omega
      refine ⟨⟨sound.counted, ?_, ⟨k + 1, more, ?_⟩, fun f inside => ?_, sound.linked⟩, shallow, ?_, .refl _, id⟩
      · simp only [final, Array.size_setIfInBounds, Array.size_append, Array.size_replicate]
        omega
      · simpa [final] using doubled
      · have base := sound.based f inside
        simp only [final, Array.size_setIfInBounds, Array.size_append, Array.size_replicate]
        omega
      · simp only [final, Array.size_setIfInBounds, Array.size_append, Array.size_replicate]
        omega

protected theorem pop : Keeps limit pop pop := .same fun m sound shallow => by
  have room := sound.room
  unfold Machine.pop
  split
  · exact .refl sound shallow
  · exact sound.moved shallow (.refl _) rfl rfl (Nat.le_trans (Nat.sub_le _ _) room) rfl rfl

protected theorem closure (code : Code) (args : List Value) :
    Keeps limit (pushClosure code args) (pushClosure code args) := .same fun m sound shallow => by
  have counted : Sound { m with functions := m.functions + 1 } :=
    ⟨sound.counted, sound.room, sound.doubled, sound.based, sound.linked⟩
  have kept := (Keeps.push (.ofValue (.closure m.functions code args)) _ counted shallow).2
  exact ⟨kept.sound, kept.shallow, kept.grown, kept.grows, kept.steady⟩

protected theorem byte : Keeps limit readByte readByte := .same fun m sound shallow => by
  unfold readByte
  split
  · exact .refl sound shallow
  · next f rest frames =>
    split
    · exact sound.moved shallow ⟨(· + 1), by rw [frames]; rfl⟩ rfl rfl sound.room rfl rfl
    · exact .refl sound shallow

protected theorem advance (n : Nat) : Keeps limit (advance n) (advance n) :=
  .same fun m sound shallow => by
    cases frames : m.frames with
    | nil =>
      rw [advance_idle frames]
      exact .refl sound shallow
    | cons f rest =>
      rw [advance_eq frames]
      exact sound.moved shallow ⟨(· + n), by rw [frames]; rfl⟩ rfl rfl sound.room rfl rfl

protected theorem word (i : Nat) : Keeps limit (wordAt i) (wordAt i) := .get fun m => by
  split
  · exact .pure _
  · exact .raise _

protected theorem setWord (i : Nat) (w : Word) : Keeps limit (setWordAt i w) (setWordAt i w) :=
  .same fun m sound shallow => by
    unfold setWordAt
    split
    · exact sound.moved shallow (.refl _) rfl Array.size_setIfInBounds sound.room rfl rfl
    · exact .refl sound shallow

end Keeps

theorem keeps_pushEmpty (n : Nat) : Keeps limit (pushEmpty n) (pushEmpty n) := by
  induction n with
  | zero => exact .pure _
  | succ n ih => exact (Keeps.push _).bind fun _ => ih

theorem keeps_popWords (n : Nat) (ws : List Word) : Keeps limit (popWords n ws) (popWords n ws) := by
  induction n generalizing ws with
  | zero => exact .pure _
  | succ n ih => exact Keeps.pop.bind fun _ => ih _

theorem keeps_pushAll (ws : List Word) : Keeps limit (ws.forM push) (ws.forM push) := by
  induction ws with
  | nil => exact .pure _
  | cons w ws ih => exact (Keeps.push w).bind fun _ => ih

/-! ### Calls and returns -/

theorem keeps_enter (allowed : setup.maxFrames ≤ limit) (code : Code) (boxResult : Bool) :
    Keeps limit (enter setup code boxResult) (enter setup code boxResult) :=
  .same fun m sound shallow => by
    unfold enter
    rw [bind_of_ok (get_eq m)]
    dsimp only
    split
    · exact .refl sound shallow
    · next deeper =>
      split
      · exact .refl sound shallow
      · have pushes : Keeps limit (pushEmpty _) (pushEmpty _) := keeps_pushEmpty
          (missingLocals (m.height - code.signature.words) m.height code.method.maxLocals)
        obtain ⟨-, kept⟩ := pushes m sound shallow
        cases run : pushEmpty (missingLocals (m.height - code.signature.words) m.height
            code.method.maxLocals) m with
        | error e m₁ =>
          rw [bind_of_error run]
          rw [run] at kept
          exact kept
        | ok u m₁ =>
          rw [bind_of_ok run]
          rw [run] at kept
          have sound₁ : Sound m₁ := kept.sound
          have still : m₁.frames = m.frames := still_pushEmpty _ m u m₁ run
          have counted := sound.counted
          have counted₁ := sound₁.counted
          refine ⟨⟨congrArg (· + 1) sound₁.counted, sound₁.room, sound₁.doubled,
            List.forall_mem_cons.2 ⟨?_, sound₁.based⟩, sound₁.linked⟩, ?_, kept.grown, kept.grows,
            kept.steady⟩
          · exact Nat.le_trans (Nat.le_trans (Nat.sub_le _ _) sound.room) kept.grown
          · change m₁.depth + 1 ≤ limit
            rw [counted₁, still, ← counted]
            omega

def exited (base : Nat) (callers : List Frame) (m : Machine) : Machine :=
  { m with frames := callers, depth := m.depth - 1, height := base }

theorem Sound.exited {f : Frame} {callers : List Frame} (h : Sound m) (frames : m.frames = f :: callers) :
    Sound (exited f.base callers m) := by
  have counted := h.counted
  have based := h.based
  rw [frames, List.length_cons] at counted
  rw [frames, List.forall_mem_cons] at based
  exact ⟨by change m.depth - 1 = callers.length; omega, based.1, h.doubled, based.2, h.linked⟩

theorem leave_eq {r : Rep} {ws : List Word} {f : Frame} {callers : List Frame}
    (popped : popWords r.width [] m = .ok ws m') (frames : m'.frames = f :: callers) :
    leave r m = (if f.boxResult then pushValue (box r ws) else ws.forM push) (exited f.base callers m') := by
  unfold leave
  rw [bind_of_ok popped, bind_of_ok (get_eq m'), frames]
  rfl

theorem keeps_leave (r : Rep) : Keeps limit (leave r) (leave r) := .same fun m sound shallow => by
  have pops : Keeps limit (popWords r.width []) (popWords r.width []) := keeps_popWords _ _
  have kept := (pops m sound shallow).2
  cases popped : popWords r.width [] m with
  | error e m₁ =>
    rw [popped] at kept
    unfold leave
    rw [bind_of_error popped]
    exact kept
  | ok ws m₁ =>
    rw [popped] at kept
    have sound₁ : Sound m₁ := kept.sound
    cases frames : m₁.frames with
    | nil =>
      unfold leave
      rw [bind_of_ok popped, bind_of_ok (get_eq m₁), frames]
      exact kept
    | cons f rest =>
      have pushes : Keeps limit (if f.boxResult then pushValue (box r ws) else ws.forM push)
          (if f.boxResult then pushValue (box r ws) else ws.forM push) :=
        Congruence.ite (fun _ => Keeps.push _) fun _ => keeps_pushAll ws
      rw [leave_eq popped frames]
      have after := (pushes _ (sound₁.exited frames) (Nat.le_trans (Nat.sub_le _ _) kept.shallow)).2
      exact ⟨after.sound, after.shallow, Nat.le_trans kept.grown after.grown, kept.grows.trans after.grows,
        after.steady ∘ kept.steady⟩

/-! ### Runs -/

theorem congruence_keeps : Congruence fun x y => Keeps limit x y where
  pure := .pure
  bind := .bind
  state := .get
  throw := .throw
  raise := .raise
  modify := .modify
  push := .push
  pop := .pop
  closure := .closure
  byte := .byte
  advance := .advance
  word := .word
  setWord := .setWord
  leave := keeps_leave

theorem Parallel.keeps (h : Parallel locals init init' x y) (inits : ∀ code, Keeps limit (init code) (init' code)) :
    Keeps limit x y := congruence_keeps.parallel inits h

theorem Keeps.of (h : Parallel True init init' x y) (inits : ∀ code, Keeps limit (init code) (init' code)) :
    Keeps limit x y := h.keeps inits

theorem Keeps.apart (h : Parallel True (fun _ => pure ()) (fun _ => pure ()) x y) : Keeps limit x y :=
  congruence_keeps.apart h

theorem keeps_pushArgs (rs : List Rep) (vs : List Value) : Keeps limit (pushArgs rs vs) (pushArgs rs vs) :=
  .apart (.pushArgs rs vs)

theorem keeps_codeOf (i : Nat) (inst : Instance) (method : LinkedMethod) :
    Keeps limit (codeOf i inst method) (codeOf i inst method) := .apart (.codeOf i inst method)

theorem keeps_load (artifacts : List Artifact) : Keeps limit (load artifacts) (load artifacts) :=
  .apart (.load artifacts)

section

variable {run run' : (stop : Nat) → Exec Unit} (allowed : setup.maxFrames ≤ limit)
include allowed

theorem Turn.keeps {x y : Exec Unit} (h : Turn setup locals ends init init' x y)
    (inits : ∀ code, Keeps limit (init code) (init' code)) : Keeps limit x y :=
  congruence_keeps.turn (keeps_enter allowed) inits h

theorem keeps_cycle (inits : ∀ code, Keeps limit (init code) (init' code)) :
    Keeps limit (cycle setup init) (cycle setup init') := Turn.cycle.keeps allowed inits

theorem keeps_invokeBy (runs : ∀ stop, Keeps limit (run stop) (run' stop)) (code : Code) (args : List Value) :
    Keeps limit (invokeBy run setup code args) (invokeBy run' setup code args) :=
  congruence_keeps.invokeBy (keeps_enter allowed) runs code args

theorem keeps_starting (runs : ∀ stop, Keeps limit (run stop) (run' stop)) (code : Code) :
    Keeps limit (starting run setup code) (starting run' setup code) :=
  congruence_keeps.starting (keeps_enter allowed) runs code

theorem keeps_execute {watch : Exec Unit} (quiet : ∀ m, Sound m → m.depth ≤ limit → watch m = .ok () m)
    (steps stop count : Nat) :
    Keeps limit (executeWatched watch setup steps stop count) (execute setup steps stop count) := by
  refine congruence_keeps.execute (keeps_enter allowed) (fun {x y} same m sound shallow => ?_) steps stop count
  rw [bind_of_ok (quiet m sound shallow)]
  exact same m sound shallow

theorem keeps_running (steps stop : Nat) : Keeps limit (running setup steps stop) (running setup steps stop) := by
  have each : Keeps limit (executeWatched (pure ()) setup steps stop 0) (execute setup steps stop 0) :=
    keeps_execute allowed (fun _ _ _ => rfl) steps stop 0
  rwa [executeWatched_pure] at each

end

end StackML.Machine
