import StackML.Proofs.Machine.Unwinding

/-!
Two runs of one method, side by side. To the method the machines are alike: it sees the frames from its
own on, the words below the height and below its locals, and what lies outside the stack. Who called it
it does not see, nor how its result will be left. As long as it loads and stores only what is on the
stack, the two runs do the same until the method returns.
-/

namespace StackML.Machine

variable {α β : Type} {limit base : Nat} {rest rest' : List Frame} {m m' k k' : Machine} {x y : Exec α}
  {f g : α → Exec β} {setup : Setup} {init init' : Code → Exec Unit} {u : Unit} {w : Word}

/-! ### The stack -/

/-- The word at a position of the stack, also of those left over above its height. -/
def cell (m : Machine) (i : Nat) : Word := m.stack.getD i {}

theorem push_low (sound : Sound m) (ok : push w m = .ok u k) : m.height < maxStack := by
  have room := sound.room
  obtain ⟨n, few, size⟩ := sound.doubled
  have power : Nat.pow 2 n ≤ 1024 := Nat.pow_le_pow_right (by decide) few
  unfold push at ok
  split at ok
  · unfold maxStack
    omega
  · split at ok
    · cases ok
    · next free => exact Nat.not_le.1 free

theorem push_succeeds (w : Word) (low : m.height < maxStack) : ∃ k, push w m = .ok () k := by
  unfold push
  split
  · exact ⟨_, rfl⟩
  · rw [if_neg (Nat.not_le.2 low)]
    exact ⟨_, rfl⟩

theorem getD_setIfInBounds {stack : Array Word} {h : Nat} (inside : h < stack.size) (i : Nat) :
    (stack.setIfInBounds h w).getD i {} = if i = h then w else stack.getD i {} := by
  rw [Array.getD_eq_getD_getElem?, Array.getElem?_setIfInBounds, Array.getD_eq_getD_getElem?]
  by_cases same : h = i
  · rw [if_pos same, if_pos inside, if_pos same.symm, Option.getD_some]
  · rw [if_neg same, if_neg (Ne.symm same)]

theorem getD_grown (stack : Array Word) (n i : Nat) :
    (stack ++ Array.replicate n ({} : Word)).getD i {} = stack.getD i {} := by
  rw [Array.getD_eq_getD_getElem?, Array.getD_eq_getD_getElem?, Array.getElem?_append]
  split
  · rfl
  · next outside =>
    rw [Array.getElem?_eq_none (Nat.not_lt.1 outside), Array.getElem?_replicate]
    split <;> rfl

theorem push_spec (sound : Sound m) (ok : push w m = .ok u k) :
    k = { m with stack := k.stack, height := m.height + 1 } ∧
      ∀ i, k.cell i = if i = m.height then w else m.cell i := by
  have room := sound.room
  unfold push at ok
  split at ok
  · next inside =>
    cases ok
    exact ⟨rfl, getD_setIfInBounds inside⟩
  · split at ok
    · cases ok
    · cases ok
      refine ⟨rfl, fun i => ?_⟩
      have inside : m.height < (m.stack ++ Array.replicate (max 1024 m.stack.size) ({} : Word)).size := by
        rw [Array.size_append, Array.size_replicate]
        omega
      exact (getD_setIfInBounds inside i).trans (by rw [getD_grown]; rfl)

theorem pop_spec (ok : pop m = .ok w k) :
    m.height ≠ 0 ∧ w = m.cell (m.height - 1) ∧ k = { m with height := m.height - 1 } := by
  unfold pop at ok
  split at ok
  · cases ok
  · next some =>
    cases ok
    exact ⟨some, rfl, rfl⟩

/-! ### Machines that are alike -/

/-- Above the callers the frames are the same, but for how the lowest of them leaves its result; and so
are the words as far as the height and the locals of these frames go. -/
structure Over (base : Nat) (rest rest' inner : List Frame) (f : Frame) (top : Nat) (m m' : Machine) :
    Prop where
  frames : m.frames = inner ++ f :: rest
  frames' : m'.frames = inner ++ { f with boxResult := false } :: rest'
  boxed : f.boxResult = true
  based : f.base = base
  height : m.height ≤ top
  inner : ∀ g ∈ inner, g.base ≤ top
  below : base ≤ top
  agree : ∀ i < top, m'.cell i = m.cell i

structure Alike (limit base : Nat) (rest rest' : List Frame) (m m' : Machine) : Prop where
  world : SameWorld m m'
  height : m'.height = m.height
  depth : m'.depth = m.depth
  shared : ∃ inner f top, Over base rest rest' inner f top m m'
  sound : Sound m
  sound' : Sound m'
  shallow : m.depth ≤ limit

structure Returned (r : Rep) (base : Nat) (rest rest' : List Frame) (m m' : Machine) : Prop where
  world : SameWorld m m'
  frames : m.frames = rest
  frames' : m'.frames = rest'
  depth : m'.depth = m.depth
  below : ∀ i < base, m'.cell i = m.cell i
  result : ∃ ws : List Word, ws.length = r.width ∧
    m'.height = base + ws.length ∧ (∀ i < ws.length, m'.cell (base + i) = ws.getD i {}) ∧
    m.height = base + 1 ∧ m.cell base = .ofValue (box r ws)

namespace Alike

theorem shallow' (h : Alike limit base rest rest' m m') : m'.depth ≤ limit := h.depth ▸ h.shallow

theorem resembles (h : Alike limit base rest rest' m m') : Resembles m m' := by
  obtain ⟨inner, f, top, shared⟩ := h.shared
  refine ⟨h.world, ?_⟩
  rw [shared.frames, shared.frames']
  cases inner <;> rfl

theorem restack (h : Alike limit base rest rest' m m') (kept : Kept limit m k) (kept' : Kept limit m' k')
    (same : k = { m with stack := k.stack, height := k.height })
    (same' : k' = { m' with stack := k'.stack, height := k'.height }) (height : k'.height = k.height)
    (agree : ∀ top, m.height ≤ top → (∀ i < top, m'.cell i = m.cell i) →
      ∃ top', top ≤ top' ∧ k.height ≤ top' ∧ ∀ i < top', k'.cell i = k.cell i) :
    Alike limit base rest rest' k k' := by
  obtain ⟨inner, f, top, shared⟩ := h.shared
  obtain ⟨top', more, high, agree'⟩ := agree top shared.height shared.agree
  refine ⟨?_, height, ?_, ⟨inner, f, top', ?_⟩, kept.sound, kept'.sound, kept.shallow⟩
  · rw [same, same']
    exact { h.world with }
  · rw [same, same']
    exact h.depth
  · exact {
      frames := by rw [same]; exact shared.frames
      frames' := by rw [same']; exact shared.frames'
      boxed := shared.boxed
      based := shared.based
      height := high
      inner := fun g inside => Nat.le_trans (shared.inner g inside) more
      below := Nat.le_trans shared.below more
      agree := agree' }

theorem move (h : Alike limit base rest rest' m m') (n : Nat)
    (kept : Kept limit m { m with frames := m.frames.modifyHead fun f => { f with ip := f.ip + n } })
    (kept' : Kept limit m' { m' with frames := m'.frames.modifyHead fun f => { f with ip := f.ip + n } }) :
    Alike limit base rest rest'
      { m with frames := m.frames.modifyHead fun f => { f with ip := f.ip + n } }
      { m' with frames := m'.frames.modifyHead fun f => { f with ip := f.ip + n } } := by
  obtain ⟨inner, f, top, shared⟩ := h.shared
  refine ⟨{ h.world with }, h.height, h.depth, ?_, kept.sound, kept'.sound, kept.shallow⟩
  cases inner with
  | nil =>
    refine ⟨[], { f with ip := f.ip + n }, top, ?_⟩
    exact { shared with
      frames := by simp only [shared.frames]; rfl
      frames' := by simp only [shared.frames']; rfl }
  | cons g inner =>
    have inside := shared.inner
    rw [List.forall_mem_cons] at inside
    refine ⟨{ g with ip := g.ip + n } :: inner, f, top, ?_⟩
    exact { shared with
      frames := by simp only [shared.frames]; rfl
      frames' := by simp only [shared.frames']; rfl
      inner := List.forall_mem_cons.2 inside }

end Alike

/-! ### Computations side by side -/

/-- From machines that are alike, what the second computation succeeds in the first succeeds in too, and
the machines stay alike. -/
def Alongside (limit base : Nat) (rest rest' : List Frame) (x y : Exec α) : Prop :=
  ∀ m m', Alike limit base rest rest' m m' → ∀ a k', y m' = .ok a k' →
    ∃ k, x m = .ok a k ∧ Alike limit base rest rest' k k'

namespace Alongside

protected theorem pure (a : α) : Alongside limit base rest rest' (pure a) (pure a) :=
  fun m m' alike b k' ok => by
    obtain ⟨rfl, rfl⟩ := pure_ok ok
    exact ⟨m, rfl, alike⟩

protected theorem raise (issue : FaultIssue) :
    Alongside limit base rest rest' (raise issue : Exec α) (raise issue) :=
  fun _ _ _ _ _ ok => nomatch ok

protected theorem bind (first : Alongside limit base rest rest' x y)
    (next : ∀ a, Alongside limit base rest rest' (f a) (g a)) :
    Alongside limit base rest rest' (x >>= f) (y >>= g) := by
  intro m m' alike b k' ok
  obtain ⟨a, k₁', run', ok⟩ := bind_ok ok
  obtain ⟨k₁, run, alike₁⟩ := first m m' alike a k₁' run'
  obtain ⟨k, run₂, alike₂⟩ := next a k₁ k₁' alike₁ b k' ok
  exact ⟨k, (bind_of_ok run).trans run₂, alike₂⟩

protected theorem ite {p : Prop} [Decidable p] {x' y' : Exec α}
    (yes : p → Alongside limit base rest rest' x y) (no : ¬ p → Alongside limit base rest rest' x' y') :
    Alongside limit base rest rest' (if p then x else x') (if p then y else y') := by
  split
  · next holds => exact yes holds
  · next fails => exact no fails

protected theorem modify {change : Machine → Machine} (outside : Outside change) :
    Alongside limit base rest rest' (modify change) (modify change) := fun m m' alike a k' ok => by
  cases ok
  have same := outside.stack m
  have same' := outside.stack m'
  have kept := alike.sound.outside alike.shallow outside
  have kept' := alike.sound'.outside alike.shallow' outside
  obtain ⟨inner, f, top, shared⟩ := alike.shared
  refine ⟨change m, rfl, outside.world m m' alike.world, ?_, ?_, ⟨inner, f, top, ?_⟩, kept.sound,
    kept'.sound, kept.shallow⟩
  · rw [same.height, same'.height, alike.height]
  · rw [same.depth, same'.depth, alike.depth]
  · exact { shared with
      frames := same.frames.trans shared.frames
      frames' := same'.frames.trans shared.frames'
      height := same.height ▸ shared.height
      agree := fun i low => by
        unfold cell
        rw [same.stack, same'.stack]
        exact shared.agree i low }

protected theorem push (w : Word) : Alongside limit base rest rest' (push w) (push w) :=
  fun m m' alike u k' ok => by
    obtain ⟨k, run⟩ := push_succeeds w (alike.height ▸ push_low alike.sound' ok)
    obtain ⟨same, cells⟩ := push_spec alike.sound run
    obtain ⟨same', cells'⟩ := push_spec alike.sound' ok
    have high : k.height = m.height + 1 := by rw [same]
    have high' : k'.height = m'.height + 1 := by rw [same']
    refine ⟨k, run, alike.restack ((Keeps.push w).ok alike.sound alike.shallow run)
      ((Keeps.push w).ok alike.sound' alike.shallow' ok) (high ▸ same) (high' ▸ same')
      (by rw [high, high', alike.height]) fun top above agree => ?_⟩
    refine ⟨max top (m.height + 1), Nat.le_max_left _ _, high ▸ Nat.le_max_right _ _, fun i low => ?_⟩
    rw [cells, cells', alike.height]
    split
    · rfl
    · exact agree i (by omega)

protected theorem pop : Alongside limit base rest rest' pop pop := fun m m' alike w k' ok => by
  obtain ⟨some, rfl, rfl⟩ := pop_spec ok
  have run : pop m = .ok (m.cell (m.height - 1)) { m with height := m.height - 1 } := by
    unfold pop
    rw [if_neg (alike.height ▸ some)]
    rfl
  obtain ⟨inner, f, top, shared⟩ := alike.shared
  have above := shared.height
  have same : m'.cell (m'.height - 1) = m.cell (m.height - 1) := by
    rw [alike.height]
    exact shared.agree _ (by have positive := alike.height ▸ some; omega)
  refine ⟨_, same ▸ run, alike.restack (Keeps.pop.ok alike.sound alike.shallow run)
    (Keeps.pop.ok alike.sound' alike.shallow' ok) rfl rfl (by simp only [alike.height])
    fun top above agree => ⟨top, Nat.le_refl _, by simp only; omega, agree⟩⟩

protected theorem closure (code : Code) (args : List Value) :
    Alongside limit base rest rest' (pushClosure code args) (pushClosure code args) :=
  fun m m' alike u k' ok => by
    have counts : Outside fun m => { m with functions := m.functions + 1 } :=
      ⟨fun m => ⟨rfl, rfl, rfl, rfl⟩, fun m => .refl _,
        fun m m' same => { same with functions := by simp only [same.functions] }, fun _ => id⟩
    obtain ⟨_, moved, counted⟩ := Alongside.modify counts m m' alike () _ rfl
    cases moved
    have made : pushClosure code args m' =
        push (.ofValue (.closure m.functions code args)) { m' with functions := m'.functions + 1 } := by
      rw [← alike.world.functions]
      rfl
    exact Alongside.push _ _ _ counted u k' (made ▸ ok)

protected theorem advance (n : Nat) : Alongside limit base rest rest' (advance n) (advance n) :=
  fun m m' alike u k' ok => by
    have moves (m : Machine) (f : Frame) (frames : List Frame) (same : m.frames = f :: frames) :
        Machine.advance n m =
          .ok () { m with frames := m.frames.modifyHead fun f => { f with ip := f.ip + n } } := by
      rw [advance_eq same, same]
      rfl
    obtain ⟨inner, f, top, shared⟩ := alike.shared
    obtain ⟨g, frames, same⟩ : ∃ g frames, m.frames = g :: frames := by
      cases inner <;> exact ⟨_, _, shared.frames⟩
    obtain ⟨g', frames', same'⟩ : ∃ g frames, m'.frames = g :: frames := by
      cases inner <;> exact ⟨_, _, shared.frames'⟩
    have run := moves m g frames same
    have run' := moves m' g' frames' same'
    rw [run'] at ok
    cases ok
    exact ⟨_, run, alike.move n ((Keeps.advance n).ok alike.sound alike.shallow run)
      ((Keeps.advance n).ok alike.sound' alike.shallow' run')⟩

protected theorem byte : Alongside limit base rest rest' readByte readByte :=
  fun m m' alike b k' ok => by
    have reads (m : Machine) (f : Frame) (frames : List Frame) (same : m.frames = f :: frames)
        (inside : f.ip < f.code.method.code.size) :
        Machine.readByte m = .ok f.code.method.code[f.ip].toNat
          { m with frames := m.frames.modifyHead fun f => { f with ip := f.ip + 1 } } := by
      unfold Machine.readByte
      simp only [same, inside, dif_pos]
      rfl
    rcases alike.resembles.frames with ⟨-, none⟩ | ⟨g, frames, g', frames', same, same', code, ip, -⟩
    · obtain ⟨_, _, some, -⟩ := readByte_ok ok
      cases none.symm.trans some
    · by_cases inside : g.ip < g.code.method.code.size
      · have run := reads m g frames same inside
        have run' := reads m' g' frames' same' (by rw [code, ip]; exact inside)
        simp only [code, ip] at run'
        rw [run'] at ok
        cases ok
        exact ⟨_, run, alike.move 1 (Keeps.byte.ok alike.sound alike.shallow run)
          (Keeps.byte.ok alike.sound' alike.shallow' run')⟩
      · have stopped : Machine.readByte m' = Machine.raise .truncatedCode m' := by
          unfold Machine.readByte
          simp only [same', code, ip, inside, dif_neg, not_false_iff]
        rw [stopped] at ok
        cases ok

end Alongside

theorem Parallel.alongside (inits : ∀ code, Alongside limit base rest rest' (init code) (init' code))
    (h : Parallel False init init' x y) : Alongside limit base rest rest' x y := by
  induction h with
  | pure a => exact .pure a
  | bind _ _ ih ih' => exact ih.bind ih'
  | get blind _ ih =>
    intro m m' alike a k' ok
    obtain ⟨-, same⟩ := blind m m' alike.resembles
    exact ih m m m' alike a k' ((congrFun same m').trans ok)
  | modify outside => exact .modify outside
  | raise issue => exact .raise issue
  | push w => exact .push w
  | pop => exact .pop
  | closure code args => exact .closure code args
  | byte => exact .byte
  | advance n => exact .advance n
  | word allowed => exact allowed.elim
  | setWord allowed => exact allowed.elim
  | init code => exact inits code

/-! ### Calls and returns -/

theorem alongside_pushEmpty (n : Nat) : Alongside limit base rest rest' (pushEmpty n) (pushEmpty n) := by
  induction n with
  | zero => exact .pure _
  | succ n ih => exact (Alongside.push _).bind fun _ => ih

theorem alongside_popWords (n : Nat) (ws : List Word) :
    Alongside limit base rest rest' (popWords n ws) (popWords n ws) := by
  induction n generalizing ws with
  | zero => exact .pure _
  | succ n ih => exact Alongside.pop.bind fun _ => ih _

theorem alongside_pushAll (ws : List Word) :
    Alongside limit base rest rest' (ws.forM push) (ws.forM push) := by
  induction ws with
  | nil => exact .pure _
  | cons w ws ih => exact (Alongside.push w).bind fun _ => ih

def entered (code : Code) (base : Nat) (boxResult : Bool) (m : Machine) : Machine :=
  { m with frames := { code, base, boxResult } :: m.frames, depth := m.depth + 1 }

structure Enters (setup : Setup) (code : Code) (boxResult : Bool) (m m' : Machine) : Prop where
  deep : m.depth < setup.maxFrames
  args : code.signature.words ≤ m.height
  filled : ∃ m₁, pushEmpty (missingLocals (m.height - code.signature.words) m.height code.method.maxLocals) m =
    .ok () m₁ ∧ m' = entered code (m.height - code.signature.words) boxResult m₁

theorem enter_iff {code : Code} {boxResult : Bool} :
    enter setup code boxResult m = .ok u m' ↔ Enters setup code boxResult m m' := by
  have whole : enter setup code boxResult m =
      if setup.maxFrames ≤ m.depth then raise (.tooDeep setup.maxFrames) m
      else if m.height < code.signature.words then raise .stackUnderflow m
      else (pushEmpty (missingLocals (m.height - code.signature.words) m.height code.method.maxLocals) >>=
        fun _ => modify (entered code (m.height - code.signature.words) boxResult)) m := by
    unfold enter
    rw [bind_of_ok (get_eq m)]
    dsimp only
    split
    · rfl
    · split <;> rfl
  rw [whole]
  constructor
  · intro ok
    split at ok
    · cases ok
    · next deep =>
      split at ok
      · cases ok
      · next args =>
        obtain ⟨_, m₁, filled, ok⟩ := bind_ok ok
        cases ok
        exact ⟨Int.not_le.1 deep, Nat.not_lt.1 args, m₁, filled, rfl⟩
  · rintro ⟨deep, args, m₁, filled, rfl⟩
    rw [if_neg (Int.not_le.2 deep), if_neg (Nat.not_lt.2 args), bind_of_ok filled]
    rfl

theorem pushEmpty_height {n : Nat} (ok : pushEmpty n m = .ok u k) : k.height = m.height + n := by
  induction n generalizing m with
  | zero =>
    cases ok
    rfl
  | succ n ih =>
    obtain ⟨_, m₁, first, ok⟩ := bind_ok ok
    rw [ih ok, push_height first]
    omega

theorem alongside_enter (allowed : setup.maxFrames ≤ limit) (code : Code) (boxResult : Bool) :
    Alongside limit base rest rest' (enter setup code boxResult) (enter setup code boxResult) := by
  intro m m' alike u k' ok
  obtain ⟨deep, args, m₁', filled', same⟩ := enter_iff.1 ok
  rw [alike.height] at args filled' same
  subst same
  obtain ⟨m₁, filled, alike₁⟩ := alongside_pushEmpty _ m m' alike () m₁' filled'
  have run : enter setup code boxResult m =
      .ok () (entered code (m.height - code.signature.words) boxResult m₁) :=
    enter_iff.2 ⟨alike.depth ▸ deep, args, m₁, filled, rfl⟩
  have kept := (keeps_enter allowed code boxResult).ok alike.sound alike.shallow run
  have kept' := (keeps_enter allowed code boxResult).ok alike.sound' alike.shallow' ok
  have higher := pushEmpty_height filled
  obtain ⟨inner, f, top, shared⟩ := alike₁.shared
  have above := shared.height
  let g : Frame := { code, base := m.height - code.signature.words, boxResult }
  refine ⟨_, run, { alike₁.world with }, alike₁.height, congrArg (· + 1) alike₁.depth,
    ⟨g :: inner, f, top, ?_⟩, kept.sound, kept'.sound, kept.shallow⟩
  exact { shared with
    frames := congrArg (g :: ·) shared.frames
    frames' := congrArg (g :: ·) shared.frames'
    inner := List.forall_mem_cons.2 ⟨by change m.height - code.signature.words ≤ top; omega, shared.inner⟩ }

theorem popWords_length {n : Nat} {acc ws : List Word} (ok : popWords n acc m = .ok ws k) :
    ws.length = n + acc.length := by
  induction n generalizing acc m with
  | zero =>
    cases ok
    exact (Nat.zero_add _).symm
  | succ n ih =>
    obtain ⟨w, m₁, -, ok⟩ := bind_ok ok
    rw [ih ok, List.length_cons]
    omega

theorem pushAll_spec {ws : List Word} (sound : Sound m) (ok : ws.forM push m = .ok u k) :
    k = { m with stack := k.stack, height := m.height + ws.length } ∧
      (∀ i < ws.length, k.cell (m.height + i) = ws.getD i {}) ∧ ∀ i < m.height, k.cell i = m.cell i := by
  induction ws generalizing m with
  | nil =>
    cases ok
    exact ⟨rfl, fun i none => absurd none (Nat.not_lt_zero i), fun i _ => rfl⟩
  | cons w ws ih =>
    obtain ⟨_, m₁, first, ok⟩ := bind_ok ok
    obtain ⟨same, cells⟩ := push_spec sound first
    have kept := (Keeps.push w).ok sound (Nat.le_refl _) first
    obtain ⟨same', above, below⟩ := ih kept.sound ok
    have high : m₁.height = m.height + 1 := by rw [same]
    refine ⟨?_, fun i inside => ?_, fun i low => ?_⟩
    · rw [same', high, same, List.length_cons, Nat.add_assoc, Nat.add_comm 1]
    · cases i with
      | zero =>
        rw [below _ (by omega), cells, if_pos (Nat.add_zero _)]
        rfl
      | succ i =>
        have next := above i (Nat.lt_of_succ_lt_succ inside)
        rw [high, Nat.add_assoc, Nat.add_comm 1] at next
        rw [next]
        rfl
    · rw [below i (by omega), cells, if_neg (Nat.ne_of_lt low)]

theorem alongside_leave (free : base < maxStack) (r : Rep) (alike : Alike limit base rest rest' m m')
    (ok : leave r m' = .ok u k') :
    ∃ k, leave r m = .ok u k ∧
      (Alike limit base rest rest' k k' ∨
        m'.frames.length = rest'.length + 1 ∧ Returned r base rest rest' k k') := by
  cases popped' : popWords r.width [] m' with
  | error e m₁' =>
    unfold leave at ok
    rw [bind_of_error popped'] at ok
    cases ok
  | ok ws m₁' =>
    obtain ⟨m₁, popped, alike₁⟩ := alongside_popWords _ _ m m' alike ws m₁' popped'
    have length := popWords_length popped
    obtain ⟨inner, f, top, shared⟩ := alike₁.shared
    have frames := shared.frames
    have frames' := shared.frames'
    cases inner with
    | nil =>
      -- the method itself returns
      have boxed := shared.boxed
      have order := alike₁.sound.exited frames
      have order' := alike₁.sound'.exited frames'
      have last : m'.frames.length = rest'.length + 1 := by
        rw [← still_popWords _ _ m' ws m₁' popped', frames']
        rfl
      rw [leave_eq popped' frames'] at ok
      rw [leave_eq popped frames, if_pos boxed]
      obtain ⟨k, run⟩ := push_succeeds (m := exited f.base rest m₁) (.ofValue (box r ws)) (shared.based ▸ free)
      obtain ⟨same, cells⟩ := push_spec order run
      obtain ⟨same', above, below⟩ := pushAll_spec order' ok
      obtain rfl := shared.based
      refine ⟨k, run, .inr ⟨last, ?_, by rw [same]; rfl, by rw [same']; rfl, ?_, fun i low => ?_, ws, length,
        by rw [same']; rfl, above, by rw [same]; rfl, ?_⟩⟩
      · rw [same, same']
        exact { alike₁.world with }
      · rw [same, same']
        exact congrArg (· - 1) alike₁.depth
      · rw [below i low, cells]
        exact (shared.agree i (Nat.lt_of_lt_of_le low shared.below)).trans (if_neg (Nat.ne_of_lt low)).symm
      · rw [cells]
        exact if_pos rfl
    | cons g inner =>
      -- a method that it called returns
      have order := alike₁.sound.exited frames
      have order' := alike₁.sound'.exited frames'
      rw [leave_eq popped' frames'] at ok
      rw [leave_eq popped frames]
      have inside := shared.inner
      rw [List.forall_mem_cons] at inside
      have left : Alike limit base rest rest' (exited g.base (inner ++ f :: rest) m₁)
          (exited g.base (inner ++ { f with boxResult := false } :: rest') m₁') := by
        refine ⟨{ alike₁.world with }, rfl, congrArg (· - 1) alike₁.depth, ⟨inner, f, top, ?_⟩, order,
          order', Nat.le_trans (Nat.sub_le _ _) alike₁.shallow⟩
        exact { shared with frames := rfl, frames' := rfl, height := inside.1, inner := inside.2 }
      have pushes : Alongside limit base rest rest'
          (if g.boxResult then pushValue (box r ws) else ws.forM push)
          (if g.boxResult then pushValue (box r ws) else ws.forM push) :=
        .ite (fun _ => .push _) fun _ => alongside_pushAll ws
      obtain ⟨k, run, alike₂⟩ := pushes _ _ left u k' ok
      exact ⟨k, run, .inl alike₂⟩

/-! ### Instructions -/

theorem Turn.alongside {x y : Exec Unit} (allowed : setup.maxFrames ≤ limit)
    (inits : ∀ code, Alongside limit base rest rest' (init code) (init' code))
    (h : Turn setup False False init init' x y) : Alongside limit base rest rest' x y := by
  induction h with
  | plain h => exact h.alongside inits
  | after first _ ih => exact (first.alongside inits).bind ih
  | get blind _ ih =>
    intro m m' alike a k' ok
    obtain ⟨-, same⟩ := blind m m' alike.resembles
    exact ih m m m' alike a k' ((congrFun same m').trans ok)
  | enter code boxResult => exact alongside_enter allowed code boxResult
  | leave never => exact never.elim

theorem wordAt_eq (i : Nat) (m : Machine) :
    wordAt i m = if i < m.stack.size then .ok (m.cell i) m else raise .badSlot m := by
  unfold wordAt
  rw [bind_of_ok (get_eq m)]
  by_cases inside : i < m.stack.size
  · simp [inside, cell]
    rfl
  · simp [inside]

theorem alongside_word {i : Nat} (alike : Alike limit base rest rest' m m') (low : i < m'.height)
    (ok : wordAt i m' = .ok w k') : wordAt i m = .ok w m ∧ k' = m' := by
  obtain ⟨inner, f, top, shared⟩ := alike.shared
  rw [wordAt_eq] at ok
  split at ok
  · cases ok
    have low := alike.height ▸ low
    rw [wordAt_eq, if_pos (Nat.lt_of_lt_of_le low alike.sound.room),
      shared.agree i (Nat.lt_of_lt_of_le low shared.height)]
    exact ⟨rfl, rfl⟩
  · cases ok

theorem alongside_setWord {i : Nat} (alike : Alike limit base rest rest' m m') (inside : i < m.stack.size)
    (ok : setWordAt i w m' = .ok u k') :
    ∃ k, setWordAt i w m = .ok u k ∧ k.stack.size = m.stack.size ∧ Alike limit base rest rest' k k' := by
  have inside' : i < m'.stack.size := by
    unfold setWordAt at ok
    split at ok
    · assumption
    · cases ok
  have sets (m : Machine) (inside : i < m.stack.size) :
      setWordAt i w m = .ok () { m with stack := m.stack.setIfInBounds i w } := if_pos inside
  have run := sets m inside
  have run' := sets m' inside'
  rw [run'] at ok
  cases ok
  refine ⟨_, run, Array.size_setIfInBounds, alike.restack ((Keeps.setWord i w).ok alike.sound alike.shallow run)
    ((Keeps.setWord i w).ok alike.sound' alike.shallow' run') rfl rfl alike.height fun top above agree => ?_⟩
  refine ⟨top, Nat.le_refl _, above, fun j low => ?_⟩
  have same := agree j low
  unfold cell at same ⊢
  dsimp only
  rw [getD_setIfInBounds inside', getD_setIfInBounds inside, same]

end StackML.Machine
