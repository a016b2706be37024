import Mathlib.Data.List.Forall2
import Mathlib.Data.List.Induction
import StackML.Proofs.Machine.Entering
import StackML.Proofs.Machine.Resolving

/-!
Two ways to call a method. It is called directly with its arguments unboxed on the stack, or a function
is made of it and applied to one boxed argument after another. The method is entered alike, and as long
as it loads and stores below the top of the stack its boxed result is the result of the direct call.
Functions are values: applying one to an argument makes another and leaves the first as it was.
-/

namespace StackML.Machine

variable {m a k w : Machine} {u : Unit} {v : Value} {held rest vs : List Value} {setup : Setup} {code : Code}
  {init : Code → Exec Unit} {f : Frame} {callers : List Frame} {c : Constant} {serial n : Nat}

/-! ### Functions -/

def applyTo (setup : Setup) (init : Code → Exec Unit) (v : Value) : Exec Unit := do
  pushValue v
  step setup init .apply

/-- Makes a function of the method with the first arguments captured, and applies it to one after another
of those that are left. -/
def byClosure (setup : Setup) (init : Code → Exec Unit) (captures : Nat) (vs : List Value) : Exec Unit := do
  (vs.take captures).forM pushValue
  step setup init .closure
  (vs.drop captures).forM (applyTo setup init)

/-- Applies a function to one argument after another. -/
def applied (setup : Setup) (init : Code → Exec Unit) (v : Value) (vs : List Value) : Exec Unit := do
  pushValue v
  vs.forM (applyTo setup init)

/-- Calls the method with the words of its arguments on the stack. -/
def direct (setup : Setup) (init : Code → Exec Unit) (code : Code) (vs : List Value) : Exec Unit := do
  pushArgs code.signature.params vs
  step setup init .invokestatic

structure Clear (m : Machine) (n : Nat) (a : Machine) : Prop where
  same : a = { m with stack := a.stack, functions := n }
  below : ∀ i < m.height, a.cell i = m.cell i
  sound : Sound a

structure Atop (m : Machine) (n : Nat) (v : Value) (a : Machine) : Prop where
  same : a = { m with stack := a.stack, height := m.height + 1, functions := n }
  top : a.cell m.height = .ofValue v
  below : ∀ i < m.height, a.cell i = m.cell i
  sound : Sound a

namespace Clear

theorem refl (sound : Sound m) : Clear m m.functions m := ⟨rfl, fun _ _ => rfl, sound⟩

theorem of_settles {a b : Machine} (pushed : Pushed m a) (settles : Settles w a b) :
    Clear (settled m w a.frames) w.functions { b with height := m.height } := by
  have lower := pushed.higher
  have sound := settles.sound
  have world := settles.world
  have depth : b.depth = m.depth := by rw [settles.level.depth, pushed.same]
  have height : b.height = a.height := settles.level.height
  have room : m.height ≤ b.stack.size := by
    have room := sound.room
    omega
  refine ⟨?_, fun i low => ?_, ⟨sound.counted, room, sound.doubled, sound.based, sound.linked⟩⟩
  · simp only [settled, world.instances, world.modules, world.heap, world.output, world.cancelled,
      world.functions, settles.level.frames, depth]
  · change i < m.height at low
    exact (settles.below i (by omega)).trans (pushed.below i low)

theorem height (h : Clear m n a) : a.height = m.height := by rw [h.same]

theorem depth (h : Clear m n a) : a.depth = m.depth := by rw [h.same]

theorem frames (h : Clear m n a) : a.frames = m.frames := by rw [h.same]

theorem beside {callers' : List Frame} {n' : Nat} {a' : Machine} (h : Clear (settled m w callers) n a)
    (h' : Clear (settled m w callers') n' a') : Beside a { a' with functions := n } := by
  have below := h.below
  have below' := h'.below
  refine ⟨?_, h'.height.trans h.height.symm, h'.depth.trans h.depth.symm, fun i low => ?_⟩
  · rw [h.same, h'.same]
    exact ⟨rfl, rfl, rfl, rfl, rfl, rfl⟩
  · rw [h.height] at low
    exact (below' i low).trans (below i low).symm

theorem push {a k : Machine} (h : Clear m n a) (ok : pushValue v a = .ok u k) : Atop m n v k := by
  obtain ⟨same, cells⟩ := push_spec h.sound ok
  have height : a.height = m.height := by rw [h.same]
  have sound := ((Keeps.push (.ofValue v)).ok h.sound (Nat.le_refl _) ok).sound
  refine ⟨?_, ?_, fun i low => ?_, sound⟩
  · rw [same, h.same]
  · rw [cells, height, if_pos rfl]
  · rw [cells, height, if_neg (Nat.ne_of_lt low), h.below i low]

theorem closure (h : Clear m n a) (code : Code) (held : List Value) :
    pushClosure code held a = pushValue (.closure n code held) { a with functions := n + 1 } := by
  have count : a.functions = n := by rw [h.same]
  unfold pushClosure
  rw [count]

theorem count (h : Clear m n a) : Clear m (n + 1) { a with functions := n + 1 } := by
  refine ⟨?_, h.below, ⟨h.sound.counted, h.sound.room, h.sound.doubled, h.sound.based, h.sound.linked⟩⟩
  exact congrArg (fun k : Machine => { k with functions := n + 1 }) h.same

theorem atop (h : Clear m n a) (ok : pushClosure code held a = .ok u k) :
    Atop m (n + 1) (.closure n code held) k := h.count.push ((h.closure code held).symm.trans ok)

theorem made (h : Clear m n a) (low : m.height < maxStack) (code : Code) (held : List Value) :
    ∃ b, pushClosure code held a = .ok () b ∧ Atop m (n + 1) (.closure n code held) b := by
  have height : a.height < maxStack := by
    rw [h.same]
    exact low
  obtain ⟨b, run⟩ := push_succeeds (m := { a with functions := n + 1 }) (.ofValue (.closure n code held)) height
  have ok := (h.closure code held).trans run
  exact ⟨b, ok, h.atop ok⟩

end Clear

theorem pop_cell {h : Nat} (height : m.height = h + 1) : pop m = .ok (m.cell h) { m with height := h } := by
  unfold pop
  rw [height, if_neg (Nat.succ_ne_zero h)]
  rfl

theorem popValue_cell {h : Nat} {v : Value} (height : m.height = h + 1) (top : m.cell h = .ofValue v) :
    popValue m = .ok v { m with height := h } := by
  unfold popValue
  rw [bind_of_ok (pop_cell height), top]
  rfl

namespace Atop

theorem height (h : Atop m n v a) : a.height = m.height + 1 := by rw [h.same]

theorem room_of_applied {w : Value} (h : Atop m n v a) (ok : applyTo setup init w a = .ok u k) :
    m.height + 2 ≤ maxStack := by
  obtain ⟨_, b, pushed, -⟩ := bind_ok ok
  have low := push_low h.sound pushed
  rw [h.height] at low
  exact low

theorem apply_eq (setup : Setup) (init : Code → Exec Unit) (h : Atop m n (.closure serial code held) a)
    (room : m.height + 2 ≤ maxStack) (w : Value) :
    ∃ b, Clear m n b ∧ applyTo setup init w a =
      (if (held ++ [w]).length < code.signature.params.length then pushClosure code (held ++ [w])
        else call setup code true (held ++ [w])) b := by
  obtain ⟨k, pushed⟩ := push_succeeds (m := a) (.ofValue w) (by rw [h.height]; omega)
  obtain ⟨same, cells⟩ := push_spec h.sound pushed
  have kept := (Keeps.push (.ofValue w)).ok h.sound (Nat.le_refl _) pushed
  have height : k.height = m.height + 1 + 1 := by rw [same, h.same]
  have arg : k.cell (m.height + 1) = .ofValue w := by rw [cells, h.height, if_pos rfl]
  have callee : k.cell m.height = .ofValue (.closure serial code held) := by
    rw [cells, h.height, if_neg (by omega), h.top]
  refine ⟨{ k with height := m.height }, ⟨?_, fun i low => ?_, ?_⟩, ?_⟩
  · rw [same, h.same]
  · exact (cells i).trans ((if_neg (by rw [h.height]; omega)).trans (h.below i low))
  · have room := kept.sound.room
    have lower : m.height ≤ k.stack.size := by omega
    exact ⟨kept.sound.counted, lower, kept.sound.doubled, kept.sound.based, kept.sound.linked⟩
  · unfold applyTo pushValue
    rw [bind_of_ok pushed]
    change applyOne setup k = _
    unfold applyOne
    rw [bind_of_ok (popValue_cell height arg),
      bind_of_ok (popValue_cell (m := { k with height := m.height + 1 }) rfl callee)]
    dsimp only
    split <;> rfl

theorem applied_some (setup : Setup) (init : Code → Exec Unit)
    (h : Atop m (serial + 1) (.closure serial code held) a) (room : m.height + 2 ≤ maxStack)
    (few : held.length + rest.length < code.signature.params.length) :
    ∃ b, rest.forM (applyTo setup init) a = .ok () b ∧
      Atop m (serial + rest.length + 1) (.closure (serial + rest.length) code (held ++ rest)) b := by
  induction rest generalizing held serial a with
  | nil => exact ⟨a, rfl, by rw [List.append_nil]; exact h⟩
  | cons w rest ih =>
    rw [List.length_cons] at few
    obtain ⟨b, clear, applied⟩ := h.apply_eq setup init room w
    rw [if_pos (by rw [List.length_append, List.length_singleton]; omega)] at applied
    obtain ⟨b', made, atop⟩ := clear.made (by omega) code (held ++ [w])
    obtain ⟨k, run, after⟩ := ih atop (by rw [List.length_append, List.length_singleton]; omega)
    refine ⟨k, (bind_of_ok (applied.trans made)).trans run, ?_⟩
    rw [List.append_assoc, List.singleton_append] at after
    rw [List.length_cons, show serial + (rest.length + 1) = serial + 1 + rest.length by omega]
    exact after

theorem applied_all (setup : Setup) (init : Code → Exec Unit)
    (h : Atop m n (.closure serial code held) a) (room : m.height + 2 ≤ maxStack)
    (more : rest ≠ []) (all : held.length + rest.length = code.signature.params.length) :
    ∃ b, Clear m (n + (rest.length - 1)) b ∧
      rest.forM (applyTo setup init) a = call setup code true (held ++ rest) b := by
  induction rest generalizing held serial n a with
  | nil => exact absurd rfl more
  | cons w rest ih =>
    rw [List.length_cons] at all
    obtain ⟨b, clear, applied⟩ := h.apply_eq setup init room w
    cases rest with
    | nil =>
      rw [List.length_nil, Nat.zero_add] at all
      rw [if_neg (by rw [List.length_append, List.length_singleton]; omega)] at applied
      refine ⟨b, clear, ?_⟩
      rw [← applied]
      exact congrFun (bind_pure (applyTo setup init w)) a
    | cons v rest =>
      rw [List.length_cons] at all
      rw [if_pos (by rw [List.length_append, List.length_singleton]; omega)] at applied
      obtain ⟨b', made, atop⟩ := clear.made (by omega) code (held ++ [w])
      obtain ⟨k, after, run⟩ := ih atop (List.cons_ne_nil _ _)
        (by rw [List.length_append, List.length_singleton, List.length_cons]; omega)
      have count : n + 1 + ((v :: rest).length - 1) = n + ((w :: v :: rest).length - 1) := by
        simp only [List.length_cons]
        omega
      refine ⟨k, count ▸ after, ?_⟩
      · refine (bind_of_ok (applied.trans made)).trans (run.trans ?_)
        rw [List.append_assoc, List.singleton_append]

end Atop

/-! ### Making functions and calling directly -/

theorem forM_pushValue (vs : List Value) : vs.forM pushValue = (vs.map Word.ofValue).forM push := by
  rw [List.forM_eq_forM, List.forM_eq_forM, List.forM_map]
  rfl

theorem popValues_cells {h : Nat} {acc : List Value} (height : m.height = h + held.length)
    (cells : ∀ i < held.length, m.cell (h + i) = (held.map Word.ofValue).getD i {}) :
    popValues held.length acc m = .ok (held ++ acc) { m with height := h } := by
  induction held using List.reverseRecOn generalizing m acc with
  | nil =>
    rw [List.length_nil, Nat.add_zero] at height
    rw [← height]
    rfl
  | append_singleton held v ih =>
    rw [List.length_append, List.length_singleton] at height cells ⊢
    have top := cells held.length (Nat.lt_succ_self _)
    have last : ((held ++ [v]).map Word.ofValue).getD held.length ({} : Word) = .ofValue v := by
      simp [List.getD_eq_getElem?_getD]
    rw [last] at top
    refine (bind_of_ok (popValue_cell height top)).trans ?_
    rw [List.append_assoc]
    refine ih (m := { m with height := h + held.length }) rfl fun i inside => ?_
    refine (cells i (Nat.lt_succ_of_lt inside)).trans ?_
    simp [List.getD_eq_getElem?_getD, List.getElem?_append_left, inside]

section

variable {high low : UInt8} (frames : m.frames = f :: callers) (operand : ConstantAt f m.instances c high low)
  (resolves : Resolves setup init m w code.signature.words c code) (sound : Sound m)
include frames operand resolves sound

theorem closure_eq {captures : UInt8} (byte : f.code.method.code[f.ip + 2]? = some captures)
    (same : held.length = captures.toNat) (few : held.length < code.signature.params.length)
    (passed : held.forM pushValue m = .ok u a) :
    ∃ b, Clear (settled m w (f.past 3 :: callers)) w.functions b ∧
      step setup init .closure a = pushClosure code held b := by
  have kept := (keeps_pushAll (held.map .ofValue)).ok sound (Nat.le_refl _) (forM_pushValue held ▸ passed)
  rw [forM_pushValue] at passed
  obtain ⟨same', above, below⟩ := pushAll_spec sound passed
  rw [List.length_map] at same' above
  let b : Machine := { a with frames := f.past 3 :: callers }
  have height : b.height = m.height + held.length := by
    change a.height = _
    rw [same']
  have first : readConstant a = .ok c { a with frames := f.past 2 :: callers } :=
    readConstant_at (by rw [same']; exact frames) (by rw [same']; exact operand)
  have second : readByte { a with frames := f.past 2 :: callers } = .ok captures.toNat b :=
    readByte_at (f := f.past 2) rfl byte
  have moved : Moved a.frames b.frames := ⟨(· + 3), by rw [same', frames]; rfl⟩
  have pushed : Pushed m b := by
    refine ⟨?_, ⟨(· + 3), by rw [frames]; rfl⟩, by omega, below, ?_⟩
    · exact congrArg (fun k : Machine => { k with frames := f.past 3 :: callers }) (height ▸ same')
    · have still : Kept a.depth a b := kept.sound.moved (Nat.le_refl _) moved rfl rfl kept.sound.room rfl rfl
      exact still.sound
  have room : code.signature.params.length ≤ code.signature.words := length_le_words (resolves.nonvoid sound)
  obtain ⟨b', third, settles⟩ := resolves b pushed (by omega)
  have height' : b'.height = m.height + held.length := settles.level.height.trans height
  have popped : popValues held.length [] b' = .ok (held ++ []) { b' with height := m.height } :=
    popValues_cells height' fun i inside => (settles.below _ (by omega)).trans (above i inside)
  refine ⟨{ b' with height := m.height }, .of_settles pushed settles, ?_⟩
  change (do
    let k ← readConstant
    let captures ← readByte
    makeClosure (← methodRef setup init k) captures) a = _
  rw [bind_of_ok first, bind_of_ok second, bind_of_ok third, ← same]
  unfold makeClosure
  dsimp only
  rw [if_neg (Nat.not_le.2 few), bind_of_ok popped, List.append_nil]

theorem byClosure_eq (rest : List Value) {captures : UInt8}
    (byte : f.code.method.code[f.ip + 2]? = some captures)
    (same : held.length = captures.toNat) (few : held.length < code.signature.params.length)
    (low : m.height < maxStack) (capturable : m.height + held.length ≤ maxStack) :
    ∃ a, Atop (settled m w (f.past 3 :: callers)) (w.functions + 1) (.closure w.functions code held) a ∧
      byClosure setup init captures.toNat (held ++ rest) m = rest.forM (applyTo setup init) a := by
  have pushes : ∃ a, held.forM pushValue m = .ok () a := by
    rw [forM_pushValue]
    exact (pushAll_iff sound).2 (by rw [List.length_map]; exact capturable)
  obtain ⟨a, passed⟩ := pushes
  obtain ⟨b, clear, step⟩ := closure_eq frames operand resolves sound byte same few passed
  obtain ⟨k, made, atop⟩ := clear.made low code held
  refine ⟨k, atop, ?_⟩
  unfold byClosure
  rw [← same, List.take_left, List.drop_left, bind_of_ok passed, bind_of_ok (step.trans made)]

theorem room_of_byClosure {captures : UInt8} (byte : f.code.method.code[f.ip + 2]? = some captures)
    (same : held.length = captures.toNat) (few : held.length < code.signature.params.length) (more : rest ≠ [])
    (ok : byClosure setup init captures.toNat (held ++ rest) m = .ok u k) :
    m.height + 2 ≤ maxStack ∧ m.height + held.length ≤ maxStack := by
  unfold byClosure at ok
  rw [← same, List.take_left, List.drop_left] at ok
  obtain ⟨_, a, passed, ok⟩ := bind_ok ok
  obtain ⟨_, b, stepped, ok⟩ := bind_ok ok
  obtain ⟨c, clear, step⟩ := closure_eq frames operand resolves sound byte same few passed
  have atop := clear.atop (step.symm.trans stepped)
  constructor
  · cases rest with
    | nil => exact absurd rfl more
    | cons w rest =>
      obtain ⟨_, _, first, -⟩ := bind_ok ok
      exact atop.room_of_applied first
  · rw [forM_pushValue] at passed
    have fits := (pushAll_iff sound).1 ⟨a, passed⟩
    rwa [List.length_map] at fits

theorem invokestatic_eq (fits : List.Forall₂ Fits code.signature.params vs)
    (passes : pushArgs code.signature.params vs m = .ok u a) :
    ∃ b, Clear (settled m w (f.past 2 :: callers)) w.functions { b with height := m.height } ∧
      Passed code vs m.height b ∧ step setup init .invokestatic a = enter setup code false b := by
  obtain ⟨passed, same, below⟩ := passed_of_pushArgs fits sound (resolves.nonvoid sound) passes
  let b : Machine := { a with frames := f.past 2 :: callers }
  have height : b.height = m.height + code.signature.words := passed.height
  have moved : Moved a.frames b.frames := ⟨(· + 2), by rw [same, frames]; rfl⟩
  have pushed : Pushed m b := by
    refine ⟨?_, ⟨(· + 2), by rw [frames]; rfl⟩, by omega, below, ?_⟩
    · exact congrArg (fun k : Machine => { k with frames := f.past 2 :: callers }) same
    · have still : Kept a.depth a b := passed.sound.moved (Nat.le_refl _) moved rfl rfl passed.sound.room rfl rfl
      exact still.sound
  obtain ⟨b', found, settles⟩ := resolves b pushed (Nat.le_of_eq height)
  refine ⟨b', .of_settles pushed settles, ⟨settles.level.height.trans height, fun i arg => ?_, settles.sound⟩, ?_⟩
  · exact (settles.below _ (by omega)).trans (passed.args i arg)
  · have read : readConstant a = .ok c b :=
      readConstant_at (by rw [same]; exact frames) (by rw [same]; exact operand)
    change (do enter setup (← methodRef setup init (← readConstant)) false) a = _
    rw [bind_of_ok read, bind_of_ok found]

theorem begun_of_direct (fits : List.Forall₂ Fits code.signature.params vs)
    (ok : direct setup init code vs m = .ok u k) :
    ∃ b, Clear (settled m w (f.past 2 :: callers)) w.functions b ∧ Begun code vs false b k := by
  obtain ⟨_, a, passes, ok⟩ := bind_ok ok
  obtain ⟨b, clear, passed, step⟩ := invokestatic_eq frames operand resolves sound fits passes
  exact ⟨_, clear, begun_of_enter fits passed (step ▸ ok)⟩

theorem direct_succeeds_iff (fits : List.Forall₂ Fits code.signature.params vs) :
    (∃ k, direct setup init code vs m = .ok () k) ↔ Enterable setup code vs m := by
  have may {b : Machine}
      (clear : Clear (settled m w (f.past 2 :: callers)) w.functions { b with height := m.height }) :
      Enterable setup code vs { b with height := m.height } ↔ Enterable setup code vs m := by
    have depth : b.depth = m.depth := clear.depth
    exact ⟨fun h => h.congr rfl depth.symm, fun h => h.congr rfl depth⟩
  constructor
  · rintro ⟨k, ok⟩
    obtain ⟨_, a, passes, ok⟩ := bind_ok ok
    obtain ⟨b, clear, passed, step⟩ := invokestatic_eq frames operand resolves sound fits passes
    exact (may clear).1 ((enter_succeeds_iff fits passed).1 ⟨k, step ▸ ok⟩)
  · intro enterable
    obtain ⟨a, passes⟩ := pushArgs_succeeds fits sound (resolves.nonvoid sound) enterable
    obtain ⟨b, clear, passed, step⟩ := invokestatic_eq frames operand resolves sound fits passes
    obtain ⟨k, ok⟩ := (enter_succeeds_iff fits passed).2 ((may clear).2 enterable)
    exact ⟨k, (bind_of_ok passes).trans (step.trans ok)⟩

end

/-! ### The two conventions -/

/-- The run of a method is orderly until `stop` frames are left: the look before each instruction does
nothing. -/
def RunsOrderly (setup : Setup) (steps stop count : Nat) (r : Rep) (m : Machine) : Prop :=
  executeWatched (attend (stop + 1) r) setup steps stop count m = execute setup steps stop count m

theorem RunsOrderly.of_ok {steps stop count : Nat} {r : Rep}
    (ok : executeWatched (attend (stop + 1) r) setup steps stop count m = .ok u k) :
    RunsOrderly setup steps stop count r m :=
  ok.trans (obeys_execute (fun _ _ _ looked => (attend_ok looked).2) steps stop count m u k ok).symm

def recount (k k' : Machine) : Machine := { k' with functions := k.functions }

/-- One call enters the method as another does, if the stack has room for a function and an argument, and
what an orderly run of the method leaves on the one side is the boxed result of the other. In a machine that
is not cancelled it makes no difference how many instructions before the runs it was last seen so. -/
structure SameCall (setup : Setup) (code : Code) (vs : List Value) (x y : Exec Unit) (m : Machine)
    (callers callers' : List Frame) : Prop where
  enters : (∃ k, x m = .ok () k) ↔ (∃ k', y m = .ok () k') ∧ m.height + 2 ≤ maxStack
  entry : ∀ k k', x m = .ok () k → y m = .ok () k' →
    SameEntry code vs m.height callers callers' k (recount k k')
  returns : ∀ k k', x m = .ok () k → y m = .ok () k' → ∀ steps count count' r l',
    k'.cancelled = false ∨ count = count' → RunsOrderly setup steps m.depth count' r (recount k k') →
    execute setup steps m.depth count' (recount k k') = .ok () l' →
    ∃ l, execute setup steps m.depth count k = .ok () l ∧ Returned r m.height callers callers' l l'

theorem SameCall.of_call {x y : Exec Unit} {callers' : List Frame}
    (fits : List.Forall₂ Fits code.signature.params vs) (nonvoid : Rep.void ∉ code.signature.params)
    (room : ∀ k, x m = .ok () k → m.height + 2 ≤ maxStack)
    (left : (∃ k, x m = .ok () k) ∨ m.height + 2 ≤ maxStack ∧ Enterable setup code vs m →
      ∃ b n, Clear (settled m w callers) n b ∧ x m = call setup code true vs b)
    (right : (∃ k', y m = .ok () k') ↔ Enterable setup code vs m)
    (begins : ∀ k', y m = .ok () k' → ∃ b, Clear (settled m w callers') w.functions b ∧ Begun code vs false b k') :
    SameCall setup code vs x y m callers callers' := by
  have may {b : Machine} {n : Nat} (clear : Clear (settled m w callers) n b) :
      Enterable setup code vs b ↔ Enterable setup code vs m :=
    ⟨fun h => h.congr clear.height.symm clear.depth.symm, fun h => h.congr clear.height clear.depth⟩
  have entered {k k' : Machine} (ok : x m = .ok () k) (ok' : y m = .ok () k') :
      Sound k ∧ Sound (recount k k') ∧ k.depth = m.depth + 1 ∧
        SameEntry code vs m.height callers callers' k (recount k k') := by
    obtain ⟨b, n, clear, same⟩ := left (.inl ⟨k, ok⟩)
    obtain ⟨b', clear', begun'⟩ := begins k' ok'
    have begun := begun_of_call clear.sound fits nonvoid (same.symm.trans ok)
    have count : k.functions = n := begun.world.functions.trans (congrArg Machine.functions clear.same)
    have entry := begun.same_entry (begun'.recount n) (clear.beside clear')
    have frames : b.frames = callers := clear.frames
    have frames' : b'.frames = callers' := clear'.frames
    have height : b.height = m.height := clear.height
    have depth : b.depth = m.depth := clear.depth
    unfold recount
    rw [count]
    rw [height] at entry
    exact ⟨begun.sound, (begun'.recount n).sound, begun.depth.trans (congrArg (· + 1) depth),
      frames ▸ frames' ▸ entry⟩
  refine ⟨⟨?_, ?_⟩, fun k k' ok ok' => (entered ok ok').2.2.2, ?_⟩
  · rintro ⟨k, ok⟩
    obtain ⟨b, n, clear, same⟩ := left (.inl ⟨k, ok⟩)
    have enterable := (call_succeeds_iff clear.sound fits nonvoid).1 ⟨k, same.symm.trans ok⟩
    exact ⟨right.2 ((may clear).1 enterable), room k ok⟩
  · rintro ⟨enters, free⟩
    have enterable := right.1 enters
    obtain ⟨b, n, clear, same⟩ := left (.inr ⟨free, enterable⟩)
    obtain ⟨k, ok⟩ := (call_succeeds_iff clear.sound fits nonvoid).2 ((may clear).2 enterable)
    exact ⟨k, same.trans ok⟩
  · intro k k' ok ok' steps count count' r l' calm orderly returned
    obtain ⟨sound, sound', deep, entry⟩ := entered ok ok'
    have shallow : k.depth ≤ max k.depth setup.maxFrames.toNat := Nat.le_max_left _ _
    have free : m.height < maxStack := by
      have free := room k ok
      omega
    have depth : callers.length = m.depth := by
      have counted := sound.counted
      rw [entry.frames, List.length_cons] at counted
      omega
    have depth' : callers'.length = m.depth := by
      have counted := sound'.counted
      rw [entry.frames', List.length_cons, entry.depth] at counted
      omega
    have calm' : k.cancelled = false ∨ count = count' := calm.imp_left (entry.world.cancelled.symm.trans ·)
    have watched : executeWatched (attend (callers'.length + 1) r) setup steps callers.length count'
        (recount k k') = .ok () l' := by
      rw [depth, depth']
      exact Eq.trans orderly returned
    obtain ⟨l, run, ⟨above, -⟩ | ⟨-, result⟩⟩ := execute_alongside (le_depthLimit setup k) free
      (Nat.le_refl _) (entry.alike sound sound' shallow) calm' ⟨[], _, entry.frames, rfl, rfl⟩ watched
    · exact absurd above (Nat.lt_irrefl _)
    · exact ⟨l, depth ▸ run, result⟩

section

variable {high low : UInt8} (sound : Sound m) (frames : m.frames = f :: callers)
  (operand : ConstantAt f m.instances c high low)
include sound frames operand

section

variable (resolves : Resolves setup init m w code.signature.words c code)
include resolves

theorem byClosure_agrees (fits : List.Forall₂ Fits code.signature.params (held ++ rest)) (more : rest ≠ [])
    {captures : UInt8} (byte : f.code.method.code[f.ip + 2]? = some captures)
    (same : held.length = captures.toNat) :
    SameCall setup code (held ++ rest) (byClosure setup init captures.toNat (held ++ rest))
      (direct setup init code (held ++ rest)) m (f.past 3 :: callers) (f.past 2 :: callers) := by
  have nonvoid := resolves.nonvoid sound
  have arity := fits.length_eq
  have left := List.length_pos_of_ne_nil more
  rw [List.length_append] at arity
  have few : held.length < code.signature.params.length := by omega
  have needed (k : Machine) (ok : byClosure setup init captures.toNat (held ++ rest) m = .ok () k) :=
    room_of_byClosure frames operand resolves sound byte same few more ok
  refine .of_call fits nonvoid (fun k ok => (needed k ok).1) (fun either => ?_)
    (direct_succeeds_iff frames operand resolves sound fits) fun k ok =>
      begun_of_direct frames operand resolves sound fits ok
  obtain ⟨room, capturable⟩ : m.height + 2 ≤ maxStack ∧ m.height + held.length ≤ maxStack := by
    rcases either with ⟨k, ok⟩ | ⟨room, may⟩
    · exact needed k ok
    · have low := may.low
      have words : code.signature.params.length ≤ code.signature.words := length_le_words nonvoid
      rw [length_localWords fits] at low
      exact ⟨room, by omega⟩
  obtain ⟨a, atop, made⟩ := byClosure_eq frames operand resolves sound rest byte same few (by omega) capturable
  obtain ⟨b, clear, called⟩ := atop.applied_all setup init room more arity.symm
  exact ⟨b, _, clear, made.trans called⟩

theorem byClosure_some (rest : List Value) (few : held.length + rest.length < code.signature.params.length)
    (room : m.height + 2 ≤ maxStack) (capturable : m.height + held.length ≤ maxStack) {captures : UInt8}
    (byte : f.code.method.code[f.ip + 2]? = some captures) (same : held.length = captures.toNat) :
    ∃ a, byClosure setup init captures.toNat (held ++ rest) m = .ok () a ∧
      Atop (settled m w (f.past 3 :: callers)) (w.functions + rest.length + 1)
        (.closure (w.functions + rest.length) code (held ++ rest)) a := by
  obtain ⟨a, atop, made⟩ := byClosure_eq frames operand resolves sound rest byte same (by omega) (by omega) capturable
  obtain ⟨b, run, after⟩ := atop.applied_some setup init room few
  exact ⟨b, made.trans run, after⟩

end

theorem applied_agrees (resolves : Resolves setup init m m code.signature.words c code)
    (fits : List.Forall₂ Fits code.signature.params (held ++ rest)) (more : rest ≠ []) (serial : Nat) :
    SameCall setup code (held ++ rest) (applied setup init (.closure serial code held) rest)
      (direct setup init code (held ++ rest)) m (f :: callers) (f.past 2 :: callers) := by
  have arity := fits.length_eq
  rw [List.length_append] at arity
  have start : Clear (settled m m (f :: callers)) m.functions m := by
    rw [← frames]
    exact .refl sound
  have needed (k : Machine) (ok : applied setup init (.closure serial code held) rest m = .ok () k) :
      m.height + 2 ≤ maxStack := by
    obtain ⟨_, a, pushed, ok⟩ := bind_ok ok
    cases rest with
    | nil => exact absurd rfl more
    | cons w rest =>
      obtain ⟨_, _, first, -⟩ := bind_ok ok
      exact (start.push pushed).room_of_applied first
  refine .of_call fits (resolves.nonvoid sound) needed (fun either => ?_)
    (direct_succeeds_iff frames operand resolves sound fits) fun k ok =>
      begun_of_direct frames operand resolves sound fits ok
  have room : m.height + 2 ≤ maxStack := either.elim (fun ⟨k, ok⟩ => needed k ok) And.left
  obtain ⟨a, pushed⟩ := push_succeeds (m := m) (.ofValue (.closure serial code held)) (by omega)
  obtain ⟨b, clear, called⟩ := (start.push pushed).applied_all setup init room more arity.symm
  exact ⟨b, _, clear, (bind_of_ok pushed).trans called⟩

theorem byClosure_sameCall (resolves : Resolves setup init m w code.signature.words c code) {captures : UInt8}
    (byte : f.code.method.code[f.ip + 2]? = some captures)
    (fits : List.Forall₂ Fits code.signature.params vs) (few : captures.toNat < vs.length) :
    SameCall setup code vs (byClosure setup init captures.toNat vs) (direct setup init code vs) m
      (f.past 3 :: callers) (f.past 2 :: callers) := by
  have split : vs.take captures.toNat ++ vs.drop captures.toNat = vs := List.take_append_drop _ _
  have agrees := byClosure_agrees sound frames operand resolves (split.symm ▸ fits)
    (List.ne_nil_of_length_pos (by rw [List.length_drop]; omega)) byte
    (List.length_take_of_le (Nat.le_of_lt few))
  rwa [split] at agrees

theorem byClosure_sameCall_started (other : f.code.module ≠ c.owner)
    (known : m.modules.get? c.owner = some code.home) (started : Started code.home m) (offers : Offers m c code)
    {captures : UInt8} (byte : f.code.method.code[f.ip + 2]? = some captures)
    (fits : List.Forall₂ Fits code.signature.params vs) (few : captures.toNat < vs.length) :
    SameCall setup code vs (byClosure setup init captures.toNat vs) (direct setup init code vs) m
      (f.past 3 :: callers) (f.past 2 :: callers) :=
  byClosure_sameCall sound frames operand (resolves_started frames other known started offers _) byte fits few

theorem byClosure_sameCall_first (other : f.code.module ≠ c.owner)
    (known : m.modules.get? c.owner = some code.home) (fresh : ¬ Started code.home m)
    (none : (m.instances.getD code.home default).methods.get? Names.initializer = none)
    (offers : Offers (marked code.home m) c code)
    {captures : UInt8} (byte : f.code.method.code[f.ip + 2]? = some captures)
    (fits : List.Forall₂ Fits code.signature.params vs) (few : captures.toNat < vs.length) :
    SameCall setup code vs (byClosure setup init captures.toNat vs) (direct setup init code vs) m
      (f.past 3 :: callers) (f.past 2 :: callers) :=
  byClosure_sameCall sound frames operand (resolves_first frames other known fresh none offers _) byte fits few

/-- A method is called directly, or a function is made of it, with any number of captured arguments, and
applied to the others: it is entered alike and leaves the same result. Until all arguments are there the
function holds those that it was given; and whenever a function made of the method is applied to what it
lacks, on any machine where finding the method has no effect, it is as if the method were called with all of
them. -/
theorem conventions_agree (resolves : Resolves setup init m w code.signature.words c code) {captures : UInt8}
    (byte : f.code.method.code[f.ip + 2]? = some captures)
    (fits : List.Forall₂ Fits code.signature.params vs) (few : captures.toNat < vs.length) :
    SameCall setup code vs (byClosure setup init captures.toNat vs) (direct setup init code vs) m
        (f.past 3 :: callers) (f.past 2 :: callers) ∧
      (m.height + 2 ≤ maxStack → m.height + captures.toNat ≤ maxStack →
        ∀ given, captures.toNat ≤ given → given < vs.length →
          ∃ a, byClosure setup init captures.toNat (vs.take given) m = .ok () a ∧
            Atop (settled m w (f.past 3 :: callers)) (w.functions + (given - captures.toNat) + 1)
              (.closure (w.functions + (given - captures.toNat)) code (vs.take given)) a) ∧
      ∀ (m' : Machine) (f' : Frame) (callers' : List Frame) (c' : Constant) (high' low' : UInt8), Sound m' →
        m'.frames = f' :: callers' → ConstantAt f' m'.instances c' high' low' →
        Resolves setup init m' m' code.signature.words c' code →
        ∀ serial held rest, rest ≠ [] → List.Forall₂ Fits code.signature.params (held ++ rest) →
          SameCall setup code (held ++ rest) (applied setup init (.closure serial code held) rest)
            (direct setup init code (held ++ rest)) m' (f' :: callers') (f'.past 2 :: callers') := by
  refine ⟨byClosure_sameCall sound frames operand resolves byte fits few, fun room capturable given lower upper => ?_,
    fun m' f' callers' c' high' low' sound frames operand resolves serial held rest more fits =>
      applied_agrees sound frames operand resolves fits more serial⟩
  have split : vs.take given = vs.take captures.toNat ++ (vs.take given).drop captures.toNat := by
    rw [← List.take_append_drop captures.toNat (vs.take given), List.take_take, Nat.min_eq_left lower,
      List.drop_left' (List.length_take_of_le (Nat.le_of_lt few))]
  have arity := fits.length_eq
  have captured : (vs.take captures.toNat).length = captures.toNat := List.length_take_of_le (Nat.le_of_lt few)
  have added : ((vs.take given).drop captures.toNat).length = given - captures.toNat := by
    rw [List.length_drop, List.length_take_of_le (Nat.le_of_lt upper)]
  have made := byClosure_some sound frames operand resolves ((vs.take given).drop captures.toNat)
    (by rw [captured, added]; omega) room (by rwa [captured]) byte captured
  rwa [← split, added] at made

end

def second : Method where
  name := "second"
  descriptor := "(ID)D"
  maxLocals := 3
  code := #[Opcode.dload.code, 0, 1, Opcode.dreturn.code]

def peek : Method where
  name := "peek"
  descriptor := "(I)Lx;"
  maxLocals := 1
  code := #[Opcode.aload.code, 0, 1, Opcode.areturn.code]

def naming (method : Method) : Constant where
  kind := .method
  owner := "M"
  name := method.name
  descriptor := method.descriptor

def offering (method : Method) : Artifact where
  name := "M"
  constants := #[naming method]
  methods := [method]

def offered (method : Method) (signature : Descriptor.Signature) : Code := ⟨0, "M", method, signature⟩

def caller (captures : UInt8) : Frame where
  code := ⟨0, "M", { name := "main", descriptor := "()V", code := #[0, 0, captures] }, ⟨[], .void⟩⟩
  base := 0
  boxResult := false

def poised (method : Method) (captures : UInt8) : Machine :=
  { final (load [offering method] {}) with frames := [caller captures], depth := 1 }

theorem sound_poised (method : Method) (captures : UInt8) : Sound (poised method captures) := by
  have sound : Sound (final (load [offering method] {})) := (kept_load _ sound_new).sound
  exact ⟨rfl, sound.room, sound.doubled, by simp [poised, caller], sound.linked⟩

theorem ok_of_isSome {α : Type} {r : EStateM.Result Halt Machine α} (some : (valueOf r).isSome = true) :
    ∃ a k, r = .ok a k := by
  cases r with
  | ok a k => exact ⟨a, k, rfl⟩
  | error e k => cases some

theorem conventions_agree_second :
    let m := poised second 1
    let code := offered second ⟨[.int, .double], .double⟩
    let vs : List Value := [.int 4, .double 4607182418800017408]
    let idle : Code → Exec Unit := fun _ => pure ()
    let k := final (byClosure {} idle 1 vs m)
    let k' := final (direct {} idle code vs m)
    Sound m ∧ m.frames = [caller 1] ∧ ConstantAt (caller 1) m.instances (naming second) 0 0 ∧
      Resolves {} idle m m code.signature.words (naming second) code ∧
      (caller 1).code.method.code[2]? = some 1 ∧
      List.Forall₂ Fits code.signature.params vs ∧ 1 < vs.length ∧
      (valueOf (direct {} idle code vs m)).isSome = true ∧
      (valueOf (execute {} 3 1 0 (recount k k'))).isSome = true ∧ RunsOrderly {} 3 1 0 .double (recount k k') ∧
      SameCall {} code vs (byClosure {} idle 1 vs) (direct {} idle code vs) m
        [(caller 1).past 3] [(caller 1).past 2] ∧
      SameCall {} code vs (applied {} idle (.closure 0 code [.int 4]) [.double 4607182418800017408])
        (direct {} idle code vs) m [caller 1] [(caller 1).past 2] := by
  have sound := sound_poised second 1
  have frames : (poised second 1).frames = [caller 1] := rfl
  have operand : ConstantAt (caller 1) (poised second 1).instances (naming second) 0 0 :=
    ⟨rfl, rfl, by decide +kernel⟩
  have offers : Offers (poised second 1) (naming second) (offered second ⟨[.int, .double], .double⟩) :=
    ⟨rfl, rfl, rfl⟩
  have fits : List.Forall₂ Fits [.int, .double] [.int 4, .double 4607182418800017408] :=
    .cons (.int 4) (.cons (.double _) .nil)
  have resolves : Resolves {} (fun _ => pure ()) (poised second 1) (poised second 1)
      (offered second ⟨[.int, .double], .double⟩).signature.words (naming second)
      (offered second ⟨[.int, .double], .double⟩) := resolves_own frames offers rfl rfl _
  obtain ⟨byClosure, -, again⟩ := conventions_agree sound frames operand resolves rfl fits (by decide)
  have returned : (valueOf (executeWatched (attend 2 .double) {} 3 1 0 (recount
      (final (Machine.byClosure {} (fun _ => pure ()) 1 [.int 4, .double 4607182418800017408] (poised second 1)))
      (final (direct {} (fun _ => pure ()) (offered second ⟨[.int, .double], .double⟩)
        [.int 4, .double 4607182418800017408] (poised second 1)))))).isSome = true := by decide +kernel
  obtain ⟨_, _, ok⟩ := ok_of_isSome returned
  exact ⟨sound, frames, operand, resolves, rfl, fits, by decide, by decide +kernel, by decide +kernel, .of_ok ok,
    byClosure, again _ _ _ _ _ _ sound frames operand resolves 0 [.int 4] [.double 4607182418800017408] (by decide)
      fits⟩

/-- A method that reads behind the top of the stack tells the two ways to call it apart: called directly it
finds an empty word there, and by a function the argument that was pushed boxed. -/
theorem conventions_differ_behind_top :
    let m := poised peek 0
    let code := offered peek ⟨[.int], .ref⟩
    let idle : Code → Exec Unit := fun _ => pure ()
    let k := final (byClosure {} idle 0 [.int 7] m)
    let boxed := final (execute {} 3 1 0 k)
    let plain := final (execute {} 3 1 0 (recount k (final (direct {} idle code [.int 7] m))))
    Sound m ∧ m.frames = [caller 0] ∧ ConstantAt (caller 0) m.instances (naming peek) 0 0 ∧
      Resolves {} idle m m code.signature.words (naming peek) code ∧
      List.Forall₂ Fits code.signature.params [.int 7] ∧
      boxed.height = 1 ∧ plain.height = 1 ∧ (boxed.cell 0).ref.equal (.int 7) = true ∧
      (box .ref [plain.cell 0]).equal (.int 7) = false := by
  have frames : (poised peek 0).frames = [caller 0] := rfl
  have operand : ConstantAt (caller 0) (poised peek 0).instances (naming peek) 0 0 :=
    ⟨rfl, rfl, by decide +kernel⟩
  have offers : Offers (poised peek 0) (naming peek) (offered peek ⟨[.int], .ref⟩) := ⟨rfl, rfl, rfl⟩
  exact ⟨sound_poised peek 0, frames, operand, resolves_own frames offers rfl rfl _, .cons (.int 7) .nil,
    by decide +kernel, by decide +kernel, by decide +kernel, by decide +kernel⟩

end StackML.Machine
