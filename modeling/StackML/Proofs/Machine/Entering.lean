import Mathlib.Data.List.GetD
import StackML.Proofs.Machine.Abreast
import StackML.Proofs.Machine.Instructions

/-!
What a method finds when it is entered with arguments: their words, the first one's lowest, and empty
words for its other locals. It is entered exactly where one more frame and these words are allowed.
-/

namespace StackML.Machine

variable {m k : Machine} {u : Unit} {w : Word} {ws : List Word} {r : Rep} {v : Value} {rs : List Rep}
  {vs : List Value} {setup : Setup} {code : Code} {boxResult : Bool}

/-! ### Words -/

def argWords : List Rep → List Value → List Word
  | r :: rs, v :: vs => (words r v).reverse ++ argWords rs vs
  | _, _ => []

def localWords (code : Code) (vs : List Value) (base : Nat) : List Word :=
  argWords code.signature.params vs ++
    List.replicate (missingLocals base (base + code.signature.words) code.method.maxLocals) ({} : Word)

theorem length_argWords (fits : List.Forall₂ Fits rs vs) :
    (argWords rs vs).length = rs.foldr (fun r n => r.width + n) 0 := by
  induction fits with
  | nil => rfl
  | cons first _ ih => rw [argWords, List.length_append, List.length_reverse, length_words first, ih]; rfl

theorem length_le_words {rs : List Rep} (nonvoid : Rep.void ∉ rs) :
    rs.length ≤ rs.foldr (fun r n => r.width + n) 0 := by
  induction rs with
  | nil => exact Nat.le_refl _
  | cons r rs ih =>
    obtain ⟨other, nonvoid⟩ := not_or.1 (mt List.mem_cons.2 nonvoid)
    have one : 1 ≤ r.width := by
      cases r with
      | void => exact absurd rfl other
      | _ => decide
    have rest := ih nonvoid
    rw [List.length_cons, List.foldr_cons]
    omega

theorem pushUnboxed_eq (fits : Fits r v) (visible : r ≠ .void) :
    pushUnboxed r v = (words r v).reverse.forM push := by
  cases fits with
  | int | bool | ref => simp [pushUnboxed, words, pushInt, pushBool, pushValue, List.forM_eq_forM]
  | double => simp [pushUnboxed, words, pushDouble, List.forM_eq_forM]
  | void => exact (visible rfl).elim

theorem pushArgs_eq (fits : List.Forall₂ Fits rs vs) (nonvoid : Rep.void ∉ rs) :
    pushArgs rs vs = (argWords rs vs).forM push := by
  induction fits with
  | nil => rfl
  | cons first _ ih =>
    obtain ⟨other, nonvoid⟩ := not_or.1 (mt List.mem_cons.2 nonvoid)
    rw [pushArgs, argWords, pushUnboxed_eq first (Ne.symm other), ih nonvoid, List.forM_eq_forM,
      List.forM_append]

theorem pushEmpty_eq (n : Nat) : pushEmpty n = (List.replicate n ({} : Word)).forM push := by
  induction n with
  | zero => rfl
  | succ n ih => rw [pushEmpty, ih, List.replicate_succ]; rfl

theorem pushAll_iff (sound : Sound m) :
    (∃ k, ws.forM push m = .ok () k) ↔ m.height + ws.length ≤ maxStack := by
  induction ws generalizing m with
  | nil => exact ⟨fun _ => sound.height_le, fun _ => ⟨m, rfl⟩⟩
  | cons w ws ih =>
    have after {k : Machine} (run : push w m = .ok () k) : Sound k ∧ k.height = m.height + 1 :=
      ⟨((Keeps.push w).ok sound (Nat.le_refl _) run).sound, push_height run⟩
    rw [List.length_cons]
    constructor
    · rintro ⟨k, ok⟩
      obtain ⟨_, m₁, first, ok⟩ := bind_ok ok
      have rest := (ih (after first).1).1 ⟨k, ok⟩
      rw [(after first).2] at rest
      omega
    · intro low
      obtain ⟨m₁, first⟩ := push_succeeds w (m := m) (by omega)
      obtain ⟨k, rest⟩ := (ih (after first).1).2 (by rw [(after first).2]; omega)
      exact ⟨k, (bind_of_ok first).trans rest⟩

/-! ### Entering -/

structure Enterable (setup : Setup) (code : Code) (vs : List Value) (m : Machine) : Prop where
  deep : m.depth < setup.maxFrames
  low : m.height + (localWords code vs m.height).length ≤ maxStack

theorem Enterable.congr {m' : Machine} (h : Enterable setup code vs m) (height : m'.height = m.height)
    (depth : m'.depth = m.depth) : Enterable setup code vs m' :=
  ⟨depth ▸ h.deep, height ▸ h.low⟩

structure Begun (code : Code) (vs : List Value) (boxResult : Bool) (m k : Machine) : Prop where
  world : SameWorld m k
  frames : k.frames = { code, base := m.height, boxResult } :: m.frames
  depth : k.depth = m.depth + 1
  height : k.height = m.height + (localWords code vs m.height).length
  locals : ∀ i < (localWords code vs m.height).length,
    k.cell (m.height + i) = (localWords code vs m.height).getD i {}
  below : ∀ i < m.height, k.cell i = m.cell i
  sound : Sound k

theorem Begun.congr {m' : Machine} (h : Begun code vs boxResult m k) (world : SameWorld m' m)
    (frames : m'.frames = m.frames) (depth : m'.depth = m.depth) (height : m'.height = m.height)
    (below : ∀ i < m.height, m'.cell i = m.cell i) : Begun code vs boxResult m' k where
  world := ⟨h.world.instances.trans world.instances, h.world.modules.trans world.modules,
    h.world.heap.trans world.heap, h.world.output.trans world.output,
    h.world.functions.trans world.functions, h.world.cancelled.trans world.cancelled⟩
  frames := by rw [h.frames, frames, height]
  depth := by rw [h.depth, depth]
  height := by rw [h.height, height]
  locals := by rw [height]; exact h.locals
  below i low := by
    rw [height] at low
    rw [h.below i low, below i low]
  sound := h.sound

theorem Begun.recount (h : Begun code vs boxResult m k) (n : Nat) :
    Begun code vs boxResult { m with functions := n } { k with functions := n } :=
  { h with
    world := { h.world with functions := rfl }
    sound := ⟨h.sound.counted, h.sound.room, h.sound.doubled, h.sound.based, h.sound.linked⟩ }

structure Passed (code : Code) (vs : List Value) (base : Nat) (m : Machine) : Prop where
  height : m.height = base + code.signature.words
  args : ∀ i < code.signature.words, m.cell (base + i) = (argWords code.signature.params vs).getD i {}
  sound : Sound m

section

variable (fits : List.Forall₂ Fits code.signature.params vs)
include fits

theorem length_localWords (base : Nat) : (localWords code vs base).length =
    code.signature.words + missingLocals base (base + code.signature.words) code.method.maxLocals := by
  rw [localWords, List.length_append, List.length_replicate, length_argWords fits]
  rfl

theorem enter_succeeds_iff {base : Nat} (passed : Passed code vs base m) :
    (∃ k, enter setup code boxResult m = .ok () k) ↔ Enterable setup code vs { m with height := base } := by
  have based : m.height - code.signature.words = base := by rw [passed.height, Nat.add_sub_cancel]
  have filled : (∃ k, pushEmpty (missingLocals base m.height code.method.maxLocals) m = .ok () k) ↔
      base + (localWords code vs base).length ≤ maxStack := by
    rw [pushEmpty_eq, pushAll_iff passed.sound, List.length_replicate, length_localWords fits, passed.height,
      Nat.add_assoc]
  constructor
  · rintro ⟨k, ok⟩
    obtain ⟨deep, -, m₁, fills, -⟩ := enter_iff.1 ok
    rw [based] at fills
    exact ⟨deep, filled.1 ⟨m₁, fills⟩⟩
  · rintro ⟨deep, low⟩
    obtain ⟨m₁, fills⟩ := filled.2 low
    rw [← based] at fills
    exact ⟨_, enter_iff.2 ⟨deep, by have height := passed.height; omega, m₁, fills, rfl⟩⟩

theorem begun_of_enter {base : Nat} (passed : Passed code vs base m)
    (ok : enter setup code boxResult m = .ok u k) : Begun code vs boxResult { m with height := base } k := by
  have kept := (keeps_enter (le_depthLimit setup m) code boxResult).ok passed.sound (Nat.le_max_left _ _) ok
  have height := passed.height
  obtain ⟨-, -, m₁, filled, rfl⟩ := enter_iff.1 ok
  rw [height, Nat.add_sub_cancel, pushEmpty_eq] at filled
  rw [height, Nat.add_sub_cancel] at kept ⊢
  obtain ⟨same, above, below⟩ := pushAll_spec passed.sound filled
  rw [List.length_replicate] at same above
  refine ⟨?_, by rw [same]; rfl, by rw [same]; rfl, ?_, fun i inside => ?_, fun i low => ?_, kept.sound⟩
  · rw [same]
    exact ⟨rfl, rfl, rfl, rfl, rfl, rfl⟩
  · rw [same, length_localWords fits, ← Nat.add_assoc, ← height]
    rfl
  · have length : (argWords code.signature.params vs).length = code.signature.words := length_argWords fits
    change i < (localWords code vs base).length at inside
    rw [length_localWords fits] at inside
    by_cases arg : i < code.signature.words
    · refine (below (base + i) (by omega)).trans ((passed.args i arg).trans ?_)
      rw [localWords, List.getD_append _ _ _ _ (length ▸ arg)]
    · obtain ⟨j, rfl⟩ := Nat.exists_eq_add_of_le (Nat.not_lt.1 arg)
      have empty := above j (by omega)
      rw [height, Nat.add_assoc] at empty
      refine empty.trans ?_
      rw [localWords, List.getD_append_right _ _ _ _ (by omega), length, Nat.add_sub_cancel_left]
  · change i < base at low
    exact below i (by omega)

variable (sound : Sound m) (nonvoid : Rep.void ∉ code.signature.params)
include sound nonvoid

theorem passed_of_pushArgs (ok : pushArgs code.signature.params vs m = .ok u k) :
    Passed code vs m.height k ∧ k = { m with stack := k.stack, height := k.height } ∧
      ∀ i < m.height, k.cell i = m.cell i := by
  have length : (argWords code.signature.params vs).length = code.signature.words := length_argWords fits
  have kept := (keeps_pushArgs _ _).ok sound (Nat.le_refl _) ok
  rw [pushArgs_eq fits nonvoid] at ok
  obtain ⟨same, above, below⟩ := pushAll_spec sound ok
  rw [length] at same above
  have height : k.height = m.height + code.signature.words := by rw [same]
  exact ⟨⟨height, above, kept.sound⟩, height ▸ same, below⟩

theorem pushArgs_succeeds (may : Enterable setup code vs m) :
    ∃ k, pushArgs code.signature.params vs m = .ok () k := by
  have low := may.low
  rw [length_localWords fits] at low
  rw [pushArgs_eq fits nonvoid]
  refine (pushAll_iff sound).2 ?_
  rw [length_argWords fits]
  change m.height + code.signature.words ≤ maxStack
  omega

end

/-- Pushes arguments in the representations of the parameters, and enters the method. -/
def call (setup : Setup) (code : Code) (boxResult : Bool) (vs : List Value) : Exec Unit := do
  pushArgs code.signature.params vs
  enter setup code boxResult

theorem call_succeeds_iff (sound : Sound m) (fits : List.Forall₂ Fits code.signature.params vs)
    (nonvoid : Rep.void ∉ code.signature.params) :
    (∃ k, call setup code boxResult vs m = .ok () k) ↔ Enterable setup code vs m := by
  constructor
  · rintro ⟨k, ok⟩
    obtain ⟨_, m₁, passes, ok⟩ := bind_ok ok
    obtain ⟨passed, same, -⟩ := passed_of_pushArgs fits sound nonvoid passes
    obtain ⟨deep, low⟩ := (enter_succeeds_iff fits passed).1 ⟨k, ok⟩
    exact ⟨by rw [same] at deep; exact deep, low⟩
  · intro may
    obtain ⟨m₁, passes⟩ := pushArgs_succeeds fits sound nonvoid may
    obtain ⟨passed, same, -⟩ := passed_of_pushArgs fits sound nonvoid passes
    obtain ⟨k, ok⟩ := (enter_succeeds_iff fits passed).2 ⟨by rw [same]; exact may.deep, may.low⟩
    exact ⟨k, (bind_of_ok passes).trans ok⟩

theorem begun_of_call (sound : Sound m) (fits : List.Forall₂ Fits code.signature.params vs)
    (nonvoid : Rep.void ∉ code.signature.params) (ok : call setup code boxResult vs m = .ok u k) :
    Begun code vs boxResult m k := by
  obtain ⟨_, m₁, passes, ok⟩ := bind_ok ok
  obtain ⟨passed, same, below⟩ := passed_of_pushArgs fits sound nonvoid passes
  refine (begun_of_enter fits passed ok).congr ?_ ?_ ?_ rfl fun i low => (below i low).symm
  · rw [same]
    exact ⟨rfl, rfl, rfl, rfl, rfl, rfl⟩
  · rw [same]
  · rw [same]

structure SameEntry (code : Code) (vs : List Value) (base : Nat) (callers callers' : List Frame)
    (k k' : Machine) : Prop where
  world : SameWorld k k'
  frames : k.frames = { code, base, boxResult := true } :: callers
  frames' : k'.frames = { code, base, boxResult := false } :: callers'
  depth : k'.depth = k.depth
  height : k.height = base + (localWords code vs base).length
  height' : k'.height = k.height
  locals : ∀ i < (localWords code vs base).length, k.cell (base + i) = (localWords code vs base).getD i {}
  agree : ∀ i < k.height, k'.cell i = k.cell i

structure Beside (m m' : Machine) : Prop where
  world : SameWorld m m'
  height : m'.height = m.height
  depth : m'.depth = m.depth
  agree : ∀ i < m.height, m'.cell i = m.cell i

theorem SameWorld.of_begun {m' k' : Machine} (same : SameWorld m m') (h : SameWorld m k) (h' : SameWorld m' k') :
    SameWorld k k' :=
  ⟨h'.instances.trans (same.instances.trans h.instances.symm), h'.modules.trans (same.modules.trans h.modules.symm),
    h'.heap.trans (same.heap.trans h.heap.symm), h'.output.trans (same.output.trans h.output.symm),
    h'.functions.trans (same.functions.trans h.functions.symm),
    h'.cancelled.trans (same.cancelled.trans h.cancelled.symm)⟩

theorem Begun.same_entry {m' k' : Machine} (h : Begun code vs true m k) (h' : Begun code vs false m' k')
    (beside : Beside m m') : SameEntry code vs m.height m.frames m'.frames k k' where
  world := beside.world.of_begun h.world h'.world
  frames := h.frames
  frames' := by rw [h'.frames, beside.height]
  depth := by rw [h'.depth, h.depth, beside.depth]
  height := h.height
  height' := by rw [h'.height, h.height, beside.height]
  locals := h.locals
  agree i low := by
    by_cases outside : i < m.height
    · rw [h.below i outside, h'.below i (beside.height ▸ outside), beside.agree i outside]
    · obtain ⟨j, rfl⟩ := Nat.exists_eq_add_of_le (Nat.not_lt.1 outside)
      have inside : j < (localWords code vs m.height).length := by
        have height := h.height
        omega
      have same := h'.locals j (by rw [beside.height]; exact inside)
      rw [beside.height] at same
      rw [h.locals j inside, same]

theorem SameEntry.alike {base limit : Nat} {callers callers' : List Frame} {k k' : Machine}
    (h : SameEntry code vs base callers callers' k k') (sound : Sound k) (sound' : Sound k')
    (shallow : k.depth ≤ limit) : Alike limit base callers callers' k k' := by
  refine ⟨h.world, h.height', h.depth, ⟨[], { code, base, boxResult := true }, k.height, ?_⟩, sound, sound', shallow⟩
  exact {
    frames := h.frames
    frames' := h.frames'
    boxed := rfl
    based := rfl
    height := Nat.le_refl _
    inner := List.forall_mem_nil _
    below := by rw [h.height]; exact Nat.le_add_right _ _
    agree := h.agree }

end StackML.Machine
