import StackML.Proofs.Machine.Initializing
import StackML.Proofs.Machine.Likeness

/-!
How the operand of an instruction finds a method. The method is one of the running module or of another,
which may have to be loaded and initialized first. What matters of that to the instruction is which words
stay and what becomes of the rest; where no initializer has to be run, nothing happens at all.
-/

namespace StackML

/-- The frame with its position moved on. -/
def Frame.past (f : Frame) (bytes : Nat) : Frame := { f with ip := f.ip + bytes }

namespace Machine

variable {m a w : Machine} {setup : Setup} {code : Code} {init : Code → Exec Unit} {f : Frame}
  {callers : List Frame} {c : Constant} {room : Nat}

/-! ### Operands -/

theorem readByte_at {b : UInt8} (frames : m.frames = f :: callers) (byte : f.code.method.code[f.ip]? = some b) :
    readByte m = .ok b.toNat { m with frames := f.past 1 :: callers } := by
  obtain ⟨inside, same⟩ := Array.getElem?_eq_some_iff.1 byte
  unfold readByte
  simp only [frames, inside, dif_pos, same]
  rfl

structure ConstantAt (f : Frame) (instances : Array Instance) (c : Constant) (high low : UInt8) : Prop where
  first : f.code.method.code[f.ip]? = some high
  second : f.code.method.code[f.ip + 1]? = some low
  found : (instances.getD f.code.home default).constants[high.toNat * 256 + low.toNat]? = some c

theorem readConstant_at {high low : UInt8} (frames : m.frames = f :: callers)
    (operand : ConstantAt f m.instances c high low) :
    readConstant m = .ok c { m with frames := f.past 2 :: callers } := by
  have first := readByte_at frames operand.first
  have second : readByte { m with frames := f.past 1 :: callers } =
      .ok low.toNat { m with frames := f.past 2 :: callers } :=
    readByte_at (f := f.past 1) rfl operand.second
  have word : readWord m = .ok (high.toNat * 256 + low.toNat) { m with frames := f.past 2 :: callers } := by
    unfold readWord
    rw [bind_of_ok first, bind_of_ok second]
    rfl
  have found : (m.instances.getD (f.past 2).code.home default).constants[high.toNat * 256 + low.toNat]? =
      some c := operand.found
  unfold readConstant
  rw [bind_of_ok word, bind_of_ok (get_eq _)]
  simp only [found]
  rfl

/-! ### Resolution -/

structure Pushed (m a : Machine) : Prop where
  same : a = { m with stack := a.stack, height := a.height, frames := a.frames }
  moved : Moved m.frames a.frames
  higher : m.height ≤ a.height
  below : ∀ i < m.height, a.cell i = m.cell i
  sound : Sound a

structure Settles (w a b : Machine) : Prop where
  world : SameWorld w b
  level : SameLevel a b
  below : ∀ i < a.height, b.cell i = a.cell i
  sound : Sound b

/-- Whichever words are pushed, up to so many, the constant refers to the method, and looking for it has
the same effect outside the stack. -/
def Resolves (setup : Setup) (init : Code → Exec Unit) (m w : Machine) (room : Nat) (c : Constant)
    (code : Code) : Prop :=
  ∀ a, Pushed m a → a.height ≤ m.height + room → ∃ b, methodRef setup init c a = .ok code b ∧ Settles w a b

/-- The machine with what lies outside the stack taken from `w`. -/
def settled (m w : Machine) (callers : List Frame) : Machine :=
  { w with stack := m.stack, height := m.height, frames := callers, depth := m.depth }

theorem Pushed.refl (sound : Sound m) : Pushed m m := ⟨rfl, .refl _, Nat.le_refl _, fun _ _ => rfl, sound⟩

theorem nonvoid_of_methodRef (ok : methodRef setup init c m = .ok code a) (sound : Sound a) :
    Rep.void ∉ code.signature.params := by
  obtain ⟨i, m₁, -, ok⟩ := bind_ok ok
  rw [bind_of_ok (instanceAt_eq i m₁)] at ok
  cases found : (m₁.instances.getD i default).methods.get? c.name with
  | none =>
    rw [found] at ok
    cases ok
  | some method =>
    rw [found] at ok
    dsimp only at ok
    split at ok
    · cases ok
    · unfold codeOf at ok
      cases parsed : method.signature with
      | error issue =>
        rw [parsed] at ok
        cases ok
      | ok signature =>
        rw [parsed] at ok
        cases ok
        have linked := sound.linked i c.name method found
        rw [parsed] at linked
        exact Descriptor.nonvoid_parse linked.symm

theorem Resolves.nonvoid (h : Resolves setup init m w room c code) (sound : Sound m) :
    Rep.void ∉ code.signature.params := by
  obtain ⟨b, ok, settles⟩ := h m (.refl sound) (Nat.le_add_right _ _)
  exact nonvoid_of_methodRef ok settles.sound

structure Offers (m : Machine) (c : Constant) (code : Code) : Prop where
  name : (m.instances.getD code.home default).name = code.module
  found : (m.instances.getD code.home default).methods.get? c.name = some ⟨code.method, .ok code.signature⟩
  descriptor : code.method.descriptor = c.descriptor

theorem Offers.methodRef (h : Offers a c code) (owned : ownerOf setup init c.owner m = .ok code.home a) :
    methodRef setup init c m = .ok code a := by
  unfold Machine.methodRef
  rw [bind_of_ok owned, bind_of_ok (instanceAt_eq code.home a)]
  have name := h.name
  simp only [h.found]
  rw [if_neg (not_not.2 h.descriptor)]
  unfold codeOf
  rw [name]
  rfl

theorem Offers.congr (h : Offers m c code) (instances : a.instances = m.instances) : Offers a c code :=
  ⟨by rw [instances]; exact h.name, by rw [instances]; exact h.found, h.descriptor⟩

theorem ownerOf_other {name : Text} (frames : m.frames = f :: callers) (other : f.code.module ≠ name) :
    ownerOf setup init name m = moduleOf setup init name m := by
  unfold ownerOf
  rw [bind_of_ok (get_eq m), frames]
  dsimp only
  rw [if_neg other]

theorem Pushed.frames (h : Pushed m a) (frames : m.frames = f :: callers) :
    ∃ g, a.frames = g :: callers ∧ g.code = f.code := by
  obtain ⟨ip, moved⟩ := h.moved
  rw [frames] at moved
  exact ⟨_, moved, rfl⟩

theorem Pushed.world (h : Pushed m a) : SameWorld m a := by
  rw [h.same]
  exact ⟨rfl, rfl, rfl, rfl, rfl, rfl⟩

theorem Pushed.settles (h : Pushed m a) : Settles m a a := ⟨h.world, .refl a, fun _ _ => rfl, h.sound⟩

theorem resolves_own (frames : m.frames = f :: callers) (offers : Offers m c code)
    (own : f.code.module = c.owner) (home : f.code.home = code.home) (room : Nat) :
    Resolves setup init m m room c code := fun a pushed _ => by
  obtain ⟨g, moved, same⟩ := pushed.frames frames
  refine ⟨a, (offers.congr pushed.world.instances).methodRef ?_, pushed.settles⟩
  unfold ownerOf
  rw [bind_of_ok (get_eq a), moved]
  dsimp only
  rw [same, if_pos own, home]
  rfl

theorem resolves_started (frames : m.frames = f :: callers) (other : f.code.module ≠ c.owner)
    (known : m.modules.get? c.owner = some code.home) (started : Started code.home m)
    (offers : Offers m c code) (room : Nat) : Resolves setup init m m room c code := fun a pushed _ => by
  obtain ⟨g, moved, same⟩ := pushed.frames frames
  refine ⟨a, (offers.congr pushed.world.instances).methodRef ?_, pushed.settles⟩
  rw [ownerOf_other moved (same ▸ other), moduleOf_of_known (pushed.world.modules ▸ known)]
  refine bind_of_ok (initialized_of_started ?_)
  unfold Started
  rw [pushed.world.instances]
  exact started

theorem resolves_first (frames : m.frames = f :: callers) (other : f.code.module ≠ c.owner)
    (known : m.modules.get? c.owner = some code.home) (fresh : ¬ Started code.home m)
    (none : (m.instances.getD code.home default).methods.get? Names.initializer = none)
    (offers : Offers (marked code.home m) c code) (room : Nat) :
    Resolves setup init m (marked code.home m) room c code := fun a pushed _ => by
  obtain ⟨g, moved, same⟩ := pushed.frames frames
  have world := pushed.world
  have instances : (marked code.home a).instances = (marked code.home m).instances := by
    unfold marked
    rw [world.instances]
  have kept := pushed.sound.outside (Nat.le_refl _) (outside_marked code.home)
  refine ⟨marked code.home a, (offers.congr instances).methodRef ?_,
    ⟨instances, world.modules, world.heap, world.output, world.functions, world.cancelled⟩, ⟨rfl, rfl, rfl⟩,
    fun _ _ => rfl, kept.sound⟩
  rw [ownerOf_other moved (same ▸ other), moduleOf_of_known (world.modules ▸ known)]
  have fresh' : ¬ Started code.home a := by
    unfold Started at fresh ⊢
    rw [world.instances]
    exact fresh
  exact bind_of_ok (initialized_of_absent fresh' (by rw [world.instances]; exact none))

end Machine
end StackML
