import StackML.Codegen.Instr
import StackML.Machine.Run
import StackML.Proofs.Computation

/-!
A running method seen from inside: where it is, its locals, the operands above them and what was
printed. `Gives` says what a computation of the machine comes to, a full stack aside; `Leads` says it
of runs. Jumps go forward only, so a run takes no more instructions than the bytes it passes.
-/

namespace StackML.Machine

structure Site where
  setup : Setup
  world : Machine
  frame : Frame
  callers : List Frame
  below : List Word
  code : Fragment
  stop : Nat
  based : frame.base = below.length
  assembled : frame.code.method.code = (code.assemble.map (·.1)).toArray
  near : ∀ i ∈ code, i.isFar = false
  deep : stop < world.depth
  running : world.cancelled = false

structure View where
  ip : Nat
  locals : List Word
  operands : List Word
  output : List Text

structure Shows (s : Site) (w : View) (m : Machine) : Prop where
  same : m = { s.world with
    stack := m.stack, height := m.height, frames := { s.frame with ip := w.ip } :: s.callers,
    output := w.output }
  room : m.height ≤ m.stack.size
  words : m.stack.toList.take m.height = s.below ++ w.locals ++ w.operands.reverse

theorem get_eq (m : Machine) : (get : Exec Machine) m = .ok m m := rfl

theorem instanceAt_eq (i : Nat) (m : Machine) : instanceAt i m = .ok (m.instances.getD i default) m := rfl

def Gives {α : Type} (x : Exec α) (m : Machine) (Q : α → Machine → Prop) : Prop :=
  match x m with
  | .ok a m' => Q a m'
  | .error (.fault f) _ => f.issue = .stackOverflow
  | .error _ _ => False

variable {s : Site} {m : Machine} {ip : Nat} {L S : List Word} {out : List Text} {w : Word}
  {α β : Type} {x : Exec α} {f : α → Exec β} {Q : β → Machine → Prop}

namespace Gives

theorem pure {a : α} {Q : α → Machine → Prop} (h : Q a m) : Gives (Pure.pure a) m Q := h

theorem of_ok {a : α} {m' : Machine} (run : x m = .ok a m') (next : Gives (f a) m' Q) :
    Gives (x >>= f) m Q := by
  unfold Gives at next ⊢
  rwa [bind_of_ok run]

theorem bind {P : α → Machine → Prop} (first : Gives x m P)
    (next : ∀ a m', P a m' → Gives (f a) m' Q) : Gives (x >>= f) m Q := by
  unfold Gives at first
  cases run : x m with
  | ok a m' =>
    rw [run] at first
    exact of_ok run (next a m' first)
  | error e m' =>
    rw [run] at first
    unfold Gives
    rw [bind_of_error run]
    cases e with
    | fault f => exact first
    | cancelled | outOfSteps => exact first.elim

end Gives

def Raises {α : Type} (x : Exec α) (m : Machine) (issue : FaultIssue) (out : List Text) : Prop :=
  ∃ f m', x m = .error (.fault f) m' ∧ f.issue = issue ∧ m'.output = out

theorem raises_raise (issue : FaultIssue) : Raises (raise issue : Exec α) m issue m.output := by
  refine ⟨_, m, rfl, ?_, rfl⟩
  unfold locate
  split <;> rfl

theorem Raises.of_ok {a : α} {m' : Machine} {issue : FaultIssue} {out : List Text}
    (run : x m = .ok a m') (next : Raises (f a) m' issue out) : Raises (x >>= f) m issue out := by
  obtain ⟨fault, m'', stopped, rest⟩ := next
  exact ⟨fault, m'', (bind_of_ok run).trans stopped, rest⟩

theorem Raises.first {issue : FaultIssue} {out : List Text} (stopped : Raises x m issue out) :
    Raises (x >>= f) m issue out := by
  obtain ⟨fault, m', run, rest⟩ := stopped
  exact ⟨fault, m', bind_of_error run, rest⟩

/-! ### The stack -/

namespace Shows

theorem height_eq (h : Shows s ⟨ip, L, S, out⟩ m) :
    m.height = s.below.length + L.length + S.length := by
  have lengths := congrArg List.length h.words
  have room := h.room
  simp only [List.length_take, Array.length_toList, List.length_append, List.length_reverse]
    at lengths
  omega

theorem frames_eq {w : View} (h : Shows s w m) :
    m.frames = { s.frame with ip := w.ip } :: s.callers := by
  rw [h.same]

theorem restack {w : View} (h : Shows s w m) {stack : Array Word} {height : Nat} {L S : List Word}
    (room : height ≤ stack.size)
    (words : stack.toList.take height = s.below ++ L ++ S.reverse) :
    Shows s ⟨w.ip, L, S, w.output⟩ { m with stack, height } := by
  refine ⟨?_, room, words⟩
  rw [h.same]

theorem jump {w : View} (h : Shows s w m) (ip : Nat) :
    Shows s { w with ip } { m with frames := { s.frame with ip } :: s.callers } := by
  refine ⟨?_, h.room, h.words⟩
  rw [h.same]

end Shows

theorem take_setIfInBounds {stack : Array Word} {height : Nat} (room : height < stack.size) :
    (stack.setIfInBounds height w).toList.take (height + 1) = stack.toList.take height ++ [w] := by
  rw [Array.toList_setIfInBounds, List.take_add_one, List.take_set_of_le (Nat.le_refl _)]
  simp [room]

theorem push_ok (room : m.height ≤ m.stack.size)
    (free : m.height < m.stack.size ∨ m.height < maxStack) :
    ∃ stack, push w m = .ok () { m with stack, height := m.height + 1 } ∧
      m.height + 1 ≤ stack.size ∧
      stack.toList.take (m.height + 1) = m.stack.toList.take m.height ++ [w] := by
  unfold push
  by_cases inside : m.height < m.stack.size
  · rw [if_pos inside]
    refine ⟨_, rfl, ?_, take_setIfInBounds inside⟩
    rw [Array.size_setIfInBounds]
    omega
  · rw [if_neg inside, if_neg (Nat.not_le.2 (free.resolve_left inside))]
    have grown : m.height < (m.stack ++ Array.replicate (max 1024 m.stack.size) ({} : Word)).size := by
      rw [Array.size_append, Array.size_replicate]
      omega
    refine ⟨_, rfl, ?_, ?_⟩
    · rw [Array.size_setIfInBounds]
      omega
    · rw [take_setIfInBounds grown, Array.toList_append,
        List.take_append_of_le_length (by simpa using room)]

theorem pop_eq {front : List Word} {n : Nat} (height : m.height = n + 1) (room : n < m.stack.size)
    (words : m.stack.toList.take (n + 1) = front ++ [w]) :
    pop m = .ok w { m with height := n } ∧ m.stack.toList.take n = front := by
  rw [List.take_add_one, Array.getElem?_toList, Array.getElem?_eq_getElem room,
    Option.toList_some] at words
  obtain ⟨rest, last⟩ := List.append_inj' words rfl
  have top : m.stack.getD n {} = w := by
    rw [Array.getD_eq_getD_getElem?, Array.getElem?_eq_getElem room]
    exact List.singleton_inj.1 last
  refine ⟨?_, rest⟩
  unfold pop
  rw [height, if_neg (Nat.succ_ne_zero n), Nat.add_sub_cancel, top]

theorem push_gives (h : Shows s ⟨ip, L, S, out⟩ m) :
    Gives (push w) m fun _ m' => Shows s ⟨ip, L, w :: S, out⟩ m' := by
  unfold Gives
  by_cases free : m.height < m.stack.size ∨ m.height < maxStack
  · obtain ⟨stack, run, room, words⟩ := push_ok (w := w) h.room free
    rw [run]
    refine h.restack room (words.trans ?_)
    rw [h.words]
    simp
  · obtain ⟨full, limit⟩ := not_or.1 free
    unfold push
    rw [if_neg full, if_pos (Nat.not_lt.1 limit)]
    unfold raise locate
    rw [h.frames_eq]

theorem pop_ok (h : Shows s ⟨ip, L, w :: S, out⟩ m) :
    ∃ m', Machine.pop m = .ok w m' ∧ Shows s ⟨ip, L, S, out⟩ m' := by
  have height := h.height_eq
  have room := h.room
  have words := h.words
  rw [List.reverse_cons, ← List.append_assoc] at words
  rw [List.length_cons, ← Nat.add_assoc] at height
  rw [height] at words
  obtain ⟨run, rest⟩ := pop_eq height (by omega) words
  exact ⟨_, run, h.restack (by omega) rest⟩

theorem Gives.pop {f : Word → Exec β} (h : Shows s ⟨ip, L, w :: S, out⟩ m)
    (next : ∀ m', Shows s ⟨ip, L, S, out⟩ m' → Gives (f w) m' Q) :
    Gives (Machine.pop >>= f) m Q := by
  obtain ⟨m', run, h'⟩ := pop_ok h
  exact .of_ok run (next m' h')

theorem Gives.popInt {f : Int64 → Exec β} (h : Shows s ⟨ip, L, w :: S, out⟩ m)
    (next : ∀ m', Shows s ⟨ip, L, S, out⟩ m' → Gives (f w.toInt) m' Q) :
    Gives (Machine.popInt >>= f) m Q := by
  unfold Machine.popInt
  rw [bind_assoc]
  exact .pop h fun m' h' => next m' h'

theorem Gives.popValue {f : Value → Exec β} (h : Shows s ⟨ip, L, w :: S, out⟩ m)
    (next : ∀ m', Shows s ⟨ip, L, S, out⟩ m' → Gives (f w.ref) m' Q) :
    Gives (Machine.popValue >>= f) m Q := by
  unfold Machine.popValue
  rw [bind_assoc]
  exact .pop h fun m' h' => next m' h'

theorem Gives.popDouble {f : UInt64 → Exec β} {v : Word} (h : Shows s ⟨ip, L, v :: w :: S, out⟩ m)
    (next : ∀ m', Shows s ⟨ip, L, S, out⟩ m' → Gives (f w.data) m' Q) :
    Gives (Machine.popDouble >>= f) m Q := by
  unfold Machine.popDouble
  rw [bind_assoc]
  refine .pop h fun m' h' => ?_
  rw [bind_assoc]
  exact .pop h' fun m' h' => next m' h'

theorem pushDouble_gives {bits : UInt64} (h : Shows s ⟨ip, L, S, out⟩ m) :
    Gives (pushDouble bits) m fun _ m' => Shows s ⟨ip, L, {} :: { data := bits } :: S, out⟩ m' :=
  .bind (push_gives h) fun _ _ h' => push_gives h'

/-! ### Reading code -/

def Site.Located (s : Site) (ip : Nat) (code : Fragment) : Prop :=
  ∃ front back, s.code = front ++ code ++ back ∧ ip = Fragment.size front

namespace Site.Located

variable {a b code : Fragment} {i : Instr}

theorem left (h : s.Located ip (a ++ b)) : s.Located ip a := by
  obtain ⟨front, back, whole, start⟩ := h
  exact ⟨front, b ++ back, by simp [whole], start⟩

theorem right (h : s.Located ip (a ++ b)) : s.Located (ip + a.size) b := by
  obtain ⟨front, back, whole, start⟩ := h
  exact ⟨front ++ a, back, by simp [whole], by rw [Fragment.size_append, start]⟩

theorem head (h : s.Located ip (i :: code)) : s.Located ip [i] := left (b := code) h

theorem tail (h : s.Located ip (i :: code)) : s.Located (ip + i.size) code := by
  have rest := right (a := [i]) h
  simpa [Fragment.size] using rest

theorem le_size (h : s.Located ip code) : ip + Fragment.size code ≤ Fragment.size s.code := by
  obtain ⟨front, back, whole, start⟩ := h
  rw [whole, Fragment.size_append, Fragment.size_append]
  omega

theorem byte (h : s.Located ip (i :: code)) {j : Nat} {b : UInt8} (found : i.bytes[j]? = some b) :
    s.frame.code.method.code[ip + j]? = some b := by
  obtain ⟨front, back, whole, start⟩ := h
  have inside : j < i.bytes.length := (List.getElem?_eq_some_iff.1 found).1
  have pieces : s.code.assemble.map (·.1) =
      (Fragment.assemble front).map (·.1) ++ (i.bytes ++ (Fragment.assemble (code ++ back)).map (·.1)) := by
    rw [whole]
    simp [Fragment.assemble, List.map_flatMap, Function.comp_def]
  have length : ((Fragment.assemble front).map (·.1)).length = ip := by
    rw [List.length_map, Fragment.length_assemble, start]
  rw [s.assembled, List.getElem?_toArray, pieces, List.getElem?_append_right (by omega), length,
    Nat.add_sub_cancel_left, List.getElem?_append_left inside, found]

theorem isFar (h : s.Located ip (i :: code)) : i.isFar = false := by
  obtain ⟨front, back, whole, -⟩ := h
  exact s.near i (by simp [whole])

end Site.Located

theorem Gives.readByte {f : Nat → Exec β} {b : UInt8}
    (byte : s.frame.code.method.code[ip]? = some b) (h : Shows s ⟨ip, L, S, out⟩ m)
    (next : ∀ m', Shows s ⟨ip + 1, L, S, out⟩ m' → Gives (f b.toNat) m' Q) :
    Gives (Machine.readByte >>= f) m Q := by
  obtain ⟨inside, found⟩ := Array.getElem?_eq_some_iff.1 byte
  refine .of_ok ?_ (next _ (h.jump (ip + 1)))
  unfold Machine.readByte
  rw [h.frames_eq]
  simp only [inside, dif_pos, found]

theorem Gives.readWord {f : Nat → Exec β} {high low : UInt8}
    (first : s.frame.code.method.code[ip]? = some high)
    (second : s.frame.code.method.code[ip + 1]? = some low) (h : Shows s ⟨ip, L, S, out⟩ m)
    (next : ∀ m', Shows s ⟨ip + 2, L, S, out⟩ m' → Gives (f (high.toNat * 256 + low.toNat)) m' Q) :
    Gives (Machine.readWord >>= f) m Q := by
  unfold Machine.readWord
  rw [bind_assoc]
  refine .readByte first h fun m h => ?_
  rw [bind_assoc]
  exact .readByte second h fun m h => next m h

theorem advance_eq {n : Nat} {f : Frame} {rest : List Frame} (frames : m.frames = f :: rest) :
    Machine.advance n m = .ok () { m with frames := { f with ip := f.ip + n } :: rest } := by
  obtain ⟨⟩ := m
  cases frames
  rfl

theorem advance_idle {n : Nat} (frames : m.frames = []) : Machine.advance n m = .ok () m := by
  obtain ⟨⟩ := m
  cases frames
  rfl

theorem Gives.advance {n : Nat} (h : Shows s ⟨ip, L, S, out⟩ m) :
    Gives (Machine.advance n) m fun _ m' => Shows s ⟨ip + n, L, S, out⟩ m' := by
  unfold Gives
  rw [advance_eq h.frames_eq]
  exact h.jump (ip + n)

theorem Gives.get {f : Machine → Exec β} (next : Gives (f m) m Q) :
    Gives (MonadState.get >>= f) m Q := .of_ok rfl next

theorem Gives.wordAt {f : Word → Exec β} {i : Nat} (found : L[i]? = some w)
    (h : Shows s ⟨ip, L, S, out⟩ m) (next : Gives (f w) m Q) :
    Gives (Machine.wordAt (s.frame.base + i) >>= f) m Q := by
  have inside : i < L.length := (List.getElem?_eq_some_iff.1 found).1
  have height := h.height_eq
  have room := h.room
  have word : m.stack[s.frame.base + i]? = some w := by
    rw [← Array.getElem?_toList, ← List.getElem?_take_of_lt (j := m.height) (by rw [s.based]; omega), h.words,
      List.append_assoc, s.based, List.getElem?_append_right (by omega), Nat.add_sub_cancel_left,
      List.getElem?_append_left inside, found]
  unfold Machine.wordAt
  rw [bind_assoc]
  refine .get ?_
  simp only [word]
  exact next

theorem setWordAt_gives {i : Nat} (inside : i < L.length) (h : Shows s ⟨ip, L, S, out⟩ m) :
    Gives (setWordAt (s.frame.base + i) w) m fun _ m' => Shows s ⟨ip, L.set i w, S, out⟩ m' := by
  have height := h.height_eq
  have room := h.room
  have based := s.based
  unfold Gives setWordAt
  rw [if_pos (by omega)]
  have inside' : m.height ≤ (m.stack.setIfInBounds (s.frame.base + i) w).size := by simpa using room
  refine h.restack inside' ?_
  rw [Array.toList_setIfInBounds, List.take_set, h.words, List.append_assoc, based,
    List.set_append_right _ _ (by omega), Nat.add_sub_cancel_left, List.set_append_left _ _ inside,
    ← List.append_assoc]

theorem Gives.readSlot {f : Nat → Exec β} {high low : UInt8}
    (first : s.frame.code.method.code[ip]? = some high)
    (second : s.frame.code.method.code[ip + 1]? = some low) (h : Shows s ⟨ip, L, S, out⟩ m)
    (next : ∀ m', Shows s ⟨ip + 2, L, S, out⟩ m' →
      Gives (f (s.frame.base + (high.toNat * 256 + low.toNat))) m' Q) :
    Gives (Machine.readSlot >>= f) m Q := by
  unfold Machine.readSlot
  rw [bind_assoc]
  refine .readWord first second h fun m h => ?_
  rw [bind_assoc]
  refine .get ?_
  simp only [h.frames_eq]
  exact next m h

/-- The constants of the module that the method belongs to. -/
def Site.constants (s : Site) : Array Constant :=
  (s.world.instances.getD s.frame.code.home default).constants

theorem Gives.readConstant {f : Constant → Exec β} {k : Constant} {high low : UInt8}
    (first : s.frame.code.method.code[ip]? = some high)
    (second : s.frame.code.method.code[ip + 1]? = some low)
    (found : s.constants[high.toNat * 256 + low.toNat]? = some k)
    (h : Shows s ⟨ip, L, S, out⟩ m)
    (next : ∀ m', Shows s ⟨ip + 2, L, S, out⟩ m' → Gives (f k) m' Q) :
    Gives (Machine.readConstant >>= f) m Q := by
  unfold Machine.readConstant
  rw [bind_assoc]
  refine .readWord first second h fun m h => ?_
  rw [bind_assoc]
  refine .get ?_
  have instances : m.instances = s.world.instances := by rw [h.same]
  unfold Site.constants at found
  simp only [h.frames_eq, instances, found]
  exact next m h

/-! ### Runs -/

def cycle (setup : Setup) (init : Code → Exec Unit) : Exec Unit := do
  let op ← fetch
  step setup init op

theorem fetch_ok {i : Instr} {code : Fragment} (at_ : s.Located ip (i :: code))
    (h : Shows s ⟨ip, L, S, out⟩ m) :
    ∃ m', Machine.fetch m = .ok i.op m' ∧ Shows s ⟨ip + 1, L, S, out⟩ m' := by
  have byte := at_.byte (j := 0) (b := i.op.code) rfl
  obtain ⟨inside, found⟩ := Array.getElem?_eq_some_iff.1 byte
  rw [Nat.add_zero] at inside
  simp only [Nat.add_zero] at found
  have code : i.op.code.toNat.toUInt8 = i.op.code := UInt8.ofNat_toNat
  have read : Machine.readByte m = .ok i.op.code.toNat
      { m with frames := { s.frame with ip := ip + 1 } :: s.callers } := by
    unfold Machine.readByte
    simp only [h.frames_eq, inside, dif_pos, found]
  refine ⟨_, ?_, h.jump (ip + 1)⟩
  unfold Machine.fetch
  refine (bind_of_ok (get_eq m)).trans ?_
  simp only [h.frames_eq, Nat.not_le.2 inside, if_false]
  refine (bind_of_ok read).trans ?_
  rw [code, Opcode.ofCode?_code]
  rfl

theorem Gives.fetch {f : Opcode → Exec β} {i : Instr} {code : Fragment}
    (at_ : s.Located ip (i :: code)) (h : Shows s ⟨ip, L, S, out⟩ m)
    (next : ∀ m', Shows s ⟨ip + 1, L, S, out⟩ m' → Gives (f i.op) m' Q) :
    Gives (Machine.fetch >>= f) m Q := by
  obtain ⟨m', run, h'⟩ := fetch_ok at_ h
  exact .of_ok run (next m' h')

def Overflows {α : Type} (r : EStateM.Result Halt Machine α) : Prop :=
  ∃ f m, r = .error (.fault f) m ∧ f.issue = .stackOverflow

theorem look_eq (running : m.cancelled = false) : look m = .ok () m := by
  cases m
  cases running
  rfl

theorem glance_eq (running : m.cancelled = false) (count : Nat) : glance count m = .ok () m := by
  unfold glance
  split
  · exact look_eq running
  · rfl

theorem execute_succ {w : View} (h : Shows s w m) (steps count : Nat) :
    ∃ init count', execute s.setup (steps + 1) s.stop count m =
      (cycle s.setup init >>= fun _ => execute s.setup steps s.stop count') m := by
  have deep : ¬m.depth ≤ s.stop := by
    rw [h.same]
    exact Nat.not_le.2 s.deep
  have running : m.cancelled = false := by
    rw [h.same]
    exact s.running
  refine ⟨fun code => invokeBy (fun stop => execute s.setup steps stop 0) s.setup code [] >>=
    fun _ => pure (), counted count, ?_⟩
  rw [execute, cycle, bind_assoc, bind_of_ok (get_eq m), if_neg deep, bind_of_ok (glance_eq running count)]

/-- The method gets from one view to another, unless the stack is full. -/
def Leads (s : Site) (w w' : View) : Prop :=
  ∃ n, w.ip + n ≤ w'.ip ∧ ∀ m steps count, Shows s w m →
    Overflows (execute s.setup (n + steps) s.stop count m) ∨
      ∃ m' count', Shows s w' m' ∧ execute s.setup (n + steps) s.stop count m =
        execute s.setup steps s.stop count' m'

def Ends (s : Site) (w : View) (issue : FaultIssue) (out : List Text) : Prop :=
  ∃ n, w.ip + n ≤ Fragment.size s.code ∧ ∀ m steps count, Shows s w m →
    Overflows (execute s.setup (n + steps) s.stop count m) ∨
      ∃ f m', execute s.setup (n + steps) s.stop count m = .error (.fault f) m' ∧
        f.issue = issue ∧ m'.output = out

theorem Leads.refl (w : View) : Leads s w w :=
  ⟨0, Nat.le_refl _, fun m _ count h => .inr ⟨m, count, h, by rw [Nat.zero_add]⟩⟩

theorem Leads.trans {w w' w'' : View} (first : Leads s w w') (second : Leads s w' w'') :
    Leads s w w'' := by
  obtain ⟨n, le, runs⟩ := first
  obtain ⟨n', le', runs'⟩ := second
  refine ⟨n + n', by omega, fun m steps count h => ?_⟩
  rw [Nat.add_assoc]
  rcases runs m (n' + steps) count h with full | ⟨m', count', h', same⟩
  · exact .inl full
  · rw [same]
    exact runs' m' steps count' h'

theorem Leads.append {a b : Fragment} {L₁ L₂ S₁ S₂ : List Word} {out₁ out₂ : List Text}
    (first : Leads s ⟨ip, L, S, out⟩ ⟨ip + a.size, L₁, S₁, out₁⟩)
    (second : Leads s ⟨ip + a.size, L₁, S₁, out₁⟩ ⟨ip + a.size + b.size, L₂, S₂, out₂⟩) :
    Leads s ⟨ip, L, S, out⟩ ⟨ip + Fragment.size (a ++ b), L₂, S₂, out₂⟩ := by
  rw [Fragment.size_append, ← Nat.add_assoc]
  exact first.trans second

theorem Leads.ends {w w' : View} {issue : FaultIssue} {out : List Text} (first : Leads s w w')
    (second : Ends s w' issue out) : Ends s w issue out := by
  obtain ⟨n, le, runs⟩ := first
  obtain ⟨n', le', runs'⟩ := second
  refine ⟨n + n', by omega, fun m steps count h => ?_⟩
  rw [Nat.add_assoc]
  rcases runs m (n' + steps) count h with full | ⟨m', count', h', same⟩
  · exact .inl full
  · rw [same]
    exact runs' m' steps count' h'

theorem Leads.step {w w' : View} (forward : w.ip < w'.ip)
    (one : ∀ m init, Shows s w m → Gives (cycle s.setup init) m fun _ m' => Shows s w' m') :
    Leads s w w' := by
  refine ⟨1, forward, fun m steps count h => ?_⟩
  obtain ⟨init, count', run⟩ := execute_succ h steps count
  have gives := one m init h
  rw [Nat.add_comm, run]
  unfold Gives at gives
  cases result : cycle s.setup init m with
  | ok a m' =>
    rw [result] at gives
    exact .inr ⟨m', count', gives, bind_of_ok result⟩
  | error e m' =>
    rw [result] at gives
    cases e with
    | fault f => exact .inl ⟨f, m', bind_of_error result, gives⟩
    | cancelled | outOfSteps => exact gives.elim

theorem Ends.step {issue : FaultIssue} {i : Instr} {code : Fragment}
    (at_ : s.Located ip (i :: code))
    (one : ∀ m init, Shows s ⟨ip + 1, L, S, out⟩ m →
      Raises (Machine.step s.setup init i.op) m issue out) :
    Ends s ⟨ip, L, S, out⟩ issue out := by
  have inside := at_.le_size
  rw [show Fragment.size (i :: code) = i.size + Fragment.size code from rfl, Instr.size] at inside
  refine ⟨1, by simp only; omega, fun m steps count h => ?_⟩
  obtain ⟨init, count', run⟩ := execute_succ h steps count
  obtain ⟨m', fetched, h'⟩ := fetch_ok at_ h
  obtain ⟨f, m', result, rest⟩ := Raises.of_ok (f := Machine.step s.setup init) fetched (one m' init h')
  refine .inr ⟨f, m', ?_, rest⟩
  rw [Nat.add_comm, run]
  exact bind_of_error result

end StackML.Machine
