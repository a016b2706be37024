import StackML.Proofs.Machine.Instructions
import StackML.Proofs.Text

/-!
Entering a method and leaving it: its locals begin as empty words, and its boxed result stands where
they began. A module that was loaded by itself is run by entering its main method.
-/

namespace StackML

/-! ### Descriptors -/

namespace Descriptor

/-- A name that can stand in a descriptor, where a semicolon ends it. -/
def Nameable (name : String) : Prop := (0x3B : UInt8) ∉ (name : Text).bytes

instance (name : String) : Decidable (Nameable name) := inferInstanceAs (Decidable (¬_))

theorem afterSemicolon_append {front : List UInt8} (rest : List UInt8) (none : 0x3B ∉ front) :
    afterSemicolon (front ++ 0x3B :: rest) = some rest := by
  induction front with
  | nil => rfl
  | cons b front ih =>
    rw [List.mem_cons, not_or] at none
    rw [List.cons_append, afterSemicolon, if_neg (by simpa using Ne.symm none.1), ih none.2]

theorem result_item {r : Rep} {name : String} (nameable : Nameable name) :
    result (item r name : Text).bytes = .ok r := by
  cases r with
  | ref =>
    have bytes : (item .ref name : Text).bytes = 0x4C :: ((name : Text).bytes ++ [0x3B]) := by
      rw [item, Text.bytes_ofString_append, Text.bytes_ofString_append]
      rfl
    rw [bytes]
    simp only [result, afterSemicolon_append [] nameable]
    rfl
  | int | bool | double | void => rfl

theorem parse_write {t : Ty} {d : String} (nameable : Nameable (refName t))
    (written : write [] t = .ok d) : ∃ r, Rep.ofResult t = .ok r ∧ parse d = .ok ⟨[], r⟩ := by
  unfold write ofResult at written
  cases found : Rep.ofResult t with
  | error e =>
    rw [found] at written
    cases written
  | ok r =>
    rw [found] at written
    obtain rfl : "()" ++ item r (refName t) = d := Except.ok.inj written
    have bytes : (("()" ++ item r (refName t) : String) : Text).bytes =
        0x28 :: 0x29 :: (item r (refName t) : Text).bytes := by
      rw [Text.bytes_ofString_append]
      rfl
    refine ⟨r, rfl, ?_⟩
    unfold parse
    rw [bytes]
    simp only [items, result_item nameable]
    rfl

end Descriptor

namespace Machine

/-! ### The stack from outside -/

variable {m : Machine} {w : Word}

theorem pushEmpty_ok {n : Nat} (room : m.height ≤ m.stack.size) (low : m.height + n ≤ maxStack) :
    ∃ stack, pushEmpty n m = .ok () { m with stack, height := m.height + n } ∧
      m.height + n ≤ stack.size ∧
      stack.toList.take (m.height + n) = m.stack.toList.take m.height ++ List.replicate n ({} : Word) := by
  induction n generalizing m with
  | zero => exact ⟨m.stack, rfl, room, by simp⟩
  | succ n ih =>
    obtain ⟨stack, run, size, words⟩ := push_ok (w := {}) room (.inr (by omega))
    obtain ⟨stack', run', size', words'⟩ :=
      ih (m := { m with stack, height := m.height + 1 }) size (by simp only; omega)
    have total : m.height + 1 + n = m.height + (n + 1) := by omega
    simp only [total] at run' size' words'
    refine ⟨stack', (bind_of_ok run).trans run', size', ?_⟩
    rw [words', words, List.append_assoc, List.replicate_succ]
    rfl

/-! ### Results -/

variable {s : Site} {ip : Nat} {L S : List Word} {out : List Text} {r : Rep} {v : Value}

theorem popWords_ok {ws : List Word} (acc : List Word) (h : Shows s ⟨ip, L, ws ++ S, out⟩ m) :
    ∃ m', popWords ws.length acc m = .ok (ws.reverse ++ acc) m' ∧ Shows s ⟨ip, L, S, out⟩ m' := by
  induction ws generalizing m acc with
  | nil => exact ⟨m, rfl, h⟩
  | cons w ws ih =>
    obtain ⟨m₁, first, h₁⟩ := pop_ok h
    obtain ⟨m', rest, h'⟩ := ih (w :: acc) h₁
    refine ⟨m', (bind_of_ok first).trans ?_, h'⟩
    rw [rest, List.reverse_cons, List.append_assoc]
    rfl

theorem box_words (fits : Fits r v) : box r (words r v).reverse = v := by
  cases fits <;> simp [box, words]

theorem leave_ok (fits : Fits r v) (boxed : s.frame.boxResult = true)
    (low : s.below.length < maxStack) (h : Shows s ⟨ip, L, words r v ++ S, out⟩ m) :
    ∃ m' m'', leave r m = .ok () m' ∧ m'.depth = s.world.depth - 1 ∧ popValue m' = .ok v m'' ∧
      m''.output = out := by
  obtain ⟨m₁, popped, h₁⟩ := popWords_ok [] h
  have height := h₁.height_eq
  have room := h₁.room
  have base := s.based
  rw [length_words fits, List.append_nil] at popped
  let left : Machine :=
    { m₁ with frames := s.callers, depth := m₁.depth - 1, height := s.frame.base }
  have below : left.height ≤ left.stack.size := by
    change s.frame.base ≤ m₁.stack.size
    omega
  obtain ⟨stack, pushed, size, words⟩ :=
    push_ok (m := left) (w := .ofValue v) below (.inr (by change s.frame.base < _; omega))
  obtain ⟨run, -⟩ := pop_eq (m := { left with stack, height := left.height + 1 }) rfl size words
  refine ⟨_, _, ?_, ?_, bind_of_ok run, ?_⟩
  · refine (bind_of_ok popped).trans ((bind_of_ok (get_eq m₁)).trans ?_)
    rw [h₁.frames_eq]
    refine Eq.trans (b := pushValue (box r (Machine.words r v).reverse) left) ?_ ?_
    · simp only [boxed, if_true]
      rfl
    · rw [box_words fits]
      exact pushed
  · change m₁.depth - 1 = _
    rw [h₁.same]
  · change m₁.output = _
    rw [h₁.same]

theorem step_return {f : Frame} {rest : List Frame} (setup : Setup) (init : Code → Exec Unit)
    (frames : m.frames = f :: rest) (result : f.code.signature.result = r) :
    step setup init (Codegen.returnOp r) m = leave r m := by
  cases r with
  | int | bool =>
    refine (bind_of_ok (get_eq m)).trans ?_
    rw [frames]
    simp only [result]
  | double | ref | void => rfl

theorem execute_return {line : Int} (fits : Fits r v) (boxed : s.frame.boxResult = true)
    (low : s.below.length < maxStack) (last : s.world.depth = s.stop + 1)
    (result : s.frame.code.signature.result = r)
    (at_ : s.Located ip [⟨Codegen.returnOp r, .none, line⟩])
    (h : Shows s ⟨ip, L, words r v ++ S, out⟩ m) (steps count : Nat) :
    ∃ m' m'', execute s.setup (steps + 2) s.stop count m = .ok () m' ∧ popValue m' = .ok v m'' ∧
      m''.output = out := by
  obtain ⟨init, count', run⟩ := execute_succ h (steps + 1) count
  obtain ⟨m₁, fetched, h₁⟩ := fetch_ok at_ h
  obtain ⟨m', m'', left, depth, popped, printed⟩ := leave_ok fits boxed low h₁
  have step := (step_return s.setup init h₁.frames_eq result).trans left
  refine ⟨m', m'', ?_, popped, printed⟩
  rw [run]
  refine (bind_of_ok ((bind_of_ok fetched).trans step)).trans ?_
  rw [execute]
  refine (bind_of_ok (get_eq m')).trans ?_
  rw [if_pos (by omega)]
  rfl

/-! ### Modules -/

variable {setup : Setup} {code : Code} {n : Nat}

theorem missingLocals_eq (small : n ≤ 65536) : missingLocals 0 0 (.ofNat n) = n := by
  unfold missingLocals
  rw [show Int64.ofNat 0 = 0 from rfl, Int64.zero_add, Int64.toInt_ofNat_of_lt (by omega)]
  simp

theorem enter_ok (code : Code) (allowed : 0 < setup.maxFrames)
    (none : code.signature.params = []) (locals : code.method.maxLocals = .ofNat n) (small : n ≤ 65536)
    (empty : m.height = 0) (idle : m.depth = 0) :
    ∃ stack, enter setup code true m = .ok ()
        { m with stack, height := n, frames := { code, base := 0, boxResult := true } :: m.frames
                 depth := m.depth + 1 } ∧
      n ≤ stack.size ∧ stack.toList.take n = List.replicate n ({} : Word) := by
  obtain ⟨stack, run, size, words⟩ := pushEmpty_ok (m := m) (n := n) (by omega) (by
    rw [empty, maxStack]
    omega)
  rw [empty, Nat.zero_add] at run size words
  refine ⟨stack, ?_, size, by simpa using words⟩
  have words : code.signature.words = 0 := by rw [Descriptor.Signature.words, none]; rfl
  have fill : pushEmpty (missingLocals 0 0 (.ofNat n)) m = .ok () { m with stack, height := n } := by
    rw [missingLocals_eq small]
    exact run
  unfold enter
  refine (bind_of_ok (get_eq m)).trans ?_
  rw [if_neg (by simpa [idle] using allowed), words, empty, if_neg (Nat.lt_irrefl 0), locals]
  exact bind_of_ok fill

def holding (inst : Instance) : Machine where
  instances := #[inst]
  modules := Std.TreeMap.insert {} inst.name 0

theorem load_eq {module : Artifact} {holders : List Artifact} (kind : module.kind = .module)
    (each : ∀ h ∈ holders, h.kind = .holder) :
    load (module :: holders) {} = .ok () (holding (.ofArtifacts module holders)) := by
  have modules : (module :: holders).filter (·.kind = .module) = [module] := by
    rw [List.filter_cons_of_pos (by simpa using kind), List.filter_eq_nil_iff.2]
    intro h member
    rw [each h member]
    decide
  have others : (module :: holders).filter (·.kind = .holder) = holders := by
    rw [List.filter_cons_of_neg (by rw [kind]; decide), List.filter_eq_self.2]
    intro h member
    simpa using each h member
  unfold load
  rw [modules, others]
  rfl

variable {inst : Instance} {main : LinkedMethod} {signature : Descriptor.Signature}

theorem moduleOf_holding (init : Code → Exec Unit) (bare : inst.methods.get? Names.initializer = none)
    (new : inst.initialized = false) :
    moduleOf setup init inst.name (holding inst) = .ok 0 (holding { inst with initialized := true }) := by
  have known : (holding inst).modules.get? inst.name = some 0 := by
    simp [holding, Std.TreeMap.get?_eq_getElem?]
  have here : instanceAt 0 (holding inst) = .ok inst (holding inst) := rfl
  have first : initialized init 0 (holding inst) =
      .ok () (holding { inst with initialized := true }) := by
    unfold initialized
    refine (bind_of_ok here).trans ?_
    rw [new, bare]
    rfl
  unfold moduleOf
  refine (bind_of_ok (get_eq _)).trans ?_
  rw [known]
  refine (bind_of_ok (get_eq _)).trans ?_
  simp only [known]
  exact bind_of_ok first

theorem guarded_eq {α : Type} {x y : Exec α} {m m' : Machine} (same : x m = y m')
    (height : m.height = m'.height) (frames : m.frames = m'.frames) (depth : m.depth = m'.depth) :
    guarded x m = guarded y m' := by
  unfold guarded
  rw [same, height, frames, depth]

theorem Raises.guarded {α : Type} {x : Exec α} {m : Machine} {issue : FaultIssue} {out : List Text}
    (h : Raises x m issue out) : Raises (Machine.guarded x) m issue out := by
  obtain ⟨f, m', run, same, printed⟩ := h
  refine ⟨f, { m' with height := m.height, frames := m.frames, depth := m.depth }, ?_, same, printed⟩
  unfold Machine.guarded
  rw [run]

theorem get?_entry {module : Artifact} {method : Method} {holders : List Artifact}
    (only : module.methods = [method]) (named : method.name = Names.entry) :
    (Instance.ofArtifacts module holders).methods.get? Names.entry =
      some ⟨method, Descriptor.parse method.descriptor⟩ := by
  unfold Instance.ofArtifacts
  rw [only, ← named]
  exact Std.TreeMap.getElem?_insert_self

theorem get?_initializer {module : Artifact} {method : Method} {holders : List Artifact}
    (only : module.methods = [method]) (named : method.name = Names.entry) :
    (Instance.ofArtifacts module holders).methods.get? Names.initializer = none := by
  have apart : compare (Names.entry : Text) Names.initializer ≠ .eq := by decide
  unfold Instance.ofArtifacts
  rw [only]
  exact (Std.TreeMap.getElem?_insert (t := {})).trans (if_neg (named ▸ apart))

theorem runModuleWithin_holding (steps : Nat) (bare : inst.methods.get? Names.initializer = none)
    (new : inst.initialized = false) (entry : inst.methods.get? Names.entry = some main)
    (valid : main.signature = .ok signature) :
    runModuleWithin steps setup inst.name (holding inst) =
      guarded (invoke setup steps ⟨0, inst.name, main.method, signature⟩ [])
        (holding { inst with initialized := true }) := by
  have here : instanceAt 0 (holding { inst with initialized := true }) =
      .ok { inst with initialized := true } (holding { inst with initialized := true }) := rfl
  have code : codeOf 0 { inst with initialized := true } main
      (holding { inst with initialized := true }) =
      .ok ⟨0, inst.name, main.method, signature⟩ (holding { inst with initialized := true }) := by
    unfold codeOf
    rw [valid]
    rfl
  refine guarded_eq ?_ rfl rfl rfl
  refine (bind_of_ok (moduleOf_holding _ bare new)).trans ((bind_of_ok here).trans ?_)
  simp only [entry]
  exact bind_of_ok code

theorem runModuleWithin_unreadable (steps : Nat) {error : Descriptor.Error}
    (bare : inst.methods.get? Names.initializer = none) (new : inst.initialized = false)
    (entry : inst.methods.get? Names.entry = some main) (invalid : main.signature = .error error) :
    Raises (runModuleWithin steps setup inst.name) (holding inst)
      (.badMethod inst.name main.method.name error) [] := by
  have here : instanceAt 0 (holding { inst with initialized := true }) =
      .ok { inst with initialized := true } (holding { inst with initialized := true }) := rfl
  have stopped : Raises (codeOf 0 { inst with initialized := true } main)
      (holding { inst with initialized := true })
      (.badMethod inst.name main.method.name error) [] := by
    unfold codeOf
    rw [invalid]
    exact raises_raise _
  refine Raises.guarded (.of_ok (moduleOf_holding _ bare new) (.of_ok here ?_))
  simp only [entry]
  exact stopped.first

def mainSite (setup : Setup) (inst : Instance) (method : Method) (signature : Descriptor.Signature)
    (code : Fragment) (assembled : method.code = (code.assemble.map (·.1)).toArray)
    (near : ∀ i ∈ code, i.isFar = false) : Site where
  setup := setup
  world := { holding inst with depth := 1 }
  frame := { code := ⟨0, inst.name, method, signature⟩, base := 0, boxResult := true }
  callers := []
  below := []
  code := code
  stop := 0
  based := rfl
  assembled := assembled
  near := near
  deep := Nat.one_pos
  running := rfl

theorem invoke_main {method : Method} {code : Fragment} (allowed : 0 < setup.maxFrames)
    (none : signature.params = []) (locals : method.maxLocals = .ofNat n) (small : n ≤ 65536)
    (assembled : method.code = (code.assemble.map (·.1)).toArray)
    (near : ∀ i ∈ code, i.isFar = false) :
    ∃ m, Shows (mainSite setup inst method signature code assembled near)
        ⟨0, List.replicate n {}, [], []⟩ m ∧
      ∀ steps, invoke setup steps ⟨0, inst.name, method, signature⟩ [] (holding inst) =
        (execute setup steps 0 0 >>= fun _ => popValue) m := by
  obtain ⟨stack, entered, size, words⟩ := enter_ok (m := holding inst)
    ⟨0, inst.name, method, signature⟩ allowed none locals small rfl rfl
  have start : stack.toList.take n = [] ++ List.replicate n ({} : Word) ++ [].reverse := by
    simpa using words
  let frame : Frame := { code := ⟨0, inst.name, method, signature⟩, base := 0, boxResult := true }
  refine ⟨{ holding inst with stack, height := n, frames := [frame], depth := 1 },
    ⟨rfl, size, start⟩, fun steps => ?_⟩
  have args : pushArgs [] [] (holding inst) = .ok () (holding inst) := rfl
  unfold invoke invokeBy
  rw [none]
  exact (bind_of_ok (get_eq (holding inst))).trans ((bind_of_ok args).trans (bind_of_ok entered))

end Machine
end StackML
