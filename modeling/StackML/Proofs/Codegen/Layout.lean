import Mathlib
import StackML.Proofs.Codegen.Emission
import StackML.Proofs.Machine.Layout

/-!
The layout of code under construction. A stretch of code is laid out if the operands of its
instructions are in order and its jumps land between its instructions or a known distance behind its
end, so that stretches are put together without looking into them again. Laid out code that ends with a
return is the code of a well-formed method.
-/

namespace StackML

open Codegen (size_cons size_nil size_single)

/-! ### Operands -/

def Opcode.Refers (op : Opcode) (constants : Array Constant) (index : Nat) : Prop :=
  index < 65536 ∧ ∃ k, constants[index]? = some k ∧ op.constantKind? = some k.kind

inductive Instr.Fits (constants : Array Constant) (room : Nat) : Instr → Prop where
  | none {op line} : op.operands = .none → Fits constants room ⟨op, .none, line⟩
  | byte {op line value} : op.operands = .byte → Fits constants room ⟨op, .byte value, line⟩
  | count {op line value} : op.operands = .count → Fits constants room ⟨op, .word value, line⟩
  | jump {op line distance} : op.operands = .jump → Fits constants room ⟨op, .jump distance, line⟩
  | slot {op line} {slot : Int} : op.operands = .slot → 0 ≤ slot → slot + op.slotWords ≤ room →
      Fits constants room ⟨op, .word slot, line⟩
  | constant {op line} {index : Nat} : op.operands = .constant → op.Refers constants index →
      Fits constants room ⟨op, .word index, line⟩
  | closure {op line index captures} : op.operands = .closure → op.Refers constants index →
      Fits constants room ⟨op, .closure index captures, line⟩

def Extends (constants constants' : Array Constant) : Prop :=
  ∀ (i : Nat) (k : Constant), constants[i]? = some k → constants'[i]? = some k

theorem Extends.refl (constants : Array Constant) : Extends constants constants := fun _ _ => id

theorem Extends.trans {a b c : Array Constant} (first : Extends a b) (second : Extends b c) : Extends a c :=
  fun i k found => second i k (first i k found)

variable {constants constants' : Array Constant} {room room' : Nat} {i : Instr}

theorem Opcode.Refers.mono {op : Opcode} {index : Nat} (h : op.Refers constants index)
    (keeps : Extends constants constants') : op.Refers constants' index := by
  obtain ⟨small, k, found, kind⟩ := h
  exact ⟨small, k, keeps index k found, kind⟩

theorem Instr.Fits.mono (h : i.Fits constants room) (keeps : Extends constants constants')
    (more : room ≤ room') : i.Fits constants' room' := by
  cases h with
  | none kind => exact .none kind
  | byte kind => exact .byte kind
  | count kind => exact .count kind
  | jump kind => exact .jump kind
  | slot kind positive below => exact .slot kind positive (below.trans (Int.ofNat_le.2 more))
  | constant kind refers => exact .constant kind (refers.mono keeps)
  | closure kind refers => exact .closure kind (refers.mono keeps)

theorem Instr.Fits.width (h : i.Fits constants room) : i.op.width = i.size := by
  rw [Opcode.width]
  cases h with
  | none kind | byte kind | count kind | jump kind | slot kind | constant kind | closure kind =>
    rw [kind]
    rfl

/-! ### Jumps -/

theorem Instr.isFar_of_plain (plain : ∀ d, i.operand ≠ .jump d) : i.isFar = false := by
  unfold Instr.isFar
  split
  · next d jump => exact absurd jump (plain d)
  · rfl

namespace Fragment

/-- The distance leads from the start of the code to one of its instructions, or to its end. -/
def Boundary (code : Fragment) (distance : Nat) : Prop :=
  ∃ front back, code = front ++ back ∧ size front = distance

def Lands : Fragment → (beyond : Nat) → Prop
  | [], _ => True
  | i :: rest, beyond =>
    (∀ d, i.operand = .jump d → Boundary rest d ∨ d = size rest + beyond) ∧ Lands rest beyond

def Near (code : Fragment) : Prop := ∀ i ∈ code, i.isFar = false

abbrev Closed (code : Fragment) : Prop := Lands code 0

variable {a b code : Fragment} {beyond d : Nat}

theorem boundary_size (code : Fragment) : Boundary code (size code) :=
  ⟨code, [], (List.append_nil _).symm, rfl⟩

theorem Boundary.append (h : Boundary a d) (b : Fragment) : Boundary (a ++ b) d := by
  obtain ⟨front, back, rfl, rfl⟩ := h
  exact ⟨front, back ++ b, List.append_assoc _ _ _, rfl⟩

theorem Lands.append (first : Lands a (size b + beyond)) (second : Lands b beyond) :
    Lands (a ++ b) beyond := by
  induction a with
  | nil => exact second
  | cons i a ih =>
    refine ⟨fun d jump => ?_, ih first.2⟩
    change Boundary (a ++ b) d ∨ d = size (a ++ b) + beyond
    rw [size_append, Nat.add_assoc]
    exact (first.1 d jump).imp_left fun inside => inside.append b

theorem Closed.lands (h : Closed code) (beyond : Nat) : Lands code beyond := by
  induction code with
  | nil => trivial
  | cons i code ih =>
    refine ⟨fun d jump => ?_, ih h.2⟩
    rcases h.1 d jump with inside | rfl
    · exact .inl inside
    · exact .inl (boundary_size code)

theorem Closed.append (first : Closed a) (second : Closed b) : Closed (a ++ b) :=
  (first.lands _).append second

theorem closed_single (plain : ∀ d, i.operand ≠ .jump d) : Closed [i] :=
  ⟨fun d jump => absurd jump (plain d), trivial⟩

theorem Closed.jump (h : Closed code) (op : Opcode) (line : Int) (inside : Boundary code d) :
    Closed (⟨op, .jump d, line⟩ :: code) :=
  ⟨fun _ same => .inl ((Operand.jump.inj same) ▸ inside), h⟩

theorem closed_branch {yes no : Fragment} (test pass : Opcode) (line line' : Int) (hyes : Closed yes)
    (hno : Closed no) :
    Closed (⟨test, .jump (size (yes ++ [⟨pass, .jump (size no), line'⟩])), line⟩ ::
      (yes ++ [⟨pass, .jump (size no), line'⟩]) ++ no) := by
  have whole : Closed ((yes ++ [⟨pass, .jump (size no), line'⟩]) ++ no) := by
    rw [List.append_assoc]
    exact hyes.append (hno.jump pass line' (boundary_size no))
  exact whole.jump test line ((boundary_size _).append no)

/-! ### Bytes -/

def bytesOf (code : Fragment) : List UInt8 := code.flatMap Instr.bytes

theorem bytesOf_append (a b : Fragment) : bytesOf (a ++ b) = bytesOf a ++ bytesOf b :=
  List.flatMap_append

theorem length_bytesOf (code : Fragment) : (bytesOf code).length = code.size := by
  induction code with
  | nil => rfl
  | cons i code ih =>
    rw [bytesOf, List.flatMap_cons, List.length_append, Instr.length_bytes, ← bytesOf, ih]
    rfl

theorem bytesOf_eq (code : Fragment) : code.assemble.map (·.1) = bytesOf code := by
  simp [assemble, bytesOf, List.map_flatMap, Function.comp_def]

theorem getElem?_bytesOf (front back : Fragment) (i : Instr) {j : Nat} (inside : j < i.size) :
    (bytesOf (front ++ i :: back)).toArray[front.size + j]? = i.bytes[j]? := by
  rw [List.getElem?_toArray, bytesOf_append, List.getElem?_append_right (by rw [length_bytesOf]; omega),
    length_bytesOf, Nat.add_sub_cancel_left, bytesOf, List.flatMap_cons,
    List.getElem?_append_left (by rw [Instr.length_bytes]; exact inside)]

theorem opcodeAt_bytesOf (front back : Fragment) (i : Instr) (width : i.op.width = i.size) :
    opcodeAt (bytesOf (front ++ i :: back)).toArray front.size = some i.op := by
  have byte := getElem?_bytesOf front back i (j := 0) (Nat.succ_pos _)
  have first : i.bytes[0]? = some i.op.code := rfl
  have size : front.size + i.op.width ≤ (bytesOf (front ++ i :: back)).toArray.size := by
    rw [List.size_toArray, length_bytesOf, size_append, size_cons, width]
    omega
  rw [Nat.add_zero, first] at byte
  simp only [opcodeAt, byte, Option.bind_some, Opcode.ofCode?_code, Option.filter_some, size,
    decide_true, if_true]

theorem byteAt_bytesOf (front back : Fragment) (i : Instr) {j : Nat} (inside : j < i.size) :
    Disassembly.byteAt (bytesOf (front ++ i :: back)).toArray (front.size + j) =
      ((i.bytes[j]?).getD 0).toNat := by
  rw [Disassembly.byteAt, Array.getD_eq_getD_getElem?, getElem?_bytesOf front back i inside]

theorem twoBytes_value {value : Int} (positive : 0 ≤ value) :
    ∃ high low : UInt8, Operand.twoBytes value = [high, low] ∧
      high.toNat * 256 + low.toNat = value.toNat % 65536 := by
  obtain ⟨n, rfl⟩ := Int.eq_ofNat_of_zero_le positive
  obtain ⟨high, low, two, same⟩ := Machine.twoBytes_eq (Nat.mod_lt n (by decide : 0 < 65536))
  refine ⟨high, low, ?_, same⟩
  rw [← two, Operand.twoBytes, Operand.twoBytes]
  have high : (n : Int) / 256 % 256 = ((n % 65536 : Nat) : Int) / 256 % 256 := by omega
  have low : (n : Int) % 256 = ((n % 65536 : Nat) : Int) % 256 := by omega
  rw [high, low]

theorem wordAt_bytesOf (front back : Fragment) (i : Instr) {value : Int} {rest : List UInt8}
    (bytes : i.operand.bytes = Operand.twoBytes value ++ rest) (positive : 0 ≤ value) :
    Disassembly.wordAt (bytesOf (front ++ i :: back)).toArray (front.size + 1) =
      value.toNat % 65536 := by
  obtain ⟨high, low, two, same⟩ := twoBytes_value positive
  have whole : i.bytes = i.op.code :: high :: low :: rest := by simp [Instr.bytes, bytes, two]
  have length := Instr.length_bytes i
  rw [whole] at length
  simp only [List.length_cons] at length
  rw [Disassembly.wordAt, Nat.add_assoc, byteAt_bytesOf front back i (by omega),
    byteAt_bytesOf front back i (by omega), whole]
  exact same

theorem split_of_starts (width : ∀ i ∈ code, i.op.width = i.size) {offset : Nat}
    (start : Starts (bytesOf code).toArray offset) :
    ∃ front back, code = front ++ back ∧ offset = size front := by
  induction start with
  | first => exact ⟨[], code, rfl, rfl⟩
  | next _ decoded ih =>
    obtain ⟨front, back, rfl, rfl⟩ := ih
    cases back with
    | nil =>
      have positive := Opcode.width_pos (by assumption)
      have fits := opcodeAt_le decoded
      rw [List.append_nil, List.size_toArray, length_bytesOf] at fits
      omega
    | cons i back =>
      have same := width i (by simp)
      have here := opcodeAt_bytesOf front back i same
      obtain rfl := Option.some.inj (here.symm.trans decoded)
      exact ⟨front ++ [i], back, by simp, by rw [size_append, size_single, same]⟩

theorem starts_of_split (width : ∀ i ∈ code, i.op.width = i.size) {front back : Fragment}
    (split : code = front ++ back) : Starts (bytesOf code).toArray (size front) := by
  induction front using List.reverseRecOn generalizing back with
  | nil => exact .first
  | append_singleton front i ih =>
    rw [List.append_assoc] at split
    have start := ih split
    have same := width i (by simp [split])
    have here := opcodeAt_bytesOf front back i same
    rw [size_append, size_single, ← same]
    refine start.next ?_
    rw [split]
    exact here

theorem Lands.inside {front back : Fragment} (h : Lands (front ++ i :: back) beyond)
    (jump : i.operand = .jump d) : Boundary back d ∨ d = size back + beyond := by
  induction front with
  | nil => exact h.1 d jump
  | cons _ front ih => exact ih h.2

theorem Closed.boundary {front back : Fragment} (h : Closed (front ++ i :: back))
    (jump : i.operand = .jump d) : Boundary back d := by
  rcases Lands.inside h jump with inside | rfl
  · exact inside
  · exact boundary_size back

theorem Boundary.le (h : Boundary code d) : d ≤ size code := by
  obtain ⟨front, back, rfl, rfl⟩ := h
  rw [size_append]
  exact Nat.le_add_right _ _

end Fragment

open Fragment

theorem Instr.Fits.of_jump (h : i.Fits constants room) (jump : i.op.operands = .jump) :
    ∃ distance, i.operand = .jump distance := by
  cases h with
  | jump => exact ⟨_, rfl⟩
  | none kind | byte kind | count kind | slot kind | constant kind | closure kind =>
    cases kind.symm.trans jump

theorem Instr.Fits.of_slot (h : i.Fits constants room) (slot : i.op.operands = .slot) :
    ∃ value : Int, i.operand = .word value ∧ 0 ≤ value ∧ value + i.op.slotWords ≤ room := by
  cases h with
  | slot _ positive below => exact ⟨_, rfl, positive, below⟩
  | none kind | byte kind | count kind | jump kind | constant kind | closure kind =>
    cases kind.symm.trans slot

theorem Instr.Fits.of_constant (h : i.Fits constants room)
    (kind : i.op.operands = .constant ∨ i.op.operands = .closure) :
    ∃ index rest, i.operand.bytes = Operand.twoBytes (index : Nat) ++ rest ∧
      i.op.Refers constants index := by
  cases h with
  | constant _ refers => exact ⟨_, [], (List.append_nil _).symm, refers⟩
  | closure _ refers => exact ⟨_, _, rfl, refers⟩
  | none other | byte other | count other | jump other | slot other =>
    rcases kind with kind | kind <;> cases other.symm.trans kind

theorem not_isReturn_of_jump {op : Opcode} (jump : op.operands = .jump) : ¬ op.isReturn = true := by
  cases op <;> first | exact Bool.false_ne_true | cases jump

theorem Instr.Fits.not_jump (h : i.Fits constants room) (returns : i.op.isReturn = true) (distance : Nat) :
    i.operand ≠ .jump distance := fun target => by
  cases h with
  | jump kind => exact not_isReturn_of_jump kind returns
  | _ => cases target

theorem Fragment.split_last {front back body : Fragment} {last : Instr}
    (same : front ++ i :: back = body ++ [last]) :
    (front = body ∧ i = last) ∨ ∃ between, body = front ++ i :: between ∧ back = between ++ [last] := by
  rcases List.eq_nil_or_concat back with rfl | ⟨between, j, rfl⟩
  · obtain ⟨front, ends⟩ := List.append_inj' same rfl
    exact .inl ⟨front, List.singleton_inj.1 ends⟩
  · rw [List.concat_eq_append, ← List.cons_append, ← List.append_assoc] at same
    obtain ⟨rfl, last⟩ := List.append_inj' same rfl
    exact .inr ⟨between, rfl, by rw [List.concat_eq_append, List.singleton_inj.1 last]⟩

/-! ### Methods -/

namespace Method

variable {m : Method} {code : Fragment}

theorem has_of_starts (bytes : m.code = (bytesOf code).toArray) (width : ∀ i ∈ code, i.op.width = i.size)
    {offset : Nat} (start : Starts m.code offset) (below : offset < m.code.size) :
    ∃ front i back, code = front ++ i :: back ∧ offset = Fragment.size front ∧ m.Has offset i.op := by
  obtain ⟨front, back, same, rfl⟩ := split_of_starts width (bytes ▸ start)
  cases back with
  | nil =>
    rw [bytes, List.size_toArray, length_bytesOf, same, List.append_nil] at below
    exact absurd below (Nat.lt_irrefl _)
  | cons i back =>
    refine ⟨front, i, back, same, rfl, start, ?_⟩
    rw [bytes, same]
    exact opcodeAt_bytesOf front back i (width i (by simp [same]))

theorem Has.split (bytes : m.code = (bytesOf code).toArray) (width : ∀ i ∈ code, i.op.width = i.size)
    {offset : Nat} {op : Opcode} (has : m.Has offset op) :
    ∃ front i back, code = front ++ i :: back ∧ offset = Fragment.size front ∧ op = i.op := by
  have fits := opcodeAt_le has.here
  have wide := op.width_pos
  obtain ⟨front, i, back, same, at_, has'⟩ := has_of_starts bytes width has.start (by omega)
  exact ⟨front, i, back, same, at_, Option.some.inj (has.here.symm.trans has'.here)⟩

theorem wordAt_jump {front back : Fragment} {d : Nat} (bytes : m.code = (bytesOf (front ++ i :: back)).toArray)
    (target : i.operand = .jump d) (near : i.isFar = false) :
    Disassembly.wordAt m.code (Fragment.size front + 1) = d := by
  have below : d ≤ Operand.maxJump := by
    unfold Instr.isFar at near
    rw [target] at near
    exact Nat.not_lt.1 (of_decide_eq_false near)
  have operand : i.operand.bytes = Operand.twoBytes (d : Nat) ++ [] := by
    rw [target, List.append_nil, Operand.bytes, show Nat.min d Operand.maxJump = d from Nat.min_eq_left below]
  have word := wordAt_bytesOf front back i operand (Int.natCast_nonneg _)
  rw [Operand.maxJump] at below
  rwa [← bytes, Int.toNat_natCast, Nat.mod_eq_of_lt (by omega)] at word

theorem jump_lands {front between : Fragment} {last : Instr} {d : Nat}
    (bytes : m.code = (bytesOf (front ++ i :: between ++ [last])).toArray)
    (width : ∀ j ∈ front ++ i :: between ++ [last], j.op.width = j.size)
    (closed : Closed (front ++ i :: between)) (target : i.operand = .jump d) (near : i.isFar = false) :
    let there := Fragment.size front + i.op.width +
      Disassembly.wordAt m.code (Fragment.size front + 1)
    Starts m.code there ∧ there < m.code.size := by
  intro there
  obtain ⟨c, e, rfl, rfl⟩ := closed.boundary target
  have total : m.code.size = Fragment.size front + i.size + Fragment.size c + Fragment.size e +
      last.size := by
    rw [bytes, List.size_toArray, length_bytesOf]
    simp only [size_append, size_cons, size_nil]
    omega
  have same : front ++ i :: (c ++ e) ++ [last] = front ++ i :: (c ++ e ++ [last]) := by simp
  have word := wordAt_jump (same ▸ bytes) target near
  have start := starts_of_split width (show front ++ i :: (c ++ e) ++ [last] =
    (front ++ i :: c) ++ (e ++ [last]) by simp)
  rw [← bytes, size_append, size_cons, ← Nat.add_assoc] at start
  have wide := width i (by simp)
  have positive : 0 < last.size := Nat.succ_pos _
  simp only [there, word, wide]
  exact ⟨start, by omega⟩

theorem near_of_short {body : Fragment} {last : Instr} (fits : ∀ i ∈ body ++ [last], i.Fits constants room)
    (closed : Closed body) (returns : last.op.isReturn = true)
    (short : Fragment.size (body ++ [last]) ≤ 65535) : Near (body ++ [last]) := by
  intro i inside
  unfold Instr.isFar
  split
  · next d target =>
    refine decide_eq_false (Nat.not_lt.2 ?_)
    obtain ⟨front, back, same⟩ := List.append_of_mem inside
    rcases split_last same.symm with ⟨-, rfl⟩ | ⟨between, rfl, rfl⟩
    · exact absurd target ((fits i inside).not_jump returns d)
    · have below := (closed.boundary target).le
      simp only [size_append, size_cons] at short
      unfold Operand.maxJump
      omega
  · rfl

theorem wellFormed_of_code {body : Fragment} {last : Instr}
    (bytes : m.code = (bytesOf (body ++ [last])).toArray) (lines : m.lines.size = m.code.size)
    (locals : m.descriptor.length < Descriptor.limit → m.maxLocals.toInt = room)
    (fits : ∀ i ∈ body ++ [last], i.Fits constants room)
    (closed : Closed body) (returns : last.op.isReturn = true) (near : Near (body ++ [last])) :
    m.WellFormed constants := by
  have width : ∀ i ∈ body ++ [last], i.op.width = i.size := fun i inside => (fits i inside).width
  have size : m.code.size = Fragment.size (body ++ [last]) := by
    rw [bytes, List.size_toArray, length_bytesOf]
  refine ⟨?_, ?_, ?_, ?_, ?_, ?_, lines, ?_⟩
  · rw [size, size_append, size_single]
    exact Nat.add_pos_right _ (Nat.succ_pos _)
  · have whole := starts_of_split width (List.append_nil (body ++ [last])).symm
    rwa [← bytes, ← size] at whole
  · intro offset start below
    obtain ⟨_, i, _, _, _, has⟩ := has_of_starts bytes width start below
    exact ⟨i.op, has⟩
  · rintro offset op has jump
    obtain ⟨front, i, back, same, rfl, rfl⟩ := has.split bytes width
    obtain ⟨d, target⟩ := (fits i (by simp [same])).of_jump jump
    rcases split_last same.symm with ⟨-, rfl⟩ | ⟨between, rfl, rfl⟩
    · exact absurd returns (not_isReturn_of_jump jump)
    · exact jump_lands bytes width closed target (near i (by simp))
  · rintro offset op has kind
    obtain ⟨front, i, back, same, rfl, rfl⟩ := has.split bytes width
    obtain ⟨index, rest, operand, small, k, found, kind⟩ := (fits i (by simp [same])).of_constant kind
    refine ⟨k, ?_, kind⟩
    rw [bytes, same, wordAt_bytesOf front back i operand (Int.natCast_nonneg _), Int.toNat_natCast,
      Nat.mod_eq_of_lt small]
    exact found
  · rintro bounded offset op has slot
    obtain ⟨front, i, back, same, rfl, rfl⟩ := has.split bytes width
    obtain ⟨value, word, positive, below⟩ := (fits i (by simp [same])).of_slot slot
    have operand : i.operand.bytes = Operand.twoBytes value ++ [] := by
      rw [word, List.append_nil]
      rfl
    rw [bytes, same, wordAt_bytesOf front back i operand positive, locals bounded]
    have least := Nat.mod_le value.toNat 65536
    omega
  · rintro offset op has stays
    obtain ⟨front, i, back, same, rfl, rfl⟩ := has.split bytes width
    rcases split_last same.symm with ⟨-, rfl⟩ | ⟨between, rfl, rfl⟩
    · rw [returns] at stays
      cases stays
    · have positive : 0 < last.size := Nat.succ_pos _
      rw [size, width i (by simp)]
      simp only [size_append, size_cons]
      omega

/-- The method was assembled from the code. Every jump that decoding meets is one of the code's own: its
operand is the distance that it has there, uncut, and leads to an instruction. -/
def Exact (code : Fragment) (m : Method) : Prop :=
  m.code = (code.assemble.map (·.1)).toArray ∧ ∀ offset op, m.Has offset op → op.operands = .jump →
    ∃ front back d line, code = front ++ ⟨op, .jump d, line⟩ :: back ∧ Fragment.size front = offset ∧
      Boundary back d ∧ Disassembly.wordAt m.code (offset + 1) = d ∧ Starts m.code (offset + op.width + d)

theorem exact_of_code {body : Fragment} {last : Instr}
    (bytes : m.code = (bytesOf (body ++ [last])).toArray) (fits : ∀ i ∈ body ++ [last], i.Fits constants room)
    (closed : Closed body) (returns : last.op.isReturn = true) (near : Near (body ++ [last])) :
    m.Exact (body ++ [last]) := by
  have width : ∀ i ∈ body ++ [last], i.op.width = i.size := fun i inside => (fits i inside).width
  refine ⟨by rw [bytes, bytesOf_eq], fun offset op has jump => ?_⟩
  obtain ⟨front, i, back, same, rfl, rfl⟩ := has.split bytes width
  have inside : i ∈ body ++ [last] := by simp [same]
  obtain ⟨d, target⟩ := (fits i inside).of_jump jump
  have word := wordAt_jump (same ▸ bytes) target (near i inside)
  rcases split_last same.symm with ⟨-, rfl⟩ | ⟨between, rfl, rfl⟩
  · exact absurd returns (not_isReturn_of_jump jump)
  obtain ⟨starts, -⟩ := jump_lands bytes width closed target (near i inside)
  obtain ⟨op, operand, line⟩ := i
  cases target
  exact ⟨front, _, d, line, same, rfl, (closed.boundary rfl).append [last], word, word ▸ starts⟩

end Method
end StackML
