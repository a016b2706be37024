import StackML.Proofs.Codegen.Layout
import StackML.Proofs.Machine.Verifier

/-!
Shapes for code under construction. The shapes of a stretch of code are found with regard to those of
what is put behind it, so that stretches are joined without looking into them again, and jumps lead
wherever they are known to meet a shape. A stretch that leads from the parameters of a method to its
result, with a return behind it, is the code of a verified method.
-/

namespace StackML

open Verify

/-! ### Instructions -/

namespace Instr

inductive Sized : Instr → Prop where
  | none {op line} : op.operands = .none → Sized ⟨op, .none, line⟩
  | byte {op line value} : op.operands = .byte → value < 256 → Sized ⟨op, .byte value, line⟩
  | number {op line} {value : Nat} : op.operands = .slot ∨ op.operands = .count → value < 65536 →
      Sized ⟨op, .word value, line⟩
  | constant {op line} {index : Nat} : op.operands = .constant → index < 65536 →
      Sized ⟨op, .word index, line⟩
  | jump {op line distance} : op.operands = .jump → Sized ⟨op, .jump distance, line⟩
  | closure {op line index captures} : op.operands = .closure → index < 65536 → captures < 256 →
      Sized ⟨op, .closure index captures, line⟩

def number (i : Instr) : Nat :=
  match i.op.operands, i.operand with
  | .byte, .byte value => value
  | .slot, .word value | .count, .word value => value.toNat
  | .closure, .closure _ captures => captures
  | _, _ => 0

def constant? (constants : Array Constant) (i : Instr) : Option Constant :=
  match i.op.operands, i.operand with
  | .constant, .word index => constants[index.toNat]?
  | .closure, .closure index _ => constants[index]?
  | _, _ => none

def distance (i : Instr) : Nat :=
  match i.operand with
  | .jump distance => distance
  | _ => 0

variable {i : Instr}

theorem Sized.width (h : i.Sized) : i.op.width = i.size := by
  rw [Opcode.width]
  cases h with
  | none kind | byte kind | constant kind | jump kind | closure kind =>
    rw [kind]
    rfl
  | number kind => rcases kind with kind | kind <;> (rw [kind]; rfl)

end Instr

variable {payload : Constant → Option Bool} {constants : Array Constant}

theorem Instr.Sized.of_jump {i : Instr} (h : i.Sized) (kind : i.op.operands = .jump) :
    ∃ distance, i.operand = .jump distance := by
  cases h with
  | jump => exact ⟨_, rfl⟩
  | number other => rcases other with other | other <;> cases other.symm.trans kind
  | none other | byte other | constant other | closure other => cases other.symm.trans kind

/-! ### Shapes of code -/

namespace Verify

theorem Shape.Meets.refl (s : Shape) : s.Meets s := ⟨rfl, List.prefix_rfl⟩

theorem Shape.Meets.trans {s t u : Shape} (first : s.Meets t) (second : t.Meets u) : s.Meets u :=
  ⟨first.1.trans second.1, second.2.trans first.2⟩

theorem Shape.Meets.arrives {s t : Shape} {o : Option Shape} (meets : s.Meets t) (there : Arrives t o) :
    Arrives s o := by
  obtain ⟨u, rfl, onward⟩ := there
  exact ⟨u, rfl, meets.trans onward⟩

theorem exchange_append (before after rest : List Kind) (cells : List Cell) :
    Shape.exchange ⟨before ++ rest, cells⟩ before after = some ⟨after ++ rest, cells⟩ := by
  rw [Shape.exchange, if_pos (List.prefix_append _ _), List.drop_left]

theorem effect_exchanged {op : Opcode} {k : Option Constant} {n : Nat} {s : Shape} {p q : List Kind}
    (known : exchanged op = some (p, q)) : effect payload op k n s = s.exchange p q := by
  cases op <;> first | cases known; rfl | cases known

theorem Goes.not_isReturn {op : Opcode} {k : Option Constant} {n distance : Nat} {s : Shape}
    {next : Nat → Option Shape} (h : Goes payload op k n distance s next) : ¬ op.isReturn = true := by
  rcases h with rfl | ⟨t, made, -⟩
  · exact Bool.false_ne_true
  · intro returns
    have none : effect payload op k n s = none := by cases op <;> first | rfl | cases returns
    cases none.symm.trans made

theorem Arrives.here (s : Shape) : Arrives s (some s) := ⟨s, rfl, .refl s⟩

end Verify

namespace Fragment

abbrev Shaped := List (Shape × Instr)

/-- The shape at a distance from the start of the code; `next` has those behind it. -/
def shapeAt : Shaped → (next : Nat → Option Shape) → Nat → Option Shape
  | [], next, d => next d
  | (s, i) :: rest, next, d =>
    if d = 0 then some s else if i.size ≤ d then shapeAt rest next (d - i.size) else none

/-- Each instruction finds what it takes, and goes on as the shapes say. -/
def Holds (payload : Constant → Option Bool) (constants : Array Constant) :
    Shaped → (next : Nat → Option Shape) → Prop
  | [], _ => True
  | (s, i) :: rest, next =>
    (i.Sized ∧ Goes payload i.op (i.constant? constants) i.number i.distance s (shapeAt rest next)) ∧
      Holds payload constants rest next

/-- The code has shapes that go with those behind it, and the first of them is met. -/
def Flows (payload : Constant → Option Bool) (constants : Array Constant) (code : Fragment) (s : Shape)
    (next : Nat → Option Shape) : Prop :=
  ∃ a : Shaped, a.map Prod.snd = code ∧ Holds payload constants a next ∧ Arrives s (shapeAt a next 0)

/-- The code leads from the one shape to the other. -/
def Leads (payload : Constant → Option Bool) (constants : Array Constant) (code : Fragment)
    (s t : Shape) : Prop :=
  ∀ next, Arrives t (next 0) → Flows payload constants code s next

variable {a b : Shaped} {code front back : Fragment} {s t u : Shape} {i : Instr}
  {next : Nat → Option Shape}

theorem shapeAt_append (a b : Shaped) (next : Nat → Option Shape) :
    shapeAt (a ++ b) next = shapeAt a (shapeAt b next) := by
  induction a with
  | nil => rfl
  | cons e a ih =>
    funext d
    rw [List.cons_append, shapeAt, shapeAt, ih]

theorem shapeAt_size (a : Shaped) (next : Nat → Option Shape) (d : Nat) :
    shapeAt a next (size (a.map Prod.snd) + d) = next d := by
  induction a with
  | nil => rw [List.map_nil, Codegen.size_nil, Nat.zero_add, shapeAt]
  | cons e a ih =>
    have positive : 0 < e.2.size := Nat.succ_pos _
    rw [List.map_cons, Codegen.size_cons, shapeAt, if_neg (by omega), if_pos (by omega), ← ih]
    congr 1
    omega

theorem holds_append : Holds payload constants (a ++ b) next ↔
    Holds payload constants a (shapeAt b next) ∧ Holds payload constants b next := by
  induction a with
  | nil => exact ⟨fun h => ⟨trivial, h⟩, fun h => h.2⟩
  | cons e a ih =>
    rw [List.cons_append, Holds, Holds, ih, shapeAt_append]
    exact and_assoc.symm

/-! ### Putting code together -/

theorem Flows.append (second : Flows payload constants back t next)
    (first : ∀ next', Arrives t (next' 0) → (∀ d, next' (size back + d) = next d) →
      Flows payload constants front s next') :
    Flows payload constants (front ++ back) s next := by
  obtain ⟨b, rfl, holds, there⟩ := second
  obtain ⟨a, rfl, holds', here⟩ := first (shapeAt b next) there (shapeAt_size b next)
  refine ⟨a ++ b, List.map_append, holds_append.2 ⟨holds', holds⟩, ?_⟩
  rwa [shapeAt_append]

theorem Leads.append (first : Leads payload constants front s t) (second : Leads payload constants back t u) :
    Leads payload constants (front ++ back) s u :=
  fun next there => (second next there).append fun next' there' _ => first next' there'

theorem Leads.flows (h : Leads payload constants front s t) (behind : Flows payload constants back t next) :
    Flows payload constants (front ++ back) s next :=
  behind.append fun next' there _ => h next' there

theorem Flows.of_meets (meets : s.Meets t) (h : Flows payload constants code t next) :
    Flows payload constants code s next := by
  obtain ⟨a, same, holds, there⟩ := h
  exact ⟨a, same, holds, meets.arrives there⟩

theorem Leads.of_meets (h : Leads payload constants code t u) (meets : s.Meets t) :
    Leads payload constants code s u := fun next there => (h next there).of_meets meets

theorem Leads.meets (h : Leads payload constants code s t) (meets : t.Meets u) :
    Leads payload constants code s u := fun next there => h next (meets.arrives there)

theorem flows_nil (there : Arrives s (next 0)) : Flows payload constants [] s next := ⟨[], rfl, trivial, there⟩

theorem Leads.refl (s : Shape) : Leads payload constants [] s s := fun _ there => flows_nil there

theorem Flows.cons (sized : i.Sized)
    (made : effect payload i.op (i.constant? constants) i.number s = some t)
    (straight : i.op.operands ≠ .jump) (rest : Flows payload constants code t next) :
    Flows payload constants (i :: code) s next := by
  obtain ⟨a, rfl, holds, there⟩ := rest
  exact ⟨(s, i) :: a, rfl, ⟨⟨sized, .inr ⟨t, made, fun _ => there, fun jump => absurd jump straight⟩⟩, holds⟩,
    .here s⟩

theorem leads_single (sized : i.Sized)
    (made : effect payload i.op (i.constant? constants) i.number s = some t)
    (straight : i.op.operands ≠ .jump) : Leads payload constants [i] s t :=
  fun _ there => .cons sized made straight (flows_nil there)

theorem Flows.branch {op : Opcode} {line : Int} (beyond : Nat) (kind : op.operands = .jump)
    (made : effect payload op none 0 s = some t) (rest : Flows payload constants code t next)
    (there : Arrives t (next beyond)) :
    Flows payload constants (⟨op, .jump (size code + beyond), line⟩ :: code) s next := by
  obtain ⟨a, rfl, holds, first⟩ := rest
  have bare : (⟨op, .jump (size (a.map Prod.snd) + beyond), line⟩ : Instr).constant? constants = none := by
    rw [Instr.constant?, kind]
  have zero : (⟨op, .jump (size (a.map Prod.snd) + beyond), line⟩ : Instr).number = 0 := by
    rw [Instr.number, kind]
  refine ⟨(s, _) :: a, rfl, ⟨⟨.jump kind, .inr ⟨t, ?_, fun _ => first, fun _ => ?_⟩⟩, holds⟩, .here s⟩
  · rw [bare, zero]
    exact made
  · change Arrives t (shapeAt a next (size (a.map Prod.snd) + beyond))
    rwa [shapeAt_size]

theorem Flows.goto (line : Int) (beyond : Nat) (rest : Flows payload constants code t next)
    (there : Arrives s (next beyond)) :
    Flows payload constants (⟨.goto, .jump (size code + beyond), line⟩ :: code) s next := by
  obtain ⟨a, rfl, holds, -⟩ := rest
  refine ⟨(s, _) :: a, rfl, ⟨⟨.jump rfl, .inr ⟨s, ?_, fun other => absurd rfl other, fun _ => ?_⟩⟩, holds⟩,
    .here s⟩
  · exact (effect_exchanged rfl).trans (exchange_append [] [] s.stack s.locals)
  · change Arrives s (shapeAt a next (size (a.map Prod.snd) + beyond))
    rwa [shapeAt_size]

theorem flows_matchfail (line : Int) (s : Shape) (next : Nat → Option Shape) :
    Flows payload constants [⟨.matchfail, .none, line⟩] s next :=
  ⟨[(s, _)], rfl, ⟨⟨.none rfl, .inl rfl⟩, trivial⟩, .here s⟩

theorem leads_branch {yes no : Fragment} {test : Opcode} {line line' : Int} (kind : test.operands = .jump)
    (made : effect payload test none 0 s = some t) (first : Leads payload constants yes t u)
    (second : Leads payload constants no t u) :
    Leads payload constants (⟨test, .jump (size (yes ++ [⟨.goto, .jump (size no), line'⟩])), line⟩ ::
      (yes ++ [⟨.goto, .jump (size no), line'⟩]) ++ no) s u := by
  intro next there
  refine (second next there).append fun next' start behind => ?_
  have pass : Flows payload constants [⟨.goto, .jump (size no), line'⟩] u next' := by
    have passed : Arrives u (next' (size no)) := by
      rw [← Nat.add_zero (size no), behind]
      exact there
    have none : Flows payload constants [] t next' := flows_nil start
    have goto := none.goto line' (size no) passed
    rwa [Codegen.size_nil, Nat.zero_add] at goto
  exact .branch 0 kind made (first.flows pass) start

end Fragment

/-! ### Methods -/

namespace Fragment

variable {front back : Fragment} {i : Instr}

theorem numberAt_bytesOf (sized : i.Sized) :
    numberAt (bytesOf (front ++ i :: back)).toArray front.size i.op = i.number := by
  cases sized with
  | none kind | jump kind => rw [numberAt, Instr.number, kind]
  | @byte op line value kind small =>
    have byte := byteAt_bytesOf front back (⟨op, .byte value, line⟩ : Instr) (j := 1) (Nat.lt_succ_self 1)
    simp only [numberAt, Instr.number, kind, byte]
    exact Nat.mod_eq_of_lt small
  | @number op line value kind small =>
    have bytes : (Operand.word value).bytes = Operand.twoBytes value ++ [] := (List.append_nil _).symm
    have word := wordAt_bytesOf front back ⟨op, .word value, line⟩ bytes (Int.natCast_nonneg value)
    rcases kind with kind | kind <;>
      (simp only [numberAt, Instr.number, kind, word]; exact Nat.mod_eq_of_lt small)
  | constant kind => rw [numberAt, Instr.number, kind]
  | @closure op line index captures kind small few =>
    have byte := byteAt_bytesOf front back (⟨op, .closure index captures, line⟩ : Instr) (j := 3) (Nat.lt_succ_self 3)
    simp only [numberAt, Instr.number, kind, byte]
    exact Nat.mod_eq_of_lt few

theorem constantAt_bytesOf (sized : i.Sized) :
    constantAt constants (bytesOf (front ++ i :: back)).toArray front.size i.op = i.constant? constants := by
  cases sized with
  | none kind | jump kind | byte kind => rw [constantAt, Instr.constant?, kind]
  | number kind => rcases kind with kind | kind <;> rw [constantAt, Instr.constant?, kind]
  | @constant op line index kind small =>
    have bytes : (Operand.word index).bytes = Operand.twoBytes index ++ [] := (List.append_nil _).symm
    have word := wordAt_bytesOf front back ⟨op, .word index, line⟩ bytes (Int.natCast_nonneg index)
    simp only [constantAt, Instr.constant?, kind, word, Int.toNat_natCast, Nat.mod_eq_of_lt small]
  | @closure op line index captures kind small few =>
    have bytes : (Operand.closure index captures).bytes = Operand.twoBytes index ++ [captures.toUInt8] := rfl
    have word := wordAt_bytesOf front back ⟨op, .closure index captures, line⟩ bytes (Int.natCast_nonneg index)
    simp only [constantAt, Instr.constant?, kind, word, Int.toNat_natCast, Nat.mod_eq_of_lt small]

theorem shapeAt_split {a b : Shaped} {next : Nat → Option Shape} (d : Nat) :
    shapeAt (a ++ b) next (size (a.map Prod.snd) + d) = shapeAt b next d := by
  rw [shapeAt_append, shapeAt_size]

theorem Holds.split {a : Shaped} {next : Nat → Option Shape} (holds : Holds payload constants a next)
    (same : a.map Prod.snd = front ++ i :: back) : ∃ s, i.Sized ∧ shapeAt a next front.size = some s ∧
      Goes payload i.op (i.constant? constants) i.number i.distance s
        fun d => shapeAt a next (front.size + i.size + d) := by
  obtain ⟨before, rest, rfl, rfl, behind⟩ := List.map_eq_append_iff.1 same
  obtain ⟨⟨s, i⟩, after, rfl, rfl, rfl⟩ := List.map_eq_cons_iff.1 behind
  obtain ⟨⟨sized, goes⟩, -⟩ := (holds_append.1 holds).2
  have here : shapeAt (before ++ (s, i) :: after) next (size (before.map Prod.snd)) = some s := by
    rw [← Nat.add_zero (size (before.map Prod.snd)), shapeAt_split]
    rfl
  have behind (d : Nat) :
      shapeAt (before ++ (s, i) :: after) next (size (before.map Prod.snd) + i.size + d) =
        shapeAt after next d := by
    have positive : 0 < i.size := Nat.succ_pos _
    rw [Nat.add_assoc, shapeAt_split, shapeAt, if_neg (by omega), if_pos (by omega),
      Nat.add_sub_cancel_left]
  refine ⟨s, sized, here, ?_⟩
  simp only [behind]
  exact goes

/-- What holds of an instruction holds of the bytes it is written in. -/
theorem goes_bytesOf {m : Method} {s : Shape} {shapes : Nat → Shape} {next : Nat → Option Shape}
    (bytes : m.code = (bytesOf (front ++ i :: back)).toArray) (sized : i.Sized) (near : i.isFar = false)
    (shaped : ∀ d u, next d = some u → shapes (front.size + i.size + d) = u)
    (goes : Goes payload i.op (i.constant? constants) i.number i.distance s next) :
    Goes payload i.op (constantAt constants m.code front.size i.op) (numberAt m.code front.size i.op)
      (Disassembly.wordAt m.code (front.size + 1)) s
      fun d => some (shapes (front.size + i.op.width + d)) := by
  have arrives {t : Shape} {d : Nat} (there : Arrives t (next d)) :
      Arrives t (some (shapes (front.size + i.op.width + d))) := by
    obtain ⟨u, known, meets⟩ := there
    rw [sized.width, shaped d u known]
    exact ⟨u, rfl, meets⟩
  rw [bytes, constantAt_bytesOf sized, numberAt_bytesOf sized, ← bytes]
  rcases goes with fails | ⟨t, made, onward, jumps⟩
  · exact .inl fails
  refine .inr ⟨t, made, fun other => arrives (onward other), fun kind => ?_⟩
  obtain ⟨d, target⟩ := sized.of_jump kind
  have there := jumps kind
  rw [Instr.distance, target] at there
  rw [Method.wordAt_jump bytes target near]
  exact arrives there

end Fragment

open Fragment in
theorem Method.verified_of_leads {m : Method} {body : Fragment} {last : Instr}
    {s : Descriptor.Signature} {locals : List Cell}
    (bytes : m.code = (bytesOf (body ++ [last])).toArray) (described : Descriptor.parse m.descriptor = .ok s)
    (leads : Leads payload constants body ⟨[], s.cells⟩ ⟨s.result.kinds, locals⟩)
    (sized : last.Sized) (returns : last.op.isReturn = true)
    (result : returned? last.op = some s.result.kinds) (near : Near (body ++ [last])) :
    m.Verified payload constants := by
  let next : Nat → Option Shape := fun d => if d = 0 then some ⟨s.result.kinds, locals⟩ else none
  obtain ⟨a, rfl, holds, entry⟩ := leads next (.here _)
  let shapes : Nat → Shape := fun d => (shapeAt a next d).getD {}
  have shaped {d : Nat} {u : Shape} (known : shapeAt a next d = some u) : shapes d = u := by
    simp only [shapes, known, Option.getD_some]
  have width : ∀ i ∈ a.map Prod.snd ++ [last], i.op.width = i.size := by
    intro i member
    rcases List.mem_append.1 member with here | here
    · obtain ⟨front, back, same⟩ := List.append_of_mem here
      obtain ⟨_, sized, -⟩ := holds.split same
      exact sized.width
    · exact List.mem_singleton.1 here ▸ sized.width
  refine ⟨s, shapes, described, ?_, ?_, ?_⟩
  · obtain ⟨u, known, meets⟩ := entry
    exact shaped known ▸ meets
  · intro offset op has returned
    obtain ⟨front, i, back, same, rfl, rfl⟩ := has.split bytes width
    rcases split_last same.symm with ⟨rfl, rfl⟩ | ⟨between, inside, -⟩
    · refine ⟨result, congrArg Shape.stack (shaped (u := ⟨s.result.kinds, locals⟩) ?_)⟩
      rw [← Nat.add_zero (size (a.map Prod.snd)), shapeAt_size]
      rfl
    · obtain ⟨t, -, -, goes⟩ := holds.split inside
      exact absurd returned goes.not_isReturn
  · intro offset op has straight
    obtain ⟨front, i, back, same, rfl, rfl⟩ := has.split bytes width
    rcases split_last same.symm with ⟨rfl, rfl⟩ | ⟨between, inside, -⟩
    · rw [returns] at straight
      cases straight
    obtain ⟨t, sized, here, goes⟩ := holds.split inside
    rw [shaped here]
    exact goes_bytesOf (same ▸ bytes) sized (near i (same ▸ by simp)) (fun d u known => shaped known) goes

end StackML
