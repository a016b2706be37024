import StackML.Proofs.Codegen.Making.Basic
import StackML.Proofs.Codegen.Shapes.Flow
import StackML.Proofs.Machine.Descriptor
import StackML.Proofs.Ty.Legible

/-!
The constants that compiled code refers to. They are told apart by their keys as long as no name has a
dot or a bracket in it, except that the name of a field and its descriptor run together; two fields that
are taken for one are still held alike. So an instruction does the same to a shape, be its constant the
one that was asked for or the one that the pool found under its key.
-/

namespace StackML

open Verify
open Descriptor (item Nameable)

/-! ### Names -/

theorem split_at_first {α : Type} {mark : α} {x x' r r' : List α} (plain : mark ∉ x) (plain' : mark ∉ x')
    (same : x ++ mark :: r = x' ++ mark :: r') : x = x' ∧ r = r' := by
  induction x generalizing x' with
  | nil =>
    cases x' with
    | nil => exact ⟨rfl, (List.cons.inj same).2⟩
    | cons b x' => exact absurd ((List.cons.inj same).1 ▸ List.mem_cons_self) plain'
  | cons a x ih =>
    cases x' with
    | nil => exact absurd ((List.cons.inj same).1 ▸ List.mem_cons_self) plain
    | cons b x' =>
      obtain ⟨rfl, rest⟩ := List.cons.inj same
      rw [List.mem_cons, not_or] at plain plain'
      obtain ⟨rfl, rfl⟩ := ih plain.2 plain'.2 rest
      exact ⟨rfl, rfl⟩

theorem split_at_last {α : Type} {mark : α} {x x' r r' : List α} (plain : mark ∉ r) (plain' : mark ∉ r')
    (same : x ++ mark :: r = x' ++ mark :: r') : x = x' ∧ r = r' := by
  have reversed := congrArg List.reverse same
  simp only [List.reverse_append, List.reverse_cons, List.append_assoc, List.singleton_append] at reversed
  obtain ⟨rs, xs⟩ := split_at_first (by simpa using plain) (by simpa using plain') reversed
  exact ⟨List.reverse_injective xs, List.reverse_injective rs⟩

theorem joined_injective {owner owner' name name' d d' : String} (named : Distinct name)
    (named' : Distinct name') (plain : '(' ∉ owner.toList) (plain' : '(' ∉ owner'.toList)
    (same : owner ++ "." ++ (name ++ ("(" ++ d)) = owner' ++ "." ++ (name' ++ ("(" ++ d'))) :
    owner = owner' ∧ name = name' ∧ d = d' := by
  have lists := congrArg String.toList same
  simp only [String.toList_append] at lists
  have dot : ".".toList = ['.'] := rfl
  have bracket : "(".toList = ['('] := rfl
  rw [dot, bracket, List.singleton_append, List.singleton_append, ← List.append_assoc, ← List.append_assoc] at lists
  have front {owner name : String} (plain : '(' ∉ owner.toList) (named : Distinct name) :
      '(' ∉ owner.toList ++ ['.'] ++ name.toList := by
    simp [plain, named.bracket]
  obtain ⟨before, behind⟩ := split_at_first (front plain named) (front plain' named') lists
  rw [List.append_assoc, List.append_assoc] at before
  obtain ⟨owners, names⟩ := split_at_last named.dot named'.dot before
  exact ⟨String.toList_inj.1 owners, String.toList_inj.1 names, String.toList_inj.1 behind⟩

theorem dotted_injective {owner owner' name name' : String} (named : Distinct name)
    (named' : Distinct name') (same : owner ++ "." ++ name = owner' ++ "." ++ name') :
    owner = owner' ∧ name = name' := by
  have lists := congrArg String.toList same
  have dot : ".".toList = ['.'] := rfl
  simp only [String.toList_append, dot, List.append_assoc, List.singleton_append] at lists
  obtain ⟨owners, names⟩ := split_at_last named.dot named'.dot lists
  exact ⟨String.toList_inj.1 owners, String.toList_inj.1 names⟩

namespace Constant

/-! ### Keys -/

/-- The constant says nothing of how values are held: a number, a text or an export. -/
def IsLiteral (k : Constant) : Prop := k.kind ∈ [ConstantKind.int, .double, .string, .exported]

inductive Named (module : String) : Constant → Prop where
  | literal {k : Constant} : k.IsLiteral → Named module k
  | method (name d : String) : Distinct name →
      Named module { kind := .method, owner := module, name := name, descriptor := ("(" ++ d : String) }
  | field (name reference : String) (r : Rep) : r ≠ .void → Nameable reference →
      Named module { kind := .field, owner := module, name := name, descriptor := item r reference }
  | holder (owner name : String) : Distinct name →
      Named module { kind := .holder, owner := owner, name := name }
  | host (kind : Host.MemberKind) (owner name d : String) : Distinct name → '(' ∉ owner.toList →
      Named module { kind := .host, int := kind.code, owner := owner, name := name
                     descriptor := ("(" ++ d : String) }

/-- Fields of one module whose names and descriptors are the same when they are joined. -/
def Runs (c d : Constant) : Prop :=
  ∃ owner name name' reference reference' r, r ≠ .void ∧ Nameable reference ∧ Nameable reference' ∧
    name ++ item r reference = name' ++ item r reference' ∧
    c = { kind := .field, owner := Text.ofString owner, name := Text.ofString name
          descriptor := Text.ofString (item r reference) } ∧
    d = { kind := .field, owner := Text.ofString owner, name := Text.ofString name'
          descriptor := Text.ofString (item r reference') }

variable {module : String} {c d : Constant}

theorem key_eq {kind : ConstantKind} (mark : String)
    (listed : (kind, mark) ∈ [(ConstantKind.method, "3:"), (.field, "4:")])
    (owner name d : String) :
    key { kind, owner := Text.ofString owner, name := Text.ofString name, descriptor := Text.ofString d } =
      Text.ofString (mark ++ (owner ++ "." ++ (name ++ d))) := by
  obtain ⟨parts, begins⟩ : key { kind, owner := Text.ofString owner, name := Text.ofString name
                                 descriptor := Text.ofString d } =
      .concat [Text.ofInt kind.code.toInt, ":", owner, ".", name, d] ∧
      (Text.ofInt kind.code.toInt).bytes ++ (Text.ofString ":").bytes = (Text.ofString mark).bytes := by
    simp only [List.mem_cons, Prod.mk.injEq, List.not_mem_nil, or_false] at listed
    rcases listed with ⟨rfl, rfl⟩ | ⟨rfl, rfl⟩ <;> exact ⟨rfl, rfl⟩
  rw [parts]
  refine Text.ext_bytes ?_
  simp [Text.bytes_ofString_append, ← begins]

def hostMark : Host.MemberKind → String
  | .func => "h:0:"
  | .method => "h:1:"
  | .field => "h:2:"
  | .new => "h:3:"

theorem key_host (kind : Host.MemberKind) (owner name d : String) :
    key { kind := .host, int := kind.code, owner := Text.ofString owner, name := Text.ofString name
          descriptor := Text.ofString d } =
      Text.ofString (hostMark kind ++ (owner ++ "." ++ (name ++ d))) := by
  obtain ⟨parts, begins⟩ : key { kind := .host, int := kind.code, owner := Text.ofString owner
                                 name := Text.ofString name, descriptor := Text.ofString d } =
      .concat ["h:", Text.ofInt kind.code.toInt, ":", owner, ".", name, d] ∧
      (Text.ofString "h:").bytes ++ ((Text.ofInt kind.code.toInt).bytes ++ (Text.ofString ":").bytes) =
        (Text.ofString (hostMark kind)).bytes := by
    cases kind <;> exact ⟨rfl, rfl⟩
  rw [parts]
  refine Text.ext_bytes ?_
  simp [Text.bytes_ofString_append, ← begins]

theorem Named.isKnown (h : Named module c) : IsKnown c.kind := by
  have known : ∀ kind ∈ [ConstantKind.int, .double, .string, .exported, .method, .field, .holder, .host],
      ∃ x ∈ marks, x.1 = kind := by decide
  suffices listed : c.kind ∈ [ConstantKind.int, .double, .string, .exported, .method, .field, .holder, .host] by
    obtain ⟨⟨_, mark⟩, inside, same⟩ := known c.kind listed
    exact ⟨mark, same ▸ inside⟩
  cases h with
  | literal literal => exact List.mem_append_left [.method, .field, .holder, .host] literal
  | method | field | holder | host => simp only [List.mem_cons, true_or, or_true]

theorem IsLiteral.ne (h : c.IsLiteral) {kind : ConstantKind}
    (other : kind ∈ [ConstantKind.method, .field, .holder, .host]) : c.kind ≠ kind := by
  have apart : ∀ x ∈ [ConstantKind.int, .double, .string, .exported],
      ∀ y ∈ [ConstantKind.method, .field, .holder, .host], x ≠ y := by decide
  exact apart _ h _ other

theorem Named.of_method (h : Named module c) (kind : c.kind = .method) : ∃ name d, Distinct name ∧
    c = { kind := .method, owner := Text.ofString module, name := Text.ofString name
          descriptor := Text.ofString ("(" ++ d) } := by
  cases h with
  | literal literal => exact absurd kind (literal.ne (by decide))
  | method name d named => exact ⟨name, d, named, rfl⟩
  | field | holder | host => cases kind

theorem Named.of_field (h : Named module c) (kind : c.kind = .field) : ∃ name reference r, r ≠ .void ∧
    Nameable reference ∧ c = { kind := .field, owner := Text.ofString module, name := Text.ofString name
                               descriptor := Text.ofString (item r reference) } := by
  cases h with
  | literal literal => exact absurd kind (literal.ne (by decide))
  | field name reference r held nameable => exact ⟨name, reference, r, held, nameable, rfl⟩
  | method | holder | host => cases kind

theorem Named.of_holder (h : Named module c) (kind : c.kind = .holder) : ∃ owner name, Distinct name ∧
    c = { kind := .holder, owner := Text.ofString owner, name := Text.ofString name } := by
  cases h with
  | literal literal => exact absurd kind (literal.ne (by decide))
  | holder owner name named => exact ⟨owner, name, named, rfl⟩
  | method | field | host => cases kind

theorem Named.of_host (h : Named module c) (kind : c.kind = .host) :
    ∃ member owner name d, Distinct name ∧ '(' ∉ owner.toList ∧
      c = { kind := .host, int := Host.MemberKind.code member, owner := Text.ofString owner
            name := Text.ofString name, descriptor := Text.ofString ("(" ++ d) } := by
  cases h with
  | literal literal => exact absurd kind (literal.ne (by decide))
  | host member owner name d named plain => exact ⟨member, owner, name, d, named, plain, rfl⟩
  | method | field | holder => cases kind

theorem Named.alone (h : Named module c) : c.Alone := by
  by_cases host : c.kind = .host
  · obtain ⟨member, owner, name, d, -, -, rfl⟩ := h.of_host host
    exact alone_host member owner name d
  · exact alone_of_ne_host h.isKnown host

theorem append_left_cancel {a b b' : String} (same : a ++ b = a ++ b') : b = b' := by
  have lists := congrArg String.toList same
  simp only [String.toList_append] at lists
  exact String.toList_inj.1 (List.append_cancel_left lists)

def itemMark : Rep → Char
  | .int => 'I'
  | .bool => 'Z'
  | .double => 'D'
  | .void => 'V'
  | .ref => ';'

theorem getLast?_item (name reference : String) (r : Rep) :
    (name ++ item r reference).toList.getLast? = some (itemMark r) := by
  have ends : ∃ front, (item r reference).toList = front ++ [itemMark r] := by
    cases r with
    | ref => exact ⟨("L" ++ reference).toList, String.toList_append⟩
    | int => exact ⟨[], (rfl : "I".toList = ['I'])⟩
    | bool => exact ⟨[], (rfl : "Z".toList = ['Z'])⟩
    | double => exact ⟨[], (rfl : "D".toList = ['D'])⟩
    | void => exact ⟨[], (rfl : "V".toList = ['V'])⟩
  obtain ⟨front, same⟩ := ends
  rw [String.toList_append, same, ← List.append_assoc, List.getLast?_concat]

theorem item_rep {name name' reference reference' : String} {r r' : Rep}
    (same : name ++ item r reference = name' ++ item r' reference') : r = r' := by
  have ends := (getLast?_item name reference r).symm.trans
    ((congrArg (·.toList.getLast?) same).trans (getLast?_item name' reference' r'))
  cases r <;> cases r' <;> first | rfl | exact absurd (Option.some.inj ends) (by decide)

theorem key_holder_injective {owner owner' name name' : String} (named : Distinct name)
    (named' : Distinct name')
    (same : key { kind := .holder, owner := Text.ofString owner, name := Text.ofString name } =
      key { kind := .holder, owner := Text.ofString owner', name := Text.ofString name' }) :
    owner = owner' ∧ name = name' := by
  have joined (owner name : String) :
      key { kind := .holder, owner := Text.ofString owner, name := Text.ofString name } =
        Text.ofString ("5:" ++ (owner ++ "." ++ name)) := by
    refine Text.ext_bytes ?_
    rw [key_holder, Text.bytes_ofString_append, Text.bytes_ofString_append, Text.bytes_ofString_append,
      List.append_assoc]
    rfl
  rw [joined, joined] at same
  exact dotted_injective named named' (append_left_cancel (Text.ofString_injective same))

/-- Constants with one key are one constant, or fields whose names and descriptors run together, or say
nothing of how values are held. -/
theorem Named.compare (hc : Named module c) (hd : Named module d) (same : c.key = d.key) :
    c.kind = d.kind ∧ (c = d ∨ Runs c d ∨ c.IsLiteral) := by
  have kinds := kind_of_key hc.isKnown hd.isKnown same
  refine ⟨kinds, ?_⟩
  cases hc with
  | literal literal => exact .inr (.inr literal)
  | method name t named =>
    obtain ⟨name', t', named', rfl⟩ := hd.of_method kinds.symm
    rw [key_eq "3:" (by decide), key_eq "3:" (by decide)] at same
    have lists := congrArg String.toList
      (append_left_cancel (append_left_cancel (Text.ofString_injective same)))
    have bracket : "(".toList = ['('] := rfl
    simp only [String.toList_append, bracket, List.singleton_append] at lists
    obtain ⟨names, descriptors⟩ := split_at_first named.bracket named'.bracket lists
    rw [String.toList_inj.1 names, String.toList_inj.1 descriptors]
    exact .inl rfl
  | field name reference r held nameable =>
    obtain ⟨name', reference', r', held', nameable', rfl⟩ := hd.of_field kinds.symm
    rw [key_eq "4:" (by decide), key_eq "4:" (by decide)] at same
    have joined := append_left_cancel (append_left_cancel (Text.ofString_injective same))
    obtain rfl := item_rep joined
    exact .inr (.inl ⟨module, name, name', reference, reference', r, held, nameable, nameable', joined, rfl, rfl⟩)
  | holder owner name named =>
    obtain ⟨owner', name', named', rfl⟩ := hd.of_holder kinds.symm
    obtain ⟨rfl, rfl⟩ := key_holder_injective named named' same
    exact .inl rfl
  | host member owner name t named plain =>
    obtain ⟨member', owner', name', t', named', plain', rfl⟩ := hd.of_host kinds.symm
    rw [key_host, key_host] at same
    have lists := congrArg String.toList (Text.ofString_injective same)
    have marked (kind : Host.MemberKind) (rest : String) :
        (hostMark kind ++ rest).toList = (hostMark kind).toList ++ rest.toList := String.toList_append
    rw [marked member, marked member'] at lists
    have length (kind : Host.MemberKind) : (hostMark kind).toList.length = 4 := by cases kind <;> rfl
    obtain ⟨begins, rest⟩ := List.append_inj lists ((length member).trans (length member').symm)
    have members : member = member' := by
      have apart : hostMark member = hostMark member' := String.toList_inj.1 begins
      cases member <;> cases member' <;> first | rfl | exact absurd apart (by decide)
    obtain ⟨rfl, rfl, rfl⟩ := joined_injective named named' plain plain' (String.toList_inj.1 rest)
    rw [members]
    exact .inl rfl

/-! ### What instructions do with constants -/

theorem field?_item {owner name : Text} {reference : String} {r : Rep} (held : r ≠ .void)
    (nameable : Nameable reference) :
    field? { kind := .field, owner, name, descriptor := Text.ofString (item r reference) } = some r := by
  have parsed : Descriptor.parse ("()" ++ Text.ofString (item r reference)) = .ok ⟨[], r⟩ :=
    Descriptor.parse_eq_ok.2 ⟨[], _, rfl, .nil, .inl (Descriptor.item_writes nameable held)⟩
  rw [field?, parsed]
  rfl

variable {payload : Constant → Option Bool} {op : Opcode} {n : Nat} {s : Shape}

theorem Named.effect_eq (hc : Named module c) (hd : Named module d) (same : c.key = d.key)
    (expected : op.constantKind? = some c.kind) :
    effect payload op (some d) n s = effect payload op (some c) n s := by
  obtain ⟨-, rfl | runs | literal⟩ := hc.compare hd same
  · rfl
  · obtain ⟨owner, name, name', reference, reference', r, held, nameable, nameable', -, rfl, rfl⟩ := runs
    cases op <;> cases expected <;>
      simp only [effect, Option.bind_some, field?_item held nameable, field?_item held nameable']
  · cases op <;> first
      | rfl
      | cases expected
      | exact absurd (Option.some.inj expected).symm (literal.ne (by decide))

end Constant

namespace Pool

variable {module : String} {p p' : Pool} {k : Constant} {i : Nat}

theorem Holds.serves (payload : Constant → Option Bool) (holds : p.Holds (Constant.Named module))
    (named : k.Named module) (added : p.add k = some (i, p')) :
    p'.Holds (Constant.Named module) ∧ i < 65536 ∧ ∃ d, p'.entries[i]? = some d ∧ d.kind = k.kind ∧
      (k.kind = .method → d = k) ∧ ∀ op n s, op.constantKind? = some k.kind →
        effect payload op (some d) n s = effect payload op (some k) n s := by
  obtain ⟨holds', -, d, found, named', same⟩ := holds.add named added
  have below : i < p'.entries.size := (Array.getElem?_eq_some_iff.1 found).1
  obtain ⟨kinds, which⟩ := named.compare named' same.symm
  refine ⟨holds', Nat.lt_of_lt_of_le below holds'.small, d, found, kinds.symm, fun kind => ?_,
    fun op n s expected => named.effect_eq named' same.symm expected⟩
  rcases which with same | runs | literal
  · exact same.symm
  · obtain ⟨_, _, _, _, _, _, -, -, -, -, rfl, -⟩ := runs
    cases kind
  · exact absurd kind (literal.ne (by decide))

end Pool
end StackML
