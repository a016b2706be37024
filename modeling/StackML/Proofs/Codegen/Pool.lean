import Mathlib.Data.List.Basic
import Std.Data.String.ToInt
import StackML.Codegen.Pattern
import StackML.Proofs.Text

/-!
The constants of a module without functions and values of its own: numbers, texts, constructors and
the comparison of texts. Their keys tell them apart, so a pool of them gives each the index it is
found at.
-/

namespace StackML

/-! ### Digits -/

theorem digitChar_injective {m n : Nat} (hm : m < 16) (hn : n < 16)
    (h : m.digitChar = n.digitChar) : m = n := by
  have all : ∀ m < 16, ∀ n < 16, Nat.digitChar m = Nat.digitChar n → m = n := by decide
  exact all m hm n hn h

theorem toDigits_ne_nil {n : Nat} : Nat.toDigits 16 n ≠ [] := by
  by_cases h : n < 16
  · simp [Nat.toDigits_of_lt_base h]
  · rw [Nat.toDigits_of_base_le (n := n) (by decide) (by omega)]
    simp

theorem toDigits_injective {m n : Nat} (h : Nat.toDigits 16 m = Nat.toDigits 16 n) : m = n := by
  induction m using Nat.strongRecOn generalizing n with
  | ind m ih =>
    by_cases hm : m < 16 <;> by_cases hn : n < 16
    · rw [Nat.toDigits_of_lt_base hm, Nat.toDigits_of_lt_base hn, List.singleton_inj] at h
      exact digitChar_injective hm hn h
    · rw [Nat.toDigits_of_lt_base hm, Nat.toDigits_of_base_le (by decide) (by omega)] at h
      have lengths := congrArg List.length h
      have positive := List.length_pos_iff.2 (toDigits_ne_nil (n := n / 16))
      rw [List.length_append, List.length_singleton, List.length_singleton] at lengths
      omega
    · rw [Nat.toDigits_of_lt_base hn, Nat.toDigits_of_base_le (by decide) (by omega)] at h
      have lengths := congrArg List.length h
      have positive := List.length_pos_iff.2 (toDigits_ne_nil (n := m / 16))
      rw [List.length_append, List.length_singleton, List.length_singleton] at lengths
      omega
    · rw [Nat.toDigits_of_base_le (n := m) (by decide) (by omega),
        Nat.toDigits_of_base_le (n := n) (by decide) (by omega)] at h
      obtain ⟨front, last⟩ := List.append_inj' h rfl
      have high : m / 16 = n / 16 := ih (m / 16) (by omega) front
      have low := digitChar_injective (Nat.mod_lt m (by decide)) (Nat.mod_lt n (by decide))
        (List.singleton_inj.1 last)
      omega

/-! ### Keys -/

namespace Constant

inductive Plain (module : String) : Constant → Prop where
  | int (v : Int64) : Plain module { kind := .int, int := v }
  | double (bits : UInt64) : Plain module { kind := .double, bits }
  | string (s : Text) : Plain module { kind := .string, str := s }
  | compare : Plain module Codegen.stringCompare
  | own (name : String) : Plain module { kind := .holder, owner := module, name := name }
  | builtin (name : String) (known : name = Names.ok ∨ name = Names.error) :
      Plain module { kind := .holder, owner := "", name := name }

theorem key_int (v : Int64) :
    (key { kind := .int, int := v }).bytes = 0x69 :: 0x3a :: (Text.ofInt v.toInt).bytes := by
  have : key { kind := .int, int := v } = .concat ["i:", Text.ofInt v.toInt] := rfl
  rw [this]
  simp
  rfl

theorem key_double (bits : UInt64) :
    (key { kind := .double, bits }).bytes = 0x64 :: 0x3a :: (hexText bits.toNat).bytes := by
  have : key { kind := .double, bits } = .concat ["d:", hexText bits.toNat] := rfl
  rw [this]
  simp
  rfl

theorem key_string (s : Text) :
    (key { kind := .string, str := s }).bytes = 0x73 :: 0x3a :: s.bytes := by
  have : key { kind := .string, str := s } = .concat ["s:", s] := rfl
  rw [this]
  simp
  rfl

theorem key_compare : ∃ rest, (key Codegen.stringCompare).bytes = 0x68 :: rest := ⟨_, rfl⟩

theorem key_holder (owner name : String) :
    (key { kind := .holder, owner := owner, name := name }).bytes =
      0x35 :: 0x3a :: ((Text.ofString owner).bytes ++ 0x2e :: (Text.ofString name).bytes) := by
  have : key { kind := .holder, owner := owner, name := name } =
      .concat [Text.ofInt 5, ":", owner, ".", name, .empty] := rfl
  have five : (Text.ofInt 5).bytes = [0x35] := rfl
  have colon : (Text.ofString ":").bytes = [0x3a] := rfl
  have dot : (Text.ofString ".").bytes = [0x2e] := rfl
  rw [this]
  simp [five, colon, dot, Text.empty]

theorem ofInt_injective {a b : Int64} (h : (Text.ofInt a.toInt).bytes = (Text.ofInt b.toInt).bytes) :
    a = b := by
  have same : toString a.toInt = toString b.toInt := Text.ofString_injective (Text.ext_bytes h)
  rw [Int.toString_eq_repr, Int.toString_eq_repr] at same
  exact Int64.toInt_inj.1 (Int.repr_injective same)

theorem hexText_injective {a b : UInt64} (h : (hexText a.toNat).bytes = (hexText b.toNat).bytes) :
    a = b := by
  have same := String.ofList_injective (Text.ofString_injective (Text.ext_bytes h))
  exact UInt64.toNat_inj.1 (toDigits_injective same)

/-- A name of the module does not look like a built-in constructor, since the names of these have no
dot in them. -/
theorem own_ne_builtin {module name builtin : String} (named : module ≠ "")
    (known : builtin = Names.ok ∨ builtin = Names.error) :
    (Text.ofString module).bytes ++ 0x2e :: (Text.ofString name).bytes ≠
      (Text.ofString "").bytes ++ 0x2e :: (Text.ofString builtin).bytes := by
  intro h
  have dotless : (0x2e : UInt8) ∉ (Text.ofString builtin).bytes := by
    rcases known with rfl | rfl <;> decide
  have filled : (Text.ofString module).bytes ≠ [] := by
    simpa [Text.isEmpty] using Text.isEmpty_ofString named
  have blank : (Text.ofString "").bytes = [] := rfl
  rw [blank, List.nil_append] at h
  cases start : (Text.ofString module).bytes with
  | nil => exact filled start
  | cons b rest =>
    rw [start, List.cons_append, List.cons.injEq] at h
    exact dotless (h.2 ▸ List.mem_append_right _ List.mem_cons_self)

theorem key_injective {module : String} {c d : Constant} (named : module ≠ "")
    (hc : Plain module c) (hd : Plain module d) (same : c.key = d.key) : c = d := by
  have bytes := congrArg Text.bytes same
  obtain ⟨rest, compared⟩ := key_compare
  cases hc <;> cases hd <;>
    simp [key_int, key_double, key_string, key_holder, compared, -List.append_cancel_left_eq] at bytes
  · rw [ofInt_injective bytes]
  · rw [hexText_injective bytes]
  · rw [Text.ext_bytes bytes]
  · rfl
  · rw [Text.ofString_injective (Text.ext_bytes (List.cons.inj (List.append_cancel_left bytes)).2)]
  · exact (own_ne_builtin named ‹_› bytes).elim
  · exact (own_ne_builtin named ‹_› bytes.symm).elim
  · rw [Text.ofString_injective (Text.ext_bytes (List.cons.inj (List.append_cancel_left bytes)).2)]

/-! ### The comparison of texts -/

def Alone (k : Constant) : Prop := k.key = Codegen.stringCompare.key → k = Codegen.stringCompare

/-- Neither the owner nor the name of the comparison has a dot or a bracket in it, so they are found again
in its key. -/
theorem alone_host (kind : Host.MemberKind) (owner name d : String) :
    Alone { kind := .host, int := kind.code, owner := owner, name := name, descriptor := ("(" ++ d : String) } := by
  intro same
  obtain ⟨mark, digit, func⟩ : ∃ mark : UInt8, (Text.ofInt kind.code.toInt).bytes = [mark] ∧
      (mark = 0x30 → kind = .func) := by
    cases kind
    · exact ⟨0x30, rfl, fun _ => rfl⟩
    · exact ⟨0x31, rfl, nofun⟩
    · exact ⟨0x32, rfl, nofun⟩
    · exact ⟨0x33, rfl, nofun⟩
  have joined : key { kind := .host, int := kind.code, owner := owner, name := name
                      descriptor := ("(" ++ d : String) } =
      .concat ["h:", Text.ofInt kind.code.toInt, ":", owner, ".", name, ("(" ++ d : String)] := rfl
  have bytes := congrArg Text.bytes (joined.symm.trans same)
  have expected : (key Codegen.stringCompare).bytes = 0x68 :: 0x3a :: 0x30 :: 0x3a ::
      ((Text.ofString "strings").bytes ++ 0x2e ::
        ((Text.ofString "Compare").bytes ++ 0x28 :: (Text.ofString "Lstring;Lstring;)I").bytes)) := rfl
  have parts : (Text.concat ["h:", Text.ofInt kind.code.toInt, ":", owner, ".", name, ("(" ++ d : String)]).bytes =
      0x68 :: 0x3a :: mark :: 0x3a :: ((Text.ofString owner).bytes ++ 0x2e ::
        ((Text.ofString name).bytes ++ 0x28 :: (Text.ofString d).bytes)) := by
    have start : (Text.ofString "h:").bytes = [0x68, 0x3a] := rfl
    have colon : (Text.ofString ":").bytes = [0x3a] := rfl
    have dot : (Text.ofString ".").bytes = [0x2e] := rfl
    have bracket : (Text.ofString "(").bytes = [0x28] := rfl
    simp [digit, start, colon, dot, bracket, Text.bytes_ofString_append]
  rw [parts, expected] at bytes
  obtain ⟨-, bytes⟩ := List.cons.inj bytes
  obtain ⟨-, bytes⟩ := List.cons.inj bytes
  obtain ⟨zero, bytes⟩ := List.cons.inj bytes
  obtain ⟨-, bytes⟩ := List.cons.inj bytes
  obtain ⟨owners, -, bytes⟩ := (List.append_cons_inj_of_notMem (by decide) (by decide)).1 bytes.symm
  obtain ⟨names, -, descriptors⟩ := (List.append_cons_inj_of_notMem (by decide) (by decide)).1 bytes
  obtain rfl := func zero
  obtain rfl := Text.ofString_injective (Text.ext_bytes owners)
  obtain rfl := Text.ofString_injective (Text.ext_bytes names)
  obtain rfl := Text.ofString_injective (Text.ext_bytes descriptors)
  rfl

end Constant

/-! ### Pools -/

namespace Pool

structure Holds (P : Constant → Prop) (p : Pool) : Prop where
  each : ∀ c ∈ p.entries, P c
  found : ∀ key i, p.index.get? key = some i → ∃ c, p.entries[i]? = some c ∧ c.key = key
  small : p.entries.size ≤ limit

theorem holds_empty (P : Constant → Prop) : Holds P {} := by
  refine ⟨by simp, ?_, by decide⟩
  intro key i h
  simp [Std.TreeMap.get?_eq_getElem?] at h

theorem Holds.add {P : Constant → Prop} {p p' : Pool} {c : Constant} {i : Nat} (h : p.Holds P)
    (hc : P c) (run : p.add c = some (i, p')) :
    p'.Holds P ∧ p.entries.toList <+: p'.entries.toList ∧
      ∃ d, p'.entries[i]? = some d ∧ P d ∧ d.key = c.key := by
  unfold Pool.add at run
  cases known : p.index.get? c.key with
  | some j =>
    simp only [known, Option.some.injEq, Prod.mk.injEq] at run
    obtain ⟨rfl, rfl⟩ := run
    obtain ⟨d, found, key⟩ := h.found _ _ known
    exact ⟨h, List.prefix_rfl, d, found, h.each d (Array.mem_of_getElem? found), key⟩
  | none =>
    simp only [known] at run
    split at run
    · cases run
    · next room =>
      simp only [Option.some.injEq, Prod.mk.injEq] at run
      obtain ⟨rfl, rfl⟩ := run
      refine ⟨⟨?_, ?_, ?_⟩, by simp, c, by simp, hc, rfl⟩
      · intro d member
        rcases Array.mem_push.1 member with old | rfl
        · exact h.each d old
        · exact hc
      · intro key j found
        rw [Std.TreeMap.get?_eq_getElem?, Std.TreeMap.getElem?_insert] at found
        split at found
        · next same =>
          cases found
          exact ⟨c, by simp, Std.LawfulEqOrd.eq_of_compare same⟩
        · rw [← Std.TreeMap.get?_eq_getElem?] at found
          obtain ⟨d, old, key⟩ := h.found _ _ found
          have inside : j < p.entries.size := (Array.getElem?_eq_some_iff.1 old).1
          refine ⟨d, ?_, key⟩
          rw [Array.getElem?_push, if_neg (by omega)]
          exact old
      · rw [Array.size_push]
        omega

def ComparesAlone (p : Pool) : Prop :=
  p.Holds fun k => k.key = Codegen.stringCompare.key → k = Codegen.stringCompare

/-- A pool of constants that are told apart by their keys. -/
abbrev Plain (module : String) : Pool → Prop := Holds (Constant.Plain module)

theorem Plain.add {module : String} {p p' : Pool} {c : Constant} {i : Nat} (named : module ≠ "")
    (h : Plain module p) (hc : c.Plain module) (run : p.add c = some (i, p')) :
    Plain module p' ∧ p'.entries[i]? = some c ∧ p.entries.toList <+: p'.entries.toList := by
  obtain ⟨holds, grows, d, found, plain, key⟩ := Holds.add h hc run
  rw [Constant.key_injective named plain hc key] at found
  exact ⟨holds, found, grows⟩

end Pool
end StackML
