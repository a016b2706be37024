import Mathlib.Data.List.Basic
import StackML.Ty.Specialization

/-!
What the name of a specialization tells. A type contributes letters and digits to a suffix, whatever it
is made of, so that the separators in a name are those that join its parts: from the name one gets the
name of the function and the parts, one for each parameter, but not the types.
-/

namespace StackML.Ty

def isPlainChar (c : Char) : Bool := Text.isLetter c || Text.isDigit c

def IsPlain (s : String) : Prop := s.toList.all isPlainChar = true

instance (s : String) : Decidable (IsPlain s) := inferInstanceAs (Decidable (_ = true))

theorem IsPlain.append {s t : String} (first : IsPlain s) (second : IsPlain t) : IsPlain (s ++ t) := by
  rw [IsPlain, String.toList_append, List.all_append, first, second]
  rfl

theorem IsPlain.not_mem {s : String} {c : Char} (h : IsPlain s) (other : isPlainChar c = false) :
    c ∉ s.toList := by
  intro member
  rw [List.all_eq_true.1 h c member] at other
  cases other

theorem isPlain_ofList (cs : List Char) : IsPlain (String.ofList (plainName cs)) := by
  rw [IsPlain, String.toList_ofList]
  exact List.all_eq_true.2 fun c member => (List.mem_filter.1 member).2

theorem isPlain_capitalized (name : String) : IsPlain (capitalized name) := by
  unfold capitalized
  split
  · rfl
  · exact isPlain_ofList _

theorem all_intercalate {p : Char → Bool} {separator : String} {parts : List String}
    (between : separator.toList.all p = true) (each : ∀ part ∈ parts, part.toList.all p = true) :
    (separator.intercalate parts).toList.all p = true := by
  induction parts with
  | nil => rfl
  | cons part parts ih =>
    rw [List.forall_mem_cons] at each
    cases parts with
    | nil =>
      rw [String.intercalate_singleton]
      exact each.1
    | cons next parts =>
      rw [String.intercalate_cons_cons, String.toList_append, String.toList_append, List.all_append,
        List.all_append, each.1, between, ih each.2]
      rfl

mutual
theorem isPlain_mangled : (t : Ty) → IsPlain t.mangled
  | int | double | string | bool | unit | var _ | num _ => by
    simp only [mangled]
    decide +kernel
  | list a => (isPlain_mangled a).append (by decide +kernel)
  | result a b => by
    have before : IsPlain "ResultOf" := by decide +kernel
    have between : IsPlain "And" := by decide +kernel
    exact ((before.append (isPlain_mangled a)).append between).append (isPlain_mangled b)
  | fn a b => by
    have before : IsPlain "Fn" := by decide +kernel
    have between : IsPlain "To" := by decide +kernel
    exact ((before.append (isPlain_mangled a)).append between).append (isPlain_mangled b)
  | named name => isPlain_capitalized name
  | app name as => by
    have before : IsPlain "Of" := by decide +kernel
    have between : IsPlain "And" := by decide +kernel
    rw [mangled]
    split
    · exact isPlain_capitalized name
    · exact ((isPlain_capitalized name).append before).append
        (all_intercalate between (isPlain_mangledAll as))
  | host name => by
    have before : IsPlain "Host" := by decide +kernel
    exact before.append (isPlain_ofList _)
  | scheme _ a => isPlain_mangled a

theorem isPlain_mangledAll : (as : List Ty) → ∀ p ∈ mangledAll as, IsPlain p
  | [] => List.forall_mem_nil _
  | a :: as => List.forall_mem_cons.2 ⟨isPlain_mangled a, isPlain_mangledAll as⟩
end

/-! ### Segments -/

/-- The parts of a suffix: one for each parameter, or one for the whole type. -/
def segments (t : Ty) (arity : Nat) : List String :=
  match (t.body.split arity).1 with
  | [] => [t.body.mangled]
  | params => params.map mangled

theorem segments_ne_nil (t : Ty) (arity : Nat) : t.segments arity ≠ [] := by
  unfold segments
  split
  · exact List.cons_ne_nil _ _
  · next other => exact fun none => other (List.map_eq_nil_iff.1 none)

theorem isPlain_segments (t : Ty) (arity : Nat) : ∀ p ∈ t.segments arity, IsPlain p := by
  intro p member
  unfold segments at member
  split at member
  · rw [List.mem_singleton.1 member]
    exact isPlain_mangled _
  · obtain ⟨a, -, rfl⟩ := List.mem_map.1 member
    exact isPlain_mangled a

theorem suffix_eq (t : Ty) (arity : Nat) : t.suffix arity = "_".intercalate (t.segments arity) := by
  unfold suffix segments
  cases (t.body.split arity).1 with
  | nil => exact String.intercalate_singleton.symm
  | cons a params => rfl

theorem segments_eq_of_suffix_eq {t u : Ty} {k n : Nat} (same : t.suffix k = u.suffix n) :
    t.segments k = u.segments n := by
  have parts (t : Ty) (k : Nat) :
      ((t.suffix k).split '_').toList.map String.Slice.copy = t.segments k := by
    have inside : ∀ p ∈ t.segments k, '_' ∉ p.toList := fun p member =>
      (isPlain_segments t k p member).not_mem (by decide +kernel)
    rw [suffix_eq]
    exact (String.toList_split_intercalate inside).trans (if_neg (segments_ne_nil t k))
  rw [← parts t k, same, parts u n]

theorem suffix_not_mem {t : Ty} {arity : Nat} {c : Char} (other : isPlainChar c = false)
    (apart : c ≠ '_') : c ∉ (t.suffix arity).toList := by
  have between : "_".toList.all (· != c) = true := by
    change ('_' != c && true) = true
    rw [Bool.and_true, bne_iff_ne]
    exact apart.symm
  have each : ∀ part ∈ t.segments arity, part.toList.all (· != c) = true := fun part member =>
    List.all_eq_true.2 fun d inside => bne_iff_ne.2 fun same =>
      (isPlain_segments t arity part member).not_mem other (same ▸ inside)
  intro member
  have differs := List.all_eq_true.1 (all_intercalate between each) c (suffix_eq t arity ▸ member)
  simp at differs

/-! ### Names of specializations -/

theorem takeWhile_separator {cs rest : List Char} (plain : '$' ∉ cs) :
    (cs ++ '$' :: rest).takeWhile (· != '$') = cs := by
  have all : ∀ c ∈ cs, (c != '$') = true := fun c member =>
    bne_iff_ne.2 fun same => plain (same ▸ member)
  rw [List.takeWhile_append_of_pos all, List.takeWhile_cons_of_neg (by simp), List.append_nil]

theorem toList_specializedName (name : String) (t : Ty) (arity : Nat) :
    (t.specializedName name arity).toList = name.toList ++ '$' :: (t.suffix arity).toList := by
  simp [specializedName, suffixSeparator]

theorem specializedName_ne {name name' : String} {t : Ty} {arity : Nat} (plain : '$' ∉ name'.toList) :
    t.specializedName name arity ≠ name' := by
  rintro rfl
  rw [toList_specializedName] at plain
  exact plain (List.mem_append_right _ List.mem_cons_self)

theorem eq_of_specializedName_eq {name name' : String} {t u : Ty} {k n : Nat}
    (plain : '$' ∉ name.toList) (plain' : '$' ∉ name'.toList)
    (same : t.specializedName name k = u.specializedName name' n) :
    name = name' ∧ t.segments k = u.segments n := by
  have chars := congrArg String.toList same
  rw [toList_specializedName, toList_specializedName] at chars
  have names := congrArg (List.takeWhile (· != '$')) chars
  rw [takeWhile_separator plain, takeWhile_separator plain'] at names
  rw [names, List.append_cancel_left_eq, List.cons.injEq] at chars
  exact ⟨String.toList_inj.1 names, segments_eq_of_suffix_eq (String.toList_inj.1 chars.2)⟩

theorem specializedName_eq_of_segments_eq {name : String} {t u : Ty} {k n : Nat}
    (same : t.segments k = u.segments n) : t.specializedName name k = u.specializedName name n := by
  rw [specializedName, specializedName, suffix_eq, suffix_eq, same]

end StackML.Ty
