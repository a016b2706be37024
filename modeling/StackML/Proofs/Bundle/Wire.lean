import Mathlib
import StackML.Bundle.Wire

/-!
The wire format read back. What the writer makes of a number, of eight bytes or of a run of bytes is
read as just that, whatever stands behind it. A message is then followed field by field: `Folds` says
where the fields of some bytes lead a reader, and a field that was left out leads it nowhere.
-/

namespace StackML.Wire

/-! ### Numbers -/

theorem readGroups_groupsOf {left n : Nat} (small : n < 2 ^ (7 * left + 1)) (value scale : Nat)
    (rest : Bytes) :
    readGroups left value scale (groupsOf (left + 1) n ++ rest) =
      .ok ((value + n * scale).toUInt64, rest) := by
  induction left generalizing n value scale with
  | zero =>
    have one : n < 2 := by simpa using small
    have byte : n.toUInt8.toNat = n := Nat.mod_eq_of_lt (by omega)
    have bit : n.toUInt8 < 2 := UInt8.lt_iff_toNat_lt.2 (by rw [byte]; exact one)
    rw [groupsOf, if_pos (by omega), List.singleton_append, readGroups, if_pos bit, byte]
  | succ left ih =>
    rw [groupsOf]
    split
    · next last =>
      have byte : n.toUInt8.toNat = n := Nat.mod_eq_of_lt (by omega)
      have unmarked : n.toUInt8 < 0x80 := UInt8.lt_iff_toNat_lt.2 (by rw [byte]; exact last)
      rw [List.singleton_append, readGroups, if_pos unmarked, byte]
    · next more =>
      have byte : (n % 128 + 128).toUInt8.toNat = n % 128 + 128 := Nat.mod_eq_of_lt (by omega)
      have marked : ¬(n % 128 + 128).toUInt8 < 0x80 := fun below => by
        have := UInt8.lt_iff_toNat_lt.1 below
        rw [byte] at this
        exact absurd this (Nat.not_lt.2 (Nat.le_add_left _ _))
      have above : n / 128 < 2 ^ (7 * left + 1) := by
        have power : 2 ^ (7 * (left + 1) + 1) = 128 * 2 ^ (7 * left + 1) := by
          rw [show 7 * (left + 1) + 1 = 7 + (7 * left + 1) by omega, Nat.pow_add]
        exact Nat.div_lt_of_lt_mul (power ▸ small)
      have sum : value + n % 128 * scale + n / 128 * (scale * 128) = value + n * scale := by
        calc value + n % 128 * scale + n / 128 * (scale * 128)
            = value + (128 * (n / 128) + n % 128) * scale := by
              rw [Nat.add_mul, Nat.mul_comm 128, Nat.mul_assoc, Nat.mul_comm 128]
              omega
          _ = value + n * scale := by rw [Nat.div_add_mod]
      rw [List.cons_append, readGroups, if_neg marked, byte, Nat.add_sub_cancel, ih above, sum]

theorem readVarint_varint (n : UInt64) (rest : Bytes) : readVarint (varint n ++ rest) = .ok (n, rest) := by
  have read : readGroups 9 0 1 (groupsOf 10 n.toNat ++ rest) = _ :=
    readGroups_groupsOf n.toNat_lt 0 1 rest
  rw [readVarint, varint, read, Nat.zero_add, Nat.mul_one]
  exact congrArg (fun m => Except.ok (m, rest)) (UInt64.ofNat_toNat (x := n))

theorem length_varint (n : UInt64) : 0 < (varint n).length := by
  rw [varint, groupsOf]
  split
  · exact Nat.zero_lt_one
  · exact Nat.succ_pos _

theorem readVarints_varints (ns done : List UInt64) {count : Nat}
    (enough : ((ns.map varint).flatten).length ≤ count) :
    readVarints count done (ns.map varint).flatten = .ok (done.reverse ++ ns) := by
  induction ns generalizing done count with
  | nil => simp [readVarints]
  | cons n ns ih =>
    have positive := length_varint n
    rw [List.map_cons, List.flatten_cons] at enough ⊢
    rw [List.length_append] at enough
    obtain ⟨count, rfl⟩ := Nat.exists_eq_add_of_lt (Nat.lt_of_lt_of_le positive (Nat.le_of_add_right_le enough))
    obtain ⟨b, bytes, first⟩ := List.exists_cons_of_length_pos positive
    have read := readVarint_varint n (ns.map varint).flatten
    rw [first, List.cons_append] at read ⊢
    rw [Nat.zero_add, readVarints, read]
    dsimp only
    rw [ih (n :: done) (by omega), List.reverse_cons, List.append_assoc, List.singleton_append]

theorem neg_iff (n : Int64) : n < 0 ↔ 2 ^ 63 ≤ n.toUInt64.toNat := by
  have range := n.toUInt64.toNat_lt
  have value : n.toInt = if 2 * n.toUInt64.toNat < 2 ^ 64 then (n.toUInt64.toNat : Int)
      else n.toUInt64.toNat - (2 ^ 64 : Nat) := BitVec.toInt_eq_toNat_cond n.toBitVec
  rw [Int64.lt_iff_toInt_lt, Int64.toInt_zero, value]
  split <;> omega

theorem toNat_zigzag (n : Int64) : (zigzag n).toNat =
    if n < 0 then 2 * (2 ^ 64 - 1 - n.toUInt64.toNat) + 1 else 2 * n.toUInt64.toNat := by
  have range := n.toUInt64.toNat_lt
  have shifted : (n.toUInt64 <<< 1).toNat = n.toUInt64.toNat * 2 % 2 ^ 64 := by
    rw [UInt64.toNat_shiftLeft, Nat.shiftLeft_eq]
    rfl
  unfold zigzag
  dsimp only
  split
  · next negative =>
    have high := (neg_iff n).1 negative
    rw [UInt64.toNat_not, shifted, UInt64.size]
    omega
  · next positive =>
    have low : n.toUInt64.toNat < 2 ^ 63 := Nat.not_le.1 fun high => positive ((neg_iff n).2 high)
    rw [shifted]
    omega

theorem toNat_unzigzag (u : UInt64) : (unzigzag u).toUInt64.toNat =
    if u.toNat % 2 = 0 then u.toNat / 2 else 2 ^ 64 - 1 - u.toNat / 2 := by
  have even : u % 2 = 0 ↔ u.toNat % 2 = 0 := by
    rw [← UInt64.toNat_inj, UInt64.toNat_mod]
    rfl
  have half : (u >>> 1).toNat = u.toNat / 2 := by
    rw [UInt64.toNat_shiftRight, Nat.shiftRight_eq_div_pow]
    rfl
  simp only [unzigzag, even, UInt64.toUInt64_toInt64]
  split
  · exact half
  · have size : UInt64.size = 2 ^ 64 := rfl
    rw [UInt64.toNat_not, half, size]

theorem unzigzag_zigzag (n : Int64) : unzigzag (zigzag n) = n := by
  have range := n.toUInt64.toNat_lt
  have same : (unzigzag (zigzag n)).toUInt64.toNat = n.toUInt64.toNat := by
    rw [toNat_unzigzag, toNat_zigzag]
    by_cases negative : n < 0
    · rw [if_pos negative, if_neg (by omega)]
      omega
    · rw [if_neg negative, if_pos (by omega)]
      omega
  have word := congrArg UInt64.toInt64 (UInt64.toNat_inj.1 same)
  rwa [Int64.toInt64_toUInt64, Int64.toInt64_toUInt64] at word

theorem wordOf_digits (n count : Nat) :
    wordOf ((List.range count).map fun i => (n / 256 ^ i).toUInt8) = n % 256 ^ count := by
  induction count generalizing n with
  | zero => simp [wordOf, Nat.mod_one]
  | succ count ih =>
    have digits : ∀ i, n / 256 ^ (i + 1) = n / 256 / 256 ^ i := by
      intro i
      rw [Nat.pow_succ', Nat.div_div_eq_div_mul]
    rw [List.range_succ_eq_map, List.map_cons, List.map_map, wordOf, List.foldr_cons, ← wordOf]
    simp only [Function.comp_def, Nat.succ_eq_add_one, digits]
    rw [ih, Nat.pow_succ', Nat.mod_mul, Nat.pow_zero, Nat.div_one]
    rfl

theorem wordOf_fixed64 (n : UInt64) : (wordOf (fixed64 n)).toUInt64 = n := by
  have byte : ∀ i ∈ List.range 8,
      (n >>> (8 * i).toUInt64).toUInt8 = (n.toNat / 256 ^ i).toUInt8 := by
    intro i inside
    have below := List.mem_range.1 inside
    have whole : (8 * i).toUInt64.toNat = 8 * i := Nat.mod_eq_of_lt (by omega)
    have shift : (8 * i).toUInt64.toNat % 64 = 8 * i := by omega
    apply UInt8.toNat_inj.1
    rw [UInt64.toNat_toUInt8, UInt64.toNat_shiftRight, shift, Nat.shiftRight_eq_div_pow, Nat.pow_mul]
    rfl
  have below : n.toNat < 256 ^ 8 := n.toNat_lt
  rw [fixed64, List.map_congr_left byte, wordOf_digits, Nat.mod_eq_of_lt below]
  exact UInt64.ofNat_toNat

/-! ### Fields -/

def IsNumber (field : Nat) : Prop := 0 < field ∧ field < 2 ^ 31

instance (field : Nat) : Decidable (IsNumber field) := inferInstanceAs (Decidable (_ ∧ _))

variable {field : Nat}

theorem readTag_tag (number : IsNumber field) (shape : Shape) (rest : Bytes) :
    readTag (tag field shape ++ rest) = .ok ((field, shape.code), rest) := by
  have code : shape.code < 8 := by cases shape <;> decide
  have value : (field * 8 + shape.code).toUInt64.toNat = field * 8 + shape.code :=
    Nat.mod_eq_of_lt (by have := number.2; omega)
  have high : (field * 8 + shape.code) / 8 = field := by omega
  have low : (field * 8 + shape.code) % 8 = shape.code := by omega
  have legal : ¬(field = 0 ∨ Nat.pow 2 31 ≤ field) := by
    rintro (none | large)
    · exact Nat.ne_of_gt number.1 none
    · exact Nat.not_le.2 number.2 large
  unfold readTag tag
  rw [readVarint_varint]
  simp only [bind, Except.bind, value, high, low, if_neg legal]
  rfl

theorem readRun_append (bytes rest : Bytes) :
    readRun bytes.length (bytes ++ rest) = .ok (bytes, rest) := by
  simp [readRun]

theorem readField_number (number : IsNumber field) (n : UInt64) (rest : Bytes) :
    readField (tag field .number ++ varint n ++ rest) = .ok ({ field, number := n }, rest) := by
  unfold readField
  rw [List.append_assoc, readTag_tag number]
  simp only [bind, Except.bind, Shape.code, readVarint_varint]
  rfl

theorem readField_eight (number : IsNumber field) (n : UInt64) (rest : Bytes) :
    readField (tag field .eight ++ fixed64 n ++ rest) = .ok ({ field, number := n }, rest) := by
  have eight : readRun 8 (fixed64 n ++ rest) = .ok (fixed64 n, rest) := readRun_append (fixed64 n) rest
  unfold readField
  rw [List.append_assoc, readTag_tag number]
  simp only [bind, Except.bind, Shape.code, eight, wordOf_fixed64]
  rfl

theorem readField_run (number : IsNumber field) {bytes : Bytes} (fits : bytes.length < 2 ^ 64)
    (rest : Bytes) : readField (runField field bytes ++ rest) = .ok ({ field, bytes }, rest) := by
  have count : bytes.length.toUInt64.toNat = bytes.length := Nat.mod_eq_of_lt fits
  unfold readField runField
  rw [List.append_assoc, List.append_assoc, readTag_tag number]
  simp only [bind, Except.bind, Shape.code, readVarint_varint, count, readRun_append]
  rfl

/-! ### Messages -/

section Messages

variable {σ α : Type} {f : σ → Field → Except Error σ} {s s₁ s' : σ} {bytes rest : Bytes}

def Folds (f : σ → Field → Except Error σ) (s : σ) (bytes : Bytes) (s' : σ) : Prop :=
  ∀ fields, bytes.length ≤ fields → foldWithin f fields s bytes = .ok s'

theorem Folds.fold (s' : σ) (h : Folds f s bytes s') : Wire.fold f s bytes = .ok s' :=
  h _ (Nat.le_refl _)

theorem Folds.bind {next : σ → Except Error α} (s' : σ) (h : Folds f s bytes s') :
    (Wire.fold f s bytes >>= next) = next s' := by
  rw [h.fold s']
  rfl

def listField (field : Nat) (write : α → Bytes) (entries : List α) : Bytes :=
  (entries.map fun a => runField field (write a)).flatten

namespace Folds

theorem nil (s : σ) : Folds f s [] s := by
  intro fields _
  cases fields <;> rfl

theorem cons {read : Field} (filled : 0 < bytes.length)
    (first : readField (bytes ++ rest) = .ok (read, rest)) (step : f s read = .ok s₁)
    (more : Folds f s₁ rest s') : Folds f s (bytes ++ rest) s' := by
  intro fields enough
  rw [List.length_append] at enough
  obtain ⟨fields, rfl⟩ : ∃ n, fields = n + 1 := ⟨fields - 1, by omega⟩
  obtain ⟨b, back, rfl⟩ := List.exists_cons_of_length_pos filled
  rw [List.cons_append] at first ⊢
  rw [foldWithin, first]
  dsimp only
  rw [step]
  exact more fields (by rw [List.length_cons] at enough; omega)

theorem number (legal : IsNumber field) {n : UInt64} (step : f s { field, number := n } = .ok s₁)
    (idle : f s { field } = .ok s) (more : Folds f s₁ rest s') :
    Folds f s (numberField field n ++ rest) s' := by
  unfold numberField
  split
  · next zero =>
    rw [zero] at step
    cases step.symm.trans idle
    exact more
  · refine cons ?_ (readField_number legal n rest) step more
    rw [List.length_append]
    exact Nat.add_pos_right _ (length_varint n)

theorem eight (legal : IsNumber field) {n : UInt64} (step : f s { field, number := n } = .ok s₁)
    (idle : f s { field } = .ok s) (more : Folds f s₁ rest s') :
    Folds f s (eightField field n ++ rest) s' := by
  unfold eightField
  split
  · next zero =>
    rw [zero] at step
    cases step.symm.trans idle
    exact more
  · refine cons ?_ (readField_eight legal n rest) step more
    rw [List.length_append]
    exact Nat.add_pos_left (length_varint _) _

theorem run (legal : IsNumber field) {held : Bytes} (fits : held.length < 2 ^ 64)
    (step : f s { field, bytes := held } = .ok s₁) (more : Folds f s₁ rest s') :
    Folds f s (runField field held ++ rest) s' := by
  refine cons ?_ (readField_run legal fits rest) step more
  rw [runField, List.length_append, List.length_append]
  exact Nat.add_pos_left (Nat.add_pos_left (length_varint _) _) _

theorem text (legal : IsNumber field) {held : Bytes} (fits : held.length < 2 ^ 64)
    (step : f s { field, bytes := held } = .ok s₁) (idle : f s { field } = .ok s)
    (more : Folds f s₁ rest s') : Folds f s (textField field held ++ rest) s' := by
  unfold textField
  split
  · next empty =>
    rw [List.isEmpty_iff.1 empty] at step
    cases step.symm.trans idle
    exact more
  · exact run legal fits step more

/-- A list is written entry by entry under one number; `reach` is where the reader is after some of
the entries. -/
theorem all (legal : IsNumber field) (reach : List α → σ) {write : α → Bytes} {entries : List α}
    (fits : ∀ a ∈ entries, (write a).length < 2 ^ 64)
    (step : ∀ done, ∀ a ∈ entries,
      f (reach done) { field, bytes := write a } = .ok (reach (done ++ [a])))
    (more : Folds f (reach entries) rest s') :
    Folds f (reach []) (listField field write entries ++ rest) s' := by
  suffices each : ∀ done, Folds f (reach (done ++ entries)) rest s' →
      Folds f (reach done) (listField field write entries ++ rest) s' from each [] more
  clear more
  induction entries with
  | nil =>
    intro done more
    rwa [List.append_nil] at more
  | cons a entries ih =>
    intro done more
    rw [List.forall_mem_cons] at fits
    rw [listField, List.map_cons, List.flatten_cons, List.append_assoc, ← listField]
    refine run legal fits.1 (step done a List.mem_cons_self) (ih fits.2 ?_ _ ?_)
    · exact fun done x inside => step done x (List.mem_cons_of_mem _ inside)
    · rwa [List.append_assoc]

end Folds

/-! ### Sizes -/

theorem length_runField_ge (field : Nat) (bytes : Bytes) :
    bytes.length ≤ (runField field bytes).length := by
  rw [runField, List.length_append]
  exact Nat.le_add_left _ _

theorem length_textField_ge (field : Nat) (bytes : Bytes) :
    bytes.length ≤ (textField field bytes).length := by
  unfold textField
  split
  · next empty => exact Nat.le_of_eq (congrArg List.length (List.isEmpty_iff.1 empty))
  · exact length_runField_ge field bytes

theorem length_entry_le (field : Nat) (write : α → Bytes) {entries : List α} {a : α}
    (inside : a ∈ entries) : (write a).length ≤ (listField field write entries).length := by
  obtain ⟨front, back, rfl⟩ := List.append_of_mem inside
  have least := length_runField_ge field (write a)
  simp only [listField, List.map_append, List.map_cons, List.flatten_append, List.flatten_cons,
    List.length_append]
  omega

end Messages

end StackML.Wire
