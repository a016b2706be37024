import Mathlib.Data.List.Forall2
import StackML.Proofs.Machine.Entry

/-!
Method descriptors and what is read from them. A text is read as a descriptor exactly if it is an opening
bracket, items, a closing bracket and one more item or `V`, and each item stands for one representation.
The descriptors that are written, from types or from representations, are of this form.
-/

namespace StackML.Descriptor

/-! ### The grammar -/

inductive Item : List UInt8 → Rep → Prop where
  | int : Item [0x49] .int
  | bool : Item [0x5A] .bool
  | double : Item [0x44] .double
  | ref (name : List UInt8) (nameable : 0x3B ∉ name) : Item (0x4C :: (name ++ [0x3B])) .ref

def Last (bytes : List UInt8) (r : Rep) : Prop := Item bytes r ∨ bytes = [0x56] ∧ r = .void

/-- A descriptor with what it says. -/
def Describes (bytes : List UInt8) (s : Signature) : Prop :=
  ∃ params last, bytes = 0x28 :: (params.flatten ++ 0x29 :: last) ∧
    List.Forall₂ Item params s.params ∧ Last last s.result

/-! ### Reading -/

theorem afterSemicolon_eq_some {bytes rest : List UInt8} :
    afterSemicolon bytes = some rest ↔ ∃ name, 0x3B ∉ name ∧ bytes = name ++ 0x3B :: rest := by
  constructor
  · intro found
    induction bytes with
    | nil => cases found
    | cons b bytes ih =>
      rw [afterSemicolon] at found
      split at found
      · next ends =>
        cases found
        exact ⟨[], List.not_mem_nil, congrArg (· :: _) (beq_iff_eq.1 ends)⟩
      · next other =>
        obtain ⟨name, nameable, split⟩ := ih found
        refine ⟨b :: name, ?_, congrArg (b :: ·) split⟩
        rw [List.mem_cons, not_or]
        exact ⟨fun same => other (beq_iff_eq.2 same.symm), nameable⟩
  · rintro ⟨name, nameable, rfl⟩
    exact afterSemicolon_append rest nameable

theorem items_name (params : List Rep) (bytes : List UInt8) :
    items params true bytes =
      match afterSemicolon bytes with
      | some rest => items params false rest
      | none => .error .unterminated := by
  induction bytes with
  | nil => rfl
  | cons b bytes ih =>
    rw [items, afterSemicolon]
    by_cases ends : b = 0x3B
    · simp [ends]
    · have inside : (b != 0x3B) = true := bne_iff_ne.2 ends
      rw [inside, ih, if_neg (by simpa using ends)]

theorem items_item {item : List UInt8} {r : Rep} (h : Item item r) (params : List Rep)
    (rest : List UInt8) : items params false (item ++ rest) = items (r :: params) false rest := by
  cases h with
  | int | bool | double => rfl
  | ref name nameable =>
    have opened : items params false (0x4C :: (name ++ [0x3B]) ++ rest) =
        items (.ref :: params) true (name ++ 0x3B :: rest) := by
      rw [List.cons_append, List.append_assoc]
      rfl
    rw [opened, items_name, afterSemicolon_append rest nameable]

theorem items_items {bytes : List (List UInt8)} {reps : List Rep} (h : List.Forall₂ Item bytes reps)
    (params : List Rep) (rest : List UInt8) :
    items params false (bytes.flatten ++ rest) = items (reps.reverse ++ params) false rest := by
  induction h generalizing params with
  | nil => rfl
  | cons first _ ih =>
    rw [List.flatten_cons, List.append_assoc, items_item first, ih, List.reverse_cons,
      List.append_assoc, List.singleton_append]

theorem result_eq_ok {bytes : List UInt8} {r : Rep} : result bytes = .ok r ↔ Last bytes r := by
  constructor
  · intro read
    cases bytes with
    | nil => cases read
    | cons b rest =>
      have last {rest : List UInt8} {q : Rep}
          (ended : (if rest.isEmpty then .ok q else .error .trailing : Except Issue Rep) = .ok r) :
          rest = [] ∧ q = r := by
        split at ended
        · next empty => exact ⟨List.isEmpty_iff.1 empty, Except.ok.inj ended⟩
        · cases ended
      simp only [result, beq_iff_eq] at read
      split at read
      · next letter =>
        obtain ⟨rfl, rfl⟩ := last read
        exact .inl (letter ▸ .int)
      split at read
      · next letter =>
        obtain ⟨rfl, rfl⟩ := last read
        exact .inl (letter ▸ .bool)
      split at read
      · next letter =>
        obtain ⟨rfl, rfl⟩ := last read
        exact .inl (letter ▸ .double)
      split at read
      · next letter =>
        obtain ⟨rfl, rfl⟩ := last read
        exact .inr ⟨congrArg ([·]) letter, rfl⟩
      split at read
      · next letter =>
        split at read
        · next rest' found =>
          obtain ⟨rfl, rfl⟩ := last read
          obtain ⟨name, nameable, rfl⟩ := afterSemicolon_eq_some.1 found
          exact .inl (letter ▸ .ref name nameable)
        · cases read
      · cases read
  · rintro (item | ⟨rfl, rfl⟩)
    · cases item with
      | int | bool | double => rfl
      | ref name nameable =>
        simp only [result, afterSemicolon_append [] nameable]
        rfl
    · rfl

theorem Item.length_pos {item : List UInt8} {r : Rep} (h : Item item r) : 0 < item.length := by
  cases h <;> simp

theorem items_cons_ok {params : List Rep} {b : UInt8} {rest : List UInt8} {s : Signature}
    (read : items params false (b :: rest) = .ok s) :
    (b = 0x29 ∧ s.params = params.reverse ∧ Last rest s.result) ∨
    ∃ item rest' r, Item item r ∧ b :: rest = item ++ rest' ∧
      items (r :: params) false rest' = .ok s := by
  simp only [items, beq_iff_eq] at read
  split at read
  · next letter =>
    cases ended : result rest with
    | error issue =>
      rw [ended] at read
      cases read
    | ok r =>
      rw [ended] at read
      cases read
      exact .inl ⟨letter, rfl, result_eq_ok.1 ended⟩
  right
  split at read
  · next letter => exact ⟨_, rest, _, .int, congrArg (· :: rest) letter, read⟩
  split at read
  · next letter => exact ⟨_, rest, _, .bool, congrArg (· :: rest) letter, read⟩
  split at read
  · next letter => exact ⟨_, rest, _, .double, congrArg (· :: rest) letter, read⟩
  split at read
  · cases read
  split at read
  · next letter =>
    rw [items_name] at read
    cases found : afterSemicolon rest with
    | none =>
      rw [found] at read
      cases read
    | some rest' =>
      rw [found] at read
      obtain ⟨name, nameable, rfl⟩ := afterSemicolon_eq_some.1 found
      refine ⟨_, rest', _, .ref name nameable, ?_, read⟩
      rw [letter, List.cons_append, List.append_assoc, List.singleton_append]
  · cases read

theorem items_eq_ok {params : List Rep} {bytes : List UInt8} {s : Signature}
    (read : items params false bytes = .ok s) :
    ∃ parts reps last, bytes = parts.flatten ++ 0x29 :: last ∧ List.Forall₂ Item parts reps ∧
      s.params = params.reverse ++ reps ∧ Last last s.result := by
  -- each item is at least one byte long
  induction length : bytes.length using Nat.strongRecOn generalizing params bytes with
  | _ n ih =>
    cases bytes with
    | nil => cases read
    | cons b rest =>
      rcases items_cons_ok read with ⟨rfl, eq, ends⟩ | ⟨item, rest', r, h, split, more⟩
      · exact ⟨[], [], rest, rfl, .nil, eq.trans (List.append_nil _).symm, ends⟩
      · have less : rest'.length < n := by
          rw [← length, split, List.length_append]
          exact Nat.lt_add_of_pos_left h.length_pos
        obtain ⟨parts, reps, last, rfl, each, eq, ends⟩ := ih _ less more rfl
        refine ⟨item :: parts, r :: reps, last, ?_, .cons h each, ?_, ends⟩
        · rw [split, List.flatten_cons, List.append_assoc]
        · rw [eq, List.reverse_cons, List.append_assoc, List.singleton_append]

theorem parse_eq_ok {text : Text} {s : Signature} :
    parse text = .ok s ↔ Describes text.bytes s := by
  constructor
  · intro read
    unfold parse at read
    dsimp only at read
    split at read
    · next s' found =>
      cases read
      split at found
      · next rest opened =>
        obtain ⟨parts, reps, last, rfl, each, eq, ends⟩ := items_eq_ok found
        exact ⟨parts, last, opened, eq ▸ each, ends⟩
      · cases found
    · cases read
  · rintro ⟨parts, last, opened, each, ends⟩
    have read : items [] false (parts.flatten ++ 0x29 :: last) = .ok s := by
      rw [items_items each, List.append_nil]
      simp only [items, result_eq_ok.2 ends, List.reverse_reverse]
      rfl
    unfold parse
    rw [opened]
    simp only [read]

/-! ### Writing -/

/-- The name by which users or the host know a type. -/
def givenName? : Ty → Option String
  | .named name | .app name _ | .host name => some name
  | _ => none

theorem nameable_refName {t : Ty} (given : ∀ name ∈ givenName? t, Nameable name) :
    Nameable (refName t) := by
  cases t with
  | named name | app name args => exact given name rfl
  | host name =>
    unfold Nameable refName
    rw [Text.bytes_ofString_append, List.mem_append, not_or]
    exact ⟨by decide, given name rfl⟩
  | _ =>
    dsimp only [refName]
    decide

theorem item_writes {r : Rep} {name : String} (nameable : Nameable name) (filled : r ≠ .void) :
    Item (item r name : Text).bytes r := by
  cases r with
  | int => exact .int
  | bool => exact .bool
  | double => exact .double
  | ref =>
    have bytes : (item .ref name : Text).bytes = 0x4C :: ((name : Text).bytes ++ [0x3B]) := by
      rw [item, Text.bytes_ofString_append, Text.bytes_ofString_append]
      rfl
    rw [bytes]
    exact .ref _ nameable
  | void => exact (filled rfl).elim

theorem last_writes {r : Rep} {name : String} (nameable : Nameable name) :
    Last (item r name : Text).bytes r := by
  by_cases void : r = .void
  · exact .inr ⟨by rw [void]; rfl, void⟩
  · exact .inl (item_writes nameable void)

theorem describes_joined {items : List String} {last : String} {reps : List Rep} {r : Rep}
    (each : List.Forall₂ (fun (item : String) r => Item (item : Text).bytes r) items reps)
    (ends : Last (last : Text).bytes r) :
    Describes (("(" ++ String.join items ++ ")" ++ last : String) : Text).bytes ⟨reps, r⟩ := by
  have joined : (String.join items : Text).bytes =
      (items.map fun item : String => (item : Text).bytes).flatten := by
    clear each
    induction items with
    | nil => rfl
    | cons item items ih =>
      rw [String.join_cons, Text.bytes_ofString_append, ih, List.map_cons, List.flatten_cons]
  refine ⟨items.map fun item : String => (item : Text).bytes, (last : Text).bytes, ?_,
    List.forall₂_map_left_iff.2 each, ends⟩
  rw [Text.bytes_ofString_append, Text.bytes_ofString_append, Text.bytes_ofString_append, joined,
    List.append_assoc, List.append_assoc]
  rfl

theorem ofTy_eq_ok {t : Ty} {d : String} (written : ofTy t = .ok d) :
    ∃ r, Rep.ofTy t = .ok r ∧ d = item r (refName t) := by
  unfold ofTy at written
  cases rep : Rep.ofTy t with
  | error e =>
    rw [rep] at written
    cases written
  | ok r =>
    rw [rep] at written
    exact ⟨r, rfl, (Except.ok.inj written).symm⟩

theorem ofResult_eq_ok {t : Ty} {d : String} (written : ofResult t = .ok d) :
    ∃ r, Rep.ofResult t = .ok r ∧ d = item r (refName t) := by
  unfold ofResult at written
  cases rep : Rep.ofResult t with
  | error e =>
    rw [rep] at written
    cases written
  | ok r =>
    rw [rep] at written
    exact ⟨r, rfl, (Except.ok.inj written).symm⟩

theorem mapM_ofTy_writes {params : List Ty} {items : List String}
    (nameable : ∀ t ∈ params, Nameable (refName t)) (written : params.mapM ofTy = .ok items) :
    ∃ reps, params.map Rep.ofTy = reps.map .ok ∧
      List.Forall₂ (fun (item : String) r => Item (item : Text).bytes r) items reps := by
  induction params generalizing items with
  | nil =>
    cases written
    exact ⟨[], rfl, .nil⟩
  | cons t params ih =>
    rw [List.forall_mem_cons] at nameable
    rw [List.mapM_cons] at written
    cases first : ofTy t with
    | error e =>
      rw [first] at written
      cases written
    | ok d =>
      cases rest : params.mapM ofTy with
      | error e =>
        rw [first, rest] at written
        cases written
      | ok ds =>
        rw [first, rest] at written
        cases written
        obtain ⟨r, rep, rfl⟩ := ofTy_eq_ok first
        obtain ⟨reps, eq, each⟩ := ih nameable.2 rest
        exact ⟨r :: reps, congrArg₂ List.cons rep eq,
          .cons (item_writes nameable.1 (Rep.ofTy_ne_void rep)) each⟩

theorem describes_write {params : List Ty} {result : Ty} {d : String}
    (nameable : ∀ t ∈ result :: params, Nameable (refName t))
    (written : write params result = .ok d) :
    ∃ reps r, params.map Rep.ofTy = reps.map .ok ∧ Rep.ofResult result = .ok r ∧
      Describes (d : Text).bytes ⟨reps, r⟩ := by
  rw [List.forall_mem_cons] at nameable
  unfold write at written
  cases items : params.mapM ofTy with
  | error e =>
    rw [items] at written
    cases written
  | ok ps =>
    cases last : ofResult result with
    | error e =>
      rw [items, last] at written
      cases written
    | ok l =>
      rw [items, last] at written
      cases written
      obtain ⟨reps, eq, each⟩ := mapM_ofTy_writes nameable.2 items
      obtain ⟨r, rep, rfl⟩ := ofResult_eq_ok last
      exact ⟨reps, r, eq, rep, describes_joined each (last_writes nameable.1)⟩

theorem describes_ofReprs {params : List Rep} (filled : .void ∉ params) (result : Rep) :
    Describes (ofReprs params result : Text).bytes ⟨params, result⟩ := by
  have nameable : Nameable "object" := by decide
  refine describes_joined ?_ (last_writes nameable)
  rw [List.forall₂_map_left_iff, List.forall₂_same]
  exact fun r inside => item_writes nameable fun void => filled (void ▸ inside)

theorem ofResult_eq (t : Ty) : Rep.ofResult t = if t = .unit then .ok .void else Rep.ofTy t := by
  cases t <;> rfl

/-- The descriptor of a method says how its parameters and its result are held, from whichever of the
two it was written, and a text is read exactly if it has the form of a descriptor. -/
theorem parse_iff_describes :
    (∀ (params : List Ty) (result : Ty) (d : String),
      (∀ t ∈ result :: params, ∀ name ∈ givenName? t, Nameable name) →
      write params result = .ok d →
      ∃ s : Signature, parse d = .ok s ∧ s.params.map .ok = params.map Rep.ofTy ∧
        .ok s.result = if result = .unit then .ok .void else Rep.ofTy result) ∧
    (∀ (params : List Rep) (result : Rep), .void ∉ params →
      parse (ofReprs params result) = .ok ⟨params, result⟩) ∧
    ∀ (text : Text) (s : Signature), parse text = .ok s ↔ Describes text.bytes s := by
  refine ⟨fun params result d given written => ?_, fun params result filled => ?_,
    fun _ _ => parse_eq_ok⟩
  · have nameable := fun t inside => nameable_refName (given t inside)
    obtain ⟨reps, r, eq, rep, describes⟩ := describes_write nameable written
    exact ⟨⟨reps, r⟩, parse_eq_ok.2 describes, eq.symm, by rw [← ofResult_eq, rep]⟩
  · exact parse_eq_ok.2 (describes_ofReprs filled result)

/-- Names may hold brackets, blanks and letters of items; the text ends with the result. -/
theorem parse_iff_describes_odd :
    (∃ s : Signature, parse "(ILx)(ZD V;Lhost.a/b.C;D)V" = .ok s ∧
      s.params.map .ok =
        [Ty.int, .app "x)(ZD V" [.bool], .host "a/b.C", .double].map Rep.ofTy ∧
      .ok s.result = if Ty.unit = .unit then .ok .void else Rep.ofTy .unit) ∧
    parse (ofReprs [.ref, .double, .bool] .ref) = .ok ⟨[.ref, .double, .bool], .ref⟩ ∧
    ∀ s, ¬ Describes (Text.ofString "()II").bytes s := by
  refine ⟨parse_iff_describes.1 _ .unit _ (by decide) rfl,
    parse_iff_describes.2.1 _ _ (by decide), fun s describes => ?_⟩
  have read := (parse_iff_describes.2.2 (Text.ofString "()II") s).2 describes
  have refused : parse (Text.ofString "()II") = .error ⟨Text.ofString "()II", .trailing⟩ := rfl
  cases refused.symm.trans read

end StackML.Descriptor
