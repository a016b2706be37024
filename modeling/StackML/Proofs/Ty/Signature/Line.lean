import Mathlib
import StackML.Text.Blank
import StackML.Proofs.Ty.Signature.Rendering

/-!
Signatures as parts of a line. The text written for a type has no line break and ends with a
character that is no blank, so that reading line by line and dropping blanks at the ends of a line
keep it whole.
-/

namespace StackML.Signature

theorem derives_render {t : Ty} (h : Writable t) : Derives (Text.ofString (render t)) (treeOf t) t := by
  have spelled := spells_render t h [] (by rintro b ⟨⟩)
  rw [List.append_nil] at spelled
  exact ⟨spelled, type?_treeOf t h⟩

def Inline (s : String) : Prop := '\n' ∉ s.toList

instance (s : String) : Decidable (Inline s) := inferInstanceAs (Decidable (¬ _))

theorem Inline.append {a b : String} (ha : Inline a) (hb : Inline b) : Inline (a ++ b) := by
  rw [Inline, String.toList_append, List.mem_append]
  exact fun member => member.elim ha hb

theorem inline_of_class {p : Char → Bool} {s : String} (apart : p '\n' = false)
    (h : ∀ c ∈ s.toList, p c = true) : Inline s := fun member => by
  rw [h '\n' member] at apart
  cases apart

theorem isWord_chars {name : String} (h : isWord name = true) :
    ∀ c ∈ name.toList, isWordChar c = true :=
  List.all_eq_true.1 (Bool.and_eq_true_iff.1 h).2

theorem isHostName_chars {name : String} (h : isHostName name = true) :
    ∀ c ∈ name.toList, isHostChar c = true :=
  List.all_eq_true.1 (Bool.and_eq_true_iff.1 h).2

theorem isTypeName_word {name : String} (h : isTypeName name = true) : isWord name = true :=
  (isTypeName_iff.1 h).1

def isVarChar (c : Char) : Bool := c == '\'' || isWordChar c

theorem varText_chars {id : VarId} (known : IsVarId id) (numeric : Bool) :
    ∀ c ∈ (Ty.varText id numeric).toList, isVarChar c = true := by
  rw [toList_varText known]
  intro c member
  rcases List.mem_cons.1 member with rfl | member
  · rfl
  rcases List.mem_cons.1 member with rfl | digit
  · cases numeric <;> rfl
  · have digit := Nat.isDigit_of_mem_toDigits (Nat.succ_pos 9) (Nat.le_refl 10) digit
    simp [isVarChar, isWordChar, Char.isAlphanum, digit]

theorem inline_varText {id : VarId} (known : IsVarId id) (numeric : Bool) :
    Inline (Ty.varText id numeric) :=
  inline_of_class rfl (varText_chars known numeric)

theorem inline_bracketed {text : String} (wide : Bool) (h : Inline text) :
    Inline (Ty.bracketed wide text) := by
  cases wide with
  | false => exact h
  | true => exact (Inline.append (by decide) h).append (by decide)

theorem inline_intercalate {parts : List String} (h : ∀ s ∈ parts, Inline s) :
    Inline (", ".intercalate parts) := by
  induction parts with
  | nil => exact (by decide : Inline "")
  | cons a rest ih =>
    have here := h a List.mem_cons_self
    cases rest with
    | nil => rwa [String.intercalate_singleton]
    | cons b rest =>
      rw [String.intercalate_cons_cons]
      exact (here.append (by decide)).append (ih fun s member => h s (List.mem_cons_of_mem _ member))

theorem inline_argumentList {parts : List String} (h : ∀ s ∈ parts, Inline s) :
    Inline (argumentList parts) :=
  (Inline.append (by decide) (inline_intercalate h)).append (by decide)

theorem inline_quantifierText {vars : List VarId} (known : ∀ id ∈ vars, IsVarId id) (body : Ty) :
    Inline (Ty.quantifierText vars body) := by
  induction vars with
  | nil => exact (by decide : Inline "")
  | cons id vars ih =>
    have later := ih fun id member => known id (List.mem_cons_of_mem _ member)
    have here := inline_varText (known id List.mem_cons_self) (body.isNumericIn id)
    rw [Ty.quantifierText, List.map_cons, String.join_cons]
    exact (Inline.append (by decide) here).append later

theorem inline_postfixArguments {args : List (Bool × String)} (h : ∀ a ∈ args, Inline a.2) :
    Inline (postfixArguments args) := by
  match args with
  | [(wide, text)] => exact inline_bracketed wide (h (wide, text) List.mem_cons_self)
  | [] => exact inline_argumentList nofun
  | a :: b :: rest =>
    refine inline_argumentList fun s member => ?_
    obtain ⟨x, inside, rfl⟩ := List.mem_map.1 member
    exact h x inside

mutual
theorem inline_render : (t : Ty) → Writable t → Inline (render t)
  | .int, _ | .double, _ | .string, _ | .bool, _ | .unit, _ => by decide
  | .var _, h | .num _, h => inline_varText h _
  | .host _, h => Inline.append (by decide) (inline_of_class rfl (isHostName_chars h))
  | .named _, h => inline_of_class rfl (isWord_chars (isTypeName_word h))
  | .list a, h => (inline_bracketed _ (inline_render a h)).append (by decide)
  | .result a b, h => by
    refine (inline_argumentList fun s member => ?_).append (by decide)
    rcases List.mem_pair.1 member with rfl | rfl
    · exact inline_render a h.1
    · exact inline_render b h.2
  | .app _ as, h =>
    ((inline_postfixArguments (inline_renderAll as h.2)).append (by decide)).append
      (inline_of_class rfl (isWord_chars (isTypeName_word h.1)))
  | .fn a b, h =>
    ((inline_bracketed _ (inline_render a h.1)).append (by decide)).append (inline_render b h.2)
  | .scheme _ a, h =>
    ((Inline.append (by decide) (inline_quantifierText h.1 a)).append (by decide)).append
      (inline_render a h.2)

theorem inline_renderAll : (as : List Ty) → AllWritable as → ∀ x ∈ renderAll as, Inline x.2
  | [], _, _, member => by cases member
  | a :: as, h, x, member => by
    rcases List.mem_cons.1 member with rfl | member
    · exact inline_render a h.1
    · exact inline_renderAll as h.2 x member
end

def EndsSolid (s : String) : Prop := ∃ c ∈ s.toList.getLast?, Text.isBlank c = false

theorem EndsSolid.behind {s : String} (a : String) (h : EndsSolid s) : EndsSolid (a ++ s) := by
  obtain ⟨c, last, solid⟩ := h
  refine ⟨c, ?_, solid⟩
  rw [String.toList_append, List.getLast?_append, last]
  rfl

theorem endsSolid_of_class {p : Char → Bool} {s : String} (filled : s ≠ "")
    (solid : ∀ c, p c = true → Text.isBlank c = false) (h : ∀ c ∈ s.toList, p c = true) :
    EndsSolid s := by
  have some : s.toList ≠ [] := fun none => filled (String.toList_eq_nil_iff.1 none)
  have last := List.getLast?_eq_some_getLast some
  exact ⟨_, last, solid _ (h _ (List.getLast_mem some))⟩

theorem isHostChar_solid (c : Char) (h : isHostChar c = true) : Text.isBlank c = false := by
  have each : ∀ n < 128, isHostChar (Char.ofNat n) = true → Text.isBlank (Char.ofNat n) = false := by
    decide
  have here := each c.toNat (isHostByte_ofNat h).1
  rw [Char.ofNat_toNat] at here
  exact here h

theorem isWordChar_solid (c : Char) (h : isWordChar c = true) : Text.isBlank c = false :=
  isHostChar_solid c (by rw [isHostChar, h]; rfl)

theorem isVarChar_solid (c : Char) (h : isVarChar c = true) : Text.isBlank c = false := by
  rcases Bool.or_eq_true_iff.1 h with mark | word
  · rw [eq_of_beq mark]
    rfl
  · exact isWordChar_solid c word

theorem endsSolid_word {name : String} (h : isWord name = true) : EndsSolid name := by
  refine endsSolid_of_class ?_ isWordChar_solid (isWord_chars h)
  rintro rfl
  cases h

theorem endsSolid_varText {id : VarId} (known : IsVarId id) (numeric : Bool) :
    EndsSolid (Ty.varText id numeric) := by
  refine endsSolid_of_class (fun none => ?_) isVarChar_solid (varText_chars known numeric)
  have chars := toList_varText known numeric
  rw [none] at chars
  cases chars

theorem endsSolid_render : (t : Ty) → Writable t → EndsSolid (render t)
  | .int, _ | .double, _ | .string, _ | .bool, _ | .unit, _ => endsSolid_word rfl
  | .var _, h | .num _, h => endsSolid_varText h _
  | .host name, h => by
    refine .behind "@" (endsSolid_of_class ?_ isHostChar_solid (isHostName_chars h))
    rintro rfl
    cases h
  | .named _, h => endsSolid_word (isTypeName_word h)
  | .list _, _ => .behind _ ⟨'t', rfl, rfl⟩
  | .result _ _, _ => .behind _ ⟨'t', rfl, rfl⟩
  | .app _ _, h => .behind _ (endsSolid_word (isTypeName_word h.1))
  | .fn _ b, h => .behind _ (endsSolid_render b h.2)
  | .scheme _ a, h => .behind _ (endsSolid_render a h.2)

end StackML.Signature
