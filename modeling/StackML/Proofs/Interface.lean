import Mathlib
import StackML.Interface
import StackML.Proofs.Ty.Signature.Line

/-!
A descriptor and its text. Reading the text of a descriptor gives it back, whatever blank lines and
comments stand behind the header.
-/

namespace StackML

open Signature

/-! ### Blanks at the ends -/

namespace Text

def Trimmed (cs : List Char) : Prop :=
  (∀ c ∈ cs.head?, isBlank c = false) ∧ ∀ c ∈ cs.getLast?, isBlank c = false

instance (cs : List Char) : Decidable (Trimmed cs) :=
  @instDecidableAnd _ _ (Option.decidableForallMem _) (Option.decidableForallMem _)

theorem dropWhile_isBlank {cs : List Char} (h : ∀ c ∈ cs.head?, isBlank c = false) :
    cs.dropWhile isBlank = cs := by
  cases cs with
  | nil => rfl
  | cons c cs => rw [List.dropWhile_cons, h c rfl, if_neg Bool.false_ne_true]

theorem Trimmed.trimChars {cs : List Char} (h : Trimmed cs) : trimChars cs = cs := by
  have back : ∀ c ∈ cs.reverse.head?, isBlank c = false := by
    rw [List.head?_reverse]
    exact h.2
  rw [Text.trimChars, dropWhile_isBlank h.1, dropWhile_isBlank back, List.reverse_reverse]

theorem Trimmed.trimString {s : String} (h : Trimmed s.toList) : trimString s = s := by
  rw [Text.trimString, h.trimChars, String.ofList_toList]

theorem trimChars_cons {cs rest : List Char} {c : Char} (solid : isBlank c = false)
    (cut : cs.dropWhile isBlank = c :: rest) : ∃ kept, Text.trimChars cs = c :: kept := by
  have single : [c].dropWhile isBlank = [c] := by rw [List.dropWhile_cons, solid, if_neg Bool.false_ne_true]
  rw [Text.trimChars, cut, List.reverse_cons, List.dropWhile_append, single]
  split
  · exact ⟨[], rfl⟩
  · exact ⟨_, List.reverse_append⟩

theorem trimmed_of_solid {cs : List Char} (h : ∀ c ∈ cs, isBlank c = false) : Trimmed cs :=
  ⟨fun c first => h c (List.mem_of_mem_head? first), fun c last => h c (List.mem_of_getLast? last)⟩

end Text

structure Export.Readable (e : Export) : Prop where
  filled : e.name ≠ ""
  solid : ∀ c ∈ e.name.toList, Text.isBlank c = false
  plain : e.name.toList.head? ≠ some '#'
  writable : Writable e.type

instance : DecidablePred Export.Readable := fun e =>
  decidable_of_iff (e.name ≠ "" ∧ e.name.toList.all (!Text.isBlank ·) = true ∧
      e.name.toList.head? ≠ some '#' ∧ Writable e.type)
    ⟨fun h => ⟨h.1, by simpa using h.2.1, h.2.2.1, h.2.2.2⟩,
      fun h => ⟨h.filled, by simpa using h.solid, h.plain, h.writable⟩⟩

namespace Interface

/-! ### Lines -/

/-- The text of several lines, each ended by a line break. -/
def textOf (lines : List String) : String := String.join (lines.map (· ++ "\n"))

theorem textOf_cons (line : String) (rest : List String) :
    textOf (line :: rest) = line ++ "\n" ++ textOf rest := by
  rw [textOf, List.map_cons, String.join_cons]
  rfl

theorem textOf_eq_intercalate (lines : List String) :
    textOf lines = "\n".intercalate (lines ++ [""]) := by
  induction lines with
  | nil => rfl
  | cons line rest ih =>
    have filled : rest ++ [""] ≠ [] := List.append_ne_nil_of_right_ne_nil _ (List.cons_ne_nil _ _)
    rw [textOf_cons, ih, List.cons_append, String.intercalate_cons_of_ne_nil filled]

theorem splitLines_textOf {lines : List String} (inline : ∀ line ∈ lines, Inline line) :
    splitLines (textOf lines) = lines := by
  have parts : ((textOf lines).split '\n').toList.map String.Slice.copy = lines ++ [""] := by
    have each : ∀ s ∈ lines ++ [""], '\n' ∉ s.toList := by
      intro s member
      rcases List.mem_append.1 member with member | member
      · exact inline s member
      · rw [List.mem_singleton.1 member]
        decide
    rw [textOf_eq_intercalate]
    exact (String.toList_split_intercalate each).trans (if_neg (by simp))
  simp [splitLines, parts]

/-- A line that means nothing: its first character that is no blank, if it has one, is `#`. -/
def IsIdle (line : String) : Prop := ∀ c ∈ line.toList.find? (!Text.isBlank ·), c = '#'

instance (line : String) : Decidable (IsIdle line) := Option.decidableForallMem _

structure IsLine (line : String) : Prop where
  inline : Inline line
  short : line.utf8ByteSize ≤ lineLimit

inductive Padded : List String → List String → Prop where
  | nil : Padded [] []
  | keep {lines padded : List String} (line : String) (h : Padded lines padded) :
      Padded (line :: lines) (line :: padded)
  | idle {lines padded : List String} {line : String} (idle : IsIdle line) (isLine : IsLine line)
      (h : Padded lines padded) : Padded lines (line :: padded)

theorem Padded.refl : (lines : List String) → Padded lines lines
  | [] => .nil
  | line :: rest => .keep line (refl rest)

theorem Padded.isLine {lines padded : List String} (h : Padded lines padded)
    (lined : ∀ line ∈ lines, IsLine line) : ∀ line ∈ padded, IsLine line := by
  induction h with
  | nil => exact lined
  | keep line _ ih =>
    rw [List.forall_mem_cons] at lined ⊢
    exact ⟨lined.1, ih lined.2⟩
  | idle _ isLine _ ih =>
    rw [List.forall_mem_cons]
    exact ⟨isLine, ih lined⟩

/-! ### The lines of a descriptor -/

structure Readable (i : Interface) : Prop where
  named : i.module ≠ ""
  inline : Inline i.module
  trimmed : Text.Trimmed i.module.toList
  exports : ∀ e ∈ i.exports, e.Readable
  short : ∀ line ∈ i.lines, line.utf8ByteSize ≤ lineLimit

instance : DecidablePred Readable := fun i =>
  decidable_of_iff (i.module ≠ "" ∧ Inline i.module ∧ Text.Trimmed i.module.toList ∧
      (∀ e ∈ i.exports, e.Readable) ∧ ∀ line ∈ i.lines, line.utf8ByteSize ≤ lineLimit)
    ⟨fun h => ⟨h.1, h.2.1, h.2.2.1, h.2.2.2.1, h.2.2.2.2⟩,
      fun h => ⟨h.named, h.inline, h.trimmed, h.exports, h.short⟩⟩

/-- The line that names the module. -/
def header (module : String) : String := "# module " ++ module

/-- The line of an export. -/
def exportLine (e : Export) : String := e.name ++ " : " ++ Signature.render e.type

theorem lines_eq (i : Interface) : i.lines = header i.module :: i.exports.map exportLine := rfl

/-! ### Reading a line -/

theorem isPrefixOf_append (start rest : String) : start.isPrefixOf (start ++ rest) = true := by
  rw [String.isPrefixOf, String.startsWith_string_iff, String.toList_append]
  exact List.prefix_append _ _

theorem isPrefixOf_hash {s : String} : "#".isPrefixOf s = true ↔ s.toList.head? = some '#' := by
  rw [String.isPrefixOf, String.startsWith_string_iff]
  have single : "#".toList = ['#'] := rfl
  cases chars : s.toList <;> simp [single, eq_comm]

theorem trimString_idle {line : String} (h : IsIdle line) :
    Text.trimString line = "" ∨ "#".isPrefixOf (Text.trimString line) = true := by
  rw [IsIdle, List.find?_eq_head?_dropWhile_not] at h
  simp only [Bool.not_not] at h
  cases cut : line.toList.dropWhile Text.isBlank with
  | nil =>
    left
    rw [Text.trimString, Text.trimChars, cut]
    rfl
  | cons c rest =>
    right
    obtain rfl : c = '#' := h c (by rw [cut]; rfl)
    obtain ⟨kept, chars⟩ := Text.trimChars_cons rfl cut
    rw [isPrefixOf_hash, Text.trimString, String.toList_ofList, chars]
    rfl

theorem trimmed_header {module : String} (filled : module ≠ "")
    (trimmed : Text.Trimmed module.toList) : Text.Trimmed (header module).toList := by
  have some : module.toList ≠ [] := fun none => filled (String.toList_eq_nil_iff.1 none)
  rw [header, String.toList_append]
  refine ⟨?_, ?_⟩
  · rintro c ⟨⟩
    rfl
  · rw [List.getLast?_append_of_ne_nil _ some]
    exact trimmed.2

theorem header?_header {module : String} (trimmed : Text.Trimmed module.toList) :
    header? (header module) = some module := by
  have rest : (header module).toList.drop "# module ".length = module.toList := by
    rw [header, String.toList_append]
    exact List.drop_left
  rw [header?, header, if_pos (isPrefixOf_append _ _), ← header, rest, String.ofList_toList,
    trimmed.trimString]

theorem splitExport_append (before name rest : List Char) (solid : ' ' ∉ name) :
    splitExport before (name ++ ' ' :: ':' :: ' ' :: rest) = some (before.reverse ++ name, rest) := by
  induction name generalizing before with
  | nil => rw [List.nil_append, splitExport, List.append_nil]
  | cons c name ih =>
    rw [List.mem_cons, not_or] at solid
    rw [List.cons_append, splitExport, ih (c :: before) solid.2, List.reverse_cons, List.append_assoc]
    · rfl
    · rintro _ blank -
      exact solid.1 blank.symm

theorem trimmed_exportLine {e : Export} (h : e.Readable) : Text.Trimmed (exportLine e).toList := by
  have some : e.name.toList ≠ [] := fun none => h.filled (String.toList_eq_nil_iff.1 none)
  refine ⟨fun c first => h.solid c ?_, fun c last => ?_⟩
  · rw [exportLine, String.append_assoc, String.toList_append, List.head?_append_of_ne_nil _ some] at first
    exact List.mem_of_mem_head? first
  · obtain ⟨d, ends, solid⟩ := (endsSolid_render e.type h.writable).behind (e.name ++ " : ")
    rw [exportLine] at last
    exact Option.mem_unique last ends ▸ solid

theorem exportOf_exportLine {e : Export} (h : e.Readable) : exportOf (exportLine e) = .ok e := by
  have chars : (exportLine e).toList =
      e.name.toList ++ ' ' :: ':' :: ' ' :: (Signature.render e.type).toList := by
    simp [exportLine]
  have split := splitExport_append [] e.name.toList (Signature.render e.type).toList fun member =>
    Bool.false_ne_true (h.solid ' ' member).symm
  rw [← chars] at split
  have name : Text.trimString e.name = e.name := (Text.trimmed_of_solid h.solid).trimString
  have filled : e.name.isEmpty = false := by
    rw [String.isEmpty_eq_false_iff]
    exact h.filled
  have read := parse_of_derives (derives_render h.writable)
  simp [exportOf, split, name, filled, read]

section

variable {module line : String} {e : Export} (done : List Export) (number : Nat) (rest : List String)

theorem readLines_header (filled : module ≠ "") (trimmed : Text.Trimmed module.toList)
    (short : (header module).utf8ByteSize ≤ lineLimit) :
    readLines "" done number (header module :: rest) = readLines module done (number + 1) rest := by
  have whole := (trimmed_header filled trimmed).trimString
  have comment : "#".isPrefixOf (header module) = true := isPrefixOf_append "#" (" module " ++ module)
  have some : (header module).isEmpty = false := by
    rw [String.isEmpty_eq_false_iff]
    simp [header]
  simp [readLines, Nat.not_lt.2 short, whole, some, comment, header?_header trimmed]

theorem readLines_idle (named : module ≠ "") (idle : IsIdle line)
    (short : line.utf8ByteSize ≤ lineLimit) :
    readLines module done number (line :: rest) = readLines module done (number + 1) rest := by
  rw [readLines, if_neg (Nat.not_lt.2 short)]
  rcases trimString_idle idle with blank | comment
  · simp [blank]
  · have known : module.isEmpty = false := String.isEmpty_eq_false_iff.2 named
    simp [comment, known]

theorem readLines_export (h : e.Readable) (short : (exportLine e).utf8ByteSize ≤ lineLimit) :
    readLines module done number (exportLine e :: rest) =
      readLines module (e :: done) (number + 1) rest := by
  have whole := (trimmed_exportLine h).trimString
  have some : (exportLine e).isEmpty = false := by
    rw [String.isEmpty_eq_false_iff]
    simp [exportLine]
  have plain : "#".isPrefixOf (exportLine e) = false := by
    have filled : e.name.toList ≠ [] := fun none => h.filled (String.toList_eq_nil_iff.1 none)
    rw [Bool.eq_false_iff, ne_eq, isPrefixOf_hash, exportLine, String.append_assoc,
      String.toList_append, List.head?_append_of_ne_nil _ filled]
    exact h.plain
  simp [readLines, Nat.not_lt.2 short, whole, some, plain, exportOf_exportLine h]

end

theorem readLines_padded {module : String} (named : module ≠ "") {exports : List Export}
    (readable : ∀ e ∈ exports, e.Readable) {lines : List String}
    (padded : Padded (exports.map exportLine) lines)
    (short : ∀ line ∈ lines, line.utf8ByteSize ≤ lineLimit) (done : List Export) (number : Nat) :
    readLines module done number lines = .ok ⟨module, done.reverse ++ exports⟩ := by
  generalize from_exports : exports.map exportLine = given at padded
  induction padded generalizing exports done number with
  | nil =>
    rw [List.map_eq_nil_iff.1 from_exports, List.append_nil]
    rfl
  | keep line _ ih =>
    obtain ⟨e, others, rfl, rfl, rfl⟩ := List.map_eq_cons_iff.1 from_exports
    rw [List.forall_mem_cons] at readable short
    rw [readLines_export done number _ readable.1 short.1, ih readable.2 short.2 _ _ rfl]
    simp
  | idle idle isLine _ ih =>
    rw [List.forall_mem_cons] at short
    rw [readLines_idle done number _ named idle isLine.short]
    exact ih readable short.2 done _ from_exports

theorem inline_exportLine {e : Export} (h : e.Readable) : Inline (exportLine e) := by
  have name : Inline e.name := inline_of_class (p := (!Text.isBlank ·)) rfl fun c member => by
    rw [h.solid c member]
    rfl
  exact (name.append (by decide)).append (inline_render e.type h.writable)

theorem Readable.isLine {i : Interface} (h : i.Readable) : ∀ line ∈ i.lines, IsLine line := by
  intro line member
  refine ⟨?_, h.short line member⟩
  rw [lines_eq] at member
  rcases List.mem_cons.1 member with rfl | member
  · exact Inline.append (by decide) h.inline
  · obtain ⟨e, inside, rfl⟩ := List.mem_map.1 member
    exact inline_exportLine (h.exports e inside)

theorem parse_padded {i : Interface} (h : i.Readable) {lines : List String}
    (padded : Padded (i.exports.map exportLine) lines) :
    parse (textOf (header i.module :: lines)) = .ok i := by
  have lined := h.isLine
  rw [lines_eq, List.forall_mem_cons] at lined
  have behind := padded.isLine lined.2
  have inline : ∀ line ∈ header i.module :: lines, Inline line :=
    List.forall_mem_cons.2 ⟨lined.1.inline, fun line member => (behind line member).inline⟩
  rw [parse, splitLines_textOf inline, readLines_header _ _ _ h.named h.trimmed lined.1.short,
    readLines_padded h.named h.exports padded fun line member => (behind line member).short]
  rfl

/-- A descriptor survives writing and reading: its text is read as the descriptor itself, which is
written as the same text again, and blank lines and comments behind the header change nothing. -/
theorem parse_rendered (i : Interface) (h : i.Readable) :
    parse i.render = .ok i ∧
    (parse i.render).map render = .ok i.render ∧
    ∀ lines, Padded (i.exports.map exportLine) lines →
      parse (textOf (header i.module :: lines)) = .ok i := by
  have same : parse i.render = .ok i := parse_padded h (.refl _)
  refine ⟨same, ?_, fun lines padded => parse_padded h padded⟩
  rw [same]
  rfl

/-- A polymorphic function, a constructor, and an export whose name holds the separator's colon. -/
def shapes : Interface where
  module := "Shapes 2"
  exports := [
    ⟨"map", .scheme [4, 7] (.fn (.fn (.var 4) (.num 7)) (.fn (.list (.var 4)) (.list (.num 7))))⟩,
    ⟨"make$Disc", .fn .double (.named "Shape")⟩,
    ⟨"a:b", .result (.host "strings.Builder") .string⟩]

/-- A descriptor read back, also with a blank line, a second header and an indented comment. -/
theorem parse_rendered_shapes :
    shapes.Readable ∧ parse shapes.render = .ok shapes ∧
    parse (textOf [header "Shapes 2", "", exportLine ⟨"map", shapes.exports[0].type⟩, "# module Other",
      exportLine ⟨"make$Disc", .fn .double (.named "Shape")⟩,
      exportLine ⟨"a:b", .result (.host "strings.Builder") .string⟩, "\t # a : int"]) =
      .ok shapes := by
  have readable : shapes.Readable := by decide
  have read := parse_rendered shapes readable
  refine ⟨readable, read.1, read.2.2 _ ?_⟩
  exact .idle (by decide) ⟨by decide, by decide⟩ <| .keep _ <|
    .idle (by decide) ⟨by decide, by decide⟩ <| .keep _ <| .keep _ <|
    .idle (by decide) ⟨by decide, by decide⟩ .nil

end Interface
end StackML
