import StackML.Proofs.Expr.Reading

/-!
How a text reads, by the level that it binds at: as an atom, as an application, as an operand, as
operators of some level, and as what reaches as far as it can. Each of these makes it readable where
less is asked for, and brackets make an atom of any of them.
-/

namespace StackML.Print

/-! ### Names -/

def keywords : List String := ["if", "let", "fn", "then", "else", "in", "not", "true", "false"]

/-- A name without signs is one word wherever it stands. -/
def IsWord (name : String) : Prop := ∀ c ∈ name.toList, isWordChar c

instance (name : String) : Decidable (IsWord name) :=
  List.decidableBAll (isWordChar · = true) name.toList

theorem IsWord.sign_not_mem {name : String} (word : IsWord name) {c : Char} (sign : c ∈ signs) :
    c ∉ name.toList := by
  intro member
  have other := word c member
  rw [isWordChar, Bool.not_eq_true', List.contains_eq_mem, decide_eq_false_iff_not] at other
  exact other sign

structure IsName (name : String) : Prop where
  filled : name ≠ ""
  word : IsWord name
  noDigit : name.toList.head?.any Char.isDigit = false
  noKeyword : name ∉ keywords

/-! ### What may follow -/

structure Ends (rest : List Char) : Prop where
  word : word rest = []
  argument : startsArgument rest = false

structure Stops (rest : List Char) : Prop extends Ends rest where
  operator : operator? rest = none

structure Closing (rest : List Char) : Prop extends Stops rest where
  semicolon : skip? "; " rest = none

section Following

variable (s : List Char)

theorem closing_nil : Closing [] := ⟨⟨⟨rfl, rfl⟩, rfl⟩, rfl⟩

def closingMarks : List String := [")", "]", ", ", " then ", " else ", " in "]

theorem closing_mark (mark : String) (known : mark ∈ closingMarks) : Closing (mark.toList ++ s) := by
  simp only [closingMarks, List.mem_cons, List.not_mem_nil, or_false] at known
  rcases known with rfl | rfl | rfl | rfl | rfl | rfl <;> exact ⟨⟨⟨rfl, rfl⟩, rfl⟩, rfl⟩

theorem stops_semicolon : Stops ("; ".toList ++ s) := ⟨⟨rfl, rfl⟩, rfl⟩

theorem Operator.ends_spaced (op : Operator) : Ends (op.spaced s) := by
  cases op with
  | cons => exact ⟨rfl, rfl⟩
  | binary op => cases op <;> exact ⟨rfl, rfl⟩

theorem Operator.operator?_spaced (op : Operator) : operator? (op.spaced s) = some (op, s) := by
  cases op with
  | cons => rfl
  | binary op => cases op <;> rfl

end Following

def formWords : List (List Char) := openers ++ closers ++ ["not".toList]

theorem word_append {s rest : List Char} (ends : word rest = []) : word (s ++ rest) = word s := by
  unfold word at ends ⊢
  rw [List.takeWhile_append, ends, List.append_nil]
  split
  · next whole => exact ((List.takeWhile_prefix _).eq_of_length whole).symm
  · rfl

/-! ### How a text reads -/

variable {t : List Char} {x : Expr Unit} {level : Nat}

structure Begins (t : List Char) : Prop where
  filled : t ≠ []
  noSign : t.head? ≠ some '-'
  noWord : word t ∉ formWords

theorem Begins.append (h : Begins t) {s : List Char} (ends : word s = []) : Begins (t ++ s) where
  filled := List.append_ne_nil_of_left_ne_nil h.filled s
  noSign := by
    have first := List.head?_eq_some_head h.filled
    rw [List.head?_append, first, Option.some_or, ← first]
    exact h.noSign
  noWord := by
    rw [word_append ends]
    exact h.noWord

structure AsAtom (t : List Char) (x : Expr Unit) : Prop extends Begins t where
  reads {rest : List Char} : word rest = [] → Reads .atom (t ++ rest) (x, rest)
  argument {rest : List Char} : word rest = [] → startsArgument (' ' :: (t ++ rest)) = true

structure AsApplication (t : List Char) (x : Expr Unit) : Prop extends Begins t where
  reads {rest : List Char} : Ends rest → Reads .application (t ++ rest) (x, rest)

structure AsOperand (t : List Char) (x : Expr Unit) : Prop where
  noOpener : word t ∉ openers
  reads {rest : List Char} : Ends rest → Reads .operand (t ++ rest) (x, rest)

structure AsTight (level : Nat) (t : List Char) (x : Expr Unit) : Prop where
  noOpener : word t ∉ openers
  climbs {k : Nat} {rest : List Char} {out : Expr Unit × List Char} : k ≤ level → Ends rest →
    (∀ op s, operator? rest = some (op, s) → op.left ≤ level) → Reads (.operators k x) rest out →
    Reads (.tight k) (t ++ rest) out

structure AsLowest (t : List Char) (x : Expr Unit) : Prop where
  reads {rest : List Char} : Closing rest → Reads .lowest (t ++ rest) (x, rest)

theorem AsAtom.application (h : AsAtom t x) : AsApplication t x where
  toBegins := h.toBegins
  reads ends := .application (h.reads ends.word) (.arguments_none ends.argument)

theorem AsApplication.operand (h : AsApplication t x) : AsOperand t x where
  noOpener opener := h.noWord (List.mem_append_left _ (List.mem_append_left _ opener))
  reads {rest} ends := by
    have begins := h.append ends.word
    exact .operand begins.noSign (fun same => begins.noWord (same ▸ by decide)) (h.reads ends)

theorem AsOperand.tight (h : AsOperand t x) : AsTight level t x where
  noOpener := h.noOpener
  climbs _ ends _ more := .tight (h.reads ends) more

namespace AsTight

theorem mono {least : Nat} (h : AsTight level t x) (le : least ≤ level) : AsTight least t x where
  noOpener := h.noOpener
  climbs low ends follow more :=
    h.climbs (low.trans le) ends (fun op s found => (follow op s found).trans le) more

theorem reads {k : Nat} {rest : List Char} (h : AsTight level t x) (le : k ≤ level) (ends : Ends rest)
    (follow : ∀ op s, operator? rest = some (op, s) → op.left ≤ level ∧ op.level < k) :
    Reads (.tight k) (t ++ rest) (x, rest) :=
  h.climbs le ends (fun op s found => (follow op s found).1)
    (.operators_done fun op s found => (follow op s found).2)

theorem stops {k : Nat} {rest : List Char} (h : AsTight level t x) (le : k ≤ level)
    (stops : Stops rest) : Reads (.tight k) (t ++ rest) (x, rest) :=
  h.reads le stops.toEnds fun op s found => by
    rw [stops.operator] at found
    cases found

theorem lowest (h : AsTight level t x) (le : 1 ≤ level) : AsLowest t x where
  reads {rest} closing := by
    have other : word (t ++ rest) ∉ openers := by
      rw [word_append closing.word]
      exact h.noOpener
    exact .lowest other (h.stops le closing.toStops) (.sequence_one closing.semicolon)

end AsTight

theorem AsTight.join {op : Operator} {t' : List Char} {x' : Expr Unit} (l : AsTight op.left t x)
    (r : AsTight op.right t' x') : AsTight op.level (t ++ op.spaced t') (op.join x x') where
  noOpener := by
    rw [word_append (op.ends_spaced t').word]
    exact l.noOpener
  climbs {k rest out} le ends follow more := by
    have behind : t ++ op.spaced t' ++ rest = t ++ op.spaced (t' ++ rest) := by
      simp [Operator.spaced]
    have operand : Reads (.tight op.right) (t' ++ rest) (x', rest) :=
      r.reads le_rfl ends fun next s found =>
        ⟨(follow next s found).trans op.level_le_right, Operator.level_lt_right (follow next s found)⟩
    rw [behind]
    -- what the left text reads as becomes the left operand of `op`, however far left it began
    refine l.climbs (le.trans op.level_le_left) (op.ends_spaced _) ?_
      (.operators_next (op.operator?_spaced _) le operand more)
    intro next s found
    rw [op.operator?_spaced] at found
    cases found
    exact le_rfl

theorem AsLowest.bracketed (h : AsLowest t x) : AsAtom ('(' :: (t ++ [')'])) x where
  filled := List.cons_ne_nil _ _
  noSign := by simp
  noWord := by
    change [] ∉ formWords
    decide
  reads {rest} _ := by
    rw [List.cons_append, List.append_assoc]
    exact .bracketed (h.reads (closing_mark rest ")" (by decide))) rfl
  argument _ := rfl

/-! ### Words -/

theorem word_of_isWord {s rest : List Char} (whole : ∀ c ∈ s, isWordChar c) (ends : word rest = []) :
    word (s ++ rest) = s := by
  unfold word at ends ⊢
  rw [List.takeWhile_append_of_pos whole, ends, List.append_nil]

theorem afterWord_of_isWord {s rest : List Char} (whole : ∀ c ∈ s, isWordChar c)
    (ends : word rest = []) : afterWord (s ++ rest) = rest := by
  have same := List.takeWhile_append_dropWhile (p := isWordChar) (l := rest)
  unfold word at ends
  rw [ends, List.nil_append] at same
  unfold afterWord
  rw [List.dropWhile_append_of_pos whole, same]

theorem AsAtom.of_word (whole : ∀ c ∈ t, isWordChar c) (filled : t ≠ []) (noWord : t ∉ formWords) :
    AsAtom t (leaf t) where
  filled := filled
  noSign := by
    intro sign
    obtain ⟨s, rfl⟩ := List.head?_eq_some_iff.1 sign
    exact absurd (whole '-' List.mem_cons_self) (by decide)
  noWord := by
    have known := word_of_isWord whole (rfl : word [] = [])
    rw [List.append_nil] at known
    rwa [known]
  reads {rest} ends := by
    have known := word_of_isWord whole ends
    have found : word (t ++ rest) ≠ [] := by rwa [known]
    have read := Reads.leaf found
    rwa [known, afterWord_of_isWord whole ends] at read
  argument {rest} ends := by
    have known := word_of_isWord whole ends
    have other : t ∉ closers := fun closer =>
      noWord (List.mem_append_left _ (List.mem_append_right _ closer))
    obtain ⟨c, s, rfl⟩ := List.exists_cons_of_ne_nil filled
    have first : isWordChar c := whole c List.mem_cons_self
    rw [List.cons_append] at known ⊢
    unfold startsArgument
    split
    · rfl
    · rfl
    · next same =>
      cases same
      rw [known]
      simp [other]
    · next outside => exact (outside _ rfl).elim

/-! ### The forms -/

theorem leaf_of_isName {name : String} (h : IsName name) :
    leaf name.toList = .var () name := by
  have other {k : String} (keyword : k ∈ keywords) : name.toList ≠ k.toList := fun same =>
    h.noKeyword (String.toList_inj.1 same ▸ keyword)
  unfold leaf
  rw [if_neg (other (by decide)), if_neg (other (by decide)), if_neg (by simp [h.noDigit]),
    String.ofList_toList]

theorem asAtom_var {name : String} (h : IsName name) : AsAtom name.toList (.var () name) := by
  rw [← leaf_of_isName h]
  refine .of_word h.word (fun empty => h.filled (String.toList_eq_nil_iff.1 empty)) fun form => ?_
  have known : ∀ w ∈ formWords, String.ofList w ∈ keywords := by decide
  have keyword := known _ form
  rw [String.ofList_toList] at keyword
  exact h.noKeyword keyword

section Digits

variable (n : Nat)

theorem isDigit_toDigits : ∀ c ∈ Nat.toDigits 10 n, c.isDigit := fun _ member =>
  Nat.isDigit_of_mem_toDigits (by decide) le_rfl member

theorem isWordChar_of_isDigit {c : Char} (digit : c.isDigit) : isWordChar c := by
  have apart : signs.all fun s => !s.isDigit := by decide
  rw [isWordChar, Bool.not_eq_true', List.contains_eq_mem, decide_eq_false_iff_not]
  intro sign
  have other := List.all_eq_true.1 apart c sign
  rw [digit] at other
  cases other

theorem toDigits_ne {w : List Char} (letter : w.all Char.isDigit = false) :
    Nat.toDigits 10 n ≠ w := by
  rintro rfl
  rw [List.all_eq_true.2 (isDigit_toDigits n)] at letter
  cases letter

theorem leaf_toDigits : leaf (Nat.toDigits 10 n) = .int () (Int64.ofNat n) := by
  have first : (Nat.toDigits 10 n).head?.any Char.isDigit := by
    obtain ⟨c, s, shape⟩ := List.exists_cons_of_ne_nil (Nat.toDigits_ne_nil (b := 10) (n := n))
    rw [shape]
    exact isDigit_toDigits n c (shape ▸ List.mem_cons_self)
  unfold leaf
  rw [if_neg (toDigits_ne n (by decide)), if_neg (toDigits_ne n (by decide)), if_pos first,
    Nat.ofDigitChars_ten_toDigits]

theorem asAtom_toDigits : AsAtom (Nat.toDigits 10 n) (.int () (Int64.ofNat n)) := by
  have letters : ∀ w ∈ formWords, w.all Char.isDigit = false := by decide
  rw [← leaf_toDigits n]
  exact .of_word (fun c member => isWordChar_of_isDigit (isDigit_toDigits n c member))
    Nat.toDigits_ne_nil (fun form => toDigits_ne n (letters _ form) rfl)

end Digits

theorem asAtom_int {v : Int64} (nonneg : 0 ≤ v.toInt) :
    AsAtom (toString v.toInt).toList (.int () v) := by
  obtain ⟨n, value⟩ := Int.eq_ofNat_of_zero_le nonneg
  have digits : (toString (n : Int)).toList = Nat.toDigits 10 n := by
    change (toString n).toList = Nat.toDigits 10 n
    rw [Nat.toString_eq_ofList_toDigits, String.toList_ofList]
  have same : Int64.ofNat n = v := by
    rw [← Int64.ofInt_eq_ofNat, ← value, Int64.ofInt_toInt]
  rw [value, digits, ← same]
  exact asAtom_toDigits n

theorem intercalate_cons (mark : List Char) (s : List Char) (ss : List (List Char)) :
    mark.intercalate (s :: ss) = s ++ ss.flatMap (mark ++ ·) := by
  induction ss generalizing s with
  | nil => simp
  | cons s' ss ih => rw [List.intercalate_cons_cons, ih, List.flatMap_cons, List.append_assoc,
      List.append_assoc]

theorem asAtom_bool (v : Bool) :
    AsAtom (if v then "true".toList else "false".toList) (.bool () v) := by
  cases v with
  | true => exact .of_word (by decide : IsWord "true") (by decide) (by decide)
  | false => exact .of_word (by decide : IsWord "false") (by decide) (by decide)

theorem asAtom_unit : AsAtom ['(', ')'] (.unit ()) where
  filled := List.cons_ne_nil _ _
  noSign := by decide
  noWord := by decide
  reads _ := .unit
  argument _ := rfl

theorem AsApplication.neg (h : AsApplication t x) : AsOperand ("-".toList ++ t) (.unary () .neg x) where
  noOpener := by
    change [] ∉ openers
    decide
  reads ends := .operand_neg (h.reads ends)

theorem AsApplication.not (h : AsApplication t x) :
    AsOperand ("not ".toList ++ t) (.unary () .not x) where
  noOpener := by
    change "not".toList ∉ openers
    decide
  reads {rest} ends := by
    rw [List.append_assoc]
    exact .operand_not (h.reads ends)

theorem parameters_params {ps : List String} (words : ∀ p ∈ ps, IsWord p) :
    parameters ((params ps).toList ++ [' ']) = ps := by
  cases ps with
  | nil => decide
  | cons p ps =>
    have blanks : (params (p :: ps)).toList ++ [' '] =
        [' '].intercalate ([] :: ((p :: ps).map String.toList ++ [[]])) := by
      rw [intercalate_cons]
      simp [params, String.toList_join, List.flatMap_map]
    have whole : ∀ l ∈ [] :: ((p :: ps).map String.toList ++ [[]]), ' ' ∉ l := by
      intro l member
      rcases List.mem_cons.1 member with rfl | member
      · exact List.not_mem_nil
      rcases List.mem_append.1 member with member | member
      · obtain ⟨name, inside, rfl⟩ := List.mem_map.1 member
        exact (words name inside).sign_not_mem (by decide)
      · rw [List.mem_singleton.1 member]
        exact List.not_mem_nil
    have names : ((([] :: ((p :: ps).map String.toList ++ [[]])).drop 1).dropLast.map String.ofList) =
        p :: ps := by
      rw [List.drop_one, List.tail_cons, List.dropLast_concat, List.map_map]
      simp [Function.comp_def]
    have other : p :: ps ≠ ["()"] := by
      intro same
      have unit := words p List.mem_cons_self
      rw [(List.cons.inj same).1] at unit
      exact unit.sign_not_mem (c := '(') (by decide) (by decide)
    rw [parameters, blanks, List.splitOn_intercalate _ whole (List.cons_ne_nil _ _)]
    simp only [names, if_neg other]

theorem not_mem_params {ps : List String} (words : ∀ p ∈ ps, IsWord p) :
    ∀ c ∈ (params ps).toList, (c != '=') = true := by
  intro c member
  cases ps with
  | nil =>
    have plain : (params []).toList.all (· != '=') := by decide
    exact List.all_eq_true.1 plain c member
  | cons p ps =>
    simp only [params, List.isEmpty_cons, Bool.false_eq_true, if_false, String.toList_join,
      List.mem_flatMap, List.mem_map] at member
    obtain ⟨s, ⟨name, inside, rfl⟩, member⟩ := member
    rw [String.toList_append] at member
    rw [bne_iff_ne]
    rintro rfl
    rcases List.mem_append.1 member with blank | member
    · exact absurd blank (by decide)
    · exact (words name inside).sign_not_mem (by decide) member

theorem asLowest_lambda {ps : List String} {t : List Char} {x : Expr Unit}
    (words : ∀ p ∈ ps, IsWord p) (body : AsLowest t x) :
    AsLowest ("fn".toList ++ ((params ps).toList ++ (" = ".toList ++ t))) (.lambda () ps x) where
  reads {rest} closing := by
    have plain := not_mem_params words
    have blank : ((params ps).toList ++ (" = ".toList ++ (t ++ rest))).head? = some ' ' := by
      cases ps <;> simp [params, String.toList_join]
    have header : ((params ps).toList ++ (" = ".toList ++ (t ++ rest))).takeWhile (· != '=') =
        (params ps).toList ++ [' '] := by
      rw [List.takeWhile_append_of_pos plain]
      rfl
    have equals : skip? "= " (((params ps).toList ++ (" = ".toList ++ (t ++ rest))).dropWhile
        (· != '=')) = some (t ++ rest) := by
      rw [List.dropWhile_append_of_pos plain]
      rfl
    have read := Reads.lambda blank equals (body.reads closing)
    rw [header, parameters_params words] at read
    simpa using read

theorem asLowest_letIn {name : String} {t t' : List Char} {x x' : Expr Unit} (word : IsWord name)
    (value : AsLowest t x) (body : AsLowest t' x') :
    AsLowest ("let ".toList ++ (name.toList ++ (" = ".toList ++ (t ++ (" in ".toList ++ t')))))
      (.letIn () name x x') where
  reads {rest} closing := by
    have ends : Print.word (" = ".toList ++ (t ++ (" in ".toList ++ (t' ++ rest)))) = [] := rfl
    have equals : skip? " = " (afterWord (name.toList ++ (" = ".toList ++ (t ++ (" in ".toList ++
        (t' ++ rest)))))) = some (t ++ (" in ".toList ++ (t' ++ rest))) := by
      rw [afterWord_of_isWord word ends]
      rfl
    have read := Reads.letIn (word_of_isWord word ends) equals (value.reads (closing_mark _ _ (by decide))) rfl
      (body.reads closing)
    rw [String.ofList_toList] at read
    simpa using read

theorem asLowest_cond {t₁ t₂ t₃ : List Char} {x₁ x₂ x₃ : Expr Unit} (test : AsLowest t₁ x₁)
    (yes : AsLowest t₂ x₂) (no : AsLowest t₃ x₃) :
    AsLowest ("if ".toList ++ (t₁ ++ (" then ".toList ++ (t₂ ++ (" else ".toList ++ t₃)))))
      (.cond () x₁ x₂ x₃) where
  reads {rest} closing := by
    have read := Reads.cond (test.reads (closing_mark (t₂ ++ (" else ".toList ++ (t₃ ++ rest)))
      " then " (by decide))) rfl (yes.reads (closing_mark _ _ (by decide))) rfl
      (no.reads closing)
    simpa using read

end StackML.Print
