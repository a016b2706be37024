import Mathlib
import StackML.Proofs.Text
import StackML.Proofs.Ty.Signature.Parsing

/-!
A type and its signature. The text written for a type consists of the tokens of a derivation tree that
means this type, so that reading the text gives the type back.
-/

namespace StackML.Signature

/-! ### The tree of a type -/

def TypeTree.narrow : TypeTree → PostfixTree
  | .plain left => left
  | x => .mk (.tuple (.last x)) []

def PostfixTree.followed (name : String) : PostfixTree → PostfixTree
  | .mk atom names => .mk atom (names ++ [name])

def argsTree : TypeTree → List TypeTree → ArgsTree
  | x, [] => .last x
  | x, y :: ys => .more x (argsTree y ys)

def argumentsTree : List TypeTree → PostfixTree
  | [] => .mk .empty []
  | [x] => x.narrow
  | x :: y :: ys => .mk (.tuple (argsTree x (y :: ys))) []

mutual
def treeOf : Ty → TypeTree
  | .int => .plain (.mk (.primitive "int") [])
  | .double => .plain (.mk (.primitive "double") [])
  | .string => .plain (.mk (.primitive "string") [])
  | .bool => .plain (.mk (.primitive "bool") [])
  | .unit => .plain (.mk (.primitive "unit") [])
  | .var id => .plain (.mk (.var (Ty.varText id false)) [])
  | .num id => .plain (.mk (.var (Ty.varText id true)) [])
  | .host name => .plain (.mk (.host name) [])
  | .named name => .plain (.mk (.name name) [])
  | .list a => .plain ((treeOf a).narrow.followed "list")
  | .result a b => .plain (.mk (.tuple (.more (treeOf a) (.last (treeOf b)))) ["result"])
  | .app name as => .plain ((argumentsTree (treesOf as)).followed name)
  | .fn a b => .arrow (treeOf a).narrow (treeOf b)
  | .scheme vars a => .scheme (vars.map fun id => Ty.varText id (a.isNumericIn id)) (treeOf a)

def treesOf : List Ty → List TypeTree
  | [] => []
  | a :: as => treeOf a :: treesOf as
end

/-! ### The types that have a signature -/

def isWordChar (c : Char) : Bool := c.isAlphanum || c == '_' || c == '$'

def isHostChar (c : Char) : Bool := isWordChar c || c == '.' || c == '/'

def isWord (name : String) : Bool := !name.isEmpty && name.toList.all isWordChar

def isTypeName (name : String) : Bool := isWord name && !isReserved name

def isHostName (name : String) : Bool := !name.isEmpty && name.toList.all isHostChar

def IsVarId (id : VarId) : Prop := 0 ≤ id ∧ id < 2 ^ 63

instance : DecidablePred IsVarId := fun id => inferInstanceAs (Decidable (0 ≤ id ∧ id < 2 ^ 63))

mutual
/-- Every name in the type can be written and every variable has a number in range. -/
def Writable : Ty → Prop
  | .int | .double | .string | .bool | .unit => True
  | .var id | .num id => IsVarId id
  | .host name => isHostName name = true
  | .named name => isTypeName name = true
  | .list a => Writable a
  | .result a b | .fn a b => Writable a ∧ Writable b
  | .app name as => isTypeName name = true ∧ AllWritable as
  | .scheme vars a => (∀ id ∈ vars, IsVarId id) ∧ Writable a

def AllWritable : List Ty → Prop
  | [] => True
  | a :: as => Writable a ∧ AllWritable as
end

mutual
def decideWritable : (t : Ty) → Decidable (Writable t)
  | .int | .double | .string | .bool | .unit => .isTrue trivial
  | .var id | .num id => inferInstanceAs (Decidable (IsVarId id))
  | .host name => inferInstanceAs (Decidable (isHostName name = true))
  | .named name => inferInstanceAs (Decidable (isTypeName name = true))
  | .list a => decideWritable a
  | .result a b | .fn a b => @instDecidableAnd _ _ (decideWritable a) (decideWritable b)
  | .app _ as => @instDecidableAnd _ _ inferInstance (decideAllWritable as)
  | .scheme vars a =>
    @instDecidableAnd _ _ (inferInstanceAs (Decidable (∀ id ∈ vars, IsVarId id))) (decideWritable a)

def decideAllWritable : (as : List Ty) → Decidable (AllWritable as)
  | [] => .isTrue trivial
  | a :: as => @instDecidableAnd _ _ (decideWritable a) (decideAllWritable as)
end

instance : DecidablePred Writable := decideWritable

/-! ### The tree means the type -/

theorem decimal?_toDigits (n : Nat) : decimal? (Nat.toDigits 10 n) = some n := by
  have digits : (Nat.toDigits 10 n).all Char.isDigit = true :=
    List.all_eq_true.2 fun c => Nat.isDigit_of_mem_toDigits (Nat.succ_pos 9) (Nat.le_refl 10)
  have filled : (Nat.toDigits 10 n).isEmpty = false := by
    simp
  have value := @Nat.ofDigitChars_ten_toDigits n
  simp only [Nat.ofDigitChars_eq_foldl, Nat.mul_comm 10] at value
  rw [decimal?, digits, filled]
  exact congrArg some value

theorem toList_varText {id : VarId} (known : IsVarId id) (numeric : Bool) :
    (Ty.varText id numeric).toList =
      '\'' :: (if numeric then 'n' else 't') :: Nat.toDigits 10 id.toNat := by
  obtain ⟨n, rfl⟩ := Int.eq_ofNat_of_zero_le known.1
  have written : toString (n : Int) = toString n := rfl
  rw [Ty.varText, written, Nat.toString_eq_ofList_toDigits]
  cases numeric <;> simp

theorem varType?_varText {id : VarId} (known : IsVarId id) (numeric : Bool) :
    varType? (Ty.varText id numeric) = some (if numeric then .num id else .var id) := by
  have value : (id.toNat : Int) = id := Int.toNat_of_nonneg known.1
  have small : id.toNat < idBound := by
    have below := (Int.toNat_lt known.1).2 known.2
    exact below
  rw [varType?, toList_varText known]
  cases numeric <;> simp [decimal?_toDigits, small, value]

theorem mapM_quantifiedId? {vars : List VarId} (known : ∀ id ∈ vars, IsVarId id)
    (numeric : VarId → Bool) :
    (vars.map fun id => Ty.varText id (numeric id)).mapM quantifiedId? = some vars := by
  induction vars with
  | nil => rfl
  | cons id vars ih =>
    have here : quantifiedId? (Ty.varText id (numeric id)) = some id := by
      rw [quantifiedId?, varType?_varText (known id List.mem_cons_self)]
      cases numeric id <;> rfl
    rw [List.map_cons, List.mapM_cons, here, ih fun id member => known id (List.mem_cons_of_mem _ member)]
    rfl

theorem TypeTree.type?_narrow {x : TypeTree} {t : Ty} (means : x.type? = some t) :
    x.narrow.type? = some t := by
  cases x with
  | plain => exact means
  | scheme | arrow => exact PostfixTree.type?_mk.2 ⟨[t], ArgsTree.types?_last.2 ⟨t, means, rfl⟩, rfl⟩

theorem named?_append {args : List Ty} {names : List String} {t : Ty} (name : String)
    (means : named? args names = some t) : named? args (names ++ [name]) = applied? [t] name := by
  induction names generalizing args with
  | nil =>
    match args, means with
    | [_], rfl => simp [named?]
  | cons first names ih =>
    rw [named?] at means
    obtain ⟨u, here, later⟩ := Option.bind_eq_some_iff.1 means
    rw [List.cons_append, named?, here]
    exact ih later

theorem PostfixTree.type?_followed {x : PostfixTree} {t : Ty} (name : String)
    (means : x.type? = some t) : (x.followed name).type? = applied? [t] name := by
  obtain ⟨a, names⟩ := x
  obtain ⟨args, inside, named⟩ := PostfixTree.type?_mk.1 means
  rw [PostfixTree.followed, PostfixTree.type?, inside]
  exact named?_append name named

theorem types?_argsTree {xs : List TypeTree} {ts : List Ty} (x : TypeTree) (t : Ty)
    (means : (x :: xs).map TypeTree.type? = (t :: ts).map some) :
    (argsTree x xs).types? = some (t :: ts) := by
  induction xs generalizing x t ts with
  | nil =>
    simp only [List.map_cons, List.map_nil, List.cons.injEq, List.nil_eq, List.map_eq_nil_iff] at means
    obtain ⟨here, rfl⟩ := means
    exact ArgsTree.types?_last.2 ⟨t, here, rfl⟩
  | cons y ys ih =>
    obtain ⟨here, later⟩ := List.cons_eq_cons.1 means
    cases ts with
    | nil => cases later
    | cons u us => exact ArgsTree.types?_more.2 ⟨t, u :: us, here, ih y u later, rfl⟩

theorem isTypeName_iff {name : String} :
    isTypeName name = true ↔ isWord name = true ∧ isReserved name = false := by
  rw [isTypeName, Bool.and_eq_true, Bool.not_eq_true']

theorem applied?_name {name : String} (h : isTypeName name = true) (args : List Ty) :
    applied? args name = some (.app name args) := by
  obtain ⟨-, free⟩ := isTypeName_iff.1 h
  simp only [isReserved, Bool.or_eq_false_iff, beq_eq_false_iff_ne] at free
  obtain ⟨⟨⟨primitive, list⟩, result⟩, quantifier⟩ := free
  simp [applied?, primitive, list, result, quantifier]

mutual
theorem type?_treeOf : (t : Ty) → Writable t → (treeOf t).type? = some t
  | .int, _ | .double, _ | .string, _ | .bool, _ | .unit, _ => rfl
  | .var id, h | .num id, h => by
    simp [treeOf, TypeTree.type?, PostfixTree.type?, AtomTree.types?, varType?_varText h, named?]
  | .host name, h => by
    have filled : name.isEmpty = false := by
      have h : isHostName name = true := h
      simpa [isHostName] using (Bool.and_eq_true_iff.1 h).1
    simp [treeOf, TypeTree.type?, PostfixTree.type?, AtomTree.types?, filled, named?]
  | .named name, h => by
    simp [treeOf, TypeTree.type?, PostfixTree.type?, AtomTree.types?, (isTypeName_iff.1 h).2, named?]
  | .list a, h => by
    exact PostfixTree.type?_followed "list" (TypeTree.type?_narrow (type?_treeOf a h))
  | .result a b, h => by
    refine PostfixTree.type?_mk.2 ⟨[a, b], ?_, rfl⟩
    refine ArgsTree.types?_more.2 ⟨a, [b], type?_treeOf a h.1, ?_, rfl⟩
    exact ArgsTree.types?_last.2 ⟨b, type?_treeOf b h.2, rfl⟩
  | .app name as, h => by
    have means (args : List Ty) := applied?_name h.1 args
    match as, h.2 with
    | [], _ => exact PostfixTree.type?_mk.2 ⟨[], rfl, by simp [named?, means]⟩
    | [a], inside =>
      have narrow := TypeTree.type?_narrow (type?_treeOf a inside.1)
      exact (PostfixTree.type?_followed name narrow).trans (means [a])
    | a :: b :: bs, inside =>
      refine PostfixTree.type?_mk.2 ⟨a :: b :: bs, ?_, by simp [named?, means]⟩
      exact types?_argsTree _ a (type?_treesOf (a :: b :: bs) inside)
  | .fn a b, h =>
    TypeTree.type?_arrow.2
      ⟨a, b, TypeTree.type?_narrow (type?_treeOf a h.1), type?_treeOf b h.2, rfl⟩
  | .scheme vars a, h =>
    TypeTree.type?_scheme.2 ⟨vars, a, mapM_quantifiedId? h.1 _, type?_treeOf a h.2, rfl⟩

theorem type?_treesOf : (as : List Ty) → AllWritable as →
    (treesOf as).map TypeTree.type? = as.map some
  | [], _ => rfl
  | a :: as, h => by rw [treesOf, List.map_cons, List.map_cons, type?_treeOf a h.1, type?_treesOf as h.2]
end

/-! ### The signature spells the tree -/

/-- The text consists of the tokens wherever no character that could continue a name comes next. -/
def Spells (text : String) (tokens : List TokenKind) : Prop :=
  ∀ rest : List UInt8, (∀ b ∈ rest.head?, isHostByte b = false) →
    Reads ((Text.ofString text).bytes ++ rest) tokens rest

theorem isWordByte_of_host {b : UInt8} (h : isHostByte b = false) : isWordByte b = false := by
  rw [isHostByte, Bool.or_eq_false_iff, Bool.or_eq_false_iff] at h
  exact h.1.1

theorem bytes_ofString_ascii {s : String} (ascii : ∀ c ∈ s.toList, c.toNat < 128) :
    (Text.ofString s).bytes = s.toList.map fun c => UInt8.ofNat c.toNat := by
  obtain ⟨cs, rfl⟩ : ∃ cs, s = String.ofList cs := ⟨s.toList, String.ofList_toList.symm⟩
  rw [String.toList_ofList] at ascii ⊢
  have encoded : cs.flatMap String.utf8EncodeChar = cs.map fun c => UInt8.ofNat c.toNat := by
    induction cs with
    | nil => rfl
    | cons c cs ih =>
      have small : c.val ≤ 127 := Nat.le_of_lt_succ (ascii c List.mem_cons_self)
      have single := String.utf8EncodeChar_eq_singleton (Char.utf8Size_eq_one_iff.2 small)
      rw [List.flatMap_cons, single, ih fun c member => ascii c (List.mem_cons_of_mem _ member)]
      rfl
  simp [Text.ofString, String.toUTF8, String.toByteArray_ofList, List.utf8Encode, encoded]

theorem asciiString_bytes {s : String} (ascii : ∀ c ∈ s.toList, c.toNat < 128) :
    asciiString (Text.ofString s).bytes = s := by
  have back : ∀ c ∈ s.toList, (Char.ofNat ∘ UInt8.toNat) (UInt8.ofNat c.toNat) = c := by
    intro c member
    have small := ascii c member
    rw [Function.comp, UInt8.toNat_ofNat_of_lt' (Nat.lt_trans small (by decide)), Char.ofNat_toNat]
  have undone : (s.toList.map fun c => UInt8.ofNat c.toNat).map (Char.ofNat ∘ UInt8.toNat) = s.toList := by
    rw [List.map_map]
    exact (List.map_congr_left back).trans (List.map_id _)
  rw [bytes_ofString_ascii ascii, asciiString]
  exact (congrArg String.ofList undone).trans String.ofList_toList

theorem isWordByte_ofNat {c : Char} (h : isWordChar c = true) :
    c.toNat < 128 ∧ isWordByte (UInt8.ofNat c.toNat) = true := by
  simp only [isWordChar, Char.isAlphanum, Char.isAlpha, Char.isUpper, Char.isLower, Char.isDigit,
    Bool.or_eq_true, Bool.and_eq_true, decide_eq_true_eq, beq_iff_eq, UInt32.le_iff_toNat_le,
    ge_iff_le, Char.ext_iff, ← UInt32.toNat_inj] at h
  change ((((65 ≤ c.toNat ∧ c.toNat ≤ 90) ∨ (97 ≤ c.toNat ∧ c.toNat ≤ 122)) ∨
    (48 ≤ c.toNat ∧ c.toNat ≤ 57)) ∨ c.toNat = 95) ∨ c.toNat = 36 at h
  have small : c.toNat < 128 := by omega
  refine ⟨small, ?_⟩
  have value : (UInt8.ofNat c.toNat).toNat = c.toNat :=
    UInt8.toNat_ofNat_of_lt' (Nat.lt_trans small (by decide))
  simp only [isWordByte, Bool.or_eq_true, Bool.and_eq_true, beq_iff_eq, decide_eq_true_eq,
    UInt8.le_iff_toNat_le, ← UInt8.toNat_inj, UInt8.reduceToNat, value]
  omega

theorem isHostByte_ofNat {c : Char} (h : isHostChar c = true) :
    c.toNat < 128 ∧ isHostByte (UInt8.ofNat c.toNat) = true := by
  simp only [isHostChar, Bool.or_eq_true, beq_iff_eq] at h
  rcases h with (h | rfl) | rfl
  · have word := isWordByte_ofNat h
    exact ⟨word.1, by simp [isHostByte, word.2]⟩
  · decide
  · decide

theorem bytes_of_class {p : Char → Bool} {q : UInt8 → Bool} {s : String}
    (single : ∀ {c}, p c = true → c.toNat < 128 ∧ q (UInt8.ofNat c.toNat) = true)
    (h : ∀ c ∈ s.toList, p c = true) :
    asciiString (Text.ofString s).bytes = s ∧ ∀ b ∈ (Text.ofString s).bytes, q b = true := by
  have ascii : ∀ c ∈ s.toList, c.toNat < 128 := fun c member => (single (h c member)).1
  refine ⟨asciiString_bytes ascii, ?_⟩
  rw [bytes_ofString_ascii ascii, List.forall_mem_map]
  exact fun c member => (single (h c member)).2

section

variable {rest : List UInt8}

theorem Reads.arrow {bytes : List UInt8} {ts : List TokenKind} (h : Reads bytes ts rest) :
    Reads (0x2D :: 0x3E :: bytes) (.arrow :: ts) rest :=
  .token .arrow trivial h

theorem Reads.comma {bytes : List UInt8} {ts : List TokenKind} (h : Reads bytes ts rest) :
    Reads (0x2C :: bytes) (.comma :: ts) rest :=
  .token .comma trivial h

theorem Reads.dot {bytes : List UInt8} {ts : List TokenKind} (h : Reads bytes ts rest) :
    Reads (0x2E :: bytes) (.dot :: ts) rest :=
  .token .dot trivial h

theorem reads_word {word : String} (h : isWord word = true)
    (ended : ∀ b ∈ rest.head?, isWordByte b = false) :
    Reads ((Text.ofString word).bytes ++ rest) [.ident word] rest := by
  obtain ⟨filled, chars⟩ := Bool.and_eq_true_iff.1 h
  obtain ⟨same, all⟩ := bytes_of_class isWordByte_ofNat (List.all_eq_true.1 chars)
  cases bytes : (Text.ofString word).bytes with
  | nil =>
    rw [bytes] at same
    rw [← same] at filled
    cases filled
  | cons b more =>
    rw [bytes] at same all
    have lexeme := Lexeme.ident (all b List.mem_cons_self)
      fun c member => all c (List.mem_cons_of_mem _ member)
    rw [same] at lexeme
    exact .token lexeme ended .done

theorem reads_varText {id : VarId} (known : IsVarId id) (numeric : Bool)
    (ended : ∀ b ∈ rest.head?, isWordByte b = false) :
    Reads ((Text.ofString (Ty.varText id numeric)).bytes ++ rest)
      [.typeVar (Ty.varText id numeric)] rest := by
  obtain ⟨word, same, all⟩ : ∃ word, Ty.varText id numeric = "'" ++ word ∧
      ∀ c ∈ word.toList, isWordChar c = true := by
    refine ⟨String.ofList ((if numeric then 'n' else 't') :: Nat.toDigits 10 id.toNat), ?_, ?_⟩
    · simp [← String.toList_inj, toList_varText known]
    · rw [String.toList_ofList]
      intro c member
      rcases List.mem_cons.1 member with rfl | digit
      · cases numeric <;> rfl
      · have digit := Nat.isDigit_of_mem_toDigits (Nat.succ_pos 9) (Nat.le_refl 10) digit
        simp [isWordChar, Char.isAlphanum, digit]
  obtain ⟨back, inside⟩ := bytes_of_class isWordByte_ofNat all
  have lexeme := Lexeme.typeVar inside
  have spelled : asciiString (0x27 :: (Text.ofString word).bytes) =
      "'" ++ asciiString (Text.ofString word).bytes := by
    simp [asciiString]
  rw [spelled, back] at lexeme
  rw [same, Text.bytes_ofString_append]
  exact .token lexeme ended .done

theorem reads_host {name : String} (h : isHostName name = true)
    (ended : ∀ b ∈ rest.head?, isHostByte b = false) :
    Reads ((Text.ofString ("@" ++ name)).bytes ++ rest) [.host name] rest := by
  obtain ⟨-, chars⟩ := Bool.and_eq_true_iff.1 h
  obtain ⟨same, all⟩ := bytes_of_class isHostByte_ofNat (List.all_eq_true.1 chars)
  have lexeme := Lexeme.host all
  rw [same] at lexeme
  rw [Text.bytes_ofString_append]
  exact .token lexeme ended .done

end

variable {a b text name : String} {ts us : List TokenKind}

theorem Spells.opened (h : Spells text ts) : Spells ("(" ++ text) (.openParen :: ts) := by
  intro rest ended
  rw [Text.bytes_ofString_append, List.append_assoc]
  exact .token .openParen trivial (h rest ended)

theorem Spells.closed (h : Spells text ts) : Spells (text ++ ")") (ts ++ [.closeParen]) := by
  intro rest ended
  rw [Text.bytes_ofString_append, List.append_assoc]
  refine (h _ ?_).append (.token .closeParen trivial .done)
  rintro b ⟨⟩
  rfl

theorem Spells.followed (h : Spells text ts) (word : isWord name = true) :
    Spells (text ++ " " ++ name) (ts ++ [.ident name]) := by
  intro rest ended
  rw [Text.bytes_ofString_append, Text.bytes_ofString_append, List.append_assoc, List.append_assoc]
  refine (h _ ?_).append (.blank rfl (reads_word word fun b first => ?_))
  · rintro b ⟨⟩
    rfl
  · exact isWordByte_of_host (ended b first)

theorem Spells.arrow (ha : Spells a ts) (hb : Spells b us) :
    Spells (a ++ " -> " ++ b) (ts ++ .arrow :: us) := by
  intro rest ended
  have sign : (Text.ofString " -> ").bytes = [0x20, 0x2D, 0x3E, 0x20] := rfl
  rw [Text.bytes_ofString_append, Text.bytes_ofString_append, List.append_assoc, List.append_assoc, sign]
  refine (ha _ ?_).append (.blank rfl (.arrow (.blank rfl (hb rest ended))))
  rintro b ⟨⟩
  rfl

theorem Spells.comma (ha : Spells a ts) (hb : Spells b us) :
    Spells (a ++ ", " ++ b) (ts ++ .comma :: us) := by
  intro rest ended
  have sign : (Text.ofString ", ").bytes = [0x2C, 0x20] := rfl
  rw [Text.bytes_ofString_append, Text.bytes_ofString_append, List.append_assoc, List.append_assoc, sign]
  refine (ha _ ?_).append (.comma (.blank rfl (hb rest ended)))
  rintro b ⟨⟩
  rfl

theorem reads_quantified {vars : List VarId} (known : ∀ id ∈ vars, IsVarId id) (body : Ty)
    (rest : List UInt8) :
    (∀ b ∈ ((Text.ofString (Ty.quantifierText vars body)).bytes ++ 0x2E :: rest).head?,
      isWordByte b = false) ∧
    Reads ((Text.ofString (Ty.quantifierText vars body)).bytes ++ 0x2E :: rest)
      (quantified (vars.map fun id => Ty.varText id (body.isNumericIn id))) rest := by
  induction vars with
  | nil =>
    refine ⟨?_, .dot .done⟩
    rintro b ⟨⟩
    rfl
  | cons id vars ih =>
    obtain ⟨ended, later⟩ := ih fun id member => known id (List.mem_cons_of_mem _ member)
    have first : Ty.quantifierText (id :: vars) body =
        " " ++ (Ty.varText id (body.isNumericIn id) ++ Ty.quantifierText vars body) := by
      simp [Ty.quantifierText, String.join_cons, String.append_assoc]
    rw [first, Text.bytes_ofString_append, Text.bytes_ofString_append, List.append_assoc,
      List.append_assoc]
    refine ⟨?_, .blank rfl ((reads_varText (known id List.mem_cons_self) _ ended).append later)⟩
    rintro b ⟨⟩
    rfl

theorem Spells.scheme {vars : List VarId} {body : Ty} (known : ∀ id ∈ vars, IsVarId id)
    (h : Spells text ts) :
    Spells ("forall" ++ Ty.quantifierText vars body ++ ". " ++ text)
      (.ident "forall" :: quantified (vars.map fun id => Ty.varText id (body.isNumericIn id)) ++ ts) := by
  intro rest ended
  have sign : (Text.ofString ". ").bytes = [0x2E, 0x20] := rfl
  rw [Text.bytes_ofString_append, Text.bytes_ofString_append, Text.bytes_ofString_append, sign,
    List.append_assoc, List.append_assoc, List.append_assoc]
  obtain ⟨apart, listed⟩ :=
    reads_quantified known body (0x20 :: ((Text.ofString text).bytes ++ rest))
  exact (reads_word rfl apart).append (listed.append (.blank rfl (h rest ended)))

def TypeTree.isWide : TypeTree → Bool
  | .plain _ => false
  | _ => true

theorem isWide_treeOf (t : Ty) : (treeOf t).isWide = t.isWide := by
  cases t <;> rfl

theorem Spells.narrow {x : TypeTree} (h : Spells text x.yield) :
    Spells (Ty.bracketed x.isWide text) x.narrow.yield := by
  cases x with
  | plain => exact h
  | scheme | arrow =>
    have yields (x : TypeTree) : (PostfixTree.mk (.tuple (.last x)) []).yield =
        .openParen :: x.yield ++ [.closeParen] := by
      simp [PostfixTree.yield, AtomTree.yield, ArgsTree.yield]
    rw [TypeTree.narrow, yields]
    exact h.opened.closed
    nofun

theorem PostfixTree.yield_followed (x : PostfixTree) (name : String) :
    (x.followed name).yield = x.yield ++ [.ident name] := by
  obtain ⟨a, names⟩ := x
  simp [PostfixTree.followed, PostfixTree.yield]

theorem renderAll_eq (as : List Ty) : renderAll as = as.map fun a => (a.isWide, render a) := by
  induction as with
  | nil => rfl
  | cons a as ih => rw [renderAll, ih, List.map_cons]

theorem treesOf_eq (as : List Ty) : treesOf as = as.map treeOf := by
  induction as with
  | nil => rfl
  | cons a as ih => rw [treesOf, ih, List.map_cons]

theorem spells_argsTree {as : List Ty} (a : Ty)
    (h : ∀ x ∈ a :: as, Spells (render x) (treeOf x).yield) :
    Spells (", ".intercalate ((a :: as).map render) ++ ")")
      (argsTree (treeOf a) (as.map treeOf)).yield := by
  induction as generalizing a with
  | nil =>
    rw [List.map_cons, List.map_nil, String.intercalate_singleton]
    exact (h a List.mem_cons_self).closed
  | cons b bs ih =>
    rw [List.map_cons, List.map_cons, String.intercalate_cons_cons, String.append_assoc]
    exact (h a List.mem_cons_self).comma (ih b fun x member => h x (List.mem_cons_of_mem _ member))

theorem spells_argumentsTree (as : List Ty) (h : ∀ x ∈ as, Spells (render x) (treeOf x).yield) :
    Spells (postfixArguments (renderAll as)) (argumentsTree (treesOf as)).yield := by
  rw [renderAll_eq, treesOf_eq]
  match as with
  | [] =>
    have nothing : Spells "" [] := fun _ _ => .done
    exact nothing.closed.opened
  | [a] =>
    have inner := (h a List.mem_cons_self).narrow
    rw [isWide_treeOf] at inner
    exact inner
  | a :: b :: bs =>
    have texts : postfixArguments ((a :: b :: bs).map fun a => (a.isWide, render a)) =
        argumentList ((a :: b :: bs).map render) := by
      simp [postfixArguments, Function.comp_def]
    have yields : (argumentsTree ((a :: b :: bs).map treeOf)).yield =
        .openParen :: (argsTree (treeOf a) ((b :: bs).map treeOf)).yield := by
      simp [argumentsTree, PostfixTree.yield, AtomTree.yield]
    rw [yields, texts, argumentList, String.append_assoc]
    exact (spells_argsTree a h).opened

theorem spells_word (word : isWord name = true) : Spells name [.ident name] :=
  fun _ ended => reads_word word fun b first => isWordByte_of_host (ended b first)

mutual
theorem spells_render : (t : Ty) → Writable t → Spells (render t) (treeOf t).yield
  | .int, _ | .double, _ | .string, _ | .bool, _ | .unit, _ =>
    spells_word rfl
  | .var _, h | .num _, h => fun _ ended =>
    reads_varText h _ fun b first => isWordByte_of_host (ended b first)
  | .host _, h => fun _ ended => reads_host h ended
  | .named _, h => spells_word (isTypeName_iff.1 h).1
  | .list a, h => by
    have inner := (spells_render a h).narrow.followed (rfl : isWord "list" = true)
    rw [isWide_treeOf, String.append_assoc] at inner
    rw [treeOf, TypeTree.yield, PostfixTree.yield_followed]
    exact inner
  | .result a b, h => by
    have inner := ((spells_render a h.1).comma (spells_render b h.2)).opened.closed.followed
      (rfl : isWord "result" = true)
    have text : render (.result a b) =
        "(" ++ (render a ++ ", " ++ render b) ++ ")" ++ " " ++ "result" := by
      simp [render, argumentList, String.append_assoc]
    have yields : (treeOf (.result a b)).yield = .openParen ::
        ((treeOf a).yield ++ .comma :: (treeOf b).yield) ++ [.closeParen] ++ [.ident "result"] := by
      simp [treeOf, TypeTree.yield, PostfixTree.yield, AtomTree.yield, ArgsTree.yield]
    rw [text, yields]
    exact inner
  | .app name as, h => by
    have inner := (spells_argumentsTree as (spells_renderAll as h.2)).followed (isTypeName_iff.1 h.1).1
    rw [treeOf, TypeTree.yield, PostfixTree.yield_followed]
    exact inner
  | .fn a b, h => by
    have inner := (spells_render a h.1).narrow.arrow (spells_render b h.2)
    rw [isWide_treeOf] at inner
    exact inner
  | .scheme vars a, h => (spells_render a h.2).scheme h.1

theorem spells_renderAll : (as : List Ty) → AllWritable as →
    ∀ a ∈ as, Spells (render a) (treeOf a).yield
  | [], _, _, member => by cases member
  | a :: as, h, b, member => by
    rcases List.mem_cons.1 member with same | member
    · rw [same]
      exact spells_render a h.1
    · exact spells_renderAll as h.2 b member
end

/-- Reading the signature of a type gives the type. -/
theorem parse_render (t : Ty) (h : Writable t) : parse (Text.ofString (render t)) = .ok t := by
  have spelled := spells_render t h [] (by rintro b ⟨⟩)
  rw [List.append_nil] at spelled
  exact parse_of_derives ⟨spelled, type?_treeOf t h⟩

/-- A scheme as an argument, an argument list of each length, and a function as a parameter. -/
def nestedType : Ty :=
  .fn (.fn (.app "Box_1" [.scheme [7, 3] (.fn (.num 3) (.var 7))]) (.app "$none" []))
    (.list (.app "Pair" [.host "java/util.Date", .result (.fn .int (.named "Tree")) .unit]))

/-- The signature of a nested type, read back. -/
theorem parse_render_nested : Writable nestedType ∧
    parse (Text.ofString (render nestedType)) = .ok nestedType := by
  have writable : Writable nestedType := by
    simp only [nestedType, Writable, AllWritable, IsVarId]
    decide
  exact ⟨writable, parse_render nestedType writable⟩

end StackML.Signature
