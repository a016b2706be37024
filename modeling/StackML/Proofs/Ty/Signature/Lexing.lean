import StackML.Ty.Signature.Token

/-!
What the tokens of a text are, said without the scan: blanks aside, the text is a row of lexemes, none
of which could be longer. Every text has one such reading, and the scan finds it.
-/

namespace StackML.Signature

/-! ### Lexemes -/

inductive Lexeme : List UInt8 → TokenKind → Prop where
  | openParen : Lexeme [0x28] .openParen
  | closeParen : Lexeme [0x29] .closeParen
  | comma : Lexeme [0x2C] .comma
  | dot : Lexeme [0x2E] .dot
  | arrow : Lexeme [0x2D, 0x3E] .arrow
  | typeVar {word} : (∀ b ∈ word, isWordByte b = true) →
      Lexeme (0x27 :: word) (.typeVar (asciiString (0x27 :: word)))
  | host {word} : (∀ b ∈ word, isHostByte b = true) → Lexeme (0x40 :: word) (.host (asciiString word))
  | ident {b word} : isWordByte b = true → (∀ c ∈ word, isWordByte c = true) →
      Lexeme (b :: word) (.ident (asciiString (b :: word)))
  | invalid {b} : isBlankByte b = false → isWordByte b = false →
      b ∉ [0x28, 0x29, 0x2C, 0x2E, 0x27, 0x40] → Lexeme [b] (.invalid b)

/-- With these bytes behind it the token has ended: a word goes as far as it can, and a hyphen in
front of `>` is part of an arrow. -/
def Ends : TokenKind → List UInt8 → Prop
  | .ident _, rest | .typeVar _, rest => ∀ b ∈ rest.head?, isWordByte b = false
  | .host _, rest => ∀ b ∈ rest.head?, isHostByte b = false
  | .invalid b, rest => b = 0x2D → rest.head? ≠ some 0x3E
  | _, _ => True

inductive Reads : List UInt8 → List TokenKind → List UInt8 → Prop where
  | done {rest} : Reads rest [] rest
  | blank {b bytes tokens rest} :
      isBlankByte b = true → Reads bytes tokens rest → Reads (b :: bytes) tokens rest
  | token {lexeme kind bytes tokens rest} : Lexeme lexeme kind → Ends kind bytes →
      Reads bytes tokens rest → Reads (lexeme ++ bytes) (kind :: tokens) rest

abbrev Consists (bytes : List UInt8) (tokens : List TokenKind) : Prop := Reads bytes tokens []

theorem Reads.append {a b c : List UInt8} {ts us : List TokenKind} (first : Reads a ts b)
    (second : Reads b us c) : Reads a (ts ++ us) c := by
  induction first with
  | done => exact second
  | blank blank _ ih => exact .blank blank (ih second)
  | token lexeme ends _ ih => exact .token lexeme ends (ih second)

/-! ### The scan -/

variable {b : UInt8} {word more rest bytes : List UInt8} {kind : TokenKind}

theorem ne_of_word {c : UInt8} (inside : isWordByte b = true) (outside : isWordByte c = false) :
    b ≠ c := by
  rintro rfl
  cases inside.symm.trans outside

theorem takeWhile_word {p : UInt8 → Bool} (all : ∀ b ∈ word, p b = true)
    (stop : ∀ b ∈ rest.head?, p b = false) : (word ++ rest).takeWhile p = word := by
  rw [List.takeWhile_append_of_pos all]
  cases rest with
  | nil => simp
  | cons c rest => simp [stop c rfl]

theorem not_blank_of_word (inside : isWordByte b = true) : isBlankByte b = false := by
  simp only [isWordByte, Bool.or_eq_true, Bool.and_eq_true, beq_iff_eq, decide_eq_true_eq,
    UInt8.le_iff_toNat_le, ← UInt8.toNat_inj, UInt8.reduceToNat] at inside
  simp only [isBlankByte, Bool.or_eq_false_iff, Bool.and_eq_false_iff, beq_eq_false_iff_ne, ne_eq,
    decide_eq_false_iff_not, UInt8.le_iff_toNat_le, ← UInt8.toNat_inj, UInt8.reduceToNat]
  omega

theorem Lexeme.not_blank (lexeme : Lexeme (b :: more) kind) : isBlankByte b = false := by
  cases lexeme with
  | openParen | closeParen | comma | dot | arrow | typeVar | host => rfl
  | invalid blank => exact blank
  | ident inside => exact not_blank_of_word inside

theorem tokenAt_lexeme (lexeme : Lexeme (b :: more) kind) (ends : Ends kind rest) :
    tokenAt b (more ++ rest) = (kind, more.length) := by
  cases lexeme with
  | openParen | closeParen | comma | dot | arrow => rfl
  | typeVar all =>
    have taken := takeWhile_word all ends
    simp [tokenAt, taken]
  | host all =>
    have taken := takeWhile_word all ends
    simp [tokenAt, taken]
  | ident inside all =>
    have taken := takeWhile_word all ends
    have other : ∀ c : UInt8, isWordByte c = false → (b == c) = false :=
      fun c outside => beq_false_of_ne (ne_of_word inside outside)
    simp only [tokenAt, other 0x28 rfl, other 0x29 rfl, other 0x2C rfl, other 0x2E rfl,
      other 0x2D rfl, other 0x27 rfl, other 0x40 rfl, inside, taken, Bool.false_and,
      Bool.false_eq_true, if_false, if_true]
  | invalid _ outside none =>
    have other : ∀ c ∈ [0x28, 0x29, 0x2C, 0x2E, 0x27, 0x40], (b == c) = false := by
      intro c member
      exact beq_false_of_ne fun same => none (same ▸ member)
    have hyphen : (b == 0x2D && rest.head? == some 0x3E) = false := by
      by_cases same : b = 0x2D
      · simpa [same] using ends same
      · simp [same]
    simp only [tokenAt, other 0x28 (by decide), other 0x29 (by decide), other 0x2C (by decide),
      other 0x2E (by decide), other 0x27 (by decide), other 0x40 (by decide), List.nil_append,
      hyphen, outside, Bool.false_eq_true, if_false, List.length_nil]

theorem lexeme_tokenAt (b : UInt8) (bytes : List UInt8) (blank : isBlankByte b = false) :
    ∃ more rest, bytes = more ++ rest ∧ Lexeme (b :: more) (tokenAt b bytes).1 ∧
      Ends (tokenAt b bytes).1 rest := by
  have word (p : UInt8 → Bool) : bytes = bytes.takeWhile p ++ bytes.dropWhile p ∧
      (∀ c ∈ bytes.takeWhile p, p c = true) ∧ ∀ c ∈ (bytes.dropWhile p).head?, p c = false := by
    refine ⟨(List.takeWhile_append_dropWhile).symm, List.all_eq_true.1 List.all_takeWhile, ?_⟩
    intro c first
    have outside := List.head?_dropWhile_not p bytes
    rw [Option.mem_def.1 first] at outside
    exact outside
  unfold tokenAt
  by_cases open_ : (b == 0x28) = true
  · rw [if_pos open_]
    exact ⟨[], bytes, rfl, eq_of_beq open_ ▸ .openParen, trivial⟩
  rw [if_neg open_]
  by_cases close : (b == 0x29) = true
  · rw [if_pos close]
    exact ⟨[], bytes, rfl, eq_of_beq close ▸ .closeParen, trivial⟩
  rw [if_neg close]
  by_cases comma : (b == 0x2C) = true
  · rw [if_pos comma]
    exact ⟨[], bytes, rfl, eq_of_beq comma ▸ .comma, trivial⟩
  rw [if_neg comma]
  by_cases dot : (b == 0x2E) = true
  · rw [if_pos dot]
    exact ⟨[], bytes, rfl, eq_of_beq dot ▸ .dot, trivial⟩
  rw [if_neg dot]
  by_cases arrow : (b == 0x2D && bytes.head? == some 0x3E) = true
  · rw [if_pos arrow]
    rw [Bool.and_eq_true, beq_iff_eq, beq_iff_eq, List.head?_eq_some_iff] at arrow
    obtain ⟨rfl, rest, rfl⟩ := arrow
    exact ⟨[0x3E], rest, rfl, .arrow, trivial⟩
  rw [if_neg arrow]
  by_cases quote : (b == 0x27) = true
  · rw [if_pos quote]
    obtain ⟨split, all, stop⟩ := word isWordByte
    exact ⟨_, _, split, eq_of_beq quote ▸ .typeVar all, stop⟩
  rw [if_neg quote]
  by_cases at_ : (b == 0x40) = true
  · rw [if_pos at_]
    obtain ⟨split, all, stop⟩ := word isHostByte
    exact ⟨_, _, split, eq_of_beq at_ ▸ .host all, stop⟩
  rw [if_neg at_]
  by_cases inside : isWordByte b = true
  · rw [if_pos inside]
    obtain ⟨split, all, stop⟩ := word isWordByte
    exact ⟨_, _, split, .ident inside all, stop⟩
  rw [if_neg inside]
  simp only [beq_iff_eq] at open_ close comma dot quote at_
  rw [Bool.not_eq_true] at inside
  refine ⟨[], bytes, rfl, .invalid blank inside ?_, fun same next => arrow ?_⟩
  · simp only [List.mem_cons, List.not_mem_nil, or_false, not_or]
    exact ⟨open_, close, comma, dot, quote, at_⟩
  · rw [same, next]
    rfl

theorem scanFrom_skip (read : List Token) (offset : Nat) (more rest : List UInt8) :
    scanFrom read offset more.length (more ++ rest) = scanFrom read (offset + more.length) 0 rest := by
  induction more generalizing offset with
  | nil => rfl
  | cons c more ih =>
    rw [List.length_cons, List.cons_append, scanFrom, ih]
    congr 1
    omega

theorem scanFrom_reads {tokens : List TokenKind} (h : Reads bytes tokens rest) (none : rest = [])
    (read : List Token) (offset : Nat) :
    (scanFrom read offset 0 bytes).map Token.kind = read.reverse.map Token.kind ++ tokens := by
  induction h generalizing read offset with
  | done =>
    subst none
    simp [scanFrom]
  | blank blank _ ih => rw [scanFrom, if_pos blank, ih none]
  | @token lexeme kind bytes tokens rest spelled ends _ ih =>
    cases lexeme with
    | nil => cases spelled
    | cons b more =>
      have start := spelled.not_blank
      rw [List.cons_append, scanFrom, if_neg (by simp [start]), tokenAt_lexeme spelled ends]
      dsimp only
      rw [scanFrom_skip, ih none]
      simp

theorem exists_consists (bytes : List UInt8) : ∃ tokens, Consists bytes tokens := by
  induction length : bytes.length using Nat.strongRecOn generalizing bytes with
  | ind n ih =>
    cases bytes with
    | nil => exact ⟨[], .done⟩
    | cons b bytes =>
      rw [List.length_cons] at length
      cases blank : isBlankByte b with
      | true =>
        obtain ⟨tokens, h⟩ := ih bytes.length (by omega) bytes rfl
        exact ⟨tokens, .blank blank h⟩
      | false =>
        obtain ⟨more, rest, rfl, spelled, ends⟩ := lexeme_tokenAt b bytes blank
        rw [List.length_append] at length
        obtain ⟨tokens, h⟩ := ih rest.length (by omega) rest rfl
        exact ⟨_, .token spelled ends h⟩

theorem consists_iff (source : Text) (tokens : List TokenKind) :
    Consists source.bytes tokens ↔ (scan source).map Token.kind = tokens := by
  have found : ∀ {tokens}, Consists source.bytes tokens → (scan source).map Token.kind = tokens :=
    fun h => scanFrom_reads h rfl [] 0
  refine ⟨found, fun same => ?_⟩
  obtain ⟨tokens', h⟩ := exists_consists source.bytes
  rwa [← same, found h]

theorem offset_lt_of_scanFrom {token : Token} {read : List Token} {offset skip : Nat}
    (inside : token ∈ scanFrom read offset skip bytes) :
    token ∈ read ∨ token.offset < offset + bytes.length := by
  induction bytes generalizing read offset skip with
  | nil =>
    rw [scanFrom, List.mem_reverse] at inside
    exact .inl inside
  | cons b bytes ih =>
    rw [List.length_cons]
    cases skip with
    | succ skip =>
      rw [scanFrom] at inside
      refine (ih inside).imp_right fun below => ?_
      omega
    | zero =>
      rw [scanFrom] at inside
      split at inside
      · refine (ih inside).imp_right fun below => ?_
        omega
      · rcases ih inside with known | below
        · rcases List.mem_cons.1 known with rfl | known
          · exact .inr (Nat.lt_add_of_pos_right (Nat.succ_pos _))
          · exact .inl known
        · exact .inr (by omega)

theorem offset_lt_of_scan {source : Text} {token : Token} (inside : token ∈ scan source) :
    token.offset < source.length := by
  rcases offset_lt_of_scanFrom inside with known | below
  · cases known
  · rwa [Nat.zero_add] at below

end StackML.Signature
