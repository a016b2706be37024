import StackML.Proofs.Ty.Signature.Grammar
import StackML.Proofs.Ty.Signature.Lexing

/-!
The reader of signatures against their grammar. What it reads is derived by a tree, whatever a tree
derives it reads, and where it fails it stands at a token of the text or at its end.
-/

namespace StackML.Signature

variable {α β : Type} {tokens rest : List Token}

/-! ### What has been read is derived -/

/-- The outcome of a reader that follows the rule: a value that the rule gives to the tokens taken, or a
failure among the tokens. -/
def Follows (rule : List TokenKind → α → Prop) (tokens : List Token) :
    Except Failed (α × List Token) → Prop
  | .ok (v, rest) => ∃ front, tokens = front ++ rest ∧ rule (front.map Token.kind) v
  | .error (rest, _) => rest <:+ tokens

theorem Follows.ok {rule : List TokenKind → α → Prop} {v : α} (front rest : List Token)
    (derived : rule (front.map Token.kind) v) : Follows rule (front ++ rest) (.ok (v, rest)) :=
  ⟨front, rfl, derived⟩

theorem Follows.later {rule rule' : List TokenKind → α → Prop} {result : Parsed α}
    (front : List Token) (h : Follows rule tokens result)
    (weaken : ∀ ts v, rule ts v → rule' (front.map Token.kind ++ ts) v) :
    Follows rule' (front ++ tokens) result := by
  match result with
  | .ok (v, rest) =>
    obtain ⟨taken, rfl, derived⟩ := h
    refine ⟨front ++ taken, (List.append_assoc _ _ _).symm, ?_⟩
    rw [List.map_append]
    exact weaken _ _ derived
  | .error (rest, _) => exact h.trans (List.suffix_append front tokens)

theorem Follows.cons {rule : List TokenKind → α → Prop} {result : Parsed α} (token : Token)
    (h : Follows (fun ts v => rule (token.kind :: ts) v) rest result) :
    Follows rule (token :: rest) result :=
  h.later [token] fun _ _ derived => derived

theorem Follows.bind {rule : List TokenKind → α → Prop} {rule' : List TokenKind → β → Prop}
    {x : Except Failed (α × List Token)} {f : α × List Token → Except Failed (β × List Token)}
    (first : Follows rule tokens x)
    (next : ∀ ts v rest, rule ts v →
      Follows (fun us w => rule' (ts ++ us) w) rest (f (v, rest))) :
    Follows rule' tokens (x >>= f) := by
  match x with
  | .ok (v, rest) =>
    obtain ⟨front, rfl, derived⟩ := first
    exact (next _ v rest derived).later front fun _ _ h => h
  | .error (rest, _) => exact first

theorem quantifier_follows (vars : List VarId) (tokens : List Token) :
    Follows (fun ts ids => ∃ texts more, quantified texts = ts ∧
      texts.mapM quantifiedId? = some more ∧ ids = vars.reverse ++ more) tokens
      (quantifier vars tokens) := by
  fun_induction quantifier vars tokens with
  | case1 vars text offset rest id known ih =>
    refine ih.later [⟨.typeVar text, offset⟩] ?_
    rintro ts ids ⟨texts, more, rfl, read, rfl⟩
    refine ⟨text :: texts, id :: more, rfl, ?_, by simp⟩
    have here : quantifiedId? text = some id := known
    simp [here, read]
  | case2 vars text offset rest unknown => exact List.suffix_refl _
  | case3 vars offset rest =>
    exact .ok [⟨.dot, offset⟩] rest ⟨[], [], rfl, rfl, (List.append_nil _).symm⟩
  | case4 vars tokens => exact List.suffix_refl _

theorem applyName_eq (name : String) (args : List Ty) (rest : List Token)
    (plain : (isPrimitive name || name == "forall") = false) :
    (∃ t, applyName name args rest = .ok t ∧ applied? args name = some t) ∨
      ∃ issue, applyName name args rest = .error (rest, issue) ∧ applied? args name = none := by
  unfold applyName applied?
  rw [plain]
  split
  · exact .inl ⟨_, rfl, rfl⟩
  · refine .inr ⟨_, rfl, ?_⟩
    simp only [Bool.false_eq_true, if_false, if_true]
  · exact .inl ⟨_, rfl, rfl⟩
  · refine .inr ⟨_, rfl, ?_⟩
    simp only [Bool.false_eq_true, if_false, if_true, String.reduceEq]
  · next list result _ _ =>
    refine .inl ⟨_, rfl, ?_⟩
    rw [if_neg Bool.false_ne_true, if_neg list, if_neg result]

theorem postfixNames_follows (args : List Ty) (tokens : List Token) :
    Follows (fun ts t => ∃ names, names.map TokenKind.ident = ts ∧ named? args names = some t) tokens
      (postfixNames args tokens) := by
  fun_induction postfixNames args tokens with
  | case1 name offset rest keyword t => exact .ok [] _ ⟨[], rfl, rfl⟩
  | case2 args name offset rest keyword => exact List.suffix_refl _
  | case3 args name offset rest plain t made ih =>
    refine ih.later [⟨.ident name, offset⟩] ?_
    rintro ts u ⟨names, rfl, means⟩
    refine ⟨name :: names, rfl, ?_⟩
    rcases applyName_eq name args rest (by simpa using plain) with ⟨t', same, here⟩ | ⟨issue, same, -⟩
    · cases made.symm.trans same
      rw [named?, here]
      exact means
    · cases made.symm.trans same
  | case4 args name offset rest plain e failed =>
    rcases applyName_eq name args rest (by simpa using plain) with ⟨t', same, -⟩ | ⟨issue, same, -⟩
    · cases failed.symm.trans same
    · cases failed.symm.trans same
      exact List.suffix_cons _ _
  | case5 t tokens nameless => exact .ok [] _ ⟨[], rfl, rfl⟩
  | case6 args tokens nameless several => exact List.suffix_refl _

def DerivesType (ts : List TokenKind) (t : Ty) : Prop := ∃ x : TypeTree, x.yield = ts ∧ x.type? = some t

def DerivesAtom (ts : List TokenKind) (args : List Ty) : Prop :=
  ∃ a : AtomTree, a.yield = ts ∧ a.types? = some args

/-- The arguments already read, the latest first, are put in front of those derived. -/
def DerivesArguments (before : List Ty) (ts : List TokenKind) (args : List Ty) : Prop :=
  ∃ (x : ArgsTree) (more : List Ty), x.yield = ts ∧ x.types? = some more ∧ args = before.reverse ++ more

section

variable {depth : Nat} (types : ∀ tokens, Follows DerivesType tokens (type depth tokens))

include types

theorem type_follows (atoms : ∀ tokens, Follows DerivesAtom tokens (atom depth tokens))
    (tokens : List Token) : Follows DerivesType tokens (type (depth + 1) tokens) := by
  rw [type.eq_def]
  dsimp only
  split
  · next offset rest =>
    refine Follows.cons _ ?_
    refine (quantifier_follows [] rest).bind ?_
    rintro _ ids rest ⟨texts, more, rfl, read, rfl⟩
    refine (types rest).bind ?_
    rintro _ t rest ⟨body, rfl, means⟩
    refine .ok [] rest ⟨.scheme texts body, ?_, ?_⟩
    · simp [TypeTree.yield]
    · exact TypeTree.type?_scheme.2 ⟨_, _, read, means, rfl⟩
  · refine (atoms tokens).bind ?_
    rintro _ args rest ⟨a, rfl, means⟩
    refine (postfixNames_follows args rest).bind ?_
    rintro _ left rest ⟨names, rfl, named⟩
    have left_means := PostfixTree.type?_mk.2 ⟨args, means, named⟩
    dsimp only
    split
    · next offset rest =>
      refine Follows.cons _ ?_
      refine (types rest).bind ?_
      rintro _ right rest ⟨y, rfl, right_means⟩
      refine .ok [] rest ⟨.arrow (.mk a names) y, ?_, ?_⟩
      · simp [TypeTree.yield, PostfixTree.yield]
      · exact TypeTree.type?_arrow.2 ⟨_, _, left_means, right_means, rfl⟩
    · refine .ok [] _ ⟨.plain (.mk a names), ?_, left_means⟩
      simp [TypeTree.yield, PostfixTree.yield]

theorem arguments_follows
    (lists : ∀ before tokens, Follows (DerivesArguments before) tokens (arguments depth before tokens))
    (before : List Ty) (tokens : List Token) :
    Follows (DerivesArguments before) tokens (arguments (depth + 1) before tokens) := by
  rw [arguments]
  refine (types tokens).bind ?_
  rintro _ t rest ⟨x, rfl, means⟩
  dsimp only
  split
  · next offset rest =>
    refine (lists (t :: before) rest).later [⟨.comma, offset⟩] ?_
    rintro _ args ⟨xs, more, rfl, read, rfl⟩
    refine ⟨.more x xs, t :: more, rfl, ?_, by simp⟩
    exact ArgsTree.types?_more.2 ⟨_, _, means, read, rfl⟩
  · next offset rest =>
    refine .ok [⟨.closeParen, offset⟩] rest ⟨.last x, [t], rfl, ?_, by simp⟩
    exact ArgsTree.types?_last.2 ⟨_, means, rfl⟩
  · exact List.suffix_refl _

end

theorem atom_follows {depth : Nat}
    (lists : ∀ before tokens, Follows (DerivesArguments before) tokens (arguments depth before tokens))
    (tokens : List Token) : Follows DerivesAtom tokens (atom (depth + 1) tokens) := by
  rw [atom.eq_def]
  dsimp only
  split
  · exact List.suffix_refl _
  · next kind offset rest =>
    cases kind with
    | ident name =>
      dsimp only
      split
      · next t found =>
        exact .ok [⟨.ident name, offset⟩] rest ⟨.primitive name, rfl, by simp [AtomTree.types?, found]⟩
      · split
        · exact List.suffix_refl _
        · next free =>
          exact .ok [⟨.ident name, offset⟩] rest ⟨.name name, rfl, by simp [AtomTree.types?, free]⟩
    | typeVar text =>
      dsimp only
      split
      · next t found =>
        exact .ok [⟨.typeVar text, offset⟩] rest ⟨.var text, rfl, by simp [AtomTree.types?, found]⟩
      · exact List.suffix_refl _
    | host name =>
      dsimp only
      split
      · exact List.suffix_refl _
      · next filled =>
        exact .ok [⟨.host name, offset⟩] rest ⟨.host name, rfl, by simp [AtomTree.types?, filled]⟩
    | openParen =>
      dsimp only
      split
      · next close rest =>
        exact .ok [⟨.openParen, offset⟩, ⟨.closeParen, close⟩] rest ⟨.empty, rfl, rfl⟩
      · next rest _ =>
        refine (lists [] _).later [⟨.openParen, offset⟩] ?_
        rintro _ args ⟨x, more, rfl, means, rfl⟩
        exact ⟨.tuple x, rfl, means⟩
    | closeParen | comma | dot | arrow | invalid => exact List.suffix_refl _

theorem follows (depth : Nat) :
    (∀ tokens, Follows DerivesType tokens (type depth tokens)) ∧
    (∀ tokens, Follows DerivesAtom tokens (atom depth tokens)) ∧
    ∀ before tokens, Follows (DerivesArguments before) tokens (arguments depth before tokens) := by
  induction depth with
  | zero => exact ⟨List.suffix_refl, List.suffix_refl, fun _ => List.suffix_refl⟩
  | succ depth ih =>
    obtain ⟨types, atoms, lists⟩ := ih
    exact ⟨type_follows types atoms, atom_follows lists, arguments_follows types lists⟩

/-! ### What is derived is read -/

theorem quantifier_quantified {texts : List String} {more : List VarId} (vars : List VarId)
    {front : List Token} (rest : List Token) (spelled : front.map Token.kind = quantified texts)
    (means : texts.mapM quantifiedId? = some more) :
    quantifier vars (front ++ rest) = .ok (vars.reverse ++ more, rest) := by
  induction texts generalizing vars front more with
  | nil =>
    cases means
    obtain ⟨⟨kind, offset⟩, none, rfl, dot, last⟩ := List.map_eq_cons_iff.1 spelled
    cases dot
    cases List.map_eq_nil_iff.1 last
    simp [quantifier]
  | cons text texts ih =>
    obtain ⟨⟨kind, offset⟩, later, rfl, same, behind⟩ := List.map_eq_cons_iff.1 spelled
    cases same
    obtain ⟨id, ids, known, read, rfl⟩ : ∃ id ids, quantifiedId? text = some id ∧
        texts.mapM quantifiedId? = some ids ∧ id :: ids = more := by
      simpa [Option.bind_eq_some_iff] using means
    have here : (varType? text).bind Ty.varId? = some id := known
    rw [List.cons_append, quantifier, here]
    dsimp only
    rw [ih (id :: vars) behind read]
    simp

theorem postfixNames_named {names : List String} {args : List Ty} {t : Ty} {front : List Token}
    (ended : Nameless (rest.map Token.kind)) (spelled : front.map Token.kind = names.map .ident)
    (means : named? args names = some t) : postfixNames args (front ++ rest) = .ok (t, rest) := by
  induction names generalizing args front with
  | nil =>
    cases List.map_eq_nil_iff.1 spelled
    match args, means with
    | [_], rfl =>
      rw [List.nil_append, postfixNames.eq_def]
      split
      · exact absurd rfl (ended _ rfl _)
      · next same _ =>
        cases same
        rfl
      · next several => exact absurd rfl (several _)
  | cons name names ih =>
    obtain ⟨⟨kind, offset⟩, more, rfl, same, behind⟩ := List.map_eq_cons_iff.1 spelled
    cases same
    rw [named?] at means
    obtain ⟨u, made, outer⟩ := Option.bind_eq_some_iff.1 means
    have plain : (isPrimitive name || name == "forall") = false := by
      unfold applied? at made
      split at made
      · cases made
      · next plain => simpa using plain
    rw [List.cons_append, postfixNames.eq_def]
    rcases applyName_eq name args (more ++ rest) plain with ⟨v, applied, means⟩ | ⟨_, _, wrong⟩
    · cases made.symm.trans means
      simp only [plain, applied, Bool.false_eq_true, if_false]
      exact ih behind outer
    · cases made.symm.trans wrong

theorem AtomTree.length_yield_pos (a : AtomTree) : 0 < a.yield.length := by
  cases a <;> simp [AtomTree.yield]

theorem PostfixTree.length_yield_pos (x : PostfixTree) : 0 < x.yield.length := by
  obtain ⟨a, names⟩ := x
  have first := a.length_yield_pos
  rw [PostfixTree.yield, List.length_append]
  omega

theorem TypeTree.length_yield_pos (x : TypeTree) : 0 < x.yield.length := by
  cases x with
  | scheme => exact Nat.succ_pos _
  | plain left => exact left.length_yield_pos
  | arrow left right =>
    have first := left.length_yield_pos
    rw [TypeTree.yield, List.length_append]
    omega

section

variable {depth : Nat} {args : List Ty} {left right : Ty} {named later : List Token}
  (start : ∀ r, tokens.map Token.kind ≠ .ident "forall" :: r)
  (first : atom depth tokens = .ok (args, named))

include start first

theorem type_of_plain (last : postfixNames args named = .ok (left, rest))
    (ended : Closed (rest.map Token.kind)) : type (depth + 1) tokens = .ok (left, rest) := by
  rw [type]
  · simp only [first, last, bind, Except.bind, pure, Except.pure]
    split
    · exact absurd rfl (ended.ne_arrow _)
    · rfl
  · rintro offset rest rfl
    exact start _ rfl

theorem type_of_arrow {offset : Nat} (middle : postfixNames args named = .ok (left, ⟨.arrow, offset⟩ :: later))
    (last : type depth later = .ok (right, rest)) :
    type (depth + 1) tokens = .ok (.fn left right, rest) := by
  rw [type]
  · simp only [first, middle, last, bind, Except.bind, pure, Except.pure]
  · rintro offset rest rfl
    exact start _ rfl

end

mutual
theorem type_complete {t : Ty} (x : TypeTree) (means : x.type? = some t) (depth : Nat)
    (front rest : List Token) (spelled : front.map Token.kind = x.yield)
    (ended : Closed (rest.map Token.kind)) (enough : 3 * x.yield.length ≤ depth) :
    type depth (front ++ rest) = .ok (t, rest) := by
  have nonempty := x.length_yield_pos
  obtain ⟨depth, rfl⟩ : ∃ d, depth = d + 1 := ⟨depth - 1, by omega⟩
  match x with
  | .scheme vars body =>
    obtain ⟨ids, u, known, inside, rfl⟩ := TypeTree.type?_scheme.1 means
    rw [TypeTree.yield, List.cons_append] at spelled enough
    obtain ⟨⟨kind, offset⟩, later, rfl, same, behind⟩ := List.map_eq_cons_iff.1 spelled
    cases same
    obtain ⟨listed, last, rfl, hl, hb⟩ := List.map_eq_append_iff.1 behind
    have quantifiers := quantifier_quantified [] (last ++ rest) hl known
    rw [List.length_cons, List.length_append] at enough
    have body_read := type_complete body inside depth last rest hb ended (by omega)
    rw [List.cons_append, List.append_assoc, type]
    simp only [quantifiers, body_read, bind, Except.bind, pure, Except.pure]
    rfl
  | .plain (.mk a names) =>
    obtain ⟨args, inside, named⟩ := PostfixTree.type?_mk.1 means
    rw [TypeTree.yield, PostfixTree.yield] at spelled enough
    obtain ⟨first, last, rfl, ha, hn⟩ := List.map_eq_append_iff.1 spelled
    rw [List.length_append] at enough
    have atom_read := atom_complete a inside depth first (last ++ rest) ha (by omega)
    rw [List.append_assoc]
    refine type_of_plain ?_ atom_read (postfixNames_named ended.nameless hn named) ended
    intro r
    rw [List.map_append, ha]
    exact AtomTree.yield_ne_forall inside r
  | .arrow (.mk a names) right =>
    obtain ⟨u, v, left_means, inside, rfl⟩ := TypeTree.type?_arrow.1 means
    obtain ⟨args, atom_means, named⟩ := PostfixTree.type?_mk.1 left_means
    rw [TypeTree.yield, PostfixTree.yield] at spelled enough
    obtain ⟨left, later, rfl, hs, hl⟩ := List.map_eq_append_iff.1 spelled
    obtain ⟨⟨kind, offset⟩, last, rfl, same, hr⟩ := List.map_eq_cons_iff.1 hl
    cases same
    obtain ⟨first, middle, rfl, ha, hn⟩ := List.map_eq_append_iff.1 hs
    rw [List.length_append, List.length_append, List.length_cons] at enough
    have atom_read := atom_complete a atom_means depth first
      (middle ++ ⟨.arrow, offset⟩ :: (last ++ rest)) ha (by omega)
    have right_read := type_complete right inside depth last rest hr ended (by omega)
    rw [List.append_assoc, List.append_assoc]
    refine type_of_arrow ?_ atom_read (postfixNames_named (.arrow _) hn named) right_read
    intro r
    rw [List.map_append, ha]
    exact AtomTree.yield_ne_forall atom_means r

theorem atom_complete {args : List Ty} (a : AtomTree) (means : a.types? = some args) (depth : Nat)
    (front rest : List Token) (spelled : front.map Token.kind = a.yield)
    (enough : 3 * a.yield.length ≤ depth + 1) :
    atom depth (front ++ rest) = .ok (args, rest) := by
  have nonempty := a.length_yield_pos
  obtain ⟨depth, rfl⟩ : ∃ d, depth = d + 1 := ⟨depth - 1, by omega⟩
  match a with
  | .primitive name =>
    obtain ⟨⟨kind, offset⟩, rfl, same⟩ := List.map_eq_singleton_iff.1 spelled
    cases same
    obtain ⟨t, found, rfl⟩ : ∃ t, primitives.lookup name = some t ∧ [t] = args := by
      simpa [AtomTree.types?, Option.bind_eq_some_iff] using means
    simp [atom, found]
  | .name name =>
    obtain ⟨⟨kind, offset⟩, rfl, same⟩ := List.map_eq_singleton_iff.1 spelled
    cases same
    obtain ⟨free, rfl⟩ : isReserved name = false ∧ [.named name] = args := by
      simpa [AtomTree.types?] using means
    have other : primitives.lookup name = none := by
      simp only [isReserved, isPrimitive, Bool.or_eq_false_iff, Option.isSome_eq_false_iff,
        Option.isNone_iff_eq_none] at free
      exact free.1.1.1
    simp [atom, other, free]
  | .var text =>
    obtain ⟨⟨kind, offset⟩, rfl, same⟩ := List.map_eq_singleton_iff.1 spelled
    cases same
    obtain ⟨t, found, rfl⟩ : ∃ t, varType? text = some t ∧ [t] = args := by
      simpa [AtomTree.types?, Option.bind_eq_some_iff] using means
    simp [atom, found]
  | .host name =>
    obtain ⟨⟨kind, offset⟩, rfl, same⟩ := List.map_eq_singleton_iff.1 spelled
    cases same
    obtain ⟨free, rfl⟩ : name.isEmpty = false ∧ [.host name] = args := by
      simpa [AtomTree.types?] using means
    simp [atom, free]
  | .empty =>
    obtain ⟨⟨kind, offset⟩, later, rfl, same, hl⟩ := List.map_eq_cons_iff.1 spelled
    cases same
    obtain ⟨⟨kind, offset⟩, rfl, same⟩ := List.map_eq_singleton_iff.1 hl
    cases same
    cases means
    simp [atom]
  | .tuple inner =>
    rw [AtomTree.yield] at spelled enough
    obtain ⟨⟨kind, offset⟩, later, rfl, same, hl⟩ := List.map_eq_cons_iff.1 spelled
    cases same
    rw [List.length_cons] at enough
    have read := arguments_complete inner means depth [] later rest hl (by omega)
    rw [List.cons_append, atom.eq_def]
    dsimp only
    split
    · next offset rest same =>
      have spelled := congrArg (List.map Token.kind) same
      rw [List.map_append, hl] at spelled
      exact absurd spelled (inner.yield_ne_closeParen _)
    · exact read

theorem arguments_complete {args : List Ty} (x : ArgsTree) (means : x.types? = some args) (depth : Nat)
    (before : List Ty) (front rest : List Token) (spelled : front.map Token.kind = x.yield)
    (enough : 3 * x.yield.length < depth) :
    arguments depth before (front ++ rest) = .ok (before.reverse ++ args, rest) := by
  obtain ⟨depth, rfl⟩ : ∃ d, depth = d + 1 := ⟨depth - 1, by omega⟩
  match x with
  | .last x =>
    obtain ⟨t, inside, rfl⟩ := ArgsTree.types?_last.1 means
    rw [ArgsTree.yield] at spelled enough
    obtain ⟨first, last, rfl, hx, hc⟩ := List.map_eq_append_iff.1 spelled
    obtain ⟨⟨kind, offset⟩, rfl, same⟩ := List.map_eq_singleton_iff.1 hc
    cases same
    rw [List.length_append] at enough
    have read := type_complete x inside depth first (⟨.closeParen, offset⟩ :: rest) hx (.closeParen _)
      (by omega)
    rw [List.append_assoc, List.singleton_append, arguments, read]
    simp [bind, Except.bind, pure, Except.pure]
  | .more x xs =>
    obtain ⟨t, us, inside, others, rfl⟩ := ArgsTree.types?_more.1 means
    rw [ArgsTree.yield] at spelled enough
    obtain ⟨first, later, rfl, hx, hc⟩ := List.map_eq_append_iff.1 spelled
    obtain ⟨⟨kind, offset⟩, last, rfl, same, hl⟩ := List.map_eq_cons_iff.1 hc
    cases same
    rw [List.length_append, List.length_cons] at enough
    have read := type_complete x inside depth first (⟨.comma, offset⟩ :: (last ++ rest)) hx (.comma _)
      (by omega)
    have more := arguments_complete xs others depth (t :: before) last rest hl (by omega)
    rw [List.append_assoc, List.cons_append, arguments, read]
    simp [bind, Except.bind, more]
end

/-! ### Whole texts -/

/-- The tree derives the text as a signature of the type. -/
def Derives (source : Text) (x : TypeTree) (t : Ty) : Prop :=
  Consists source.bytes x.yield ∧ x.type? = some t

theorem parse_of_derives {source : Text} {x : TypeTree} {t : Ty} (h : Derives source x t) :
    parse source = .ok t := by
  obtain ⟨consists, means⟩ := h
  have spelled := (consists_iff source x.yield).1 consists
  have length : (scan source).length = x.yield.length := by rw [← spelled, List.length_map]
  have read := type_complete x means (3 * (scan source).length + 3) (scan source) [] spelled .nil
    (by omega)
  rw [List.append_nil] at read
  simp [parse, read]

theorem derives_of_parse {source : Text} {t : Ty} (read : parse source = .ok t) :
    ∃ x, Derives source x t := by
  have derived := (follows (3 * (scan source).length + 3)).1 (scan source)
  unfold parse at read
  dsimp only at read
  split at read
  · next result =>
    cases read
    rw [result] at derived
    obtain ⟨front, same, x, spelled, means⟩ := derived
    rw [List.append_nil] at same
    exact ⟨x, (consists_iff source x.yield).2 (by rw [same, spelled]), means⟩
  · cases read
  · cases read

theorem offsetOf_le {source : Text} (inside : rest <:+ scan source) :
    offsetOf source rest ≤ source.length := by
  cases rest with
  | nil => exact Nat.le_refl _
  | cons token rest => exact Nat.le_of_lt (offset_lt_of_scan (inside.subset List.mem_cons_self))

theorem offset_le_of_parse {source : Text} {e : SignatureError} (failed : parse source = .error e) :
    e.input = source ∧ e.offset ≤ source.length := by
  have derived := (follows (3 * (scan source).length + 3)).1 (scan source)
  unfold parse at failed
  dsimp only at failed
  split at failed
  · cases failed
  · next token rest result =>
    cases failed
    rw [result] at derived
    obtain ⟨front, same, -⟩ := derived
    exact ⟨rfl, offsetOf_le ⟨front, same.symm⟩⟩
  · next result =>
    cases failed
    rw [result] at derived
    exact ⟨rfl, offsetOf_le derived⟩

/-- The signatures are the texts that the grammar derives, each in one way and with the type read. Any
other text is refused at one of its tokens or at its end. -/
theorem parse_eq_ok_iff_derives (source : Text) :
    (∀ t, parse source = .ok t ↔ ∃ x, Derives source x t) ∧
    (∀ x y t u, Derives source x t → Derives source y u → x = y ∧ t = u) ∧
    ((∀ x t, ¬ Derives source x t) →
      ∃ e, parse source = .error e ∧ e.input = source ∧ e.offset ≤ source.length) := by
  refine ⟨fun t => ⟨derives_of_parse, fun ⟨x, h⟩ => parse_of_derives h⟩, ?_, ?_⟩
  · intro x y t u hx hy
    have same : x.yield = y.yield :=
      ((consists_iff _ _).1 hx.1).symm.trans ((consists_iff _ _).1 hy.1)
    obtain ⟨rfl, -⟩ := TypeTree.unique x y hx.2 hy.2 .nil .nil (congrArg (· ++ []) same)
    exact ⟨rfl, Option.some.inj (hx.2.symm.trans hy.2)⟩
  · intro none
    cases result : parse source with
    | ok t =>
      obtain ⟨x, h⟩ := derives_of_parse result
      exact absurd h (none x t)
    | error e => exact ⟨e, rfl, offset_le_of_parse result⟩

/-- A text with its only derivation, and a text that an argument list ends too early. -/
theorem parse_eq_ok_iff_derives_sample :
    (∃ x, Derives (Text.ofString "('t1, int) result -> forall 'n2. () box") x
        (.fn (.result (.var 1) .int) (.scheme [2] (.app "box" []))) ∧
      ∀ y t, Derives (Text.ofString "('t1, int) result -> forall 'n2. () box") y t → y = x) ∧
    ∃ e, parse (Text.ofString "(int, bool)") = .error e ∧ e.offset ≤ 11 := by
  constructor
  · have h := parse_eq_ok_iff_derives (Text.ofString "('t1, int) result -> forall 'n2. () box")
    obtain ⟨x, derived⟩ := (h.1 (.fn (.result (.var 1) .int) (.scheme [2] (.app "box" [])))).1 rfl
    exact ⟨x, derived, fun y t other => (h.2.1 y x t _ other derived).1⟩
  · obtain ⟨e, failed, -, within⟩ := (parse_eq_ok_iff_derives (Text.ofString "(int, bool)")).2.2 (by
      intro x t derived
      have read := parse_of_derives derived
      have refused : parse (Text.ofString "(int, bool)") =
        .error ⟨Text.ofString "(int, bool)", 11, .bareArguments⟩ := rfl
      cases refused.symm.trans read)
    exact ⟨e, failed, within⟩

end StackML.Signature
