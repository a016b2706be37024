import StackML.Ty.Signature.Parser

/-!
The grammar of signatures as derivation trees: the tokens a tree spells and the type it means, if its
names may stand where they do. What a tree spells determines it, also with a comma, a closing bracket
or nothing behind it.
-/

namespace StackML.Signature

/-! ### Derivation trees -/

mutual
inductive TypeTree where
  | scheme (vars : List String) (body : TypeTree)
  | plain (left : PostfixTree)
  | arrow (left : PostfixTree) (right : TypeTree)

inductive PostfixTree where
  | mk (atom : AtomTree) (names : List String)

inductive AtomTree where
  | primitive (name : String)
  | name (name : String)
  | var (text : String)
  | host (name : String)
  | empty
  | tuple (args : ArgsTree)

inductive ArgsTree where
  | last (type : TypeTree)
  | more (type : TypeTree) (rest : ArgsTree)
end

def quantified (vars : List String) : List TokenKind := vars.map .typeVar ++ [.dot]

mutual
def TypeTree.yield : TypeTree → List TokenKind
  | .scheme vars body => .ident "forall" :: quantified vars ++ body.yield
  | .plain left => left.yield
  | .arrow left right => left.yield ++ .arrow :: right.yield

def PostfixTree.yield : PostfixTree → List TokenKind
  | .mk atom names => atom.yield ++ names.map .ident

def AtomTree.yield : AtomTree → List TokenKind
  | .primitive name | .name name => [.ident name]
  | .var text => [.typeVar text]
  | .host name => [.host name]
  | .empty => [.openParen, .closeParen]
  | .tuple args => .openParen :: args.yield

def ArgsTree.yield : ArgsTree → List TokenKind
  | .last type => type.yield ++ [.closeParen]
  | .more type rest => type.yield ++ .comma :: rest.yield
end

/-! ### Their types -/

def quantifiedId? (text : String) : Option VarId := (varType? text).bind Ty.varId?

def applied? (args : List Ty) (name : String) : Option Ty :=
  if isPrimitive name || name == "forall" then none
  else if name = "list" then
    match args with
    | [a] => some (.list a)
    | _ => none
  else if name = "result" then
    match args with
    | [a, b] => some (.result a b)
    | _ => none
  else some (.app name args)

/-- The type that a row of names behind arguments means. Without a name there must be one argument,
which is the type itself. -/
def named? : List Ty → List String → Option Ty
  | [t], [] => some t
  | _, [] => none
  | args, name :: names => (applied? args name).bind fun t => named? [t] names

mutual
def TypeTree.type? : TypeTree → Option Ty
  | .scheme vars body => do return .scheme (← vars.mapM quantifiedId?) (← body.type?)
  | .plain left => left.type?
  | .arrow left right => do return .fn (← left.type?) (← right.type?)

def PostfixTree.type? : PostfixTree → Option Ty
  | .mk atom names => do named? (← atom.types?) names

/-- An atom means a list of arguments, which are a single type unless a name follows. -/
def AtomTree.types? : AtomTree → Option (List Ty)
  | .primitive name => do return [← primitives.lookup name]
  | .name name => if isReserved name then none else some [.named name]
  | .var text => do return [← varType? text]
  | .host name => if name.isEmpty then none else some [.host name]
  | .empty => some []
  | .tuple args => args.types?

def ArgsTree.types? : ArgsTree → Option (List Ty)
  | .last type => do return [← type.type?]
  | .more type rest => do return (← type.type?) :: (← rest.types?)
end

theorem TypeTree.type?_scheme {vars : List String} {body : TypeTree} {t : Ty} :
    (TypeTree.scheme vars body).type? = some t ↔
      ∃ ids u, vars.mapM quantifiedId? = some ids ∧ body.type? = some u ∧ .scheme ids u = t := by
  simp [TypeTree.type?, Option.bind_eq_some_iff]

theorem TypeTree.type?_arrow {left : PostfixTree} {right : TypeTree} {t : Ty} :
    (TypeTree.arrow left right).type? = some t ↔
      ∃ a b, left.type? = some a ∧ right.type? = some b ∧ .fn a b = t := by
  simp [TypeTree.type?, Option.bind_eq_some_iff]

theorem PostfixTree.type?_mk {atom : AtomTree} {names : List String} {t : Ty} :
    (PostfixTree.mk atom names).type? = some t ↔
      ∃ args, atom.types? = some args ∧ named? args names = some t := by
  simp [PostfixTree.type?, Option.bind_eq_some_iff]

theorem ArgsTree.types?_last {x : TypeTree} {ts : List Ty} :
    (ArgsTree.last x).types? = some ts ↔ ∃ t, x.type? = some t ∧ [t] = ts := by
  simp [ArgsTree.types?, Option.bind_eq_some_iff]

theorem ArgsTree.types?_more {x : TypeTree} {rest : ArgsTree} {ts : List Ty} :
    (ArgsTree.more x rest).types? = some ts ↔
      ∃ t us, x.type? = some t ∧ rest.types? = some us ∧ t :: us = ts := by
  simp [ArgsTree.types?, Option.bind_eq_some_iff]

def Closed (rest : List TokenKind) : Prop := ∀ k ∈ rest.head?, k = .comma ∨ k = .closeParen

def Nameless (rest : List TokenKind) : Prop := ∀ k ∈ rest.head?, ∀ name, k ≠ .ident name

theorem Closed.nil : Closed [] := by
  intro k first
  cases first

theorem Closed.comma (rest : List TokenKind) : Closed (.comma :: rest) := by
  rintro k ⟨⟩
  exact .inl rfl

theorem Closed.closeParen (rest : List TokenKind) : Closed (.closeParen :: rest) := by
  rintro k ⟨⟩
  exact .inr rfl

variable {r s : List TokenKind}

theorem Closed.nameless (h : Closed r) : Nameless r := by
  intro k first name
  rcases h k first with rfl | rfl <;> nofun

theorem Nameless.arrow (rest : List TokenKind) : Nameless (.arrow :: rest) := by
  rintro k ⟨⟩ name
  nofun

theorem Closed.ne_arrow (h : Closed r) (rest : List TokenKind) : r ≠ .arrow :: rest := by
  rintro rfl
  rcases h .arrow rfl with wrong | wrong <;> cases wrong

/-! ### What a tree spells determines it -/

theorem AtomTree.not_reserved {name : String} {ts us : List Ty}
    (means : (AtomTree.primitive name).types? = some ts) :
    ¬ (AtomTree.name name).types? = some us := by
  obtain ⟨t, found, -⟩ : ∃ t, primitives.lookup name = some t ∧ [t] = ts := by
    simpa [AtomTree.types?, Option.bind_eq_some_iff] using means
  simp [AtomTree.types?, isReserved, isPrimitive, found]

theorem AtomTree.yield_ne_forall {a : AtomTree} {args : List Ty} (means : a.types? = some args)
    (rest : List TokenKind) : a.yield ++ r ≠ .ident "forall" :: rest := by
  intro same
  cases a with
  | primitive | name =>
    cases same
    cases means
  | var | host | empty | tuple => cases same

theorem PostfixTree.yield_ne_forall {x : PostfixTree} {t : Ty} (means : x.type? = some t)
    (rest : List TokenKind) : x.yield ++ r ≠ .ident "forall" :: rest := by
  obtain ⟨atom, names⟩ := x
  obtain ⟨args, means, -⟩ := PostfixTree.type?_mk.1 means
  rw [PostfixTree.yield, List.append_assoc]
  exact AtomTree.yield_ne_forall means rest

theorem AtomTree.yield_ne_closeParen (a : AtomTree) (rest : List TokenKind) :
    a.yield ++ r ≠ .closeParen :: rest := by
  cases a <;> nofun

theorem TypeTree.yield_ne_closeParen (x : TypeTree) (rest : List TokenKind) :
    x.yield ++ r ≠ .closeParen :: rest := by
  cases x with
  | scheme => nofun
  | plain left =>
    cases left
    rw [TypeTree.yield, PostfixTree.yield, List.append_assoc]
    exact AtomTree.yield_ne_closeParen _ _
  | arrow left right =>
    cases left
    rw [TypeTree.yield, PostfixTree.yield, List.append_assoc, List.append_assoc]
    exact AtomTree.yield_ne_closeParen _ _

theorem ArgsTree.yield_ne_closeParen (x : ArgsTree) (rest : List TokenKind) :
    x.yield ++ r ≠ .closeParen :: rest := by
  cases x with
  | last type =>
    rw [ArgsTree.yield, List.append_assoc]
    exact type.yield_ne_closeParen _
  | more type rest =>
    rw [ArgsTree.yield, List.append_assoc]
    exact type.yield_ne_closeParen _

theorem names_unique {names names' : List String} (hr : Nameless r) (hs : Nameless s)
    (same : names.map TokenKind.ident ++ r = names'.map TokenKind.ident ++ s) :
    names = names' ∧ r = s := by
  induction names generalizing names' with
  | nil =>
    cases names' with
    | nil => exact ⟨rfl, same⟩
    | cons name names' =>
      rw [List.map_nil, List.nil_append] at same
      subst same
      exact absurd rfl (hr _ rfl name)
  | cons name names ih =>
    cases names' with
    | nil =>
      rw [List.map_nil, List.nil_append] at same
      subst same
      exact absurd rfl (hs _ rfl name)
    | cons name' names' =>
      rw [List.map_cons, List.map_cons, List.cons_append, List.cons_append, List.cons.injEq,
        TokenKind.ident.injEq] at same
      obtain ⟨rfl, rest⟩ := ih same.2
      exact ⟨by rw [same.1], rest⟩

theorem quantified_unique {vars vars' : List String}
    (same : quantified vars ++ r = quantified vars' ++ s) : vars = vars' ∧ r = s := by
  induction vars generalizing vars' with
  | nil =>
    cases vars' with
    | nil => exact ⟨rfl, List.tail_eq_of_cons_eq same⟩
    | cons => cases same
  | cons var vars ih =>
    cases vars' with
    | nil => cases same
    | cons var' vars' =>
      obtain ⟨head, tail⟩ := List.cons_eq_cons.1 same
      obtain ⟨rfl, rest⟩ := ih tail
      exact ⟨by rw [TokenKind.typeVar.inj head], rest⟩

mutual
/-- Two trees that mean something and spell the same tokens are the same, and what stands behind them
is the same. -/
theorem TypeTree.unique {r s : List TokenKind} {t u : Ty} (x y : TypeTree) (hx : x.type? = some t)
    (hy : y.type? = some u) (hr : Closed r) (hs : Closed s) (same : x.yield ++ r = y.yield ++ s) :
    x = y ∧ r = s := by
  match x, y with
  | .scheme vars body, .scheme vars' body' =>
    obtain ⟨_, _, _, hb, -⟩ := TypeTree.type?_scheme.1 hx
    obtain ⟨_, _, _, hb', -⟩ := TypeTree.type?_scheme.1 hy
    simp only [TypeTree.yield, List.cons_append, List.append_assoc, List.cons.injEq, true_and] at same
    obtain ⟨rfl, behind⟩ := quantified_unique same
    obtain ⟨rfl, rest⟩ := TypeTree.unique body body' hb hb' hr hs behind
    exact ⟨rfl, rest⟩
  | .plain left, .plain left' =>
    obtain ⟨rfl, rest⟩ := PostfixTree.unique left left' hx hy hr.nameless hs.nameless same
    exact ⟨rfl, rest⟩
  | .plain left, .arrow left' right' =>
    obtain ⟨_, _, hl', -⟩ := TypeTree.type?_arrow.1 hy
    rw [TypeTree.yield, TypeTree.yield, List.append_assoc] at same
    obtain ⟨-, rest⟩ := PostfixTree.unique left left' hx hl' hr.nameless (.arrow _) same
    exact absurd rest (hr.ne_arrow _)
  | .arrow left right, .plain left' =>
    obtain ⟨_, _, hl, -⟩ := TypeTree.type?_arrow.1 hx
    rw [TypeTree.yield, TypeTree.yield, List.append_assoc] at same
    obtain ⟨-, rest⟩ := PostfixTree.unique left left' hl hy (.arrow _) hs.nameless same
    exact absurd rest.symm (hs.ne_arrow _)
  | .arrow left right, .arrow left' right' =>
    obtain ⟨_, _, hl, hb, -⟩ := TypeTree.type?_arrow.1 hx
    obtain ⟨_, _, hl', hb', -⟩ := TypeTree.type?_arrow.1 hy
    rw [TypeTree.yield, TypeTree.yield, List.append_assoc, List.append_assoc] at same
    obtain ⟨rfl, behind⟩ := PostfixTree.unique left left' hl hl' (.arrow _) (.arrow _) same
    obtain ⟨rfl, rest⟩ := TypeTree.unique right right' hb hb' hr hs (List.tail_eq_of_cons_eq behind)
    exact ⟨rfl, rest⟩
  | .scheme _ _, .plain left' => exact absurd same.symm (PostfixTree.yield_ne_forall hy _)
  | .plain left, .scheme _ _ => exact absurd same (PostfixTree.yield_ne_forall hx _)
  | .scheme _ _, .arrow left' right' =>
    obtain ⟨_, _, hl', -⟩ := TypeTree.type?_arrow.1 hy
    rw [TypeTree.yield.eq_3, List.append_assoc] at same
    exact absurd same.symm (PostfixTree.yield_ne_forall hl' _)
  | .arrow left right, .scheme _ _ =>
    obtain ⟨_, _, hl, -⟩ := TypeTree.type?_arrow.1 hx
    rw [TypeTree.yield.eq_3, List.append_assoc] at same
    exact absurd same (PostfixTree.yield_ne_forall hl _)
termination_by structural x

theorem PostfixTree.unique {r s : List TokenKind} {t u : Ty} (x y : PostfixTree)
    (hx : x.type? = some t) (hy : y.type? = some u) (hr : Nameless r) (hs : Nameless s)
    (same : x.yield ++ r = y.yield ++ s) : x = y ∧ r = s := by
  match x, y with
  | .mk atom names, .mk atom' names' =>
    obtain ⟨_, ha, -⟩ := PostfixTree.type?_mk.1 hx
    obtain ⟨_, ha', -⟩ := PostfixTree.type?_mk.1 hy
    rw [PostfixTree.yield, PostfixTree.yield, List.append_assoc, List.append_assoc] at same
    obtain ⟨rfl, behind⟩ := AtomTree.unique atom atom' ha ha' same
    obtain ⟨rfl, rest⟩ := names_unique hr hs behind
    exact ⟨rfl, rest⟩
termination_by structural x

theorem AtomTree.unique {r s : List TokenKind} {ts us : List Ty} (x y : AtomTree)
    (hx : x.types? = some ts) (hy : y.types? = some us) (same : x.yield ++ r = y.yield ++ s) :
    x = y ∧ r = s := by
  match x, y with
  | .primitive _, .primitive _ | .name _, .name _ | .var _, .var _ | .host _, .host _
  | .empty, .empty =>
    cases same
    exact ⟨rfl, rfl⟩
  | .primitive _, .name _ =>
    cases same
    exact absurd hy (AtomTree.not_reserved hx)
  | .name _, .primitive _ =>
    cases same
    exact absurd hx (AtomTree.not_reserved hy)
  | .tuple args, .tuple args' =>
    obtain ⟨rfl, rest⟩ := ArgsTree.unique args args' hx hy (List.tail_eq_of_cons_eq same)
    exact ⟨rfl, rest⟩
  | .tuple args, .empty => exact absurd (List.tail_eq_of_cons_eq same) (args.yield_ne_closeParen _)
  | .empty, .tuple args =>
    exact absurd (List.tail_eq_of_cons_eq same).symm (args.yield_ne_closeParen _)
termination_by structural x

theorem ArgsTree.unique {r s : List TokenKind} {ts us : List Ty} (x y : ArgsTree)
    (hx : x.types? = some ts) (hy : y.types? = some us) (same : x.yield ++ r = y.yield ++ s) :
    x = y ∧ r = s := by
  match x, y with
  | .last x, .last y =>
    obtain ⟨_, hx, -⟩ := ArgsTree.types?_last.1 hx
    obtain ⟨_, hy, -⟩ := ArgsTree.types?_last.1 hy
    rw [ArgsTree.yield, ArgsTree.yield, List.append_assoc, List.append_assoc] at same
    obtain ⟨rfl, rest⟩ := TypeTree.unique x y hx hy (.closeParen _) (.closeParen _) same
    exact ⟨rfl, List.tail_eq_of_cons_eq rest⟩
  | .more x xs, .more y ys =>
    obtain ⟨_, _, hx, hxs, -⟩ := ArgsTree.types?_more.1 hx
    obtain ⟨_, _, hy, hys, -⟩ := ArgsTree.types?_more.1 hy
    rw [ArgsTree.yield, ArgsTree.yield, List.append_assoc, List.append_assoc] at same
    obtain ⟨rfl, behind⟩ := TypeTree.unique x y hx hy (.comma _) (.comma _) same
    obtain ⟨rfl, rest⟩ := ArgsTree.unique xs ys hxs hys (List.tail_eq_of_cons_eq behind)
    exact ⟨rfl, rest⟩
  | .last x, .more y ys =>
    obtain ⟨_, hx, -⟩ := ArgsTree.types?_last.1 hx
    obtain ⟨_, _, hy, -⟩ := ArgsTree.types?_more.1 hy
    rw [ArgsTree.yield, ArgsTree.yield, List.append_assoc, List.append_assoc] at same
    cases (TypeTree.unique x y hx hy (.closeParen _) (.comma _) same).2
  | .more x xs, .last y =>
    obtain ⟨_, _, hx, -⟩ := ArgsTree.types?_more.1 hx
    obtain ⟨_, hy, -⟩ := ArgsTree.types?_last.1 hy
    rw [ArgsTree.yield, ArgsTree.yield, List.append_assoc, List.append_assoc] at same
    cases (TypeTree.unique x y hx hy (.comma _) (.closeParen _) same).2
termination_by structural x
end

end StackML.Signature
