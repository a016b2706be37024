import Mathlib.Order.Filter.AtTopBot.Basic
import StackML.Expr.Print

/-!
A reader for printed expressions: variables, numbers, booleans and unit, operators, conditions, local
bindings, functions, applications, lists and sequences. Operators are read by how tightly they bind, an
operator taking what was read before it as its left operand. `Reads` is what the reader finds whenever
its bound is high enough; there is one such answer at most.
-/

namespace StackML.Print

open Filter

/-! ### Words -/

def signs : List Char :=
  [' ', '(', ')', '[', ']', ',', ';', '=', '+', '-', '*', '/', '%', '!', '<', '>', '&', '|', ':']

def isWordChar (c : Char) : Bool := !signs.contains c

def word (s : List Char) : List Char := s.takeWhile isWordChar

def afterWord (s : List Char) : List Char := s.dropWhile isWordChar

def openers : List (List Char) := ["if".toList, "let".toList, "fn".toList]

def closers : List (List Char) := ["then".toList, "else".toList, "in".toList]

def skip? (mark : String) (s : List Char) : Option (List Char) := mark.toList.isPrefixOf? s

/-! ### Operators -/

theorem level_ne_consLevel (op : BinaryOp) : op.level ≠ consLevel := by
  cases op <;> decide

inductive Operator where
  | binary (op : BinaryOp)
  | cons
  deriving DecidableEq

namespace Operator

def text : Operator → String
  | binary op => op.text
  | cons => "::"

def level : Operator → Nat
  | binary op => op.level
  | cons => consLevel

def left : Operator → Nat
  | binary op => op.level
  | cons => consLevel + 1

def right : Operator → Nat
  | binary op => op.level + 1
  | cons => consLevel

def join : Operator → Expr Unit → Expr Unit → Expr Unit
  | binary op => Expr.binary () op
  | cons => Expr.cons ()

def all : List Operator :=
  [cons, binary .add, binary .sub, binary .mul, binary .div, binary .mod, binary .eq, binary .ne,
    binary .lt, binary .gt, binary .le, binary .ge, binary .and, binary .or]

def spaced (op : Operator) (s : List Char) : List Char := ' ' :: (op.text.toList ++ ' ' :: s)

theorem one_le_level (op : Operator) : 1 ≤ op.level := by
  cases op with
  | cons => decide
  | binary op => cases op <;> decide

theorem level_ne_atomLevel (op : Operator) : op.level ≠ atomLevel := by
  cases op with
  | cons => decide
  | binary op => cases op <;> decide

theorem left_le_succ_level (op : Operator) : op.left ≤ op.level + 1 := by
  cases op <;> simp [level, left]

theorem right_le_succ_level (op : Operator) : op.right ≤ op.level + 1 := by
  cases op <;> simp [level, right]

theorem level_le_left (op : Operator) : op.level ≤ op.left := by
  cases op <;> simp [level, left]

theorem level_le_right (op : Operator) : op.level ≤ op.right := by
  cases op <;> simp [level, right]

theorem level_lt_right {op next : Operator} (le : next.left ≤ op.level) :
    next.level < op.right := by
  cases op with
  | cons =>
    cases next with
    | cons => exact absurd le (Nat.not_succ_le_self _)
    | binary next => exact lt_of_le_of_ne le (level_ne_consLevel next)
  | binary op =>
    cases next with
    | cons => exact Nat.lt_succ_of_lt le
    | binary next => exact Nat.lt_succ_of_le le

end Operator

def operator? : List Char → Option (Operator × List Char)
  | ' ' :: s =>
    let sign := s.takeWhile (· != ' ')
    (Operator.all.find? (·.text.toList == sign)).map fun op => (op, s.drop (sign.length + 1))
  | _ => none

def startsArgument : List Char → Bool
  | ' ' :: '(' :: _ | ' ' :: '[' :: _ => true
  | ' ' :: s => word s != [] && !closers.contains (word s)
  | _ => false

/-! ### Reading -/

inductive Goal where
  | lowest
  | sequence (read : List (Expr Unit))
  | tight (level : Nat)
  | operators (level : Nat) (left : Expr Unit)
  | operand
  | application
  | arguments (callee : Expr Unit) (read : List (Expr Unit))
  | atom
  | elements (read : List (Expr Unit))

def leaf (w : List Char) : Expr Unit :=
  if w = "true".toList then .bool () true
  else if w = "false".toList then .bool () false
  else if (w.head?.any Char.isDigit) then .int () (Int64.ofNat (Nat.ofDigitChars 10 w 0))
  else .var () (String.ofList w)

def parameters (header : List Char) : List String :=
  let names := ((header.splitOn ' ').drop 1).dropLast.map String.ofList
  if names = ["()"] then [] else names

abbrev Reader := Goal → List Char → Option (Expr Unit × List Char)

namespace Reader

variable (next : Reader)

def lowest (s : List Char) : Option (Expr Unit × List Char) :=
  if word s = "if".toList then do
    let s ← skip? "if " s
    let (c, s) ← next .lowest s
    let s ← skip? " then " s
    let (t, s) ← next .lowest s
    let s ← skip? " else " s
    let (e, s) ← next .lowest s
    pure (.cond () c t e, s)
  else if word s = "let".toList then do
    let s ← skip? "let " s
    let rest ← skip? " = " (afterWord s)
    let (v, rest) ← next .lowest rest
    let rest ← skip? " in " rest
    let (b, rest) ← next .lowest rest
    pure (.letIn () (String.ofList (word s)) v b, rest)
  else if word s = "fn".toList then do
    let s ← skip? "fn" s
    let rest ← skip? "= " (s.dropWhile (· != '='))
    let (b, rest) ← next .lowest rest
    pure (.lambda () (parameters (s.takeWhile (· != '='))) b, rest)
  else do
    let (e, s) ← next (.tight 1) s
    next (.sequence [e]) s

def sequence (es : List (Expr Unit)) (s : List Char) : Option (Expr Unit × List Char) :=
  match skip? "; " s with
  | some s => do
    let (e, s) ← next (.tight 1) s
    next (.sequence (e :: es)) s
  | none =>
    match es with
    | [e] => some (e, s)
    | es => some (.sequence () es.reverse, s)

def tight (level : Nat) (s : List Char) : Option (Expr Unit × List Char) := do
  let (e, s) ← next .operand s
  next (.operators level e) s

def operators (level : Nat) (l : Expr Unit) (s : List Char) : Option (Expr Unit × List Char) :=
  match operator? s with
  | some (op, rest) =>
    if level ≤ op.level then do
      let (r, rest) ← next (.tight op.right) rest
      next (.operators level (op.join l r)) rest
    else some (l, s)
  | none => some (l, s)

def operand (s : List Char) : Option (Expr Unit × List Char) :=
  if s.head? = some '-' then do
    let (e, s) ← next .application (s.drop 1)
    pure (.unary () .neg e, s)
  else if word s = "not".toList then do
    let s ← skip? "not " s
    let (e, s) ← next .application s
    pure (.unary () .not e, s)
  else next .application s

def application (s : List Char) : Option (Expr Unit × List Char) := do
  let (c, s) ← next .atom s
  next (.arguments c []) s

def arguments (c : Expr Unit) (args : List (Expr Unit)) (s : List Char) :
    Option (Expr Unit × List Char) :=
  if startsArgument s then do
    let (a, s) ← next .atom (s.drop 1)
    next (.arguments c (a :: args)) s
  else some (if args.isEmpty then c else .apply () c args.reverse, s)

def atom : List Char → Option (Expr Unit × List Char)
  | '(' :: s =>
    if s.head? = some ')' then some (.unit (), s.drop 1)
    else do
      let (e, s) ← next .lowest s
      let s ← skip? ")" s
      pure (e, s)
  | '[' :: s =>
    if s.head? = some ']' then some (.list () [], s.drop 1) else next (.elements []) s
  | s => if (word s).isEmpty then none else some (leaf (word s), afterWord s)

def elements (es : List (Expr Unit)) (s : List Char) : Option (Expr Unit × List Char) := do
  let (e, s) ← next .lowest s
  match skip? ", " s with
  | some s => next (.elements (e :: es)) s
  | none => do
    let s ← skip? "]" s
    pure (.list () (e :: es).reverse, s)

def step : Reader
  | .lowest => lowest next
  | .sequence es => sequence next es
  | .tight level => tight next level
  | .operators level l => operators next level l
  | .operand => operand next
  | .application => application next
  | .arguments c args => arguments next c args
  | .atom => atom next
  | .elements es => elements next es

end Reader

def read : Nat → Reader
  | 0 => fun _ _ => none
  | bound + 1 => (read bound).step

def Reads (g : Goal) (s : List Char) (out : Expr Unit × List Char) : Prop :=
  ∀ᶠ n in atTop, read n g s = some out

namespace Reads

variable {g : Goal} {s s' rest : List Char} {out : Expr Unit × List Char} {e : Expr Unit}

theorem unique {out' : Expr Unit × List Char} (h : Reads g s out) (h' : Reads g s out') :
    out = out' := by
  obtain ⟨n, first, second⟩ := (h.and h').exists
  exact Option.some.inj (first.symm.trans second)

theorem of_step (h : ∀ᶠ n in atTop, (read n).step g s = some out) : Reads g s out := by
  obtain ⟨least, found⟩ := eventually_atTop.1 h
  refine eventually_atTop.2 ⟨least + 1, fun n le => ?_⟩
  obtain ⟨m, rfl⟩ := Nat.exists_eq_add_of_le' (Nat.le_of_add_left_le le)
  exact found m (Nat.le_of_succ_le_succ le)

/-! ### What reaches as far as it can -/

theorem cond {c t : Expr Unit} {s₁ s₂ s₃ s₄ : List Char} (test : Reads .lowest s (c, s₁))
    (then_ : skip? " then " s₁ = some s₂) (yes : Reads .lowest s₂ (t, s₃))
    (else_ : skip? " else " s₃ = some s₄) (no : Reads .lowest s₄ (e, rest)) :
    Reads .lowest ("if ".toList ++ s) (.cond () c t e, rest) := by
  have begins : word ("if ".toList ++ s) = "if".toList := rfl
  have behind : skip? "if " ("if ".toList ++ s) = some s := rfl
  refine of_step ?_
  filter_upwards [test, yes, no] with n test yes no
  simp only [Reader.step, Reader.lowest, begins, if_true, behind, Option.bind_eq_bind, Option.bind_some, test, then_, yes,
    else_, no, Option.pure_def]

theorem letIn {name : List Char} {v : Expr Unit} {s₁ s₂ s₃ : List Char} (known : word s = name)
    (equals : skip? " = " (afterWord s) = some s₁) (value : Reads .lowest s₁ (v, s₂))
    (in_ : skip? " in " s₂ = some s₃) (body : Reads .lowest s₃ (e, rest)) :
    Reads .lowest ("let ".toList ++ s) (.letIn () (String.ofList name) v e, rest) := by
  have begins : word ("let ".toList ++ s) = "let".toList := rfl
  have other : "let".toList ≠ "if".toList := by decide
  have behind : skip? "let " ("let ".toList ++ s) = some s := rfl
  refine of_step ?_
  filter_upwards [value, body] with n value body
  simp only [Reader.step, Reader.lowest, begins, if_true, if_neg other, behind, Option.bind_eq_bind, Option.bind_some, known,
    equals, value, in_, body, Option.pure_def]

theorem lambda {s₁ : List Char} (blank : s.head? = some ' ')
    (equals : skip? "= " (s.dropWhile (· != '=')) = some s₁) (body : Reads .lowest s₁ (e, rest)) :
    Reads .lowest ("fn".toList ++ s) (.lambda () (parameters (s.takeWhile (· != '='))) e, rest) := by
  have begins : word ("fn".toList ++ s) = "fn".toList := by
    obtain ⟨s', rfl⟩ := List.head?_eq_some_iff.1 blank
    rfl
  have noIf : "fn".toList ≠ "if".toList := by decide
  have noLet : "fn".toList ≠ "let".toList := by decide
  have behind : skip? "fn" ("fn".toList ++ s) = some s := rfl
  refine of_step ?_
  filter_upwards [body] with n body
  simp only [Reader.step, Reader.lowest, begins, if_true, if_neg noIf, if_neg noLet, behind,
    Option.bind_eq_bind, Option.bind_some, equals, body, Option.pure_def]

theorem lowest (other : word s ∉ openers) (first : Reads (.tight 1) s (e, s'))
    (more : Reads (.sequence [e]) s' out) : Reads .lowest s out := by
  simp only [openers, List.mem_cons, List.not_mem_nil, or_false, not_or] at other
  refine of_step ?_
  filter_upwards [first, more] with n first more
  simp only [Reader.step, Reader.lowest, if_neg other.1, if_neg other.2.1, if_neg other.2.2, Option.bind_eq_bind, first,
    Option.bind_some, more]

theorem sequence_next {es : List (Expr Unit)} {s₁ s₂ : List Char} (mark : skip? "; " s = some s₁)
    (next : Reads (.tight 1) s₁ (e, s₂)) (more : Reads (.sequence (e :: es)) s₂ out) :
    Reads (.sequence es) s out := by
  refine of_step ?_
  filter_upwards [next, more] with n next more
  simp only [Reader.step, Reader.sequence, mark, Option.bind_eq_bind, next, Option.bind_some, more]

theorem sequence_one (ends : skip? "; " s = none) : Reads (.sequence [e]) s (e, s) :=
  of_step (.of_forall fun n => by simp only [Reader.step, Reader.sequence, ends])

theorem sequence_many {e' : Expr Unit} {es : List (Expr Unit)} (ends : skip? "; " s = none) :
    Reads (.sequence (e :: e' :: es)) s (.sequence () (e :: e' :: es).reverse, s) :=
  of_step (.of_forall fun n => by simp only [Reader.step, Reader.sequence, ends])

/-! ### Operators -/

theorem tight {k : Nat} (first : Reads .operand s (e, s')) (more : Reads (.operators k e) s' out) :
    Reads (.tight k) s out := by
  refine of_step ?_
  filter_upwards [first, more] with n first more
  simp only [Reader.step, Reader.tight, first, Option.bind_eq_bind, Option.bind_some, more]

theorem operators_next {k : Nat} {op : Operator} {l r : Expr Unit} {s₁ s₂ : List Char}
    (found : operator? s = some (op, s₁)) (binds : k ≤ op.level)
    (operand : Reads (.tight op.right) s₁ (r, s₂)) (more : Reads (.operators k (op.join l r)) s₂ out) :
    Reads (.operators k l) s out := by
  refine of_step ?_
  filter_upwards [operand, more] with n operand more
  simp only [Reader.step, Reader.operators, found, if_pos binds, operand, Option.bind_eq_bind, Option.bind_some, more]

theorem operators_done {k : Nat} (looser : ∀ op s', operator? s = some (op, s') → op.level < k) :
    Reads (.operators k e) s (e, s) := by
  refine of_step (.of_forall fun n => ?_)
  simp only [Reader.step, Reader.operators]
  split
  · next op s' found => rw [if_neg (Nat.not_le.2 (looser op s' found))]
  · rfl

theorem operand_neg (inner : Reads .application s (e, rest)) :
    Reads .operand ('-' :: s) (.unary () .neg e, rest) := by
  refine of_step ?_
  filter_upwards [inner] with n inner
  simp only [Reader.step, Reader.operand, List.head?_cons, if_true, List.drop_succ_cons, List.drop_zero, Option.bind_eq_bind,
    inner, Option.bind_some, Option.pure_def]

theorem operand_not (inner : Reads .application s (e, rest)) :
    Reads .operand ("not ".toList ++ s) (.unary () .not e, rest) := by
  have other : ("not ".toList ++ s).head? ≠ some '-' := by
    change some 'n' ≠ some '-'
    decide
  have begins : word ("not ".toList ++ s) = "not".toList := rfl
  have behind : skip? "not " ("not ".toList ++ s) = some s := rfl
  refine of_step ?_
  filter_upwards [inner] with n inner
  simp only [Reader.step, Reader.operand, if_neg other, begins, if_true, behind, Option.bind_eq_bind, inner, Option.bind_some,
    Option.pure_def]

theorem operand (noSign : s.head? ≠ some '-') (noWord : word s ≠ "not".toList)
    (whole : Reads .application s out) : Reads .operand s out := by
  refine of_step ?_
  filter_upwards [whole] with n whole
  simp only [Reader.step, Reader.operand, if_neg noSign, if_neg noWord, whole]

/-! ### Applications -/

theorem application (callee : Reads .atom s (e, s')) (more : Reads (.arguments e []) s' out) :
    Reads .application s out := by
  refine of_step ?_
  filter_upwards [callee, more] with n callee more
  simp only [Reader.step, Reader.application, callee, Option.bind_eq_bind, Option.bind_some, more]

theorem arguments_next {a : Expr Unit} {args : List (Expr Unit)}
    (goesOn : startsArgument (' ' :: s) = true) (argument : Reads .atom s (a, s'))
    (more : Reads (.arguments e (a :: args)) s' out) : Reads (.arguments e args) (' ' :: s) out := by
  refine of_step ?_
  filter_upwards [argument, more] with n argument more
  simp only [Reader.step, Reader.arguments, goesOn, if_true, List.drop_succ_cons, List.drop_zero, Option.bind_eq_bind, argument,
    Option.bind_some, more]

theorem arguments_none (ends : startsArgument s = false) : Reads (.arguments e []) s (e, s) :=
  of_step (.of_forall fun n => by simp [Reader.step, Reader.arguments, ends])

theorem arguments_some {a : Expr Unit} {args : List (Expr Unit)} (ends : startsArgument s = false) :
    Reads (.arguments e (a :: args)) s (.apply () e (a :: args).reverse, s) :=
  of_step (.of_forall fun n => by simp [Reader.step, Reader.arguments, ends])

/-! ### Atoms -/

theorem read_closing {c : Char} (closing : c = ')' ∨ c = ']') (n : Nat) :
    read n .lowest (c :: s) = none := by
  have empty : word (c :: s) = [] := by rcases closing with rfl | rfl <;> rfl
  have sign : (c :: s).head? ≠ some '-' := by rcases closing with rfl | rfl <;> simp
  have atom (n : Nat) : read n .atom (c :: s) = none := by
    cases n with
    | zero => rfl
    | succ n => rcases closing with rfl | rfl <;> rfl
  have application (n : Nat) : read n .application (c :: s) = none := by
    cases n with
    | zero => rfl
    | succ n => simp only [read, Reader.step, Reader.application, atom, Option.bind_eq_bind,
        Option.bind_none]
  have operand (n : Nat) : read n .operand (c :: s) = none := by
    cases n with
    | zero => rfl
    | succ n =>
      have noWord : ([] : List Char) ≠ "not".toList := by decide
      simp only [read, Reader.step, Reader.operand, if_neg sign, empty, if_neg noWord, application]
  have tight (n : Nat) : read n (.tight 1) (c :: s) = none := by
    cases n with
    | zero => rfl
    | succ n => simp only [read, Reader.step, Reader.tight, operand, Option.bind_eq_bind,
        Option.bind_none]
  cases n with
  | zero => rfl
  | succ n => simp [read, Reader.step, Reader.lowest, empty, tight]

theorem unit : Reads .atom ('(' :: ')' :: s) (.unit (), s) :=
  of_step (.of_forall fun _ => rfl)

theorem bracketed (inner : Reads .lowest s (e, s')) (closes : skip? ")" s' = some rest) :
    Reads .atom ('(' :: s) (e, rest) := by
  have other : s.head? ≠ some ')' := by
    intro first
    obtain ⟨s, rfl⟩ := List.head?_eq_some_iff.1 first
    obtain ⟨n, found⟩ := inner.exists
    rw [read_closing (.inl rfl)] at found
    cases found
  refine of_step ?_
  filter_upwards [inner] with n inner
  simp only [Reader.step, Reader.atom, if_neg other, inner, Option.bind_eq_bind, Option.bind_some,
    closes, Option.pure_def]

theorem list_nil : Reads .atom ('[' :: ']' :: s) (.list () [], s) :=
  of_step (.of_forall fun _ => rfl)

theorem list (elements : Reads (.elements []) s out) : Reads .atom ('[' :: s) out := by
  have other : s.head? ≠ some ']' := by
    intro first
    obtain ⟨s, rfl⟩ := List.head?_eq_some_iff.1 first
    obtain ⟨n, found⟩ := elements.exists
    cases n with
    | zero => cases found
    | succ n => simp [read, Reader.step, Reader.elements, read_closing (.inr rfl)] at found
  refine of_step ?_
  filter_upwards [elements] with n elements
  simp only [Reader.step, Reader.atom, if_neg other, elements]

theorem elements_next {es : List (Expr Unit)} {s₁ : List Char} (element : Reads .lowest s (e, s'))
    (comma : skip? ", " s' = some s₁) (more : Reads (.elements (e :: es)) s₁ out) :
    Reads (.elements es) s out := by
  refine of_step ?_
  filter_upwards [element, more] with n element more
  simp only [Reader.step, Reader.elements, element, Option.bind_eq_bind, Option.bind_some, comma, more]

theorem elements_last {es : List (Expr Unit)} (element : Reads .lowest s (e, s'))
    (none : skip? ", " s' = none) (closes : skip? "]" s' = some rest) :
    Reads (.elements es) s (.list () (e :: es).reverse, rest) := by
  refine of_step ?_
  filter_upwards [element] with n element
  simp only [Reader.step, Reader.elements, element, Option.bind_eq_bind, Option.bind_some, none, closes, Option.pure_def]

theorem leaf (filled : word s ≠ []) : Reads .atom s (Print.leaf (word s), afterWord s) := by
  refine of_step (.of_forall fun n => ?_)
  simp only [Reader.step]
  unfold Reader.atom
  split
  · exact (filled rfl).elim
  · exact (filled rfl).elim
  · rw [if_neg (mt List.isEmpty_iff.1 filled)]

end Reads

end StackML.Print
