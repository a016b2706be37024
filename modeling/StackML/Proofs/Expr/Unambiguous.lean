import StackML.Proofs.Expr.Levels
import StackML.Proofs.Expr.Notes

/-!
Printed expressions are unambiguous: what is read back from the text of an expression is the
expression without its notes, so two expressions with one text are the same tree. What is shown of
each form is how it reads at every level that asks for no brackets around it; brackets make a form
readable at all levels.
-/

namespace StackML

variable {α β : Type}

open Print

namespace Expr

/-- The expressions of variables, numbers, booleans and unit, operators, conditions, local bindings,
functions, applications, lists and sequences, where `binder` holds of the names that are bound. -/
inductive Plain (binder : String → Prop) : Expr α → Prop
  | var {n name} : IsName name → Plain binder (var n name)
  | int {n v} : 0 ≤ v.toInt → Plain binder (int n v)
  | bool {n v} : Plain binder (bool n v)
  | unit {n} : Plain binder (unit n)
  | unary {n op e} : Plain binder e → Plain binder (unary n op e)
  | binary {n op l r} : Plain binder l → Plain binder r → Plain binder (binary n op l r)
  | cons {n h t} : Plain binder h → Plain binder t → Plain binder (cons n h t)
  | cond {n c t e} : Plain binder c → Plain binder t → Plain binder e → Plain binder (cond n c t e)
  | letIn {n name v b} :
    binder name → Plain binder v → Plain binder b → Plain binder (letIn n name v b)
  | lambda {n ps b} : (∀ p ∈ ps, binder p) → Plain binder b → Plain binder (lambda n ps b)
  | list {n es} : (∀ e ∈ es, Plain binder e) → Plain binder (list n es)
  | sequence {n es} : 2 ≤ es.length → (∀ e ∈ es, Plain binder e) → Plain binder (sequence n es)
  | apply {n c args} : Plain binder c → (∀ n' c' args', c ≠ apply n' c' args') → args ≠ [] →
    (∀ a ∈ args, Plain binder a) → Plain binder (apply n c args)

/-- The tree without its notes. -/
def shape (e : Expr α) : Expr Unit := e.mapNotes fun _ => ()

/-! ### Texts -/

def charsAt (outer : Nat) (right : Bool) (e : Expr α) : List Char := (e.textAt 0 outer right).toList

def chars (e : Expr α) : List Char := e.text.toList

theorem texts_eq (indent outer : Nat) (right : Bool) (done : List String) (es : List (Expr α)) :
    texts indent outer right done es = done.reverse ++ es.map (textAt indent outer right) := by
  induction es generalizing done with
  | nil => simp [texts]
  | cons e es ih => simp [texts, ih]

theorem bracketed_false (text : String) : Ty.bracketed false text = text := rfl

@[simp] theorem needsBrackets_lowest (inner : Nat) : needsBrackets inner lowest false = false := by
  by_cases loosest : inner = 0 <;> simp [needsBrackets, lowest, loosest, consLevel]

theorem textAt_eq (indent outer : Nat) (right : Bool) (e : Expr α) :
    e.textAt indent outer right =
      Ty.bracketed (needsBrackets e.level outer right) (e.textAt indent lowest false) := by
  rw [textAt.eq_def indent outer right e, textAt.eq_def indent lowest false e]
  simp only [needsBrackets_lowest, bracketed_false]

theorem needsBrackets_eq_false {inner outer : Nat} {right : Bool}
    (none : needsBrackets inner outer right = false) :
    outer < inner ∨ inner = outer ∧ (outer = atomLevel ∨ right = (outer == consLevel)) := by
  unfold needsBrackets at none
  split at none
  · next same =>
    simp only [Bool.and_eq_true, beq_iff_eq] at same
    obtain ⟨rfl, -⟩ := same
    exact .inr ⟨rfl, .inr (bne_eq_false_iff_eq.1 none)⟩
  · next other =>
    simp only [Bool.and_eq_true, beq_iff_eq, bne_iff_ne, not_and_not_right] at other
    have le := Nat.not_lt.1 (of_decide_eq_false none)
    rcases Nat.lt_or_eq_of_le le with lt | same
    · exact .inl lt
    · exact .inr ⟨same.symm, .inl (same.trans (other same.symm))⟩

theorem le_of_needsBrackets {inner outer : Nat} {right : Bool}
    (none : needsBrackets inner outer right = false) : outer ≤ inner := by
  rcases needsBrackets_eq_false none with lt | ⟨same, -⟩
  · exact lt.le
  · exact same.ge

theorem charsAt_eq (outer : Nat) (right : Bool) (e : Expr α) :
    e.charsAt outer right =
      if needsBrackets e.level outer right then '(' :: (e.chars ++ [')']) else e.chars := by
  rw [charsAt, textAt_eq]
  unfold Ty.bracketed
  split
  · simp [chars, text]
  · rfl

def outline : Expr α → List Char
  | var _ name => name.toList
  | int _ v => (toString v.toInt).toList
  | bool _ v => if v then "true".toList else "false".toList
  | unit _ => ['(', ')']
  | unary _ op e =>
    (match op with | .neg => "-".toList | .not => "not ".toList) ++ e.charsAt applyLevel false
  | binary _ op l r =>
    l.charsAt op.level false ++ (Operator.binary op).spaced (r.charsAt op.level true)
  | cons _ h t => h.charsAt consLevel false ++ Operator.cons.spaced (t.charsAt consLevel true)
  | cond _ c t e => "if ".toList ++ (c.chars ++ (" then ".toList ++ (t.chars ++
      (" else ".toList ++ e.chars))))
  | letIn _ name v b => "let ".toList ++ (name.toList ++ (" = ".toList ++ (v.chars ++
      (" in ".toList ++ b.chars))))
  | lambda _ ps b => "fn".toList ++ ((params ps).toList ++ (" = ".toList ++ b.chars))
  | apply _ c args =>
    c.charsAt applyLevel false ++ args.flatMap (' ' :: ·.charsAt atomLevel true)
  | list _ es => '[' :: (", ".toList.intercalate (es.map chars) ++ [']'])
  | sequence _ es => "; ".toList.intercalate (es.map (charsAt (lowest + 1) false))
  | e => e.chars

theorem chars_eq (e : Expr α) : e.chars = e.outline := by
  cases e with
  | unary n op e =>
    rw [chars, text, textAt]
    unfold outline
    cases op <;> simp [bracketed_false, UnaryOp.text, charsAt, unaryLevel, applyLevel]
  | bool n v =>
    rw [chars, text, textAt]
    unfold outline
    cases v <;> simp [bracketed_false]
  | list | sequence =>
    rw [chars, text, textAt]
    simp only [needsBrackets_lowest, bracketed_false, texts_eq, String.toList_append,
      String.toList_intercalate, List.reverse_nil, List.nil_append, List.map_map]
    rfl
  | var | int | unit | binary | cons | cond | letIn | lambda | apply =>
    rw [chars, text, textAt]
    unfold outline
    simp [bracketed_false, level, chars, text, charsAt, Operator.spaced, Operator.text,
      texts_eq, List.flatMap_map, String.toList_join]
  | _ => rfl

section Shapes

variable (n : α) (e : Expr α)

theorem chars_list (es : List (Expr α)) :
    (list n es).chars = '[' :: (", ".toList.intercalate (es.map chars) ++ [']']) := chars_eq _

theorem chars_sequence (es : List (Expr α)) :
    (sequence n es).chars = "; ".toList.intercalate (es.map (charsAt (lowest + 1) false)) := chars_eq _

theorem chars_apply (args : List (Expr α)) : (apply n e args).chars =
    e.charsAt applyLevel false ++ args.flatMap (' ' :: ·.charsAt atomLevel true) := chars_eq _

theorem shape_list (es : List (Expr α)) : (list n es).shape = .list () (es.map shape) := by
  rw [shape, mapNotes, mapAll_eq]
  rfl

theorem shape_sequence (es : List (Expr α)) :
    (sequence n es).shape = .sequence () (es.map shape) := by
  rw [shape, mapNotes, mapAll_eq]
  rfl

theorem shape_apply (args : List (Expr α)) :
    (apply n e args).shape = .apply () e.shape (args.map shape) := by
  rw [shape, mapNotes, mapAll_eq]
  rfl

end Shapes

/-! ### How an expression reads -/

structure Readable (e : Expr α) : Prop where
  lowest : AsLowest e.chars e.shape
  tight : 1 ≤ e.level → AsTight e.level e.chars e.shape
  application : applyLevel ≤ e.level → AsApplication e.chars e.shape
  atom : atomLevel ≤ e.level → AsAtom e.chars e.shape

namespace Readable

variable {e : Expr α}

theorem of_atom (h : AsAtom e.chars e.shape) : Readable e :=
  have tight {level : Nat} : AsTight level e.chars e.shape := h.application.operand.tight
  ⟨tight.lowest le_rfl, fun _ => tight, fun _ => h.application, fun _ => h⟩

theorem of_application (loose : e.level < atomLevel) (h : AsApplication e.chars e.shape) :
    Readable e :=
  have tight {level : Nat} : AsTight level e.chars e.shape := h.operand.tight
  ⟨tight.lowest le_rfl, fun _ => tight, fun _ => h, fun le => absurd le (Nat.not_le.2 loose)⟩

theorem of_tight (some : 1 ≤ e.level) (loose : e.level < applyLevel)
    (h : AsTight e.level e.chars e.shape) : Readable e :=
  ⟨h.lowest some, fun _ => h, fun le => absurd le (Nat.not_le.2 loose),
    fun le => absurd le (Nat.not_le.2 (Nat.lt_succ_of_lt loose))⟩

theorem of_lowest (none : e.level = 0) (h : AsLowest e.chars e.shape) : Readable e where
  lowest := h
  tight le := by omega
  application le := by simp [none, applyLevel] at le
  atom le := by simp [none, atomLevel] at le

/-! What stands where a level is asked for, in brackets or not. -/

section At

variable {outer : Nat} {right : Bool}

theorem tightAt {least : Nat} (h : Readable e) (some : 1 ≤ least)
    (bare : needsBrackets e.level outer right = false → least ≤ e.level) :
    AsTight least (e.charsAt outer right) e.shape := by
  rw [charsAt_eq]
  split
  · exact h.lowest.bracketed.application.operand.tight
  · next none =>
    have le := bare (Bool.eq_false_of_not_eq_true none)
    exact (h.tight (some.trans le)).mono le

theorem atomAt (h : Readable e)
    (bare : needsBrackets e.level outer right = false → atomLevel ≤ e.level) :
    AsAtom (e.charsAt outer right) e.shape := by
  rw [charsAt_eq]
  split
  · exact h.lowest.bracketed
  · next none => exact h.atom (bare (Bool.eq_false_of_not_eq_true none))

end At

theorem leftOf (h : Readable e) (op : Operator) :
    AsTight op.left (e.charsAt op.level false) e.shape := by
  refine h.tightAt (op.one_le_level.trans op.level_le_left) fun none => ?_
  rcases needsBrackets_eq_false none with lt | ⟨same, atom | side⟩
  · exact op.left_le_succ_level.trans lt
  · exact absurd atom op.level_ne_atomLevel
  · cases op with
    | cons => cases side
    | binary op => exact same.ge

theorem rightOf (h : Readable e) (op : Operator) :
    AsTight op.right (e.charsAt op.level true) e.shape := by
  refine h.tightAt (op.one_le_level.trans op.level_le_right) fun none => ?_
  rcases needsBrackets_eq_false none with lt | ⟨same, atom | side⟩
  · exact op.right_le_succ_level.trans lt
  · exact absurd atom op.level_ne_atomLevel
  · cases op with
    | cons => exact same.ge
    | binary op => exact absurd (beq_iff_eq.1 side.symm) (level_ne_consLevel op)

theorem elementAt (h : Readable e) : AsTight 1 (e.charsAt (Print.lowest + 1) false) e.shape :=
  h.tightAt le_rfl le_of_needsBrackets

theorem operandAt (h : Readable e) : AsApplication (e.charsAt applyLevel false) e.shape := by
  rw [charsAt_eq]
  split
  · exact h.lowest.bracketed.application
  · next none => exact h.application (le_of_needsBrackets (Bool.eq_false_of_not_eq_true none))

theorem calleeAt (h : Readable e) (other : e.level ≠ applyLevel) :
    AsAtom (e.charsAt applyLevel false) e.shape :=
  h.atomAt fun none => lt_of_le_of_ne (le_of_needsBrackets none) other.symm

theorem argumentAt (h : Readable e) : AsAtom (e.charsAt atomLevel true) e.shape :=
  h.atomAt le_of_needsBrackets

end Readable

/-! ### Lists of expressions -/

section Lists

variable {x : Expr Unit} {es : List (Expr α)} {rest : List Char}

theorem word_arguments (ends : word rest = []) (args : List (Expr α)) :
    word (args.flatMap (' ' :: ·.charsAt atomLevel true) ++ rest) = [] := by
  cases args with
  | nil => exact ends
  | cons a args => rfl

theorem reads_arguments (each : ∀ a ∈ es, Readable a) (ends : Ends rest) (done : List (Expr Unit))
    (some : done ≠ [] ∨ es ≠ []) :
    Reads (.arguments x done) (es.flatMap (' ' :: ·.charsAt atomLevel true) ++ rest)
      (.apply () x (done.reverse ++ es.map shape), rest) := by
  induction es generalizing done with
  | nil =>
    obtain ⟨a, done, rfl⟩ := List.exists_cons_of_ne_nil (some.resolve_right (· rfl))
    rw [List.map_nil, List.append_nil]
    exact .arguments_some ends.argument
  | cons a es ih =>
    obtain ⟨first, others⟩ := List.forall_mem_cons.1 each
    have ends' := word_arguments ends.word es
    have more := ih others (a.shape :: done) (.inl (List.cons_ne_nil _ _))
    rw [List.reverse_cons, List.append_assoc] at more
    rw [List.flatMap_cons, List.append_assoc]
    exact .arguments_next (first.argumentAt.argument ends') (first.argumentAt.reads ends') more

theorem reads_elements {e : Expr α} (first : Readable e) (each : ∀ e ∈ es, Readable e)
    (done : List (Expr Unit)) :
    Reads (.elements done) (e.chars ++ (es.flatMap (", ".toList ++ ·.chars) ++ ']' :: rest))
      (.list () (done.reverse ++ (e :: es).map shape), rest) := by
  induction es generalizing e done with
  | nil =>
    have read := first.lowest.reads (closing_mark rest "]" (by decide))
    rw [List.map_singleton, ← List.reverse_cons]
    exact .elements_last read rfl rfl
  | cons e' es ih =>
    obtain ⟨second, others⟩ := List.forall_mem_cons.1 each
    have more := ih second others (e.shape :: done)
    rw [List.reverse_cons, List.append_assoc] at more
    rw [List.flatMap_cons, List.append_assoc, List.append_assoc]
    exact .elements_next (first.lowest.reads (closing_mark _ _ (by decide))) rfl more

theorem stops_sequence (closing : Closing rest) (es : List (Expr α)) :
    Stops (es.flatMap ("; ".toList ++ ·.charsAt (lowest + 1) false) ++ rest) := by
  cases es with
  | nil => exact closing.toStops
  | cons e es =>
    rw [List.flatMap_cons, List.append_assoc, List.append_assoc]
    exact stops_semicolon _

theorem reads_sequence (each : ∀ e ∈ es, Readable e) (closing : Closing rest)
    (done : List (Expr Unit)) (many : 2 ≤ done.length + es.length) :
    Reads (.sequence done) (es.flatMap ("; ".toList ++ ·.charsAt (lowest + 1) false) ++ rest)
      (.sequence () (done.reverse ++ es.map shape), rest) := by
  induction es generalizing done with
  | nil =>
    rw [List.map_nil, List.append_nil]
    match done, many with
    | e :: e' :: done, _ => exact .sequence_many closing.semicolon
  | cons e es ih =>
    obtain ⟨first, others⟩ := List.forall_mem_cons.1 each
    have still : 2 ≤ (e.shape :: done).length + es.length := by
      rw [List.length_cons] at many ⊢
      omega
    have more := ih others (e.shape :: done) still
    rw [List.reverse_cons, List.append_assoc] at more
    rw [List.flatMap_cons, List.append_assoc, List.append_assoc]
    exact .sequence_next rfl (first.elementAt.stops le_rfl (stops_sequence closing es)) more

theorem asAtom_list {n : α} (each : ∀ e ∈ es, Readable e) :
    AsAtom (list n es).chars (list n es).shape := by
  rw [chars_list, shape_list]
  refine ⟨⟨List.cons_ne_nil _ _, by simp, ?_⟩, fun {rest} _ => ?_, fun _ => rfl⟩
  · change [] ∉ formWords
    decide
  · cases es with
    | nil => exact .list_nil
    | cons e es =>
      obtain ⟨first, others⟩ := List.forall_mem_cons.1 each
      rw [List.map_cons, intercalate_cons, List.flatMap_map, List.cons_append, List.append_assoc,
        List.append_assoc]
      exact .list (reads_elements first others [])

theorem asLowest_sequence {n : α} (many : 2 ≤ es.length) (each : ∀ e ∈ es, Readable e) :
    AsLowest (sequence n es).chars (sequence n es).shape where
  reads {rest} closing := by
    obtain ⟨e, es, rfl⟩ := List.exists_cons_of_length_pos (Nat.lt_of_lt_of_le Nat.two_pos many)
    obtain ⟨first, others⟩ := List.forall_mem_cons.1 each
    have stops := stops_sequence closing es
    have more := reads_sequence others closing [e.shape] (Nat.add_comm _ _ ▸ many)
    rw [chars_sequence, shape_sequence, List.map_cons, intercalate_cons, List.flatMap_map,
      List.append_assoc]
    refine .lowest ?_ (first.elementAt.stops le_rfl stops) more
    rw [word_append stops.word]
    exact first.elementAt.noOpener

theorem asApplication_apply {n : α} {c : Expr α} (callee : AsAtom (c.charsAt applyLevel false) c.shape)
    (some : es ≠ []) (each : ∀ e ∈ es, Readable e) :
    AsApplication (apply n c es).chars (apply n c es).shape := by
  rw [chars_apply, shape_apply]
  have begins := callee.append (word_arguments (rfl : word [] = []) es)
  rw [List.append_nil] at begins
  refine ⟨begins, fun {rest} ends => ?_⟩
  rw [List.append_assoc]
  exact .application (callee.reads (word_arguments ends.word es))
    (reads_arguments each ends [] (.inr some))

end Lists

/-! ### All expressions -/

namespace Plain

variable {binder : String → Prop} {e : Expr α}

theorem level_ne_applyLevel (h : Plain binder e) (other : ∀ n c args, e ≠ Expr.apply n c args) :
    e.level ≠ applyLevel := by
  cases h with
  | binary =>
    rename_i op _ _ _ _
    cases op <;> simp [level, BinaryOp.level, applyLevel]
  | apply => exact absurd rfl (other _ _ _)
  | _ => simp [level, consLevel, unaryLevel, applyLevel, atomLevel, lowest]

theorem readable (h : Plain IsWord e) : Readable e := by
  induction h with
  | @var n name known =>
    refine .of_atom ?_
    rw [chars_eq]
    exact asAtom_var known
  | @int n v nonneg =>
    refine .of_atom ?_
    rw [chars_eq]
    exact asAtom_int nonneg
  | @bool n v =>
    refine .of_atom ?_
    rw [chars_eq]
    exact asAtom_bool v
  | unit =>
    refine .of_atom ?_
    rw [chars_eq]
    exact asAtom_unit
  | @unary n op e _ ih =>
    refine .of_tight (show 1 ≤ unaryLevel by decide) (show unaryLevel < applyLevel by decide) ?_
    rw [chars_eq]
    cases op with
    | neg => exact ih.operandAt.neg.tight
    | not => exact ih.operandAt.not.tight
  | @binary n op l r _ _ ihl ihr =>
    have some : 1 ≤ op.level := Operator.one_le_level (.binary op)
    have loose : op.level < applyLevel := by cases op <;> decide
    refine .of_tight some loose ?_
    rw [chars_eq]
    exact (ihl.leftOf (.binary op)).join (ihr.rightOf (.binary op))
  | cons _ _ ihh iht =>
    refine .of_tight (show 1 ≤ consLevel by decide) (show consLevel < applyLevel by decide) ?_
    rw [chars_eq]
    exact (ihh.leftOf .cons).join (iht.rightOf .cons)
  | cond _ _ _ ihc iht ihe =>
    refine .of_lowest rfl ?_
    rw [chars_eq]
    exact asLowest_cond ihc.lowest iht.lowest ihe.lowest
  | letIn known _ _ ihv ihb =>
    refine .of_lowest rfl ?_
    rw [chars_eq]
    exact asLowest_letIn known ihv.lowest ihb.lowest
  | lambda known _ ih =>
    refine .of_lowest rfl ?_
    rw [chars_eq]
    exact asLowest_lambda known ih.lowest
  | list _ ih => exact .of_atom (asAtom_list ih)
  | sequence many _ ih => exact .of_lowest rfl (asLowest_sequence many ih)
  | apply plain other some _ ihc ih =>
    refine .of_application (show applyLevel < atomLevel by decide) ?_
    exact asApplication_apply (ihc.calleeAt (plain.level_ne_applyLevel other)) some ih

end Plain

/-- An expression can be told from its text: two that have one text differ in their notes only. -/
theorem text_injective {e₁ : Expr α} {e₂ : Expr β} (h₁ : e₁.Plain IsWord) (h₂ : e₂.Plain IsWord)
    (same : e₁.text = e₂.text) : e₁.shape = e₂.shape := by
  have first := h₁.readable.lowest.reads closing_nil
  have second := h₂.readable.lowest.reads closing_nil
  have chars : e₁.chars = e₂.chars := congrArg String.toList same
  rw [chars] at first
  exact congrArg Prod.fst (first.unique second)

theorem text_injective_function :
    let e (n : Nat) : Expr Nat := .lambda n ["f", "x"] (.binary (n + 1) .sub
      (.apply (n + 2) (.var (n + 3) "f") [.unary (n + 4) .neg (.int (n + 5) 1)])
      (.binary (n + 6) .sub (.var (n + 7) "x") (.bool (n + 8) true)))
    (e 0).text = "fn f x = f (-1) - (x - true)" ∧ (e 0).Plain IsWord ∧ (e 9).Plain IsWord ∧
      (e 0).text = (e 9).text ∧ (e 0).shape = (e 9).shape := by
  intro e
  have f : IsName "f" := ⟨by decide, by decide, by decide, by decide⟩
  have x : IsName "x" := ⟨by decide, by decide, by decide, by decide⟩
  have plain (n : Nat) : (e n).Plain IsWord :=
    .lambda (by decide) (.binary
      (.apply (.var f) (by simp) (by simp) (by simpa using .unary (.int (by decide))))
      (.binary (.var x) .bool))
  have same : (e 0).text = (e 9).text := by decide
  exact ⟨by decide, plain 0, plain 9, same, text_injective (plain 0) (plain 9) same⟩

/-- A bound name with a blank in it reads as two. -/
theorem text_eq_of_blank :
    let one : Expr Unit := .lambda () ["x y"] (.var () "x")
    let two : Expr Unit := .lambda () ["x", "y"] (.var () "x")
    one.Plain (fun _ => True) ∧ two.Plain (fun _ => True) ∧ one.text = two.text ∧
      one.shape ≠ two.shape := by
  have x : IsName "x" := ⟨by decide, by decide, by decide, by decide⟩
  refine ⟨.lambda (by simp) (.var x), .lambda (by simp) (.var x), by decide, ?_⟩
  intro same
  simp [shape, mapNotes] at same

end Expr

end StackML
