import StackML.Double.Basic
import StackML.Host.Object
import StackML.NameMap
import StackML.Names
import StackML.Proofs.Expr.Notes

/-!
Evaluation of trees without functions: operands from left to right, `&&` and `||` no further than
needed, the first case that fits. Integers wrap around, and one beside a double is widened.
-/

namespace StackML.Semantics

variable {α β : Type}

inductive Stop where
  | divideByZero
  | noCase
  | stuck
  deriving DecidableEq, Repr

abbrev Eval := EStateM Stop (List Text)

/-! ### Classes of constructors -/

def builtinClasses : List (String × HolderClass) :=
  [(Names.ok, ⟨.empty, Names.ok, Names.result, 0, true⟩),
    (Names.error, ⟨.empty, Names.error, Names.result, 1, true⟩)]

def classesFrom (module sum : String) : (index : Nat) → List CtorDecl → List (String × HolderClass)
  | _, [] => []
  | index, c :: rest =>
    (c.name, ⟨module, c.name, sum, .ofNat index, c.arg.isSome⟩) ::
      classesFrom module sum (index + 1) rest

def declClasses (module : String) : Decl α → List (String × HolderClass)
  | .type d => classesFrom module d.name 0 d.ctors
  | _ => []

/-- The constructors of a module and the built-in ones. -/
def classes (m : Module α) : List (String × HolderClass) :=
  builtinClasses ++ m.decls.flatMap (declClasses m.name)

/-! ### Operations on values -/

def asBool : Value → Eval Bool
  | .bool b => pure b
  | _ => throw .stuck

def asList : Value → Eval (List Value)
  | .list vs => pure vs
  | _ => throw .stuck

def intArithmetic (op : BinaryOp) (a b : Int64) : Eval Value :=
  match op with
  | .add => pure (.int (a + b))
  | .sub => pure (.int (a - b))
  | .mul => pure (.int (a * b))
  | .div => if b = 0 then throw .divideByZero else pure (.int (a / b))
  | .mod => if b = 0 then throw .divideByZero else pure (.int (a % b))
  | _ => throw .stuck

def doubleArithmetic (op : BinaryOp) (a b : UInt64) : Eval Value :=
  match op with
  | .add => pure (.double (Float.ofBits a + Float.ofBits b).toBits)
  | .sub => pure (.double (Float.ofBits a - Float.ofBits b).toBits)
  | .mul => pure (.double (Float.ofBits a * Float.ofBits b).toBits)
  | .div => pure (.double (Float.ofBits a / Float.ofBits b).toBits)
  | .mod => pure (.double (Double.remainder (.ofBits a) (.ofBits b)).toBits)
  | _ => throw .stuck

def widen (n : Int64) : UInt64 := n.toFloat.toBits

def arithmetic (op : BinaryOp) : Value → Value → Eval Value
  | .int a, .int b => intArithmetic op a b
  | .int a, .double b => doubleArithmetic op (widen a) b
  | .double a, .int b => doubleArithmetic op a (widen b)
  | .double a, .double b => doubleArithmetic op a b
  | _, _ => throw .stuck

/-- The order of two doubles. What is neither less nor equal counts as greater, also when one of them
is not a number. -/
def orderDoubles (a b : Float) : Ordering := if a < b then .lt else if a == b then .eq else .gt

def order? : Value → Value → Option Ordering
  | .int a, .int b => some (compare a b)
  | .bool a, .bool b => some (compare a b)
  | .double a, .double b => some (orderDoubles (.ofBits a) (.ofBits b))
  | .str a, .str b => some (compare a b)
  | _, _ => none

def holds (op : BinaryOp) (o : Ordering) : Bool :=
  match op with
  | .eq => o.isEq
  | .ne => o.isNe
  | .lt => o.isLT
  | .gt => o.isGT
  | .le => o.isLE
  | _ => o.isGE

def comparison (op : BinaryOp) (a b : Value) : Eval Value :=
  match order? a b with
  | some o => pure (.bool (holds op o))
  | none =>
    match op with
    | .eq => pure (.bool (a.equal b))
    | .ne => pure (.bool (!a.equal b))
    | _ => throw .stuck

def unaryOp (op : UnaryOp) (v : Value) : Eval Value :=
  match op, v with
  | .not, .bool b => pure (.bool (!b))
  | .neg, .int n => pure (.int (-n))
  | .neg, .double bits => pure (.double (-Float.ofBits bits).toBits)
  | _, _ => throw .stuck

/-- The text of a value; there are no host objects. -/
def textOf (v : Value) : Text := v.text ({} : Host.Heap).text

def printLine (v : Value) : Eval Unit := modify ((textOf v ++ "\n") :: ·)

/-! ### Patterns -/

def bindPattern (classes : List (String × HolderClass)) :
    Pattern α → Value → NameMap Value → Option (NameMap Value)
  | .wild _, _, env => some env
  | .var _ name, v, env => some (env.insert name v)
  | .int _ n, v, env =>
    match v with
    | .int m => if m = n then some env else none
    | _ => none
  | .bool _ b, v, env =>
    match v with
    | .bool c => if c = b then some env else none
    | _ => none
  | .str _ s, v, env =>
    match v with
    | .str t => if t = s then some env else none
    | _ => none
  | .nil _, v, env =>
    match v with
    | .list [] => some env
    | _ => none
  | .cons _ head tail, v, env =>
    match v with
    | .list (x :: xs) => (bindPattern classes head x env).bind (bindPattern classes tail (.list xs))
    | _ => none
  | .tag _ name, v, env =>
    match v with
    | .holder cls _ => if classes.lookup name = some cls then some env else none
    | _ => none
  | .build _ name arg, v, env =>
    match v with
    | .holder cls payload =>
      if classes.lookup name = some cls then bindPattern classes arg payload env else none
    | _ => none

/-! ### Expressions -/

mutual
/-- The value of an expression. -/
def eval (classes : List (String × HolderClass)) (env : NameMap Value) : Expr α → Eval Value
  | .int _ v => pure (.int v)
  | .float _ bits => pure (.double bits)
  | .bool _ v => pure (.bool v)
  | .str _ v => pure (.str v)
  | .unit _ => pure .unit
  | .interp _ parts => do pure (.str (.concat (← evalParts classes env parts)))
  | .var _ name =>
    match env.get? name with
    | some v => pure v
    | none => throw .stuck
  | .unary _ op e => do unaryOp op (← eval classes env e)
  | .binary _ op l r =>
    if op.isArithmetic then do
      let a ← eval classes env l
      arithmetic op a (← eval classes env r)
    else if op.isComparison then do
      let a ← eval classes env l
      comparison op a (← eval classes env r)
    else do
      let a ← asBool (← eval classes env l)
      if a = (op = .or) then pure (.bool a) else eval classes env r
  | .cond _ c t e => do
    if ← asBool (← eval classes env c) then eval classes env t else eval classes env e
  | .letIn _ name v b => do
    let v ← eval classes env v
    eval classes (env.insert name v) b
  | .sequence _ es => evalLast classes env .unit es
  | .print _ e => do
    printLine (← eval classes env e)
    pure .unit
  | .list _ es => do pure (.list (← evalAll classes env es))
  | .cons _ h t => do
    let v ← eval classes env h
    pure (.list (v :: (← asList (← eval classes env t))))
  | .matchOn _ e arms => do evalArms classes env (← eval classes env e) arms
  | .tag _ name =>
    match classes.lookup name with
    | some cls => pure (.holder cls .null)
    | none => throw .stuck
  | .build _ name e => do
    let v ← eval classes env e
    match classes.lookup name with
    | some cls => pure (.holder cls v)
    | none => throw .stuck
  | _ => throw .stuck

def evalAll (classes : List (String × HolderClass)) (env : NameMap Value) :
    List (Expr α) → Eval (List Value)
  | [] => pure []
  | e :: es => do
    let v ← eval classes env e
    pure (v :: (← evalAll classes env es))

def evalLast (classes : List (String × HolderClass)) (env : NameMap Value) (last : Value) :
    List (Expr α) → Eval Value
  | [] => pure last
  | e :: es => do
    let v ← eval classes env e
    evalLast classes env v es

def evalParts (classes : List (String × HolderClass)) (env : NameMap Value) :
    List (Part α) → Eval (List Text)
  | [] => pure []
  | .text t :: ps => do pure ((t : Text) :: (← evalParts classes env ps))
  | .hole e :: ps => do
    let v ← eval classes env e
    pure (textOf v :: (← evalParts classes env ps))

def evalArms (classes : List (String × HolderClass)) (env : NameMap Value) (v : Value) :
    List (Arm α) → Eval Value
  | [] => throw .noCase
  | .mk p e :: arms =>
    match bindPattern classes p v env with
    | some env => eval classes env e
    | none => evalArms classes env v arms
end

/-! ### First-order trees -/

def patternNames : Pattern α → List String
  | .var _ name => [name]
  | .cons _ head tail => patternNames head ++ patternNames tail
  | .build _ _ arg => patternNames arg
  | _ => []

inductive FirstOrder : List String → Expr α → Prop where
  | int {bound n v} : FirstOrder bound (.int n v)
  | float {bound n bits} : FirstOrder bound (.float n bits)
  | bool {bound n v} : FirstOrder bound (.bool n v)
  | str {bound n v} : FirstOrder bound (.str n v)
  | unit {bound n} : FirstOrder bound (.unit n)
  | interp {bound n parts} :
      (∀ e, .hole e ∈ parts → FirstOrder bound e) → FirstOrder bound (.interp n parts)
  | var {bound n name} : name ∈ bound → FirstOrder bound (.var n name)
  | unary {bound n op e} : FirstOrder bound e → FirstOrder bound (.unary n op e)
  | binary {bound n op l r} :
      FirstOrder bound l → FirstOrder bound r → FirstOrder bound (.binary n op l r)
  | cond {bound n c t e} :
      FirstOrder bound c → FirstOrder bound t → FirstOrder bound e →
      FirstOrder bound (.cond n c t e)
  | letIn {bound n name v b} :
      name ≠ "" → FirstOrder bound v → FirstOrder (name :: bound) b →
      FirstOrder bound (.letIn n name v b)
  | sequence {bound n es} :
      (∀ e ∈ es, FirstOrder bound e) → FirstOrder bound (.sequence n es)
  | print {bound n e} : FirstOrder bound e → FirstOrder bound (.print n e)
  | list {bound n es} : (∀ e ∈ es, FirstOrder bound e) → FirstOrder bound (.list n es)
  | cons {bound n h t} :
      FirstOrder bound h → FirstOrder bound t → FirstOrder bound (.cons n h t)
  | matchOn {bound n e arms} :
      FirstOrder bound e → (∀ p b, .mk p b ∈ arms → ∀ name ∈ patternNames p, name ≠ "") →
      (∀ p b, .mk p b ∈ arms → FirstOrder (patternNames p ++ bound) b) →
      FirstOrder bound (.matchOn n e arms)
  | tag {bound n name} : FirstOrder bound (.tag n name)
  | build {bound n name e} : FirstOrder bound e → FirstOrder bound (.build n name e)

/-! ### Notes -/

variable {table : List (String × HolderClass)}

theorem bindPattern_mapNotes (f : α → β) (p : Pattern α) (v : Value) (env : NameMap Value) :
    bindPattern table (p.mapNotes f) v env = bindPattern table p v env := by
  induction p generalizing v env with
  | cons n head tail ihHead ihTail =>
    have tails : bindPattern table (tail.mapNotes f) = bindPattern table tail := by
      funext v env
      exact ihTail v env
    simp only [Pattern.mapNotes, bindPattern, ihHead, tails]
  | build n name arg ih => simp only [Pattern.mapNotes, bindPattern, ih]
  | _ => rfl

theorem evalAll_map {f : α → β} {es : List (Expr α)} {env : NameMap Value}
    (each : ∀ e ∈ es, eval table env (e.mapNotes f) = eval table env e) :
    evalAll table env (es.map (Expr.mapNotes f)) = evalAll table env es := by
  induction es with
  | nil => rfl
  | cons e es ih =>
    rw [List.forall_mem_cons] at each
    simp only [List.map_cons, evalAll, each.1, ih each.2]

theorem evalLast_map {f : α → β} {es : List (Expr α)} {env : NameMap Value} (last : Value)
    (each : ∀ e ∈ es, eval table env (e.mapNotes f) = eval table env e) :
    evalLast table env last (es.map (Expr.mapNotes f)) = evalLast table env last es := by
  induction es generalizing last with
  | nil => rfl
  | cons e es ih =>
    rw [List.forall_mem_cons] at each
    simp only [List.map_cons, evalLast, each.1]
    congr 1
    funext v
    exact ih v each.2

theorem evalParts_map {f : α → β} {ps : List (Part α)} {env : NameMap Value}
    (each : ∀ e, .hole e ∈ ps → eval table env (e.mapNotes f) = eval table env e) :
    evalParts table env (ps.map (Expr.mapPart f)) = evalParts table env ps := by
  induction ps with
  | nil => rfl
  | cons part ps ih =>
    have rest := ih fun e member => each e (List.mem_cons_of_mem _ member)
    cases part with
    | text t => simp only [List.map_cons, Expr.mapPart, evalParts, rest]
    | hole e =>
      simp only [List.map_cons, Expr.mapPart, evalParts, rest, each e List.mem_cons_self]

theorem evalArms_map {f : α → β} {arms : List (Arm α)} {env : NameMap Value} {v : Value}
    (each : ∀ p b, .mk p b ∈ arms → ∀ env, eval table env (b.mapNotes f) = eval table env b) :
    evalArms table env v (arms.map (Expr.mapArm f)) = evalArms table env v arms := by
  induction arms with
  | nil => rfl
  | cons arm arms ih =>
    obtain ⟨p, b⟩ := arm
    have rest := ih fun p b member => each p b (List.mem_cons_of_mem _ member)
    simp only [List.map_cons, Expr.mapArm, evalArms, bindPattern_mapNotes, rest]
    cases bindPattern table p v env with
    | none => rfl
    | some env => exact each p b List.mem_cons_self env

theorem eval_mapNotes (f : α → β) (e : Expr α) (env : NameMap Value) :
    eval table env (e.mapNotes f) = eval table env e := by
  induction e using Expr.induct generalizing env with
  | interp n parts ih =>
    simp only [Expr.mapNotes, eval, Expr.mapParts_eq, List.reverse_nil, List.nil_append,
      evalParts_map fun e member => ih e member env]
  | sequence n es ih =>
    simp only [Expr.mapNotes, eval, Expr.mapAll_eq, List.reverse_nil, List.nil_append,
      evalLast_map _ fun e member => ih e member env]
  | list n es ih =>
    simp only [Expr.mapNotes, eval, Expr.mapAll_eq, List.reverse_nil, List.nil_append,
      evalAll_map fun e member => ih e member env]
  | matchOn n e arms ihE ihArms =>
    simp only [Expr.mapNotes, eval, Expr.mapArms_eq, List.reverse_nil, List.nil_append, ihE,
      evalArms_map ihArms]
  | unary n op e ih | print n e ih | build n name e ih => simp only [Expr.mapNotes, eval, ih]
  | binary n op l r ihL ihR => simp only [Expr.mapNotes, eval, ihL, ihR]
  | cons n h t ihH ihT => simp only [Expr.mapNotes, eval, ihH, ihT]
  | cond n c t e ihC ihT ihE => simp only [Expr.mapNotes, eval, ihC, ihT, ihE]
  | letIn n name v b ihV ihB => simp only [Expr.mapNotes, eval, ihV, ihB]
  | _ => rfl

theorem patternNames_mapNotes (f : α → β) (p : Pattern α) :
    patternNames (p.mapNotes f) = patternNames p := by
  induction p with
  | cons n head tail ihHead ihTail => simp only [Pattern.mapNotes, patternNames, ihHead, ihTail]
  | build n name arg ih => simp only [Pattern.mapNotes, patternNames, ih]
  | _ => rfl

theorem FirstOrder.of_mapNotes {f : α → β} {e : Expr α} {bound : List String}
    (h : FirstOrder bound (e.mapNotes f)) : FirstOrder bound e := by
  induction e using Expr.induct generalizing bound with
  | int => exact .int
  | float => exact .float
  | bool => exact .bool
  | str => exact .str
  | unit => exact .unit
  | tag => exact .tag
  | interp n parts ih =>
    simp only [Expr.mapNotes, Expr.mapParts_eq] at h
    cases h with
    | interp each =>
      exact .interp fun e member => ih e member (each _ (by
        simpa using ⟨_, member, rfl⟩))
  | var n name =>
    cases h with
    | var known => exact .var known
  | unary n op e ih =>
    cases h with
    | unary h => exact .unary (ih h)
  | binary n op l r ihL ihR =>
    cases h with
    | binary hl hr => exact .binary (ihL hl) (ihR hr)
  | cond n c t e ihC ihT ihE =>
    cases h with
    | cond hc ht he => exact .cond (ihC hc) (ihT ht) (ihE he)
  | letIn n name v b ihV ihB =>
    cases h with
    | letIn named hv hb => exact .letIn named (ihV hv) (ihB hb)
  | sequence n es ih =>
    simp only [Expr.mapNotes, Expr.mapAll_eq] at h
    cases h with
    | sequence each =>
      exact .sequence fun e member => ih e member (each _ (by
        simpa using ⟨_, member, rfl⟩))
  | print n e ih =>
    cases h with
    | print h => exact .print (ih h)
  | list n es ih =>
    simp only [Expr.mapNotes, Expr.mapAll_eq] at h
    cases h with
    | list each =>
      exact .list fun e member => ih e member (each _ (by
        simpa using ⟨_, member, rfl⟩))
  | cons n head tail ihH ihT =>
    cases h with
    | cons hh ht => exact .cons (ihH hh) (ihT ht)
  | matchOn n e arms ihE ihArms =>
    simp only [Expr.mapNotes, Expr.mapArms_eq] at h
    cases h with
    | matchOn he names each =>
      refine .matchOn (ihE he) (fun p b member => ?_) fun p b member => ?_
      · have inside := names (p.mapNotes f) (b.mapNotes f) (by simpa using ⟨_, member, rfl⟩)
        rwa [patternNames_mapNotes] at inside
      · have inside := each (p.mapNotes f) (b.mapNotes f) (by simpa using ⟨_, member, rfl⟩)
        rw [patternNames_mapNotes] at inside
        exact ihArms p b member inside
  | build n name e ih =>
    cases h with
    | build h => exact .build (ih h)
  | _ => cases h

end StackML.Semantics
