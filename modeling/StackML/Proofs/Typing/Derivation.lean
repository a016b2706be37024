import StackML.Proofs.Ty.Assignment
import StackML.Typing.Module

/-!
The typing rules, one for each kind of node. The types of a tree are read under an assignment of
their variables. A binding whose variables are quantified is derived under every assignment of
them, and each use of it picks one.
-/

namespace StackML

namespace Ty

def quantified : Ty → List VarId
  | scheme vars _ => vars
  | _ => []

def quantify (t : Ty) : List VarId → Ty
  | [] => t
  | vars => scheme vars t

/-- A name with the type `b` may be used at `t`: what is quantified stands for anything of its kind,
all else for what the assignment says. -/
def Instance (θ : Assignment) (b t : Ty) : Prop :=
  ∃ ρ : Assignment, ρ.Kinded ∧ ρ.AgreesOff θ b.quantified ∧ t.assign θ = b.body.assign ρ

structure Private (R : Assignment) (t : Ty) : Prop where
  unbound : ∀ a ∈ t.quantified, R.Unbound a
  apart : ∀ v ∈ t.occurrences, ∀ o ∈ (R.get v).occurrences, o.1 ∉ t.quantified

end Ty

namespace Typing

/-- The types of the names in scope. -/
abbrev Context := String → Option Ty

namespace Context

def extend (Γ : Context) (name : String) (t : Ty) : Context :=
  fun other => if other = name then some t else Γ other

/-- Binds names to types in order, so that of two equal names the later one counts. -/
def extendAll (Γ : Context) : List String → List Ty → Context
  | name :: names, t :: ts => (Γ.extend name t).extendAll names ts
  | _, _ => Γ

def Lacks (Γ : Context) (vars : List VarId) : Prop :=
  ∀ name t, Γ name = some t → ∀ o ∈ t.occurrences, o.1 ∉ vars

end Context

def Context.extendPattern (Γ : Context) : Pattern Typed → Context
  | .var n name => Γ.extend name n.type
  | .cons _ head tail => (Γ.extendPattern head).extendPattern tail
  | .build _ _ arg => Γ.extendPattern arg
  | _ => Γ

inductive PatternFits (ctors : NameMap Constructor) (θ : Assignment) : Pattern Typed → Prop where
  | wild {n} : PatternFits ctors θ (.wild n)
  | var {n name} : PatternFits ctors θ (.var n name)
  | int {n v} : n.type.assign θ = .int → PatternFits ctors θ (.int n v)
  | bool {n v} : n.type.assign θ = .bool → PatternFits ctors θ (.bool n v)
  | str {n v} : n.type.assign θ = .string → PatternFits ctors θ (.str n v)
  | nil {n elem} : n.type.assign θ = .list elem → PatternFits ctors θ (.nil n)
  | cons {n head tail} :
      n.type.assign θ = .list (head.note.type.assign θ) →
      n.type.assign θ = tail.note.type.assign θ → PatternFits ctors θ head →
      PatternFits ctors θ tail → PatternFits ctors θ (.cons n head tail)
  | tag {n name c} :
      ctors.get? name = some c → c.hasArg = false → c.type.Instance θ n.type →
      PatternFits ctors θ (.tag n name)
  | tagOfArg {n name c payload} :
      ctors.get? name = some c → c.hasArg = true → c.type.Instance θ (.fn payload n.type) →
      PatternFits ctors θ (.tag n name)
  | build {n name arg c} :
      ctors.get? name = some c → c.hasArg = true →
      c.type.Instance θ (.fn arg.note.type n.type) → PatternFits ctors θ arg →
      PatternFits ctors θ (.build n name arg)

/-- The type of arithmetic on numeric operands: a double if one of them is, and otherwise the type
both have. -/
def ArithmeticFits (left right result : Ty) : Prop :=
  left.fitsNumeric ∧ right.fitsNumeric ∧
    if left = .double ∨ right = .double then result = .double
    else left = right ∧ result = left

def BinaryFits (op : BinaryOp) (left right result : Ty) : Prop :=
  if op.isArithmetic then ArithmeticFits left right result
  else if op.isComparison then left = right ∧ result = .bool
  else left = .bool ∧ right = .bool ∧ result = .bool

def UnaryFits : UnaryOp → (operand result : Ty) → Prop
  | .not, operand, result => operand = .bool ∧ result = .bool
  | .neg, operand, result => operand.fitsNumeric ∧ result = operand

/-- A resolved host member: the node has its result and its arguments have its parameters. -/
def HostFits (host : Host.Resolver) (θ : Assignment) (n : Typed) (owner member : String)
    (kind : Host.MemberKind) (args : List (Expr Typed)) : Prop :=
  ∃ s, host owner member kind = .ok s ∧ n.host = some s ∧ n.type = s.result ∧
    args.map (fun e => e.note.type.assign θ) = s.params

inductive Derives (host : Host.Resolver) (ctors : NameMap Constructor) :
    Assignment → Context → Expr Typed → Prop where
  | int {θ Γ n v} : n.type = .int → Derives host ctors θ Γ (.int n v)
  | float {θ Γ n v} : n.type = .double → Derives host ctors θ Γ (.float n v)
  | bool {θ Γ n v} : n.type = .bool → Derives host ctors θ Γ (.bool n v)
  | str {θ Γ n v} : n.type = .string → Derives host ctors θ Γ (.str n v)
  | unit {θ Γ n} : n.type = .unit → Derives host ctors θ Γ (.unit n)
  | interp {θ Γ n parts} :
      n.type = .string → (∀ e, .hole e ∈ parts → Derives host ctors θ Γ e) →
      Derives host ctors θ Γ (.interp n parts)
  | var {θ Γ n name b} :
      Γ name = some b → b.Instance θ n.type → Derives host ctors θ Γ (.var n name)
  | qualified {θ Γ n module name b} :
      Γ (module ++ "." ++ name) = some b → b.Instance θ n.type →
      Derives host ctors θ Γ (.qualified n module name)
  | unary {θ Γ n op e} :
      Derives host ctors θ Γ e → UnaryFits op (e.note.type.assign θ) (n.type.assign θ) →
      Derives host ctors θ Γ (.unary n op e)
  | binary {θ Γ n op l r} :
      Derives host ctors θ Γ l → Derives host ctors θ Γ r →
      BinaryFits op (l.note.type.assign θ) (r.note.type.assign θ) (n.type.assign θ) →
      Derives host ctors θ Γ (.binary n op l r)
  | cond {θ Γ n c t e} :
      Derives host ctors θ Γ c → Derives host ctors θ Γ t → Derives host ctors θ Γ e →
      c.note.type.assign θ = .bool → t.note.type.assign θ = n.type.assign θ →
      e.note.type.assign θ = n.type.assign θ → Derives host ctors θ Γ (.cond n c t e)
  | letIn {θ Γ n name v b vars} :
      Γ.Lacks vars → (∀ o ∈ v.note.type.occurrences, o.2 = true → o.1 ∉ vars) →
      (∀ ρ : Assignment, ρ.Kinded → ρ.AgreesOff θ vars → Derives host ctors ρ Γ v) →
      Derives host ctors θ (Γ.extend name (v.note.type.quantify vars)) b →
      b.note.type.assign θ = n.type.assign θ → Derives host ctors θ Γ (.letIn n name v b)
  | letRec {θ Γ n name fn params ps fb b vars} :
      ps.length = params.length → fn.type = lambdaType ps fb.note.type →
      Γ.Lacks vars → (∀ o ∈ fn.type.occurrences, o.2 = true → o.1 ∉ vars) →
      (∀ ρ : Assignment, ρ.Kinded → ρ.AgreesOff θ vars →
        Derives host ctors ρ ((Γ.extend name fn.type).extendAll params ps) fb) →
      Derives host ctors θ (Γ.extend name (fn.type.quantify vars)) b →
      b.note.type.assign θ = n.type.assign θ →
      Derives host ctors θ Γ (.letRec n name fn params fb b)
  | lambda {θ Γ n params ps b} :
      ps.length = params.length → n.type = lambdaType ps b.note.type →
      Derives host ctors θ (Γ.extendAll params ps) b → Derives host ctors θ Γ (.lambda n params b)
  | apply {θ Γ n c args} :
      Derives host ctors θ Γ c → (∀ e ∈ args, Derives host ctors θ Γ e) →
      c.note.type.assign θ =
        Ty.fns (args.map fun e => e.note.type.assign θ) (n.type.assign θ) →
      Derives host ctors θ Γ (.apply n c args)
  | sequence {θ Γ n es} :
      (∀ e ∈ es, Derives host ctors θ Γ e) → n.type = lastType es →
      Derives host ctors θ Γ (.sequence n es)
  | print {θ Γ n e} :
      Derives host ctors θ Γ e → n.type = .unit → Derives host ctors θ Γ (.print n e)
  | list {θ Γ n es elem} :
      (∀ e ∈ es, Derives host ctors θ Γ e) → n.type.assign θ = .list elem →
      (∀ e ∈ es, e.note.type.assign θ = elem) → Derives host ctors θ Γ (.list n es)
  | cons {θ Γ n h t} :
      Derives host ctors θ Γ h → Derives host ctors θ Γ t →
      n.type.assign θ = .list (h.note.type.assign θ) →
      t.note.type.assign θ = n.type.assign θ → Derives host ctors θ Γ (.cons n h t)
  | matchOn {θ Γ n e arms} :
      Derives host ctors θ Γ e → arms ≠ [] →
      (∀ p b, .mk p b ∈ arms → PatternFits ctors θ p ∧
        p.note.type.assign θ = e.note.type.assign θ ∧ b.note.type.assign θ = n.type.assign θ) →
      (∀ p b, .mk p b ∈ arms → Derives host ctors θ (Γ.extendPattern p) b) →
      Derives host ctors θ Γ (.matchOn n e arms)
  | tag {θ Γ n name c} :
      ctors.get? name = some c → c.hasArg = false → c.type.Instance θ n.type →
      Derives host ctors θ Γ (.tag n name)
  | build {θ Γ n name e c} :
      ctors.get? name = some c → c.hasArg = true → Derives host ctors θ Γ e →
      c.type.Instance θ (.fn e.note.type n.type) → Derives host ctors θ Γ (.build n name e)
  | hostCall {θ Γ n owner member args} :
      (∀ e ∈ args, Derives host ctors θ Γ e) → HostFits host θ n owner member .func args →
      Derives host ctors θ Γ (.hostCall n owner member args)
  | hostMethod {θ Γ n r owner member args} :
      Derives host ctors θ Γ r → Host.ownerOf? (r.note.type.assign θ) = some owner →
      (∀ e ∈ args, Derives host ctors θ Γ e) → HostFits host θ n owner member .method args →
      Derives host ctors θ Γ (.hostMethod n r member args)
  | hostField {θ Γ n owner name} :
      HostFits host θ n owner name .field [] → Derives host ctors θ Γ (.hostField n owner name)
  | hostNew {θ Γ n owner} :
      HostFits host θ n owner "" .new [] → Derives host ctors θ Γ (.hostNew n owner)

inductive DeclsDerive (host : Host.Resolver) (c : Checked) (θ : Assignment) :
    Context → List (Decl Typed) → Context → Prop where
  | nil {Γ} : DeclsDerive host c θ Γ [] Γ
  | type {Γ Γ' d rest} :
      DeclsDerive host c θ Γ rest Γ' → DeclsDerive host c θ Γ (.type d :: rest) Γ'
  | fn {Γ Γ' d rest ps vars} :
      ps.length = d.params.length → d.note.type = Ty.fns ps d.body.note.type →
      Γ.Lacks vars →
      (∀ ρ : Assignment, ρ.Kinded → ρ.AgreesOff θ vars → Derives host c.ctors ρ
        ((Γ.extend d.name d.note.type).extendAll (d.params.map (·.name)) ps) d.body) →
      c.functions.get? d.name = some ⟨d, d.note.type.quantify vars⟩ →
      DeclsDerive host c θ (Γ.extend d.name (d.note.type.quantify vars)) rest Γ' →
      DeclsDerive host c θ Γ (.fn d :: rest) Γ'
  | value {Γ Γ' d rest} :
      Derives host c.ctors θ Γ d.value → d.note.type = d.value.note.type →
      c.values.get? d.name = some d.note.type →
      DeclsDerive host c θ (Γ.extend d.name d.note.type) rest Γ' →
      DeclsDerive host c θ Γ (.value d :: rest) Γ'

/-- A checked module follows the rules from the names that are in scope before its functions and
values. -/
def ModuleDerives (host : Host.Resolver) (c : Checked) (θ : Assignment) (Γ : Context) : Prop :=
  ∃ Γ', DeclsDerive host c θ Γ c.module.decls Γ' ∧
    ∀ e, c.module.main = some e → Derives host c.ctors θ Γ' e

end Typing
end StackML
