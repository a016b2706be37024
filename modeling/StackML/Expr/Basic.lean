import StackML.Ty.Basic

/-!
Programs as trees. Every node carries a note: a source position when a program is handed in, a
position and a type once it has been checked. A module is a list of declarations and, possibly, an
expression to run.
-/

namespace StackML

inductive UnaryOp where
  | neg
  | not
  deriving DecidableEq, Repr, Inhabited

def UnaryOp.text : UnaryOp → String
  | neg => "-"
  | not => "not"

inductive BinaryOp where
  | add | sub | mul | div | mod
  | eq | ne | lt | gt | le | ge
  | and | or
  deriving DecidableEq, Repr, Inhabited

namespace BinaryOp

def text : BinaryOp → String
  | add => "+"
  | sub => "-"
  | mul => "*"
  | div => "/"
  | mod => "%"
  | eq => "=="
  | ne => "!="
  | lt => "<"
  | gt => ">"
  | le => "<="
  | ge => ">="
  | and => "&&"
  | or => "||"

def isArithmetic : BinaryOp → Bool
  | add | sub | mul | div | mod => true
  | _ => false

def isComparison : BinaryOp → Bool
  | eq | ne | lt | gt | le | ge => true
  | _ => false

end BinaryOp

inductive Pattern (α : Type) where
  | wild (note : α)
  | var (note : α) (name : String)
  | int (note : α) (value : Int64)
  | bool (note : α) (value : Bool)
  | str (note : α) (value : String)
  | nil (note : α)
  | cons (note : α) (head tail : Pattern α)
  | tag (note : α) (name : String)
  | build (note : α) (name : String) (arg : Pattern α)
  deriving Inhabited, Repr

mutual
/-- An expression. Doubles are held by their bits. A `letRec` holds the function it binds in
pieces: its own note, its parameters and its body. `tag` is a constructor alone, `build` one with
its argument. -/
inductive Expr (α : Type) where
  | int (note : α) (value : Int64)
  | float (note : α) (bits : UInt64)
  | bool (note : α) (value : Bool)
  | str (note : α) (value : String)
  | unit (note : α)
  | interp (note : α) (parts : List (Part α))
  | var (note : α) (name : String)
  | qualified (note : α) (module name : String)
  | unary (note : α) (op : UnaryOp) (operand : Expr α)
  | binary (note : α) (op : BinaryOp) (left right : Expr α)
  | cond (note : α) (test yes no : Expr α)
  | letIn (note : α) (name : String) (value body : Expr α)
  | letRec (note : α) (name : String) (fnNote : α) (params : List String) (fnBody body : Expr α)
  | lambda (note : α) (params : List String) (body : Expr α)
  | apply (note : α) (callee : Expr α) (args : List (Expr α))
  | sequence (note : α) (exprs : List (Expr α))
  | print (note : α) (value : Expr α)
  | list (note : α) (elems : List (Expr α))
  | cons (note : α) (head tail : Expr α)
  | matchOn (note : α) (scrutinee : Expr α) (arms : List (Arm α))
  | tag (note : α) (name : String)
  | build (note : α) (name : String) (arg : Expr α)
  | hostCall (note : α) (owner member : String) (args : List (Expr α))
  | hostMethod (note : α) (receiver : Expr α) (member : String) (args : List (Expr α))
  | hostField (note : α) (owner name : String)
  | hostNew (note : α) (owner : String)

inductive Part (α : Type) where
  | text (value : String)
  | hole (expr : Expr α)

inductive Arm (α : Type) where
  | mk (pattern : Pattern α) (body : Expr α)
end

instance {α : Type} [Inhabited α] : Inhabited (Expr α) := ⟨.unit default⟩

def Pattern.note {α : Type} : Pattern α → α
  | wild n | var n _ | int n _ | bool n _ | str n _ | nil n | cons n .. | tag n _ | build n .. => n

def Pattern.isWild {α : Type} : Pattern α → Bool
  | wild _ => true
  | _ => false

def Expr.note {α : Type} : Expr α → α
  | int n _ | float n _ | bool n _ | str n _ | unit n | interp n _ | var n _ | qualified n .. => n
  | unary n .. | binary n .. | cond n .. | letIn n .. | letRec n .. | lambda n .. | apply n .. => n
  | sequence n _ | print n _ | list n _ | cons n .. | matchOn n .. | tag n _ | build n .. => n
  | hostCall n .. | hostMethod n .. | hostField n .. | hostNew n _ => n

structure Param where
  name : String
  type : Option Ty := none
  deriving Inhabited, Repr

structure FnDecl (α : Type) where
  note : α
  name : String
  params : List Param
  result : Option Ty
  body : Expr α

structure LetDecl (α : Type) where
  note : α
  name : String
  value : Expr α

structure CtorDecl where
  name : String
  arg : Option Ty
  deriving Inhabited, Repr

structure TypeDecl (α : Type) where
  note : α
  name : String
  params : List String
  ctors : List CtorDecl

inductive Decl (α : Type) where
  | fn (decl : FnDecl α)
  | value (decl : LetDecl α)
  | type (decl : TypeDecl α)

def Decl.name {α : Type} : Decl α → String
  | fn d => d.name
  | value d => d.name
  | type d => d.name

structure Module (α : Type) where
  note : α
  name : String
  imports : List String
  decls : List (Decl α)
  main : Option (Expr α)

end StackML
