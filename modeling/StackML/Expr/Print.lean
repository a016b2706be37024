import StackML.Decimal.Notation
import StackML.Expr.Basic
import StackML.Text.Quoted
import StackML.Ty.Signature.Basic

/-!
Programs as text. Operators are bracketed only where their surroundings bind at least as tightly:
binary operators group to the left, `::` to the right. The arms of a match stand on lines of their
own, one step further in than the match.
-/

namespace StackML

variable {α : Type}

def BinaryOp.level : BinaryOp → Nat
  | or => 1
  | and => 2
  | eq | ne => 3
  | lt | gt | le | ge => 4
  | add | sub => 7
  | mul | div | mod => 8

namespace Print

/-- The levels of the other forms: what reaches as far right as it can, `::`, unary operators,
application and what needs no brackets anywhere. -/
def lowest : Nat := 0
def consLevel : Nat := 6
def unaryLevel : Nat := 9
def applyLevel : Nat := 10
def atomLevel : Nat := 11

def newline (indent : Nat) : String := "\n" ++ String.join (List.replicate indent "    ")

def missing : String := "<???>"

def guardHoles : List Char → List Char
  | '$' :: '\x7b' :: rest => '\\' :: '$' :: '\x7b' :: guardHoles rest
  | c :: rest => c :: guardHoles rest
  | [] => []

/-- Parameters, each after a space; an empty list is written as unit. -/
def params (names : List String) : String :=
  if names.isEmpty then " ()" else String.join (names.map (" " ++ ·))

end Print

open Print

/-- A pattern as text; `nested` when it is the argument of a constructor or the head of a list. -/
def Pattern.text (nested : Bool) : Pattern α → String
  | wild _ => "_"
  | var _ name => name
  | int _ v => toString v.toInt
  | bool _ v => if v then "true" else "false"
  | str _ v => Text.quoted v
  | nil _ => "[]"
  | cons _ head tail =>
    Ty.bracketed nested (head.text true ++ " :: " ++ tail.text false)
  | tag _ name => name
  | build _ name arg => Ty.bracketed nested (name ++ " " ++ arg.text true)

namespace Expr

def level : Expr α → Nat
  | binary _ op .. => op.level
  | cons .. => consLevel
  | unary .. => unaryLevel
  | apply .. | print .. | hostNew .. | build .. => applyLevel
  | cond .. | letIn .. | letRec .. | lambda .. | matchOn .. | sequence .. => lowest
  | _ => atomLevel

/-- Whether a form of level `inner` needs brackets where level `outer` is asked for, on the right
of an operator or not. -/
def needsBrackets (inner outer : Nat) (right : Bool) : Bool :=
  if inner == outer && inner != atomLevel then right != (inner == consLevel)
  else inner < outer

mutual
def textAt (indent outer : Nat) (right : Bool) (e : Expr α) : String :=
  let here := e.level
  let bare := match e with
    | int _ v => toString v.toInt
    | float _ bits => Decimal.ofDouble bits
    | bool _ v => if v then "true" else "false"
    | str _ v => Text.quoted v
    | unit _ => "()"
    | interp _ parts => "\"" ++ String.join (partTexts indent [] parts) ++ "\""
    | var _ name => name
    | qualified _ module name => module ++ "." ++ name
    | unary _ op e =>
      op.text ++ (if op = .not then " " else "") ++ e.textAt indent (unaryLevel + 1) false
    | binary _ op l r =>
      l.textAt indent here false ++ " " ++ op.text ++ " " ++ r.textAt indent here true
    | cons _ h t => h.textAt indent here false ++ " :: " ++ t.textAt indent here true
    | cond _ c t e =>
      "if " ++ c.textAt indent lowest false ++ " then " ++ t.textAt indent lowest false ++
        " else " ++ e.textAt indent lowest false
    | letIn _ name v b =>
      "let " ++ name ++ " = " ++ v.textAt indent lowest false ++ " in " ++
        b.textAt indent lowest false
    | letRec _ name _ ps fnBody b =>
      "let rec " ++ name ++ params ps ++ " = " ++ fnBody.textAt indent lowest false ++ " in " ++
        b.textAt indent lowest false
    | lambda _ ps b => "fn" ++ params ps ++ " = " ++ b.textAt indent lowest false
    | apply _ c args =>
      c.textAt indent applyLevel false ++
        String.join ((texts indent atomLevel true [] args).map (" " ++ ·))
    | sequence _ es => "; ".intercalate (texts indent (lowest + 1) false [] es)
    | print _ v => "print " ++ v.textAt indent atomLevel true
    | list _ es => "[" ++ ", ".intercalate (texts indent lowest false [] es) ++ "]"
    | matchOn _ e arms =>
      "match " ++ e.textAt indent lowest false ++ " with" ++
        String.join (armTexts (indent + 1) [] arms)
    | tag _ name => name
    | build _ name arg => name ++ " " ++ arg.textAt indent atomLevel true
    | hostCall _ owner member args =>
      owner ++ "." ++ member ++ "(" ++ ", ".intercalate (texts indent lowest false [] args) ++ ")"
    | hostMethod _ r member args =>
      r.textAt indent atomLevel false ++ "." ++ member ++ "(" ++
        ", ".intercalate (texts indent lowest false [] args) ++ ")"
    | hostField _ owner name => owner ++ "." ++ name
    | hostNew _ owner => "new " ++ owner
  Ty.bracketed (needsBrackets here outer right) bare

def texts (indent outer : Nat) (right : Bool) (done : List String) : List (Expr α) → List String
  | [] => done.reverse
  | e :: es => texts indent outer right (e.textAt indent outer right :: done) es

def partTexts (indent : Nat) (done : List String) : List (Part α) → List String
  | [] => done.reverse
  | .text t :: ps =>
    let quoted := String.ofList (guardHoles (Text.escaped '"' t).toList)
    partTexts indent (quoted :: done) ps
  | .hole e :: ps =>
    partTexts indent (("$\x7b" ++ e.textAt indent lowest false ++ "\x7d") :: done) ps

def armTexts (indent : Nat) (done : List String) : List (Arm α) → List String
  | [] => done.reverse
  | .mk p e :: as =>
    let arm := newline indent ++ "| " ++ p.text false ++ " -> " ++
      e.textAt indent (lowest + 1) false
    armTexts indent (arm :: done) as
end

def text (e : Expr α) : String := e.textAt 0 lowest false

end Expr

def Expr.text? (e : Option (Expr α)) : String := (e.map Expr.text).getD missing

def Pattern.text? (p : Option (Pattern α)) : String := (p.map (Pattern.text false)).getD missing

def Param.text (p : Param) : String :=
  match p.type with
  | some t => " (" ++ p.name ++ " : " ++ Signature.render t ++ ")"
  | none => " " ++ p.name

def CtorDecl.text (c : CtorDecl) : String :=
  match c.arg with
  | some t => " " ++ c.name ++ " of " ++ Signature.render t
  | none => " " ++ c.name

def Decl.text : Decl α → String
  | fn d =>
    let result := match d.result with
      | some t => " : " ++ Signature.render t
      | none => ""
    "fn " ++ d.name ++ String.join (d.params.map Param.text) ++ result ++ " = " ++ d.body.text
  | value d => "let " ++ d.name ++ " = " ++ d.value.text
  | type d =>
    "type " ++ String.join (d.params.map fun p => "'" ++ p ++ " ") ++ d.name ++ " =" ++
      " |".intercalate (d.ctors.map CtorDecl.text)

/-- A module as text, one line for its name and for each import, declaration and its expression. -/
def Module.text (m : Module α) : String :=
  let name := if m.name.isEmpty then [] else ["module " ++ m.name]
  let lines := name ++ m.imports.map ("import " ++ ·) ++ m.decls.map Decl.text ++
    (m.main.map Expr.text).toList
  String.join (lines.map (· ++ "\n"))

end StackML
