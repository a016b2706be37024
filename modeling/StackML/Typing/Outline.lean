import StackML.Typing.Module

/-!
Outlines of checked modules: one line for each node, a node before its children, with what kind of
node it is, its type and, for host members, their signature.
-/

namespace StackML.Typing.Outline

def line (label : String) (n : Typed) : String :=
  let host := match n.host with
    | some s => " @ " ++ s.text
    | none => ""
  label ++ ": " ++ n.type.text ++ host

/-- Adds the lines of a pattern; lines are gathered latest first. -/
def pattern (done : List String) : Pattern Typed → List String
  | .cons n head tail => pattern (pattern (line "pat" n :: done) head) tail
  | .build n _ arg => pattern (line "pat" n :: done) arg
  | p => line "pat" p.note :: done

mutual
def expr (done : List String) : Expr Typed → List String
  | .int n _ => line "int" n :: done
  | .float n _ => line "float" n :: done
  | .bool n _ => line "bool" n :: done
  | .str n _ => line "str" n :: done
  | .unit n => line "unit" n :: done
  | .interp n parts => exprsOfParts (line "interp" n :: done) parts
  | .var n name => line ("var " ++ name) n :: done
  | .qualified n module name => line ("qvar " ++ module ++ "." ++ name) n :: done
  | .unary n op e => expr (line op.text n :: done) e
  | .binary n op l r => expr (expr (line op.text n :: done) l) r
  | .cond n c t e => expr (expr (expr (line "if" n :: done) c) t) e
  | .letIn n name v b => expr (expr (line ("let " ++ name) n :: done) v) b
  | .letRec n name fn _ fb b =>
    expr (expr (line "fn" fn :: line ("letrec " ++ name) n :: done) fb) b
  | .lambda n _ b => expr (line "fn" n :: done) b
  | .apply n c args => exprs (expr (line "app" n :: done) c) args
  | .sequence n es => exprs (line "seq" n :: done) es
  | .print n e => expr (line "print" n :: done) e
  | .list n es => exprs (line "list" n :: done) es
  | .cons n h t => expr (expr (line "cons" n :: done) h) t
  | .matchOn n e arms => exprsOfArms (expr (line "match" n :: done) e) arms
  | .tag n name => line ("ctor " ++ name) n :: done
  | .build n name e => expr (line ("ctor " ++ name) n :: done) e
  | .hostCall n _ _ args => exprs (line "hcall" n :: done) args
  | .hostMethod n r _ args => exprs (expr (line "hinst" n :: done) r) args
  | .hostField n .. => line "hfield" n :: done
  | .hostNew n _ => line "hnew" n :: done

def exprs (done : List String) : List (Expr Typed) → List String
  | [] => done
  | e :: es => exprs (expr done e) es

def exprsOfParts (done : List String) : List (Part Typed) → List String
  | [] => done
  | .text _ :: ps => exprsOfParts done ps
  | .hole e :: ps => exprsOfParts (expr done e) ps

def exprsOfArms (done : List String) : List (Arm Typed) → List String
  | [] => done
  | .mk p e :: arms => exprsOfArms (expr (pattern done p) e) arms
end

def decl (done : List String) : Decl Typed → List String
  | .fn d => expr (line ("decl " ++ d.name) d.note :: done) d.body
  | .value d => expr (line ("decl " ++ d.name) d.note :: done) d.value
  | .type _ => done

def module (m : Module Typed) : List String :=
  let done := m.decls.foldl decl []
  (match m.main with
    | some e => expr done e
    | none => done).reverse

end StackML.Typing.Outline
