import StackML.Ty.Vars

/-!
Types as diagnostics show them: `Int -> Double list`, `result<Int, String>`, `forall 't1. 't1`.
-/

namespace StackML.Ty

def varText (id : VarId) (numeric : Bool) : String :=
  (if numeric then "'n" else "'t") ++ toString id

def quantifierText (vars : List VarId) (body : Ty) : String :=
  String.join (vars.map fun id => " " ++ varText id (body.isNumericIn id))

/-- Functions and schemes are bracketed where a narrower type is expected. -/
def isWide : Ty → Bool
  | fn .. | scheme .. => true
  | _ => false

def bracketed (wide : Bool) (text : String) : String :=
  if wide then "(" ++ text ++ ")" else text

mutual
/-- The text of a type in diagnostics. A scheme that quantifies nothing shows its body only. -/
def text : Ty → String
  | int => "Int"
  | double => "Double"
  | string => "String"
  | bool => "Bool"
  | unit => "Unit"
  | list a => bracketed a.isWide a.text ++ " list"
  | result a b => "result<" ++ a.text ++ ", " ++ b.text ++ ">"
  | var id => varText id false
  | num id => varText id true
  | fn a b => bracketed a.isWide a.text ++ " -> " ++ b.text
  | scheme vars a =>
    if vars.isEmpty then a.text else "forall" ++ quantifierText vars a ++ ". " ++ a.text
  | named name => name
  | app name as => name ++ "<" ++ ", ".intercalate (textAll as) ++ ">"
  | host name => "@" ++ name

def textAll : List Ty → List String
  | [] => []
  | a :: as => a.text :: textAll as
end

end StackML.Ty
