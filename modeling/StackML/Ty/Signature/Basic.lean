import StackML.Ty.Text

/-!
Signatures: the written form of types in interface descriptors and host bindings. Type names follow
their arguments (`int list`, `(int, string) result`), functions are arrows, and quantified variables
are listed in front.
-/

namespace StackML.Signature

def primitives : List (String × Ty) :=
  [("int", .int), ("double", .double), ("string", .string), ("bool", .bool), ("unit", .unit)]

def isPrimitive (name : String) : Bool := (primitives.lookup name).isSome

/-- Names that the grammar uses itself and that no declared type may have. -/
def isReserved (name : String) : Bool :=
  isPrimitive name || name == "list" || name == "result" || name == "forall"

def argumentList (args : List String) : String := "(" ++ ", ".intercalate args ++ ")"

def postfixArguments (args : List (Bool × String)) : String :=
  match args with
  | [(wide, text)] => Ty.bracketed wide text
  | args => argumentList (args.map (·.2))

mutual
def render : Ty → String
  | .int => "int"
  | .double => "double"
  | .string => "string"
  | .bool => "bool"
  | .unit => "unit"
  | .var id => Ty.varText id false
  | .num id => Ty.varText id true
  | .host name => "@" ++ name
  | .named name => name
  | .list a => Ty.bracketed a.isWide (render a) ++ " list"
  | .result a b => argumentList [render a, render b] ++ " result"
  | .app name as => postfixArguments (renderAll as) ++ " " ++ name
  | .fn a b => Ty.bracketed a.isWide (render a) ++ " -> " ++ render b
  | .scheme vars a => "forall" ++ Ty.quantifierText vars a ++ ". " ++ render a

/-- The signatures of several types, each with whether it is wide. -/
def renderAll : List Ty → List (Bool × String)
  | [] => []
  | a :: as => (a.isWide, render a) :: renderAll as
end

end StackML.Signature
