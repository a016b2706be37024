import StackML.Ty.Basic
import StackML.Text.CaseMap
import StackML.Text.Letter

/-!
Names of specialized functions. A polymorphic function is compiled once for each way its parameters
are used, and `name$Suffix` names the copy; the suffix depends on the parameter types alone, so
that a definition and its callers agree on it.
-/

namespace StackML.Ty

/-- What stands between the name of a function and the suffix of its specialization. -/
def suffixSeparator : String := "$"

/-- Drops dots, slashes and underscores and capitalizes what follows each of them. -/
def capitalizeParts : (upper : Bool) → List Char → List Char
  | _, [] => []
  | upper, c :: rest =>
    if c == '.' || c == '/' || c == '_' then capitalizeParts true rest
    else (if upper then Text.toUpper c else c) :: capitalizeParts false rest

/-- Keeps the letters and digits of a name, its parts capitalized. -/
def plainName (cs : List Char) : List Char :=
  (capitalizeParts true cs).filter fun c => Text.isLetter c || Text.isDigit c

def capitalized (name : String) : String :=
  String.ofList <| match name.toList with
    | [] => []
    | c :: rest => plainName (Text.toUpper c :: rest)

mutual
/-- The part of a suffix that a parameter type contributes. Variables are all alike. -/
def mangled : Ty → String
  | int => "Int"
  | double => "Double"
  | string => "String"
  | bool => "Bool"
  | unit => "Unit"
  | list a => a.mangled ++ "List"
  | result a b => "ResultOf" ++ a.mangled ++ "And" ++ b.mangled
  | fn a b => "Fn" ++ a.mangled ++ "To" ++ b.mangled
  | named name => capitalized name
  | app name as =>
    if as.isEmpty then capitalized name
    else capitalized name ++ "Of" ++ "And".intercalate (mangledAll as)
  | host name => "Host" ++ String.ofList (plainName name.toList)
  | scheme _ a => a.mangled
  | var _ | num _ => "Generic"

def mangledAll : List Ty → List String
  | [] => []
  | a :: as => a.mangled :: mangledAll as
end

/-- The suffix of a function of the given arity at a type: its parameters, or the whole type when
there are none. -/
def suffix (t : Ty) (arity : Nat) : String :=
  match (t.body.split arity).1 with
  | [] => t.body.mangled
  | params => "_".intercalate (params.map mangled)

def specializedName (name : String) (t : Ty) (arity : Nat) : String :=
  name ++ suffixSeparator ++ t.suffix arity

end StackML.Ty
