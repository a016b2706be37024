import StackML.Position
import StackML.Ty.Text

/-!
What a user is told about a program that is refused. An `Issue` is the reason; its code and its
wording follow from it. A `Diagnostic` adds the place.
-/

namespace StackML

inductive Issue where
  | mismatch (left right : Ty)
  | hostArity (key : String) (expected got : Nat)
  | undefinedName (name : String)
  | recursiveType (unknown type : Ty)
  | emptyMatch
  | notNumeric (type : Ty)
  | unknownConstructor (name : String)
  | missingArgument (constructor : String)
  | extraArgument (constructor : String)
  | badTypeName (name : String)
  | unknownHostMember (reason : String)
  | noHostMethods (member : String) (receiver : Ty)
  | declaredTwice (name : String)
  | constructorDefined (name : String)
  | noModuleStore (module : String)
  | importFailed (module reason : String)
  | noOrdering (operator : String) (type : Ty)
  | noSpecialization (module name : String) (type : Ty)
  | other (code wording : String)
  deriving DecidableEq, Repr

namespace Issue

def code : Issue → String
  | mismatch .. | hostArity .. => "T001"
  | undefinedName .. => "T002"
  | recursiveType .. => "T003"
  | emptyMatch => "T004"
  | notNumeric .. => "T005"
  | unknownConstructor .. | missingArgument .. | extraArgument .. | badTypeName .. => "T006"
  | unknownHostMember .. | noHostMethods .. => "T007"
  | declaredTwice .. | constructorDefined .. => "T008"
  | noModuleStore .. | importFailed .. => "T009"
  | noOrdering .. => "C001"
  | noSpecialization .. => "C002"
  | other code _ => code

def message : Issue → String
  | mismatch a b => "cannot unify " ++ a.text ++ " with " ++ b.text
  | hostArity key expected got =>
    "host " ++ key ++ " expects " ++ toString expected ++ " arguments, got " ++ toString got
  | undefinedName name => "undefined name " ++ name
  | recursiveType v t => "infinite type detected: " ++ v.text ++ " in " ++ t.text
  | emptyMatch => "match has no cases"
  | notNumeric t => t.text ++ " is not a numeric type"
  | unknownConstructor name => "unknown constructor " ++ name
  | missingArgument name => "constructor " ++ name ++ " requires an argument"
  | extraArgument name => "constructor " ++ name ++ " takes no argument"
  | badTypeName name => name ++ " cannot be used as a type name"
  | unknownHostMember reason => reason
  | noHostMethods member receiver =>
    "cannot call host method " ++ member ++ " on a value of type " ++ receiver.text
  | declaredTwice name => name ++ " is declared more than once"
  | constructorDefined name => "constructor " ++ name ++ " is already defined"
  | noModuleStore module => "cannot import " ++ module ++ ": no module store"
  | importFailed module reason => "cannot import " ++ module ++ ": " ++ reason
  | noOrdering operator t => operator ++ " is not defined on " ++ t.text
  | noSpecialization module name t =>
    "module " ++ module ++ " has no specialization of " ++ name ++ " for " ++ t.text
  | other _ wording => wording

end Issue

/-- The heading of a code; codes that are not documented have none of their own. -/
def codeTitle (code : String) : String :=
  let titles := [("T001", "type mismatch"), ("T002", "undefined name"), ("T003", "recursive type"),
    ("T004", "empty match"), ("T005", "not numeric"), ("T006", "bad constructor"),
    ("T007", "unknown host member"), ("T008", "duplicate declaration"), ("T009", "unknown module"),
    ("C001", "no ordering"), ("C002", "missing specialization")]
  (titles.lookup code).getD "error"

def isTypeErrorCode (code : String) : Bool := code.toList.head? == some 'T'

structure Diagnostic where
  position : Position
  issue : Issue
  deriving DecidableEq, Repr

namespace Diagnostic

def code (d : Diagnostic) : String := d.issue.code

def message (d : Diagnostic) : String := d.issue.message

def text (d : Diagnostic) : String :=
  d.position.text ++ ": error " ++ d.code ++ ": " ++ d.message

def located (d : Diagnostic) (position : Position) : Diagnostic :=
  if d.position.isKnown then d else { d with position }

end Diagnostic
end StackML
