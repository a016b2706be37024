import StackML.Position
import StackML.Ty.Text

/-!
Defects: code generation that met something inference should have excluded, or a limit of the
instruction format. They are reported apart from diagnostics, as the program is not to blame.
-/

namespace StackML

inductive Defect where
  | numericLeft (type : Ty)
  | missingType
  | jumpTooFar
  | noConversion (source target : String)
  | longList (count : Nat)
  | poolOverflow (module : String)
  | noInstance (name : String) (scheme type : Ty)
  | fewParameters (what : String) (type : Ty) (expected : Nat)
  | captureLost (name : String)
  | selfCaptureLost (name method : String)
  | notCaptured (name : String)
  | unboundName (name : String)
  | notImported (module : String)
  | notExported (module name : String)
  | unknownConstructor (name : String)
  | noHostSignature (position : Position)
  | badSignature (method reason : String)
  | other (wording : String)
  deriving DecidableEq, Repr

namespace Defect

def message : Defect → String
  | numericLeft t => "numeric type " ++ t.text ++ " reached code generation"
  | missingType => "missing type"
  | jumpTooFar => "jump too far"
  | noConversion source target => "cannot convert " ++ source ++ " to " ++ target
  | longList count => "list literal with " ++ toString count ++ " elements"
  | poolOverflow module => module ++ ": constant pool overflow"
  | noInstance name scheme t =>
    name ++ " : " ++ scheme.text ++ " does not instantiate to " ++ t.text
  | fewParameters what t expected =>
    what ++ " : " ++ t.text ++ " has fewer than " ++ toString expected ++ " parameters"
  | captureLost name => "captured " ++ name ++ " is not in scope"
  | selfCaptureLost name method => "capture " ++ name ++ " of " ++ method ++ " is not in scope"
  | notCaptured name =>
    name ++ " is a local of an enclosing method but was not captured"
  | unboundName name => "unbound name " ++ name ++ " reached code generation"
  | notImported module => "module " ++ module ++ " was not imported"
  | notExported module name => module ++ "." ++ name ++ " is not exported"
  | unknownConstructor name => "unknown constructor " ++ name
  | noHostSignature position => "no host signature recorded at " ++ position.text
  | badSignature method reason => "signature of " ++ method ++ ": " ++ reason
  | other wording => wording

def text (d : Defect) : String := "internal compiler error: " ++ d.message

end Defect
end StackML
