import StackML.Machine.Descriptor
import StackML.Machine.Opcode

/-!
What can go wrong while code runs. An issue is the reason, of one of seven kinds; a fault adds the
method and the source line where it arose, as far as they are known.
-/

namespace StackML

inductive FaultKind where
  | nonExhaustive
  | matchFailure
  | divideByZero
  | badUnbox
  | link
  | host
  | stackDepth
  deriving DecidableEq, Repr

def FaultKind.text : FaultKind → String
  | nonExhaustive => "non-exhaustive match"
  | matchFailure => "match failure"
  | divideByZero => "division by zero"
  | badUnbox => "bad unbox"
  | link => "link error"
  | host => "host error"
  | stackDepth => "call stack too deep"

inductive FaultIssue where
  | noCase
  | emptyList (op : Opcode)
  | divideByZero
  | wrongBox (expected : Rep) (found : Text)
  | notAList (found : Text)
  | notAString
  | noPayload
  | notAFunction
  | badMethod (module method : Text) (error : Descriptor.Error)
  | badField (error : Descriptor.Error)
  | badHost (owner member : Text) (error : Descriptor.Error)
  | twoModules (first second : Text)
  | noModule
  | notLoaded (module : Text)
  | loading (module : Text) (reason : Text)
  | noField (module name : Text)
  | noMethod (module name : Text)
  | arity (module name : Text) (expected got : Nat)
  | endOfMethod
  | stackUnderflow
  | stackOverflow
  | truncatedCode
  | badConstant
  | badSlot
  | unsetField (module name : Text)
  | missingMethod (module name : Text)
  | otherDescriptor (module name actual expected : Text)
  | manyCaptures (method : Text) (captures params : Nat)
  | noExport (module name : Text)
  | noBuiltin (name : Text)
  | noConstructor (module name : Text)
  | unknownOpcode (code : UInt8)
  | hostFailed (member : Text) (reason : Text)
  | tooDeep (limit : Int)
  deriving DecidableEq, Repr

namespace FaultIssue

def kind : FaultIssue → FaultKind
  | noCase => .nonExhaustive
  | emptyList _ => .matchFailure
  | divideByZero => .divideByZero
  | wrongBox .. | notAList _ | notAString | noPayload | notAFunction => .badUnbox
  | hostFailed .. => .host
  | tooDeep _ => .stackDepth
  | _ => .link

/-- The wording of an issue; that of a division says all in its kind. -/
def message : FaultIssue → Text
  | noCase => "no case matched"
  | emptyList op => op.name ++ " of an empty list"
  | divideByZero => ""
  | wrongBox expected found => .concat ["expected ", expected.name, ", got ", found]
  | notAList found => .concat ["expected a list, got ", found]
  | notAString => "string concatenation of a non-string"
  | noPayload => "payload of a value without one"
  | notAFunction => "applying a value that is not a function"
  | badMethod module method e => .concat [module, ".", method, ": ", e.message]
  | badField e => e.message
  | badHost owner member e => .concat ["host ", owner, ".", member, ": ", e.message]
  | twoModules a b => .concat ["artifacts of ", a, " and ", b, " loaded together"]
  | noModule => "no module artifact to load"
  | notLoaded module => .concat ["module ", module, " is not loaded"]
  | loading module _ => .concat ["loading module ", module]
  | noField module name => .concat [module, " has no field ", name]
  | noMethod module name => .concat [module, " has no method ", name]
  | arity module name expected got =>
    .concat [module, ".", name, " takes ", Text.ofNat expected, " arguments, got ",
      Text.ofNat got]
  | endOfMethod => "fell off the end of the method"
  | stackUnderflow => "stack underflow"
  | stackOverflow => "stack overflow"
  | truncatedCode => "truncated bytecode"
  | badConstant => "invalid constant index"
  | badSlot => "invalid local slot"
  | unsetField module name =>
    .concat ["field ", module, ".", name, " read before it was initialized"]
  | missingMethod module name => .concat ["no method ", module, ".", name]
  | otherDescriptor module name actual expected =>
    .concat ["method ", module, ".", name, " has descriptor ", actual, ", not ", expected]
  | manyCaptures method captures params =>
    .concat ["closure over ", method, " captures ", Text.ofNat captures, " of ",
      Text.ofNat params, " parameters"]
  | noExport module name => .concat ["module ", module, " exports no ", name]
  | noBuiltin name => .concat ["no built-in constructor ", name]
  | noConstructor module name => .concat ["module ", module, " has no constructor ", name]
  | unknownOpcode code => .concat ["unknown opcode ", Text.ofNat code.toNat]
  | hostFailed member _ => member
  | tooDeep limit => .concat ["more than ", Text.ofInt limit, " nested calls"]

def cause? : FaultIssue → Option Text
  | loading _ reason => some reason
  | hostFailed _ reason => some reason
  | _ => none

end FaultIssue

structure Fault where
  issue : FaultIssue
  method : Text := .empty
  line : Int64 := 0
  deriving DecidableEq, Repr

namespace Fault

def text (f : Fault) : Text :=
  let place := if 0 < f.line then .concat [f.method, ":", Text.ofInt f.line.toInt] else f.method
  let message := f.issue.message
  let what : Text :=
    if message.isEmpty then f.issue.kind.text else .concat [f.issue.kind.text, ": ", message]
  if place.isEmpty then .concat ["runtime fault: ", what]
  else .concat ["runtime fault in ", place, ": ", what]

end Fault
end StackML
