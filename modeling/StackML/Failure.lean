import StackML.Codegen.State
import StackML.Machine.State

/-!
Failures of any part of the system, as callers meet them. A failure keeps its cause and the contexts
it passed through; its text starts with the outermost one.
-/

namespace StackML

inductive Cause where
  | diagnostic (diagnostic : Diagnostic)
  | defect (defect : Defect)
  | fault (fault : Fault)
  | descriptor (error : Interface.Error)
  | signature (error : SignatureError)
  | plain (message : String)

def Cause.text : Cause → String
  | diagnostic d => d.text
  | defect d => d.text
  | fault f => f.text.display
  | descriptor e => e.message
  | signature e => e.message
  | plain message => message

structure Failure where
  cause : Cause
  context : List String := []

namespace Failure

def plain (message : String) : Failure := { cause := .plain message }

def ofDiagnostic (d : Diagnostic) : Failure := { cause := .diagnostic d }

def ofDefect (d : Defect) : Failure := { cause := .defect d }

def ofFault (f : Fault) : Failure := { cause := .fault f }

def ofHalt : Halt → Failure
  | .fault f => ofFault f
  | .cancelled => plain "context canceled"
  | .outOfSteps => plain "out of steps"

def ofInterface (e : Interface.Error) : Failure := { cause := .descriptor e }

def ofCodegen : Codegen.Error → Failure
  | .diagnostic d => ofDiagnostic d
  | .defect d => ofDefect d

def ofBinding : Host.BindingError → Failure
  | .signature owner member e =>
    { cause := .signature e, context := ["binding " ++ owner ++ "." ++ member] }
  | e => plain e.message

def within (f : Failure) (context : String) : Failure :=
  { f with context := context :: f.context }

def text (f : Failure) : String :=
  String.join (f.context.map (· ++ ": ")) ++ f.cause.text

def styled (color : Bool) (style text : String) : String :=
  if color then "\x1b[" ++ style ++ "m" ++ text ++ "\x1b[0m" else text

/-- The line that reports a failure to a user: a diagnostic with its place and heading, anything
else as it is. -/
def render (f : Failure) (color : Bool) : String :=
  match f.cause with
  | .diagnostic d =>
    styled color "1" d.position.text ++ ": " ++ styled color "31" ("error[" ++ d.code ++ "]") ++
      " " ++ codeTitle d.code ++ ": " ++ d.message ++ "\n"
  | _ => styled color "31" "error:" ++ " " ++ f.text ++ "\n"

end Failure
end StackML
