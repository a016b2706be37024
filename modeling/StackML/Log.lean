import StackML.Text.CaseMap

/-!
Log records and the levels they are kept at.
-/

namespace StackML.Log

inductive Level where
  | debug
  | info
  | warn
  | error
  deriving DecidableEq, Repr, Inhabited

namespace Level

def text : Level → String
  | debug => "DEBUG"
  | info => "INFO"
  | warn => "WARN"
  | error => "ERROR"

def rank : Level → Nat
  | debug => 0
  | info => 1
  | warn => 2
  | error => 3

/-- The level of a name, in letters of either case; unknown names mean `info`. -/
def ofName (name : String) : Level :=
  match String.ofList (name.toList.map Text.toLower) with
  | "debug" => debug
  | "warn" | "warning" => warn
  | "error" => error
  | _ => info

/-- Whether records of a level are kept by a log at the given one. -/
def keeps (log record : Level) : Bool := log.rank ≤ record.rank

end Level

/-- Whether a colour mode colours what does not go to a terminal. -/
def useColor (mode : String) : Bool := mode == "always"

structure Record where
  level : Level := .debug
  message : String
  attributes : List (String × String) := []
  deriving DecidableEq, Repr

def Record.text (r : Record) : String :=
  " ".intercalate
    (r.level.text :: r.message :: r.attributes.map fun (key, value) => key ++ "=" ++ value)

end StackML.Log
