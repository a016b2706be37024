import StackML.Machine.Rep
import StackML.Text.Quoted

/-!
Method descriptors: `(ID)Lstring;` takes an integer and a double and leaves a string reference.
`write` makes them from types, `parse` reads the representations back.
-/

namespace StackML.Descriptor

def refName : Ty → String
  | .string => "string"
  | .unit => "unit"
  | .list _ => "list"
  | .result .. => "result"
  | .fn .. => "fn"
  | .named name => name
  | .app name _ => name
  | .host name => "host." ++ name
  | _ => "object"

def item (r : Rep) (reference : String) : String :=
  match r with
  | .int => "I"
  | .bool => "Z"
  | .double => "D"
  | .void => "V"
  | .ref => "L" ++ reference ++ ";"

def ofTy (t : Ty) : Except Defect String := do
  pure (item (← Rep.ofTy t) (refName t))

def ofResult (t : Ty) : Except Defect String := do
  pure (item (← Rep.ofResult t) (refName t))

def write (params : List Ty) (result : Ty) : Except Defect String := do
  let ps ← params.mapM ofTy
  let r ← ofResult result
  pure ("(" ++ String.join ps ++ ")" ++ r)

/-- The descriptor of a method whose references are not told apart. -/
def ofReprs (params : List Rep) (result : Rep) : String :=
  "(" ++ String.join (params.map (item · "object")) ++ ")" ++ item result "object"

inductive Issue where
  | missingOpen
  | missingClose
  | truncated
  | unterminated
  | unexpected (byte : UInt8)
  | voidParameter
  | trailing
  deriving DecidableEq, Repr

structure Error where
  input : Text
  issue : Issue
  deriving DecidableEq, Repr

def Issue.message : Issue → String
  | missingOpen => "missing '('"
  | missingClose => "missing ')'"
  | truncated => "truncated"
  | unterminated => "unterminated reference"
  | unexpected byte => "unexpected " ++ Text.quotedChar (Char.ofNat byte.toNat)
  | voidParameter => "void parameter"
  | trailing => "trailing characters"

def Error.message (e : Error) : String :=
  "descriptor " ++ e.input.quoted ++ ": " ++ e.issue.message

structure Signature where
  params : List Rep
  result : Rep
  deriving DecidableEq, Repr, Inhabited

def Signature.words (s : Signature) : Nat := s.params.foldr (fun r n => r.width + n) 0

def afterSemicolon : List UInt8 → Option (List UInt8)
  | [] => none
  | b :: rest => if b == 0x3B then some rest else afterSemicolon rest

def result (bytes : List UInt8) : Except Issue Rep :=
  match bytes with
  | [] => .error .truncated
  | b :: rest =>
    let last (r : Rep) (rest : List UInt8) : Except Issue Rep :=
      if rest.isEmpty then .ok r else .error .trailing
    if b == 0x49 then last .int rest
    else if b == 0x5A then last .bool rest
    else if b == 0x44 then last .double rest
    else if b == 0x56 then last .void rest
    else if b == 0x4C then
      match afterSemicolon rest with
      | some rest => last .ref rest
      | none => .error .unterminated
    else .error (.unexpected b)

/-- Reads the items from the parameters on; `inName` holds inside the name of a reference. -/
def items (params : List Rep) : (inName : Bool) → List UInt8 → Except Issue Signature
  | true, [] => .error .unterminated
  | false, [] => .error .missingClose
  | true, b :: rest => items params (b != 0x3B) rest
  | false, b :: rest =>
    if b == 0x29 then do
      let r ← result rest
      pure ⟨params.reverse, r⟩
    else if b == 0x49 then items (.int :: params) false rest
    else if b == 0x5A then items (.bool :: params) false rest
    else if b == 0x44 then items (.double :: params) false rest
    else if b == 0x56 then .error .voidParameter
    else if b == 0x4C then items (.ref :: params) true rest
    else .error (.unexpected b)

def parse (text : Text) : Except Error Signature :=
  let read := match text.bytes with
    | 0x28 :: rest => items [] false rest
    | _ => .error .missingOpen
  match read with
  | .ok s => .ok s
  | .error issue => .error ⟨text, issue⟩

end StackML.Descriptor
