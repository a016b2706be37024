import StackML.Text.Blank
import StackML.Ty.Signature.Parser

/-!
Interface descriptors: what one module lets others see. The text has a header with the name of the
module and one line `name : signature` for each export. Blank lines and other lines that start with
`#` mean nothing; lines of 64 KiB and more are refused.
-/

namespace StackML

structure Export where
  name : String
  type : Ty
  deriving Inhabited, Repr

structure Interface where
  module : String := ""
  exports : List Export := []
  deriving Inhabited, Repr

namespace Interface

def find? (i : Interface) (name : String) : Option Ty :=
  (i.exports.find? (·.name == name)).map (·.type)

def lines (i : Interface) : List String :=
  ("# module " ++ i.module) ::
    i.exports.map fun e => e.name ++ " : " ++ Signature.render e.type

def render (i : Interface) : String := String.join (i.lines.map (· ++ "\n"))

inductive LineIssue where
  | noSeparator (text : String)
  | noName
  | signature (cause : SignatureError)
  deriving DecidableEq, Repr

def LineIssue.message : LineIssue → String
  | noSeparator text => "expected \"name : signature\", got " ++ Text.quoted text
  | noName => "missing export name"
  | signature cause => cause.message

inductive Error where
  | line (number : Nat) (issue : LineIssue)
  | tooLong
  deriving DecidableEq, Repr

def Error.message : Error → String
  | line number issue => "interface line " ++ toString number ++ ": " ++ issue.message
  | tooLong => "bufio.Scanner: token too long"

def lineLimit : Nat := 65535

def splitExport : (before : List Char) → List Char → Option (List Char × List Char)
  | before, ' ' :: ':' :: ' ' :: rest => some (before.reverse, rest)
  | before, c :: rest => splitExport (c :: before) rest
  | _, [] => none

def header? (text : String) : Option String :=
  if "# module ".isPrefixOf text then
    some (Text.trimString (String.ofList (text.toList.drop "# module ".length)))
  else none

def exportOf (text : String) : Except LineIssue Export :=
  match splitExport [] text.toList with
  | none => .error (.noSeparator text)
  | some (name, signature) =>
    let name := Text.trimString (String.ofList name)
    if name.isEmpty then .error .noName
    else
      match Signature.parse (String.ofList signature) with
      | .ok type => .ok ⟨name, type⟩
      | .error e => .error (.signature e)

/-- Reads the lines from the given number on; exports are gathered latest first. -/
def readLines (module : String) (done : List Export) :
    (number : Nat) → List String → Except Error Interface
  | _, [] => .ok ⟨module, done.reverse⟩
  | number, line :: rest =>
    if lineLimit < line.utf8ByteSize then .error .tooLong
    else
      let text := Text.trimString line
      if text.isEmpty then readLines module done (number + 1) rest
      else if "#".isPrefixOf text then
        let module := if module.isEmpty then (header? text).getD module else module
        readLines module done (number + 1) rest
      else
        match exportOf text with
        | .ok e => readLines module (e :: done) (number + 1) rest
        | .error issue => .error (.line number issue)

/-- The lines of a text; a break at its end starts no further line. -/
def splitLines (text : String) : List String :=
  let parts := (text.split '\n').toList.map String.Slice.copy
  if parts.getLast? == some "" then parts.dropLast else parts

def parse (text : String) : Except Error Interface := readLines "" [] 1 (splitLines text)

end Interface
end StackML
