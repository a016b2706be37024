import StackML.Text.Quoted
import StackML.Ty.Signature.Basic
import StackML.Ty.Signature.Token

/-!
Reading signatures. The grammar is

    type    ::= "forall" VAR* "." type | postfix | postfix "->" type
    postfix ::= atom NAME*
    atom    ::= primitive | NAME | VAR | "@" HOST | "(" ")" | "(" type ("," type)* ")"

where an argument list of another length than one must be followed by a name. An error carries the
offset of the token at which reading stopped; the end of the text counts as a token there.
-/

namespace StackML

inductive SignatureIssue where
  | unexpected (text : String)
  | unexpectedEnd
  | expectedDot
  | expectedClose
  | listArguments (count : Nat)
  | resultArguments (count : Nat)
  | bareArguments
  | emptyHost
  | malformedVariable (text : String)
  deriving DecidableEq, Repr

def SignatureIssue.message : SignatureIssue → String
  | unexpected text => "unexpected " ++ Text.quoted text
  | unexpectedEnd => "unexpected end of signature"
  | expectedDot => "expected '.' after quantified variables"
  | expectedClose => "expected ')'"
  | listArguments count => "list takes one argument, got " ++ toString count
  | resultArguments count => "result takes two arguments, got " ++ toString count
  | bareArguments => "type argument list must be followed by a type name"
  | emptyHost => "empty host type name"
  | malformedVariable text => "malformed type variable " ++ Text.quoted text

structure SignatureError where
  input : Text
  offset : Nat
  issue : SignatureIssue
  deriving DecidableEq, Repr

def SignatureError.message (e : SignatureError) : String :=
  "bad signature " ++ e.input.quoted ++ " at offset " ++ toString e.offset ++ ": " ++
    e.issue.message

namespace Signature

abbrev Failed := List Token × SignatureIssue

abbrev Parsed (α : Type) := Except Failed (α × List Token)

def idBound : Nat := Nat.pow 2 63

def decimal? (cs : List Char) : Option Nat :=
  if cs.isEmpty || !cs.all Char.isDigit then none
  else some (cs.foldl (fun n c => n * 10 + (c.toNat - '0'.toNat)) 0)

/-- The variable that a token's text names: `'t` or `'n` and a number. -/
def varType? (text : String) : Option Ty :=
  match text.toList with
  | '\'' :: kind :: digits =>
    match decimal? digits with
    | some id =>
      if id < idBound then
        if kind == 't' then some (.var id) else if kind == 'n' then some (.num id) else none
      else none
    | none => none
  | _ => none

def quantifier : (vars : List VarId) → List Token → Parsed (List VarId)
  | vars, ⟨.typeVar text, offset⟩ :: rest =>
    match (varType? text).bind Ty.varId? with
    | some id => quantifier (id :: vars) rest
    | none => .error (⟨.typeVar text, offset⟩ :: rest, .malformedVariable text)
  | vars, ⟨.dot, _⟩ :: rest => .ok (vars.reverse, rest)
  | _, tokens => .error (tokens, .expectedDot)

/-- The type that a name makes of its arguments; `rest` is what follows the name. -/
def applyName (name : String) (args : List Ty) (rest : List Token) : Except Failed Ty :=
  match name, args with
  | "list", [a] => .ok (.list a)
  | "list", args => .error (rest, .listArguments args.length)
  | "result", [a, b] => .ok (.result a b)
  | "result", args => .error (rest, .resultArguments args.length)
  | name, args => .ok (.app name args)

/-- The names behind an argument list; what is left must be a single type. -/
def postfixNames : List Ty → List Token → Parsed Ty
  | args, ⟨.ident name, offset⟩ :: rest =>
    if isPrimitive name || name == "forall" then
      match args with
      | [t] => .ok (t, ⟨.ident name, offset⟩ :: rest)
      | _ => .error (⟨.ident name, offset⟩ :: rest, .bareArguments)
    else
      match applyName name args rest with
      | .ok t => postfixNames [t] rest
      | .error e => .error e
  | [t], tokens => .ok (t, tokens)
  | _, tokens => .error (tokens, .bareArguments)

mutual
def type : (depth : Nat) → List Token → Except Failed (Ty × List Token)
  | 0, tokens => .error (tokens, .unexpectedEnd)
  | depth + 1, tokens =>
    match tokens with
    | ⟨.ident "forall", _⟩ :: rest => do
      let (vars, rest) ← quantifier [] rest
      let (body, rest) ← type depth rest
      pure (.scheme vars body, rest)
    | tokens => do
      let (args, rest) ← atom depth tokens
      let (left, rest) ← postfixNames args rest
      match rest with
      | ⟨.arrow, _⟩ :: rest => do
        let (right, rest) ← type depth rest
        pure (.fn left right, rest)
      | rest => pure (left, rest)

/-- Reads an atom: one type, or the argument list of a name that must follow. -/
def atom : (depth : Nat) → List Token → Except Failed (List Ty × List Token)
  | 0, tokens => .error (tokens, .unexpectedEnd)
  | depth + 1, tokens =>
    match tokens with
    | [] => .error ([], .unexpectedEnd)
    | ⟨kind, offset⟩ :: rest =>
      match kind with
      | .ident name =>
        match primitives.lookup name with
        | some t => .ok ([t], rest)
        | none =>
          if isReserved name then .error (tokens, .unexpected name)
          else .ok ([.named name], rest)
      | .typeVar text =>
        match varType? text with
        | some t => .ok ([t], rest)
        | none => .error (tokens, .malformedVariable text)
      | .host name =>
        if name.isEmpty then .error (tokens, .emptyHost) else .ok ([.host name], rest)
      | .openParen =>
        match rest with
        | ⟨.closeParen, _⟩ :: rest => .ok ([], rest)
        | rest => arguments depth [] rest
      | other => .error (⟨kind, offset⟩ :: rest, .unexpected other.text)

/-- Reads the types of an argument list up to its closing bracket. -/
def arguments : (depth : Nat) → (before : List Ty) → List Token →
    Except Failed (List Ty × List Token)
  | 0, _, tokens => .error (tokens, .unexpectedEnd)
  | depth + 1, before, tokens => do
    let (t, rest) ← type depth tokens
    match rest with
    | ⟨.comma, _⟩ :: rest => arguments depth (t :: before) rest
    | ⟨.closeParen, _⟩ :: rest => pure ((t :: before).reverse, rest)
    | rest => .error (rest, .expectedClose)
end

/-- The offset of a failure: that of the first token left, or the end of the text. -/
def offsetOf (source : Text) (tokens : List Token) : Nat :=
  match tokens with
  | t :: _ => t.offset
  | [] => source.length

/-- Reads a whole text as a signature. Each rule that nests takes a token, in at most three steps,
so the depth given suffices. -/
def parse (source : Text) : Except SignatureError Ty :=
  let tokens := scan source
  match type (3 * tokens.length + 3) tokens with
  | .ok (t, []) => .ok t
  | .ok (_, t :: rest) =>
    .error ⟨source, offsetOf source (t :: rest), .unexpected t.kind.text⟩
  | .error (rest, issue) => .error ⟨source, offsetOf source rest, issue⟩

end Signature
end StackML
