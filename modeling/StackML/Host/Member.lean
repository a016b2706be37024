import StackML.NameMap
import StackML.Text.Quoted
import StackML.Ty.Signature.Parser

/-!
Members of the host platform as programs see them: functions and values of a package, methods of a
type, and the making of a new object. A table of signatures says which there are; bindings add to
it, and a resolver answers for a table or for several sources in turn.
-/

namespace StackML.Host

inductive MemberKind where
  | func
  | method
  | field
  | new
  deriving DecidableEq, Repr, Inhabited

namespace MemberKind

def text : MemberKind → String
  | func => "func"
  | method => "method"
  | field => "field"
  | new => "new"

def ofText? : String → Option MemberKind
  | "" | "func" => some func
  | "method" => some method
  | "field" => some field
  | "new" => some new
  | _ => none

def code : MemberKind → Int64
  | func => 0
  | method => 1
  | field => 2
  | new => 3

end MemberKind

/-- The key of a member in tables: objects are made by owner, everything else has a name. -/
def memberKey (owner member : String) (kind : MemberKind) : String :=
  if kind = .new then "new " ++ owner else owner ++ "." ++ member

/-- The signature of a member. The owner is a package for functions and fields, a type for methods
and objects; the receiver of a method is not among its parameters. -/
structure Signature where
  owner : String
  member : String
  kind : MemberKind
  params : List Ty
  result : Ty
  deriving DecidableEq, Repr, Inhabited

namespace Signature

def key (s : Signature) : String := memberKey s.owner s.member s.kind

def text (s : Signature) : String :=
  s.kind.text ++ " " ++ s.key ++ " : " ++ (Ty.fns s.params s.result).text

end Signature

def ownerOf? : Ty → Option String
  | .string => some "string"
  | .host name => some name
  | _ => none

structure Binding where
  owner : String := ""
  member : String := ""
  signature : String := ""
  kind : String := ""
  deriving DecidableEq, Repr, Inhabited

inductive BindingError where
  | unknownKind (kind : String)
  | signature (owner member : String) (cause : SignatureError)
  deriving DecidableEq, Repr

def BindingError.message : BindingError → String
  | unknownKind kind => "unknown host member kind " ++ Text.quoted kind
  | signature owner member cause => "binding " ++ owner ++ "." ++ member ++ ": " ++ cause.message

/-- The parameters and the result of a function type: every arrow is a parameter. -/
def uncurry : Ty → List Ty × Ty
  | .fn param rest =>
    let (params, result) := uncurry rest
    (param :: params, result)
  | t => ([], t)

def Binding.declared (b : Binding) : Except BindingError Signature :=
  match MemberKind.ofText? b.kind with
  | none => .error (.unknownKind b.kind)
  | some .new => .ok ⟨b.owner, "", .new, [], .host b.owner⟩
  | some kind =>
    match StackML.Signature.parse b.signature with
    | .error e => .error (.signature b.owner b.member e)
    | .ok t =>
      if kind = .field then .ok ⟨b.owner, b.member, kind, [], t⟩
      else
        let (params, result) := uncurry t
        .ok ⟨b.owner, b.member, kind, params, result⟩

structure Unknown where
  reason : String
  deriving DecidableEq, Repr

def Unknown.message (u : Unknown) : String := u.reason ++ ": unknown host member"

abbrev Table := NameMap Signature

namespace Table

def add (t : Table) (s : Signature) : Table := t.insert s.key s

/-- The signature of a member, if the table has it with that kind. -/
def find (t : Table) (owner member : String) (kind : MemberKind) : Except Unknown Signature :=
  let key := memberKey owner member kind
  match t.get? key with
  | some s =>
    if s.kind = kind then .ok s
    else .error ⟨kind.text ++ " " ++ key ++ " not in static table"⟩
  | none => .error ⟨kind.text ++ " " ++ key ++ " not in static table"⟩

def bind (t : Table) (b : Binding) : Except BindingError Table := do
  pure (t.add (← b.declared))

def bindAll (t : Table) (bs : List Binding) : Except BindingError Table := bs.foldlM bind t

end Table

/-- What answers for members: a signature, or that there is none. -/
abbrev Resolver := (owner member : String) → MemberKind → Except Unknown Signature

namespace Resolver

def ofTable (t : Table) : Resolver := t.find

/-- Asks the resolvers in turn, gathering why each does not know the member. -/
def firstOf (owner member : String) (kind : MemberKind) (tried : List String) :
    List Resolver → Except Unknown Signature
  | [] =>
    if tried.isEmpty then .error ⟨memberKey owner member kind⟩
    else .error ⟨"; ".intercalate tried.reverse⟩
  | r :: rest =>
    match r owner member kind with
    | .ok s => .ok s
    | .error u => firstOf owner member kind (u.message :: tried) rest

def chain (rs : List Resolver) : Resolver := fun owner member kind =>
  firstOf owner member kind [] rs

/-- Whether a type name has a package in front: something, a dot, something. -/
def isQualified (name : String) : Bool :=
  match name.toList.reverse.span (· != '.') with
  | ([], _) => false
  | (_, [_]) => false
  | (_, []) => false
  | _ => true

/-- The resolver for members outside the table. No packages can be loaded, so that it knows no
member; a type without a package is told apart. -/
def packages : Resolver := fun owner member kind =>
  match kind with
  | .method | .new =>
    if isQualified owner then .error ⟨"type " ++ owner ++ " not found"⟩
    else .error ⟨owner ++ " is not a qualified host type"⟩
  | _ => .error ⟨member ++ " not found in package " ++ owner⟩

end Resolver
end StackML.Host
