import StackML.Host.Member

/-!
The members that every program can use: elementary functions, texts, and a builder of texts.
-/

namespace StackML.Host

def fnOf (owner member : String) (params : List Ty) (result : Ty) : Signature :=
  ⟨owner, member, .func, params, result⟩

def methodOf (owner member : String) (params : List Ty) (result : Ty) : Signature :=
  ⟨owner, member, .method, params, result⟩

def fieldOf (owner member : String) (type : Ty) : Signature := ⟨owner, member, .field, [], type⟩

def wellKnown : List Signature :=
  ["Sqrt", "Sin", "Cos", "Tan", "Log", "Exp", "Floor", "Ceil", "Abs"].map
    (fnOf "math" · [.double] .double) ++
  ["Pow", "Max", "Min"].map (fnOf "math" · [.double, .double] .double) ++
  [fieldOf "math" "Pi" .double, fieldOf "math" "E" .double, fieldOf "math" "MaxInt32" .int] ++
  ["ToUpper", "ToLower", "TrimSpace"].map (fnOf "strings" · [.string] .string) ++
  [fnOf "strings" "Repeat" [.string, .int] .string] ++
  ["Contains", "HasPrefix", "HasSuffix"].map (fnOf "strings" · [.string, .string] .bool) ++
  ["Index", "Compare"].map (fnOf "strings" · [.string, .string] .int) ++
  [fnOf "strconv" "Itoa" [.int] .string, fnOf "strconv" "FormatBool" [.bool] .string,
    methodOf "string" "Len" [] .int] ++
  ["ToUpper", "ToLower", "TrimSpace"].map (methodOf "string" · [] .string) ++
  [methodOf "string" "Contains" [.string] .bool,
    ⟨"strings.Builder", "", .new, [], .host "strings.Builder"⟩,
    methodOf "strings.Builder" "WriteString" [.string] .int,
    methodOf "strings.Builder" "String" [] .string,
    methodOf "strings.Builder" "Len" [] .int,
    methodOf "strings.Builder" "Reset" [] .unit]

def Table.wellKnown : Table := Host.wellKnown.foldl Table.add .empty

/-- The resolver that settings ask for: the well-known members and the bindings, and with
`reflective` also what lies outside the table. -/
def Resolver.configured (bindings : List Binding) (reflective : Bool) :
    Except BindingError Resolver := do
  let table ← Table.wellKnown.bindAll bindings
  pure (if reflective then .chain [.ofTable table, .packages] else .ofTable table)

end StackML.Host
