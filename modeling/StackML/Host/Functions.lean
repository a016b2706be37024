import StackML.Double.Angle
import StackML.Double.Power
import StackML.Host.Native
import StackML.Text.Blank
import StackML.Text.CaseMap

/-!
The implementations of the well-known members: elementary functions, texts, and the methods of a
builder.
-/

namespace StackML.Host

/-- A function without effects, given by its value where the arguments have the kinds it takes. -/
def pureFn (params : List ParamKind) (f : List Value → Option Value) : Native where
  params
  run args h := (.values (f args).toList, h)

def ofDouble (f : Float → Float) : Native :=
  pureFn [.float64] fun
    | [.double x] => some (.double (f (.ofBits x)).toBits)
    | _ => none

def ofDoubles (f : Float → Float → Float) : Native :=
  pureFn [.float64, .float64] fun
    | [.double x, .double y] => some (.double (f (.ofBits x) (.ofBits y)).toBits)
    | _ => none

def ofText (f : Text → Value) : Native :=
  pureFn [.string] fun
    | [.str s] => some (f s)
    | _ => none

def ofTexts (f : Text → Text → Value) : Native :=
  pureFn [.string, .string] fun
    | [.str s, .str t] => some (f s t)
    | _ => none

def upper (s : Text) : Value := .str (s.mapChars Text.toUpper)

def lower (s : Text) : Value := .str (s.mapChars Text.toLower)

def trimmed (s : Text) : Value := .str s.trim

def contains (s part : Text) : Value := .bool (s.find? part).isSome

def indexOf (s part : Text) : Value :=
  .int (match s.find? part with
    | some i => .ofNat i
    | none => -1)

/-- Below, at or above zero as the first text is less, equal or greater. -/
def compareTexts (s t : Text) : Value :=
  .int (match compare s t with
    | .lt => -1
    | .eq => 0
    | .gt => 1)

def tooLong : Reply := .panicked "runtime error: makeslice: len out of range"

/-- A text over and over; a negative count and a result beyond all lengths are refused. -/
def repeated (s : Text) (count : Int64) : Reply :=
  let n := count.toInt
  if n < 0 then .panicked "strings: negative Repeat count"
  else if Nat.pow 2 63 ≤ s.length * n.toNat then
    .panicked "strings: Repeat output length overflow"
  else if s.isEmpty then .values [.str .empty]
  else if Builder.maxBlock < s.length * n.toNat then tooLong
  else .values [.str (s.times n.toNat)]

def repeatFn : Native where
  params := [.string, .int]
  run args h :=
    match args with
    | [.str s, .int n] => (repeated s n, h)
    | _ => (.values [], h)

/-- The functions of the packages, and the methods of strings with the string as their first
argument. -/
def wellKnownFunctions : List (String × Native) :=
  [("math.Sqrt", ofDouble Float.sqrt), ("math.Sin", ofDouble Double.sin),
    ("math.Cos", ofDouble Double.cos), ("math.Tan", ofDouble Double.tan),
    ("math.Log", ofDouble Double.log), ("math.Exp", ofDouble Double.exp),
    ("math.Floor", ofDouble Float.floor), ("math.Ceil", ofDouble Float.ceil),
    ("math.Abs", ofDouble Float.abs), ("math.Pow", ofDoubles Double.power),
    ("math.Max", ofDoubles Double.larger), ("math.Min", ofDoubles Double.smaller),
    ("strings.ToUpper", ofText upper), ("strings.ToLower", ofText lower),
    ("strings.TrimSpace", ofText trimmed), ("strings.Repeat", repeatFn),
    ("strings.Contains", ofTexts contains),
    ("strings.HasPrefix", ofTexts fun s t => .bool (t.isPrefixOf s)),
    ("strings.HasSuffix", ofTexts fun s t => .bool (t.isSuffixOf s)),
    ("strings.Index", ofTexts indexOf), ("strings.Compare", ofTexts compareTexts),
    ("strconv.Itoa", pureFn [.int] fun
      | [.int n] => some (.str (Text.ofInt n.toInt))
      | _ => none),
    ("strconv.FormatBool", pureFn [.bool] fun
      | [.bool b] => some (.str (if b then "true" else "false"))
      | _ => none),
    ("string.Len", ofText fun s => .int (.ofNat s.length)), ("string.ToUpper", ofText upper),
    ("string.ToLower", ofText lower), ("string.TrimSpace", ofText trimmed),
    ("string.Contains", ofTexts contains)]

def wellKnownFields : List (String × Value) :=
  [("math.Pi", .double 0x400921FB54442D18), ("math.E", .double 0x4005BF0A8B145769),
    ("math.MaxInt32", .int 2147483647)]

def builderQuery (b : Builder) (f : Builder → Value) : Native where
  params := []
  run _ h := (.values [f b], h)

/-- A method that appends what its argument stands for and gives the number of bytes. -/
def builderWrite (ref : Nat) (b : Builder) (k : ParamKind) (text : Value → Text) (counted : Bool) :
    Native where
  params := [k]
  run args h :=
    match args with
    | [v] =>
      let t := text v
      (.values (if counted then [.int (.ofNat t.length)] else []),
        h.set ref (.builder (b.write t)))
    | _ => (.values [], h)

def textOfValue : Value → Text
  | .str s => s
  | .int n => ParamKind.charText n
  | _ => .empty

def byteOfValue : Value → Text
  | .int n => ⟨[n.toUInt64.toUInt8]⟩
  | _ => .empty

def builderReset (ref : Nat) : Native where
  params := []
  run _ h := (.values [], h.set ref (.builder {}))

def builderReserve (ref : Nat) (b : Builder) : Native where
  params := [.int]
  run args h :=
    match args with
    | [.int n] =>
      if n < 0 then (.panicked "strings.Builder.Grow: negative count", h)
      else
        match b.reserve? n.toInt.toNat with
        | some b => (.values [], h.set ref (.builder b))
        | none => (tooLong, h)
    | _ => (.values [], h)

def builderMethod? (ref : Nat) (b : Builder) : String → Option Native
  | "String" => some (builderQuery b fun b => .str b.content)
  | "Len" => some (builderQuery b fun b => .int (.ofNat b.content.length))
  | "Cap" => some (builderQuery b fun b => .int (.ofNat b.room))
  | "WriteString" => some (builderWrite ref b .string textOfValue true)
  | "Write" => some (builderWrite ref b .bytes textOfValue true)
  | "WriteByte" => some (builderWrite ref b .uint8 byteOfValue false)
  | "WriteRune" => some (builderWrite ref b .int32 textOfValue true)
  | "Reset" => some (builderReset ref)
  | "Grow" => some (builderReserve ref b)
  | _ => none

def listRow (elems : List Value) : Native where
  params := []
  run _ h :=
    let (ref, h) := h.add (.row elems)
    (.values [.object ref "[]interface \x7b\x7d"], h)

def valueMethod? (h : Heap) (v : Value) (member : String) : Option Native :=
  match v, member with
  | .object ref _, member =>
    match h.get? ref with
    | some (.builder b) => builderMethod? ref b member
    | _ => none
  | .list elems, "Len" => some (pureFn [] fun _ => some (.int (.ofNat elems.length)))
  | .list elems, "Slice" => some (listRow elems)
  | .closure _ code _, "Name" =>
    some (pureFn [] fun _ => some (.str (.concat [code.module, ".", code.method.name])))
  | _, _ => none

end StackML.Host
