import StackML.Settings.Calendar
import StackML.Settings.Yaml.Node
import StackML.Text.Basic

/-!
What scalars of YAML stand for: nothing, a truth value, or a text. A tag of the standard has to suit
the text; numbers and dates serve as the text they are written in.
-/

namespace StackML.Settings.Yaml

inductive Content where
  | nothing
  | truth (value : Bool) (text : String)
  | text (text : String)
  deriving DecidableEq, Repr

def isNull (word : String) : Bool := ["", "~", "null", "Null", "NULL"].contains word

def truthOf? (word : String) : Option Bool :=
  if ["true", "True", "TRUE"].contains word then some true
  else if ["false", "False", "FALSE"].contains word then some false
  else none

def looseTruthOf? (word : String) : Option Bool :=
  if ["y", "Y", "yes", "Yes", "YES", "on", "On", "ON"].contains word then some true
  else if ["n", "N", "no", "No", "NO", "off", "Off", "OFF"].contains word then some false
  else none

/-- The number that digits of a base write; none if there is no digit or another character. -/
def numeral? (base : Nat) (cs : List Char) : Option Nat :=
  if cs.isEmpty then none
  else cs.foldlM (fun n c => do
    let d ← hexDigit? c
    if d < base then some (n * base + d) else none) 0

/-- The magnitude of a whole number; a zero in front makes it octal. -/
def magnitude? (cs : List Char) : Option Nat :=
  match cs with
  | '0' :: b :: rest =>
    if b == 'x' || b == 'X' then numeral? 16 rest
    else if b == 'o' || b == 'O' then numeral? 8 rest
    else if b == 'b' || b == 'B' then numeral? 2 rest
    else numeral? 8 (b :: rest)
  | cs => numeral? 10 cs

def startsNumber (cs : List Char) : Bool :=
  cs.head?.any fun c => c.isDigit || c == '+' || c == '-'

/-- Whole numbers of 64 bits, with a sign or without one. Underscores do not count. -/
def isInteger (text : String) : Bool :=
  let cs := text.toList.filter (· != '_')
  startsNumber text.toList &&
    match magnitude? (unsigned cs), cs.head? with
    | some n, some '-' => n ≤ Nat.pow 2 63
    | some n, some '+' => n < Nat.pow 2 63
    | some n, _ => n < Nat.pow 2 64
    | none, _ => false

def isDecimal (cs : List Char) : Bool :=
  let (whole, rest) := (unsigned cs).span Char.isDigit
  let (fraction, rest) := match rest with
    | '.' :: rest => rest.span Char.isDigit
    | rest => ([], rest)
  let exponent := match rest with
    | e :: rest => (e == 'e' || e == 'E') && !(unsigned rest).isEmpty &&
        (unsigned rest).all Char.isDigit
    | [] => true
  (!whole.isEmpty || !fraction.isEmpty) && exponent

/-- The words for numbers beyond all others and for what is none. -/
def isSpecialNumber (text : String) : Bool :=
  let cs := String.ofList (unsigned text.toList)
  [".inf", ".Inf", ".INF"].contains cs || [".nan", ".NaN", ".NAN"].contains text

def isNumber (text : String) : Bool :=
  isInteger text || isSpecialNumber text ||
    (startsNumber text.toList && isDecimal (text.toList.filter (· != '_'))) ||
    (text.toList.head? == some '.' && isDecimal text.toList)

/-- Dates, with a time behind a letter and its zone, or behind a blank. -/
def isTimestamp (text : String) : Bool :=
  let clock (cs : List Char) : Option (List Char) := Calendar.clock? false false ['.', ','] cs
  match Calendar.date? false text.toList with
  | some [] => true
  | some (c :: rest) =>
    if c == ' ' then Calendar.complete (clock rest)
    else (c == 'T' || c == 't') && Calendar.complete ((clock rest).bind Calendar.zone?)
  | none => false

def sextet? (c : Char) : Option Nat :=
  if 'A' ≤ c && c ≤ 'Z' then some (c.toNat - 65)
  else if 'a' ≤ c && c ≤ 'z' then some (c.toNat - 71)
  else if c.isDigit then some (c.toNat + 4)
  else if c == '+' then some 62
  else if c == '/' then some 63
  else none

/-- The bytes that characters of base 64 write, four for three bytes, the last four padded. -/
def bytes? : List Char → Option (List UInt8)
  | [] => some []
  | [a, b, '=', '='] => do
    let n := (← sextet? a) * 64 + (← sextet? b)
    pure [(n / 16).toUInt8]
  | [a, b, c, '='] => do
    let n := ((← sextet? a) * 64 + (← sextet? b)) * 64 + (← sextet? c)
    pure [(n / 1024).toUInt8, (n / 4).toUInt8]
  | a :: b :: c :: d :: rest => do
    let n := (((← sextet? a) * 64 + (← sextet? b)) * 64 + (← sextet? c)) * 64 + (← sextet? d)
    let more ← bytes? rest
    pure ((n / 65536).toUInt8 :: (n / 256).toUInt8 :: n.toUInt8 :: more)
  | _ => none

def decoded? (text : String) : Option String :=
  (bytes? (text.toList.filter fun c => c != '\n' && c != '\r')).map fun bytes =>
    (Text.mk bytes).display

def Scalar.content? (s : Scalar) : Option Content :=
  match s.tag with
  | "" =>
    if !s.plain then some (.text s.text)
    else if isNull s.text then some .nothing
    else
      match truthOf? s.text with
      | some b => some (.truth b s.text)
      | none => some (.text s.text)
  | "!!null" => if isNull s.text then some .nothing else none
  | "!!bool" => (truthOf? s.text).map fun b => .truth b s.text
  | "!!int" => if isInteger s.text then some (.text s.text) else none
  | "!!float" => if isNumber s.text then some (.text s.text) else none
  | "!!timestamp" => if isTimestamp s.text then some (.text s.text) else none
  | "!!binary" => (decoded? s.text).map .text
  | _ => some (.text s.text)

end StackML.Settings.Yaml
