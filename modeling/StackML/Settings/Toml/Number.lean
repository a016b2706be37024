import StackML.Settings.Calendar
import StackML.Settings.Toml.Text

/-!
Numbers, dates and times of TOML. No setting is a number, so that only their form and range count.
-/

namespace StackML.Settings.Toml

def isDigits (digit : Char → Bool) : List Char → Bool
  | [] => false
  | [c] => digit c
  | c :: '_' :: rest => digit c && isDigits digit rest
  | c :: rest => digit c && isDigits digit rest

def isWhole (cs : List Char) : Bool :=
  isDigits Char.isDigit cs && (cs.head? != some '0' || cs == ['0'])

def numeral (base : Nat) (cs : List Char) : Nat :=
  (cs.filterMap hexDigit?).foldl (fun n d => n * base + d) 0

def isInteger (cs : List Char) : Bool :=
  match cs with
  | '0' :: 'x' :: ds => isDigits (fun c => (hexDigit? c).isSome) ds && numeral 16 ds < Nat.pow 2 63
  | '0' :: 'o' :: ds => isDigits (fun c => '0' ≤ c && c ≤ '7') ds && numeral 8 ds < Nat.pow 2 63
  | '0' :: 'b' :: ds => isDigits (fun c => c == '0' || c == '1') ds && numeral 2 ds < Nat.pow 2 63
  | cs =>
    let ds := unsigned cs
    isWhole ds && numeral 10 ds < Nat.pow 2 63 + (if cs.head? == some '-' then 1 else 0)

/-- The least number that is nearer to `2 ^ 1024` than to every double. -/
def beyondDoubles : Nat := Nat.pow 2 1024 - Nat.pow 2 970

/-- Whether the decimal `digits * 10 ^ exponent` is within the range of doubles. -/
def fitsDouble (digits : Nat) (exponent : Int) : Bool :=
  let size := (Nat.toDigits 10 digits).length + exponent
  digits == 0 || size < 308 ||
    (size < 311 &&
      (if exponent < 0 then digits < beyondDoubles * Nat.pow 10 (-exponent).toNat
        else digits * Nat.pow 10 exponent.toNat < beyondDoubles))

def isFraction (cs : List Char) : Bool :=
  let cs := unsigned cs
  let mantissa := cs.takeWhile fun c => c != 'e' && c != 'E'
  let whole := mantissa.takeWhile (· != '.')
  let fraction := mantissa.drop (whole.length + 1)
  let signed := cs.drop (mantissa.length + 1)
  let power : Int := numeral 10 (unsigned signed)
  let exponent := if signed.head? == some '-' then -power else power
  whole.length != cs.length &&
    isWhole whole && (whole.length == mantissa.length || isDigits Char.isDigit fraction) &&
    (mantissa.length == cs.length || isDigits Char.isDigit (unsigned signed)) &&
    fitsDouble (numeral 10 (whole ++ fraction)) (exponent - (fraction.filter Char.isDigit).length)

def isNumber (cs : List Char) : Bool :=
  isInteger cs || isFraction cs || ["inf", "nan"].contains (String.ofList (unsigned cs))

/-- Whether a value goes on as a date or a time: digits with a dash or a colon behind them. -/
def startsMoment (cs : List Char) : Bool :=
  match cs.span Char.isDigit with
  | (_ :: _, c :: _) => c == '-' || c == ':'
  | _ => false

def isMomentChar (c : Char) : Bool :=
  c.isDigit || ['-', ':', 'T', 't', ' ', '.', 'Z', 'z', '+'].contains c

/-- A date, a time of day, or both with a letter or a blank between them and then perhaps a zone. -/
def isMoment (cs : List Char) : Bool :=
  let cs := cs.map fun c => if c == 't' || c == ' ' then 'T' else if c == 'z' then 'Z' else c
  let clock (cs : List Char) : Option (List Char) := Calendar.clock? true true ['.'] cs
  Calendar.complete (clock cs) || Calendar.complete (Calendar.date? true cs) ||
    match (Calendar.date? true cs).bind (Calendar.char? 'T') with
    | some rest => Calendar.complete (clock rest) ||
        Calendar.complete ((clock rest).bind Calendar.zone?)
    | none => false

end StackML.Settings.Toml
