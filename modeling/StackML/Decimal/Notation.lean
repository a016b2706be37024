import StackML.Decimal.Shortest

/-!
Doubles as programs print them: the shortest digits that read back, positional for magnitudes from
0.0001 up to a million and with an exponent of at least two digits otherwise, and always with a
fraction or an exponent, so that a double is never mistaken for an integer.
-/

namespace StackML.Decimal

structure Style where
  low : Int
  high : Int
  exponentWidth : Nat

/-- Positional from 0.0001 up to a million, exponents with two digits or more. -/
def Style.printed : Style := ⟨-4, 6, 2⟩

def padLeft (width : Nat) (ds : List Char) : List Char :=
  List.replicate (width - ds.length) '0' ++ ds

/-- Digits around a decimal point; no point when nothing follows it. -/
def positional (d : Digits) : List Char :=
  let whole :=
    if d.point ≤ 0 then ['0']
    else d.digits.take d.point.toNat ++ List.replicate (d.point.toNat - d.digits.length) '0'
  let fraction :=
    if d.point ≤ 0 then List.replicate (-d.point).toNat '0' ++ d.digits
    else d.digits.drop d.point.toNat
  if fraction.isEmpty then whole else whole ++ '.' :: fraction

/-- One digit, the others behind a point, and the exponent with its sign. -/
def scientific (style : Style) (d : Digits) : List Char :=
  let exponent := d.point - 1
  let front := match d.digits with
    | [] => ['0']
    | [c] => [c]
    | c :: rest => c :: '.' :: rest
  front ++ 'e' :: (if exponent < 0 then '-' else '+') ::
    padLeft style.exponentWidth (Nat.toDigits 10 exponent.natAbs)

def write (style : Style) (d : Digits) : List Char :=
  if d.point - 1 < style.low || style.high ≤ d.point - 1 then scientific style d
  else positional d

/-- The text of the double with the given bits; a whole number below a million is written as one. -/
def plainDouble (bits : UInt64) : String :=
  let negative := bits >>> 63 != 0
  let magnitude := bits &&& 0x7FFFFFFFFFFFFFFF
  if magnitude > 0x7FF0000000000000 then "NaN"
  else if magnitude = 0x7FF0000000000000 then (if negative then "-Inf" else "+Inf")
  else
    let digits := if magnitude = 0 then ['0'] else write .printed (shortest (.ofBits magnitude))
    String.ofList (if negative then '-' :: digits else digits)

/-- The text of the double with the given bits, with a fraction if it would look like an integer. -/
def ofDouble (bits : UInt64) : String :=
  let text := plainDouble bits
  if text.toList.all (fun c => c.isDigit || c == '-') then text ++ ".0" else text

end StackML.Decimal
