/-!
The shortest decimal that reads back. A finite double is m · 2^q; the reals that round to it form
an interval around it, with its ends when m is even. Among the decimals with the fewest digits in
that interval the nearest one is taken, by exact arithmetic on natural numbers.
-/

namespace StackML.Decimal

/-- A positive binary number `mantissa * 2 ^ exponent`, and whether its lower neighbour is half as
far away as its upper one. -/
structure Binary where
  mantissa : Nat
  exponent : Int
  narrowBelow : Bool
  deriving DecidableEq, Repr

def Binary.ofBits (bits : UInt64) : Binary :=
  let fraction := (bits &&& 0xFFFFFFFFFFFFF).toNat
  let field := ((bits >>> 52) &&& 0x7FF).toNat
  if field = 0 then ⟨fraction, -1074, false⟩
  else ⟨fraction + Nat.pow 2 52, (field : Int) - 1075, fraction = 0 && 1 < field⟩

structure Digits where
  digits : List Char
  point : Int
  deriving DecidableEq, Repr

def digitCount (n : Nat) : Nat := if n = 0 then 0 else (Nat.toDigits 10 n).length

def scaled (n : Nat) (e : Int) : Nat × Nat :=
  if 0 ≤ e then (n * Nat.pow 2 e.toNat, 1) else (n, Nat.pow 2 (-e).toNat)

/-- The least `p` with `num / den < 10 ^ p`, for a fraction between `10 ^ -400` and any power. -/
def pointOf (num den : Nat) : Int := (digitCount (num * Nat.pow 10 400 / den) : Int) - 400

/-- Compares the decimal `c * 10 ^ p` with the fraction `num / den`. -/
def compareDecimal (c : Nat) (p : Int) (num den : Nat) : Ordering :=
  if 0 ≤ p then compare (c * Nat.pow 10 p.toNat * den) num
  else compare (c * den) (num * Nat.pow 10 (-p).toNat)

/-- Whether `c * 10 ^ p` rounds to the number, given the ends of its interval. -/
def reads (low high : Nat × Nat) (closed : Bool) (c : Nat) (p : Int) : Bool :=
  let below := compareDecimal c p low.1 low.2
  let above := compareDecimal c p high.1 high.2
  (below == .gt || (closed && below == .eq)) && (above == .lt || (closed && above == .eq))

def dropZeros (ds : List Char) : List Char := (ds.reverse.dropWhile (· == '0')).reverse

/-- The nearest reading decimal on the grid of `count` digits, if there is one. -/
def onGrid (value low high : Nat × Nat) (closed : Bool) (point : Int) (count : Nat) :
    Option Digits :=
  let p := point - (count : Int)
  let c :=
    if 0 ≤ p then value.1 / (value.2 * Nat.pow 10 p.toNat)
    else value.1 * Nat.pow 10 (-p).toNat / value.2
  let make (c : Nat) : Digits :=
    let ds := Nat.toDigits 10 c
    ⟨dropZeros ds, p + ds.length⟩
  let down := reads low high closed c p
  let up := reads low high closed (c + 1) p
  match down, up with
  | false, false => none
  | true, false => some (make c)
  | false, true => some (make (c + 1))
  | true, true =>
    -- the half-way point between the two, with one digit more
    match compareDecimal (c * 10 + 5) (p - 1) value.1 value.2 with
    | .gt => some (make c)
    | .lt => some (make (c + 1))
    | .eq => some (make (if c % 2 = 0 then c else c + 1))

/-- The digits of a positive number; seventeen always suffice for a double. -/
def shortest (b : Binary) : Digits :=
  let value := scaled (4 * b.mantissa) (b.exponent - 2)
  let low := scaled (4 * b.mantissa - (if b.narrowBelow then 1 else 2)) (b.exponent - 2)
  let high := scaled (4 * b.mantissa + 2) (b.exponent - 2)
  let closed := b.mantissa % 2 == 0
  let point := pointOf value.1 value.2
  ((List.range 17).findSome? fun i => onGrid value low high closed point (i + 1)).getD ⟨[], 0⟩

end StackML.Decimal
