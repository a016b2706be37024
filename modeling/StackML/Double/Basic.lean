import StackML.Decimal.Shortest

/-!
Arithmetic of doubles beyond what the processor gives: the exact remainder, maximum and minimum
with their rules for signed zeros, infinities and what is no number, truncation to machine
integers, and sums of products that are rounded once.
-/

namespace StackML.Double

def nan : Float := 0.0 / 0.0

def infinity : Float := 1.0 / 0.0

def isNegative (x : Float) : Bool := x.toBits >>> 63 == 1

/-- The remainder of the magnitudes of two finite numbers, the second one not zero. -/
def magnitudeRem (x y : Float) : Float :=
  let a := Decimal.Binary.ofBits x.abs.toBits
  let b := Decimal.Binary.ofBits y.abs.toBits
  let e := min a.exponent b.exponent
  let m := a.mantissa * Nat.pow 2 (a.exponent - e).toNat
  let n := b.mantissa * Nat.pow 2 (b.exponent - e).toNat
  Float.scaleB (Float.ofNat (m % n)) e

/-- The remainder of a division, exact and with the sign of the dividend. -/
def remainder (x y : Float) : Float :=
  if y == 0.0 || x.isInf || x.isNaN || y.isNaN then nan
  else if y.isInf then x
  else
    let r := magnitudeRem x y
    if isNegative x then -r else r

/-- The larger of two numbers; positive zero is larger than negative zero, and an infinity that is
the result whatever the other number is wins over what is no number. -/
def larger (x y : Float) : Float :=
  if x == infinity || y == infinity then infinity
  else if x.isNaN || y.isNaN then nan
  else if x == 0.0 && y == 0.0 then (if isNegative x then y else x)
  else if x > y then x else y

def smaller (x y : Float) : Float :=
  if x == -infinity || y == -infinity then -infinity
  else if x.isNaN || y.isNaN then nan
  else if x == 0.0 && y == 0.0 then (if isNegative x then x else y)
  else if x < y then x else y

/-- Truncation toward zero; what does not fit becomes the least integer. -/
def truncate (x : Float) : Int64 :=
  if x ≥ -9223372036854775808.0 && x < 9223372036854775808.0 then x.toInt64 else Int64.minValue

structure Units where
  count : Int
  exponent : Int
  deriving DecidableEq, Repr

namespace Units

def ofFloat (x : Float) : Units :=
  let b := Decimal.Binary.ofBits x.abs.toBits
  ⟨if isNegative x then -b.mantissa else b.mantissa, b.exponent⟩

/-- The same number in units no larger than those of size `2 ^ e`. -/
def refine (u : Units) (e : Int) : Units :=
  if e < u.exponent then ⟨u.count * Nat.pow 2 (u.exponent - e).toNat, e⟩ else u

def mul (u v : Units) : Units := ⟨u.count * v.count, u.exponent + v.exponent⟩

def add (u v : Units) : Units :=
  let u' := u.refine v.exponent
  ⟨u'.count + (v.refine u.exponent).count, u'.exponent⟩

/-- The quotient by `2 ^ shift` as a whole number, a half going to the even neighbour. -/
def halved (n shift : Nat) : Nat :=
  let q := n >>> shift
  let r := n % Nat.pow 2 shift
  match compare (2 * r) (Nat.pow 2 shift) with
  | .lt => q
  | .eq => q + q % 2
  | .gt => q + 1

/-- The nearest double: 53 digits are kept, fewer where the least double is the unit. -/
def toFloat (u : Units) : Float :=
  let n := u.count.natAbs
  let e := max (u.exponent + Nat.log2 n - 52) (-1074)
  let x :=
    if e ≤ u.exponent then Float.scaleB (Float.ofNat n) u.exponent
    else Float.scaleB (Float.ofNat (halved n (e - u.exponent).toNat)) e
  if u.count < 0 then -x else x

end Units

def fused (a b c : Float) : Float :=
  let finite := a.isFinite && b.isFinite && c.isFinite
  let sum := ((Units.ofFloat a).mul (.ofFloat b)).add (.ofFloat c)
  if finite && sum.count != 0 then sum.toFloat else a * b + c

/-- The polynomial with the given coefficients, the highest first, each step rounded twice. -/
def horner (x : Float) : List Float → Float
  | [] => 0.0
  | c :: cs => cs.foldl (fun p c => p * x + c) c

/-- The polynomial with the given coefficients, the highest first, each step rounded once. -/
def fusedHorner (x : Float) : List Float → Float
  | [] => 0.0
  | c :: cs => cs.foldl (fun p c => fused p x c) c

end StackML.Double
