import StackML.Double.Basic

/-!
Exponentials, logarithms and powers of doubles. Each is an approximation fixed to the last digit:
the argument is brought near zero, a polynomial is evaluated in a stated order of operations, and a
power of two restores the scale.
-/

namespace StackML.Double

/-- The natural logarithm. A number is split into a power of two and a factor between `√½` and `√2`
whose logarithm is a series in `f / (2 + f)`, `1 + f` being the factor. A number below the normal
ones counts as if it had the hidden leading digit. -/
def log (x : Float) : Float :=
  if x == 0.0 then -infinity
  else if x.isNaN || isNegative x then nan
  else if x.isInf then x
  else
    let factor := Float.ofBits ((x.toBits &&& 0x000FFFFFFFFFFFFF) ||| 0x3FE0000000000000)
    let power := Float.ofInt ((x.toBits >>> 52).toNat - 0x3FE)
    let small := !(0.70710678118654752440 < factor)
    let k := if small then power - 1.0 else power
    let f := (if small then factor * 2.0 else factor) - 1.0
    let s := f / (2.0 + f)
    let s2 := s * s
    let s4 := s2 * s2
    let odd := s2 * horner s4 [1.479819860511658591e-01, 1.818357216161805012e-01,
      2.857142874366239149e-01, 6.666666666666735130e-01]
    let even := s4 * horner s4 [1.531383769920937332e-01, 2.222219843214978396e-01,
      3.999999999940941908e-01]
    let half := 0.5 * f * f
    k * 6.93147180369123816490e-01 -
      ((half - (s * (half + (odd + even)) + k * 1.90821492927058770002e-10)) - f)

/-- The nearest whole number, a half going to the even neighbour; for numbers below `2 ^ 31`. -/
def nearest (x : Float) : Int :=
  let floor := x.floor
  let rest := x - floor
  let n := floor.toInt64.toInt
  if rest < 0.5 then n
  else if rest > 0.5 then n + 1
  else n + n % 2

/-- The exponential `e ^ (16 r)` for a small `r`: a polynomial for `e ^ r - 1`, and four squarings,
of which the last adds the one. -/
def expNear (r : Float) : Float :=
  let p := r * fusedHorner r [2.4801587301587301587e-5, 1.9841269841269841270e-4,
    1.3888888888888888889e-3, 8.3333333333333333333e-3, 4.1666666666666666667e-2,
    1.6666666666666666667e-1, 0.5, 1.0]
  let p := p * (2.0 + p)
  let p := p * (2.0 + p)
  let p := p * (2.0 + p)
  fused p (2.0 + p) 1.0

/-- The exponential `e ^ x`: the nearest multiple of `ln 2` is taken off, in two parts. A scale of
`2 ^ 1024` is infinite even if the result would fit. -/
def exp (x : Float) : Float :=
  if x.isNaN then x
  else if x > 7.09782712893384e+02 then infinity
  else
    let scale := 1.4426950408889634073599246810018920 * x
    if scale < -1100.0 then 0.0
    else
      let e := nearest scale
      let k := Float.ofInt e
      let r := fused (-0.69314718055966295651160180568695068359375) k x
      let r := fused (-0.28235290563031577122588448175013436025525412068e-12) k r
      if 1024 ≤ e then infinity
      else if e < -1075 then 0.0
      else Float.scaleB (expNear (r * 0.0625)) e

/-- Multiplies `a * 2 ^ e` by the `n`-th power of `m * 2 ^ k` by repeated squaring; mantissas stay
between a half and one, and exponents beyond every double end it. -/
def timesPower : (bits : Nat) → (n : Nat) → (a : Float) → (e : Int) → (m : Float) → (k : Int) →
    Float × Int
  | 0, _, a, e, _, _ => (a, e)
  | bits + 1, n, a, e, m, k =>
    if n = 0 then (a, e)
    else if k < -4096 ∨ 4096 < k then (a, e + k)
    else
      let (a, e) := if n % 2 = 1 then (a * m, e + k) else (a, e)
      let m := m * m
      let k := 2 * k
      if m < 0.5 then timesPower bits (n / 2) a e (m + m) (k - 1)
      else timesPower bits (n / 2) a e m k

/-- A power of a finite number with a finite exponent: the whole part of the exponent by repeated
squaring, the rest through the logarithm. -/
def finitePower (x y : Float) : Float :=
  let whole := y.abs.floor
  let part := y.abs - whole
  if part != 0.0 && x < 0.0 then nan
  else if whole ≥ 9223372036854775808.0 then
    if x == -1.0 then 1.0
    else if (x.abs < 1.0) == (y > 0.0) then 0.0
    else infinity
  else
    let (whole, part) := if part > 0.5 then (whole + 1.0, part - 1.0) else (whole, part)
    let a := if part != 0.0 then exp (part * log x) else 1.0
    let (m, k) := x.frExp
    let (a, e) := timesPower 64 whole.toUInt64.toNat a 0 m k
    if y < 0.0 then Float.scaleB (1.0 / a) (-e) else Float.scaleB a e

def isOdd (x : Float) : Bool :=
  x.abs < 9007199254740992.0 && x.floor == x && x.abs.toUInt64 % 2 == 1

def zeroPower (x y : Float) : Float :=
  let signed := isNegative x && isOdd y
  if y < 0.0 then (if signed then -infinity else infinity)
  else if signed then x else 0.0

def power (x y : Float) : Float :=
  if y == 0.0 || x == 1.0 then 1.0
  else if y == 1.0 then x
  else if x.isNaN || y.isNaN then nan
  else if x == 0.0 then zeroPower x y
  else if y.isInf then
    if x == -1.0 then 1.0
    else if (x.abs < 1.0) == (y > 0.0) then 0.0
    else infinity
  else if x.isInf then
    if x < 0.0 then zeroPower (-0.0) (-y)
    else if y < 0.0 then 0.0 else infinity
  else if y == 0.5 then x.sqrt
  else if y == -0.5 then 1.0 / x.sqrt
  else finitePower x y

end StackML.Double
