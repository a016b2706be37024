import StackML.Double.Basic

/-!
Sines, cosines and tangents of doubles. An angle is brought into an eighth of a turn around zero,
counting the eighths; a polynomial gives the function there. Angles from `2 ^ 29` on are multiplied
by as many digits of `4 / π` as the result needs.
-/

namespace StackML.Double

/-- The digits of `4 / π` to the base `2 ^ 64`, the whole part first. -/
def eighthsPerRadian : List UInt64 :=
  [0x0000000000000001, 0x45F306DC9C882A53, 0xF84EAFA3EA69BB81, 0xB6C52B3278872083,
    0xFCA2C757BD778AC3, 0x6E48DC74849BA5C0, 0x0C925DD413A32439, 0xFC3BD63962534E7D,
    0xD1046BEA5D768909, 0xD338E04D68BEFC82, 0x7323AC7306A673E9, 0x3908BF177BF25076,
    0x3FF12FFFBC0B301F, 0xDE5E2316B414DA3E, 0xDA6CFD9E4F96136E, 0x9E8C7ECD3CBFD45A,
    0xEA4F758FD7CBE2F6, 0x7A0E73EF14A525D4, 0xD7F6BF623F1ABA10, 0xAC06608DF8F6D757]

def ofDigits64 (digits : List UInt64) : Nat :=
  digits.foldl (fun n d => n * Nat.pow 2 64 + d.toNat) 0

structure Octant where
  eighths : Nat
  rest : Float

namespace Octant

/-- An angle below `2 ^ 29`: the eighths are taken off in three parts. -/
def ofSmall (x : Float) : Octant :=
  let j := (x * 1.27323954473516268615).toUInt64.toNat
  let j := j + j % 2
  let y := Float.ofNat j
  ⟨j % 8, ((x - y * 7.85398125648498535156e-1) - y * 3.77489470793079817668e-8) -
    y * 2.69515142907905952645e-15⟩

/-- A finite angle from `2 ^ 29` on. Of its product with `4 / π` 128 digits are computed, three of
them before the point; the first 53 digits behind it that count make up the fraction. -/
def ofLarge (x : Float) : Octant :=
  let b := Decimal.Binary.ofBits x.toBits
  let window := (ofDigits64 eighthsPerRadian >>> (1027 - b.exponent).toNat) % Nat.pow 2 192
  let product := ((window * b.mantissa) >>> 64) % Nat.pow 2 128
  let j := product >>> 125
  let high := (product >>> 61) % Nat.pow 2 64
  let zeros := 63 - Nat.log2 high
  let low := product % Nat.pow 2 64
  let digits := ((high <<< (zeros + 1)) % Nat.pow 2 64 ||| low >>> (63 - zeros)) >>> 12
  let fraction := Float.scaleB (Float.ofNat (Nat.pow 2 52 + digits)) (-(53 + zeros : Int))
  let rest := if j % 2 = 1 then fraction - 1.0 else fraction
  ⟨(j + j % 2) % 8, rest * 0.785398163397448309616⟩

def ofAngle (x : Float) : Octant := if x ≥ 536870912.0 then ofLarge x else ofSmall x

def sinRest (o : Octant) : Float :=
  let z := o.rest
  let zz := z * z
  z + z * zz * horner zz [1.58962301576546568060e-10, -2.50507477628578072866e-8,
    2.75573136213857245213e-6, -1.98412698295895385996e-4, 8.33333333332211858878e-3,
    -1.66666666666666307295e-1]

def cosRest (o : Octant) : Float :=
  let zz := o.rest * o.rest
  1.0 - 0.5 * zz + zz * zz * horner zz [-1.13585365213876817300e-11, 2.08757008419747316778e-9,
    -2.75573141792967388112e-7, 2.48015872888517045348e-5, -1.38888888888730564116e-3,
    4.16666666666665929218e-2]

def tanRest (o : Octant) : Float :=
  let z := o.rest
  let zz := z * z
  if zz > 1e-14 then
    z + z * (zz * horner zz [-1.30936939181383734205e4, 1.15351664838587416140e6,
        -1.79565251976484877988e7] /
      horner zz [1.0, 1.36812963470692954678e4, -1.32089234440210967447e6,
        2.50083801823357915839e7, -5.38695755929454629881e7])
  else z

/-- The sine: a quarter of a turn makes it the cosine, half a turn changes the sign. -/
def sin (o : Octant) : Float :=
  let y := if o.eighths % 4 = 2 then o.cosRest else o.sinRest
  if 4 ≤ o.eighths then -y else y

/-- The cosine: a quarter of a turn makes it the sine with the other sign. -/
def cos (o : Octant) : Float :=
  let y := if o.eighths % 4 = 2 then o.sinRest else o.cosRest
  if o.eighths = 2 ∨ o.eighths = 4 then -y else y

/-- The tangent: a quarter of a turn makes it the negative inverse. -/
def tan (o : Octant) : Float :=
  if o.eighths % 4 = 2 then -1.0 / o.tanRest else o.tanRest

end Octant

/-- An odd function of an angle; zeros are kept with their sign, and no angle has none. -/
def oddOfAngle (f : Octant → Float) (x : Float) : Float :=
  if x == 0.0 || x.isNaN then x
  else if x.isInf then nan
  else
    let y := f (.ofAngle x.abs)
    if x < 0.0 then -y else y

def sin (x : Float) : Float := oddOfAngle Octant.sin x

def tan (x : Float) : Float := oddOfAngle Octant.tan x

def cos (x : Float) : Float :=
  if x.isNaN || x.isInf then nan else (Octant.ofAngle x.abs).cos

end StackML.Double
