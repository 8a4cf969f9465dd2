/-!
# Arctangent and logarithms of doubles

The timeline spaces events by an arctangent and chooses tick scales by a
decimal logarithm.  Both are computed here by fixed sequences of double
operations, so that every input has one answer, bit for bit:

* `atan` reduces its argument to `[0, 0.66]` by the identities
  `atan x = π/2 - atan (1/x)` and `atan x = π/4 + atan ((x-1)/(x+1))`, and
  evaluates a rational approximation of degree 4 over 5 there;
* `log` splits `x = f · 2^k` with `f` in `[√2/2, √2)` and evaluates a
  polynomial in `s = (f-1)/(f+1)`;
* `log10 x = log x · (1 / ln 10)`.

The constants are written as decimals that round to the intended doubles.
-/

namespace EventChart.Number

/-- The rational approximation of the arctangent on `[0, 0.66]`. -/
def atanKernel (x : Float) : Float :=
  let p0 := -8.750608600031904122785e-01
  let p1 := -1.615753718733365076637e+01
  let p2 := -7.500855792314704667340e+01
  let p3 := -1.228866684490136173410e+02
  let p4 := -6.485021904942025371773e+01
  let q0 := 2.485846490142306297962e+01
  let q1 := 1.650270098316988542046e+02
  let q2 := 4.328810604912902668951e+02
  let q3 := 4.853903996359136964868e+02
  let q4 := 1.945506571482613964425e+02
  let z := x * x
  let z := z * ((((p0 * z + p1) * z + p2) * z + p3) * z + p4) /
    (((((z + q0) * z + q1) * z + q2) * z + q3) * z + q4)
  x * z + x

/-- The double nearest to π. -/
def pi : Float := 3.14159265358979323846264338327950288419716939937510582097494459

/-- The arctangent of a non-negative argument. -/
def atanNonneg (x : Float) : Float :=
  let morebits := 6.123233995736765886130e-17
  let tan3pio8 := 2.41421356237309504880
  if x ≤ 0.66 then atanKernel x
  else if x > tan3pio8 then
    1.57079632679489661923132169163975144209858469968755291048747229 - atanKernel (1 / x) + morebits
  else
    0.785398163397448309615660845819875721049292349843776455243736148 +
      atanKernel ((x - 1) / (x + 1)) + 3.061616997868382943065e-17

/-- The arctangent. -/
def atan (x : Float) : Float :=
  if x == 0 then x else if x > 0 then atanNonneg x else -atanNonneg (-x)

/-- The fraction in `[0.5, 1)` and exponent of a finite non-zero double. -/
def frexp (x : Float) : Float × Int :=
  let bits := x.toBits
  let e := ((bits >>> 52) &&& 0x7ff).toNat
  if e = 0 then
    -- a subnormal: scale into the normal range first
    let y := x * 4503599627370496.0
    let b := y.toBits
    let ey := ((b >>> 52) &&& 0x7ff).toNat
    (Float.ofBits ((b &&& 0x800fffffffffffff) ||| 0x3fe0000000000000), (ey : Int) - 1022 - 52)
  else (Float.ofBits ((bits &&& 0x800fffffffffffff) ||| 0x3fe0000000000000), (e : Int) - 1022)

/-- The natural logarithm; NaN below zero, minus infinity at zero. -/
def log (x : Float) : Float :=
  let ln2Hi := 6.93147180369123816490e-01
  let ln2Lo := 1.90821492927058770002e-10
  let l1 := 6.666666666666735130e-01
  let l2 := 3.999999999940941908e-01
  let l3 := 2.857142874366239149e-01
  let l4 := 2.222219843214978396e-01
  let l5 := 1.818357216161805012e-01
  let l6 := 1.531383769920937332e-01
  let l7 := 1.479819860511658591e-01
  if x.isNaN || (x.isInf && x > 0) then x
  else if x < 0 then 0.0 / 0.0
  else if x == 0 then -1.0 / 0.0
  else
    let (f1, ki) := frexp x
    let (f1, ki) :=
      if f1 < 0.707106781186547524400844362104849039284835937688474036588339869 then (f1 * 2, ki - 1)
      else (f1, ki)
    let f := f1 - 1
    let k := Float.ofInt ki
    let s := f / (2 + f)
    let s2 := s * s
    let s4 := s2 * s2
    let t1 := s2 * (l1 + s4 * (l3 + s4 * (l5 + s4 * l7)))
    let t2 := s4 * (l2 + s4 * (l4 + s4 * l6))
    let r := t1 + t2
    let hfsq := 0.5 * f * f
    k * ln2Hi - ((hfsq - (s * (hfsq + r) + k * ln2Lo)) - f)

/-- The decimal logarithm. -/
def log10 (x : Float) : Float :=
  log x * 0.434294481903251827651128918916605082294397005803666566114453783

/-- A double truncated to a 64-bit integer; NaN and values out of range give
the least 64-bit integer. -/
def toInt64 (x : Float) : Int :=
  if x.isNaN || x ≥ 9223372036854775808.0 || x < -9223372036854775808.0 then -9223372036854775808
  else x.toInt64.toInt

end EventChart.Number
