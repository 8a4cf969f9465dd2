import EventChart.Number.Shortest
/-!
# Doubles with a fixed number of digits

`withDecimals n f` writes `f` with `n` digits after the point, and
`withSignificant n f` with at most `n` significant digits, choosing between
positional and scientific notation by the decimal exponent: scientific when
it is below `-4` or at least `n`, trailing zeros dropped in both.  Rounding
is to the nearest representable decimal of the exact binary value, an exact
tie going to the even digit.  Not-a-number and the infinities are written
`NaN`, `+Inf` and `-Inf`.
-/

namespace EventChart.Number

/-- `x` rounded to a multiple of `10 ^ k`, in units of `10 ^ k`. -/
def roundAtGrid (x : Binary) (k : Int) : Nat :=
  let q := floorAtGrid x k
  -- compare x with (q + 1/2) * 10 ^ k, that is 2x with (2q + 1) * 10 ^ k
  match compareScaled x.mant 0 (x.exp2 + 1) (2 * q + 1) k 0 with
  | .lt => q
  | .gt => q + 1
  | .eq => if q % 2 = 0 then q else q + 1

/-- The decimal digits of a natural number. -/
def digitsOf (n : Nat) : List Char := (toString n).toList

/-- Drops trailing zeros. -/
def trimZeros (ds : List Char) : List Char := (ds.reverse.dropWhile (· == '0')).reverse

/-- Positional notation of digits `0.d₁d₂…` scaled by `10 ^ dp`, with `prec`
digits after the point. -/
def fixedText (ds : List Char) (dp : Int) (prec : Nat) : String :=
  let digitAt (i : Int) : Char := if 0 ≤ i then ds.getD i.toNat '0' else '0'
  let intPart : List Char :=
    if dp > 0 then (List.range dp.toNat).map fun (i : Nat) => digitAt i else [(Char.ofNat 48)]
  let frac : List Char := (List.range prec).map fun (i : Nat) => digitAt (dp + i)
  String.ofList (intPart ++ (if prec > 0 then '.' :: frac else []))

/-- Scientific notation of digits `d₁.d₂…` times `10 ^ (dp - 1)`, with `prec`
digits after the point and an exponent of at least two digits. -/
def scientificText (ds : List Char) (dp : Int) (prec : Nat) : String :=
  let first := ds.headD '0'
  let rest := (List.range prec).map fun i => ds.getD (i + 1) '0'
  let e := dp - 1
  let eDigits := digitsOf e.natAbs
  let eDigits := if eDigits.length < 2 then '0' :: eDigits else eDigits
  String.ofList (first :: (if prec > 0 then '.' :: rest else [])) ++
    (if e < 0 then "e-" else "e+") ++ String.ofList eDigits

/-- Digits of `x` rounded to `n ≥ 1` significant digits, trailing zeros
dropped, with the position of the point. -/
def significantDigits (x : Binary) (n : Nat) : List Char × Int :=
  let e := decimalExponent x
  let k := e + 1 - n
  let q := roundAtGrid x k
  let (q, e) := if q ≥ Nat.pow 10 n then (q / 10, e + 1) else (q, e)
  (trimZeros (digitsOf q), e + 1)

/-- The text of a value that is not a finite number, if it is one. -/
def specialText (f : Float) : Option String :=
  match classify f with
  | (_, .nan) => some "NaN"
  | (neg, .inf) => some (if neg then "-Inf" else "+Inf")
  | _ => none

/-- `f` with `prec` digits after the point. -/
def withDecimals (prec : Nat) (f : Float) : String :=
  match specialText f with
  | some s => s
  | none =>
    let (neg, cls) := classify f
    let body := match cls with
      | .finite x =>
        let q := roundAtGrid x (-(prec : Int))
        let ds := digitsOf q
        -- q has the digits of f * 10 ^ prec
        fixedText ds ((ds.length : Int) - prec) prec
      | _ => fixedText [] 0 prec
    (if neg then "-" else "") ++ body

/-- `f` with at most `prec` significant digits. -/
def withSignificant (prec : Nat) (f : Float) : String :=
  match specialText f with
  | some s => s
  | none =>
    let (neg, cls) := classify f
    let prec := max prec 1
    let (ds, dp) := match cls with
      | .finite x => significantDigits x prec
      | _ => ([], 0)
    let nd := ds.length
    let eprec : Int := if prec > nd ∧ (nd : Int) ≥ dp then nd else prec
    let x := dp - 1
    let body :=
      if x < -4 ∨ x ≥ eprec then scientificText ds dp ((min prec nd) - 1)
      else
        let p : Nat := if (prec : Int) > dp then nd else prec
        fixedText ds dp (p - dp).toNat
    (if neg then "-" else "") ++ body

end EventChart.Number
