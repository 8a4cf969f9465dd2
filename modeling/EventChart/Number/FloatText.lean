import EventChart.Number.Shortest
/-!
# Writing doubles as JSON numbers

A finite double is written with its shortest decimal digits
(`EventChart.Number.shortest`).  The layout is fixed by one record,
`FloatLayout`: positional notation for magnitudes in `[1e-6, 1e21)` and for
zero, scientific notation outside, with a signed exponent of at least
`expWidth` digits.  Positional notation has no trailing `.0`, so integral
values read back as integers.

Not-a-number and the infinities have no JSON number; `FloatText` keeps them
apart so that the caller can write them as strings.
-/

namespace EventChart.Number

/-- The layout decisions of a float printer. -/
structure FloatLayout where
  /-- Smallest magnitude written positionally, as `10 ^ minFixed`. -/
  minFixed : Int
  /-- Magnitudes from `10 ^ maxFixed` on are written in scientific notation. -/
  maxFixed : Int
  /-- Least number of exponent digits. -/
  expWidth : Nat
  /-- Whether a positive exponent carries a `+`. -/
  plusSign : Bool

/-- JSON numbers: positional in `[1e-6, 1e21)`, otherwise `d.ddde±x` with at
least one exponent digit and an explicit `+`. -/
def FloatLayout.json : FloatLayout := ⟨-6, 21, 1, true⟩

/-- Positional notation for every finite double. -/
def FloatLayout.positional : FloatLayout := ⟨-400, 400, 1, true⟩

/-- The general layout of values in messages: positional in `[1e-4, 1e6)`,
otherwise `d.ddde±xx` with at least two exponent digits. -/
def FloatLayout.general : FloatLayout := ⟨-4, 6, 2, true⟩

/-- The text of a double, or the kind of a value without a number text. -/
inductive FloatText where
  | number (text : String)
  | nan
  | posInf
  | negInf
deriving DecidableEq, Repr

/-- The digits `ds` (no trailing zeros, `ds ≠ []`) with the decimal point after
`dp` digits, written positionally. -/
def positional (ds : List Char) (dp : Int) : String :=
  let n : Int := ds.length
  let intPart : List Char :=
    if dp > 0 then ds.take dp.toNat ++ List.replicate (dp - n).toNat '0' else ['0']
  let fracLen := (n - dp).toNat
  let frac : List Char :=
    (List.range fracLen).map fun (i : Nat) =>
      let j : Int := dp + (i : Int)
      if 0 ≤ j ∧ j < n then ds.getD j.toNat '0' else '0'
  String.ofList (if fracLen > 0 then intPart ++ '.' :: frac else intPart)

/-- The digits `ds` with decimal exponent `x` of the first digit, written as
`d.ddd` followed by `e` and the signed exponent. -/
def scientific (layout : FloatLayout) (ds : List Char) (x : Int) : String :=
  let mant := match ds with
    | [] => ['0']
    | [d] => [d]
    | d :: rest => d :: '.' :: rest
  let sign := if x < 0 then ['-'] else if layout.plusSign then ['+'] else []
  let expDigits := (toString x.natAbs).toList
  let padded := List.replicate (layout.expWidth - expDigits.length) '0' ++ expDigits
  String.ofList (mant ++ 'e' :: sign ++ padded)

/-- Writes a double by a layout. -/
def FloatText.ofFloat (layout : FloatLayout) (f : Float) : FloatText :=
  let (neg, cls) := classify f
  let signed (s : String) := if neg then "-" ++ s else s
  match cls with
  | .nan => .nan
  | .inf => if neg then .negInf else .posInf
  | .zero => .number (signed "0")
  | .finite b =>
    let (c, k) := shortest b
    let ds := (toString c).toList
    -- the value is `0.ds * 10 ^ dp`
    let dp : Int := k + ds.length
    let x := dp - 1
    if layout.minFixed ≤ x ∧ x < layout.maxFixed then .number (signed (positional ds dp))
    else .number (signed (scientific layout ds x))

/-- The text of a float text, with `NaN`, `+Inf` and `-Inf` for the values
without a number. -/
def FloatText.render : FloatText → String
  | .number s => s
  | .nan => "NaN"
  | .posInf => "+Inf"
  | .negInf => "-Inf"

/-- A double written by a layout, as text. -/
def showFloat (layout : FloatLayout) (f : Float) : String := (FloatText.ofFloat layout f).render

end EventChart.Number
