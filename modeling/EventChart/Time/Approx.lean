import EventChart.Time.Basic
import EventChart.Number.Shortest
/-!
# Simulation times and doubles

Pixel coordinates are doubles, so times are converted in both directions:

* `toFloat` is the double nearest to the exact value;
* `ofFloat?` is the shortest decimal that reads back as the same double, with
  no trailing zeros (zero becomes `0 * 10 ^ 0`); it fails on not-a-number and
  the infinities;
* `mulFloat?` multiplies a time by a double converted that way.
-/

namespace EventChart

open EventChart.Number

/-- A double that has no decimal value. -/
inductive NonFinite where
  | nan
  | posInf
  | negInf
deriving DecidableEq, Repr

/-- The text of a non-finite double: `NaN`, `+Inf`, `-Inf`. -/
def NonFinite.text : NonFinite → String
  | .nan => "NaN"
  | .posInf => "+Inf"
  | .negInf => "-Inf"

/-- The message of a failed conversion of a non-finite double. -/
def NonFinite.message (v : NonFinite) : String :=
  "Cannot create a Decimal from " ++ v.text

namespace SimTime

/-- The double nearest to the exact value, ties to even. -/
def toFloat (t : SimTime) : Float :=
  let m := Float.ofScientific t.coeff.natAbs (t.exp < 0) t.exp.natAbs
  if t.coeff < 0 then -m else m

/-- The shortest decimal that reads back as `f`. -/
def ofFloat? (f : Float) : Except NonFinite SimTime :=
  let (neg, cls) := classify f
  match cls with
  | .nan => .error .nan
  | .inf => .error (if neg then .negInf else .posInf)
  | .zero => .ok ⟨0, 0⟩
  | .finite b =>
    let (c, k) := shortest b
    .ok ⟨if neg then -(c : Int) else c, k⟩

/-- `t * f`, with `f` first converted by `ofFloat?`. -/
def mulFloat? (t : SimTime) (f : Float) : Except NonFinite SimTime :=
  (ofFloat? f).map (t * ·)

end SimTime

end EventChart
