import EventChart.Chart.Mapper
import EventChart.Time.Round
/-!
# The time axis of a chart

A `Viewport` places timeline coordinates on pixels: `ppu` pixels per
timeline unit, and the origin drawn at pixel `fix`.  An axis is a mapper
seen through a viewport.

* `tickAt` is the time with the shortest decimal notation among the times
  drawn within a range of pixels around `x`.
* `ticks` lists the ticks of the viewport about `spacing` pixels apart
  (100 unless positive), with the prefix that the times at both edges share,
  which the labels leave out.  In simulation-time mode the ticks are the
  multiples of one, two or five times a power of ten (the smallest such step
  at least `spacing` pixels wide); in the other modes one tick is placed
  every `spacing` pixels and rounded to a short time nearby.
* `defaultScale` fits about twenty events around the origin into a width.
-/

namespace EventChart

/-- A horizontal pixel axis. -/
structure Viewport where
  ppu : Float
  fix : Int
  width : Int
deriving Repr, Inhabited

/-- Wraps an integer to 64 bits, two's complement. -/
def wrap64 (n : Int) : Int := (n + 9223372036854775808) % 18446744073709551616 - 9223372036854775808

namespace Viewport

/-- The timeline coordinate at pixel `x`. -/
def coordinate (v : Viewport) (x : Float) : Float := (x - Float.ofInt v.fix) / v.ppu

/-- The pixel nearest to timeline coordinate `c`. -/
def pixel (v : Viewport) (c : Float) : Int := wrap64 (Number.toInt64 (c * v.ppu).round + v.fix)

end Viewport

/-- One labeled position on the time axis. -/
structure Tick where
  time : SimTime
  x : Int
  label : String
deriving DecidableEq, Repr, Inhabited

/-- The ticks of a viewport and the prefix their labels leave out. -/
structure TickSet where
  pref : SimTime
  prefixText : String
  ticks : List Tick
deriving DecidableEq, Repr, Inhabited

/-- The default distance between ticks, in pixels. -/
def defaultTickSpacing : Int := 100

/-- The most ticks listed. -/
def maxTicks : Nat := 10000

/-- A tick label: the time's plain text, with the prefix replaced by `...`. -/
def tickLabel (pre : String) (t : SimTime) : String :=
  let s := t.toPlain
  if pre = "" ∨ pre = s then s
  else if pre.isPrefixOf s then "..." ++ String.ofList (s.toList.drop pre.length) else s

namespace Mapper

/-- The time drawn at pixel `x`. -/
def timeAtPixel (c : ChartEnv) (v : Viewport) (x : Float) (upper : Bool) : MapperM SimTime :=
  timeAt c (v.coordinate x) upper

/-- The pixel where time `t` is drawn. -/
def pixelOf (c : ChartEnv) (v : Viewport) (t : SimTime) : MapperM Int := do
  return v.pixel (← coordinateAt c t false)

/-- The shortest time drawn within `range` pixels around `x`; zero for an
empty view. -/
def tickAt (c : ChartEnv) (v : Viewport) (x range : Float) : MapperM SimTime := do
  match ← onView (LogView.last c.base c.canceled) with
  | none => pure SimTime.zero
  | some _ =>
    let t ← timeAtPixel c v x false
    let lo ← timeAtPixel c v (x - range / 2) false
    let hi ← timeAtPixel c v (x + range / 2) false
    pure (SimTime.shortestWithin t lo hi)

/-- The decimal ticks between two times. -/
def decimalTicks (c : ChartEnv) (v : Viewport) (left right : SimTime) (spacing : Int) :
    MapperM (List SimTime) := do
  let units := Float.ofInt spacing / v.ppu
  if units ≤ 0 || units.isInf || units.isNaN then throw (.invalidScale v.ppu)
  let scale := Number.toInt64 (Number.log10 units).ceil
  let minStep ← liftExcept (timeOfFloat units)
  let first := left.quantize scale .floor
  let stop := right.quantize scale .ceiling
  let two : SimTime := ⟨2, scale - 1⟩
  let five : SimTime := ⟨5, scale - 1⟩
  let step : SimTime := if minStep < two then two else if minStep < five then five else ⟨1, scale⟩
  -- the steps from `first` to `stop`, counted at the smaller exponent
  let d := stop - first
  let e := min d.exp step.exp
  let count := (d.coeffAt e / step.coeffAt e).toNat + 2
  go step stop count first []
where
  go (step stop : SimTime) : Nat → SimTime → List SimTime → MapperM (List SimTime)
    | 0, _, acc => pure acc.reverse
    | fuel + 1, t, acc => do
      if !(t < stop) then return acc.reverse
      if acc.length ≥ maxTicks then return acc.reverse
      if c.canceled then throw .canceled
      go step stop fuel (t + step) (if t.sign ≥ 0 then t :: acc else acc)

/-- Ticks every `spacing` pixels, rounded to short times, not past `stop`. -/
def pixelTicks (c : ChartEnv) (v : Viewport) (stop : SimTime) (spacing : Int) : MapperM (List SimTime) := do
  let m := v.fix.tmod spacing
  let xs := (List.range ((v.width + 2 * spacing + spacing - 1) / spacing).toNat).map fun (k : Nat) =>
    m - spacing + (k : Int) * spacing
  let xs := xs.filter (· < m + v.width + spacing)
  let mut out : List SimTime := []
  for x in xs do
    if c.canceled then throw .canceled
    let t ← tickAt c v (Float.ofInt x) (Float.ofInt spacing / 2)
    if t.sign ≥ 0 ∧ !(stop < t) then out := out ++ [t]
  return out

/-- The ticks of a viewport. -/
def ticks (c : ChartEnv) (v : Viewport) (spacing : Int) : MapperM TickSet := do
  let spacing := if spacing ≤ 0 then defaultTickSpacing else spacing
  let left ← tickAt c v 0 1
  let right ← tickAt c v (Float.ofInt v.width) 1
  let text := SimTime.commonPrefix left right
  let pre := match SimTime.parse (if text.endsWith "." then String.ofList (text.toList.dropLast) else text) with
    | .ok p => p
    | .error _ => SimTime.zero
  match ← onView (LogView.last c.base c.canceled) with
  | none => pure ⟨pre, text, []⟩
  | some lastRef =>
    let times ← if (← get).mode = .simulationTime then decimalTicks c v left right spacing
      else pixelTicks c v (c.timeOf lastRef) spacing
    let mut out : List Tick := []
    for t in times do
      out := out ++ [⟨t, ← pixelOf c v t, tickLabel text t⟩]
    pure ⟨pre, text, out⟩

/-- The coordinates of two events. -/
def pair (c : ChartEnv) (origin a b : EventRef) : MapperM (Float × Float) := do
  let ca ← coordinateOf c origin a
  let cb ← coordinateOf c origin b
  pure (ca, cb)

/-- A scale that fits about twenty events around the origin into `width`
pixels: the search goes forward from the origin, then backward once the
view ends, until two events with different coordinates are twenty events
apart or the view is exhausted. -/
def defaultScale (c : ChartEnv) (width : Int) : MapperM Float := do
  let origin ← sync c
  let (r, n) ← go origin (2 * c.base.length + 25) 20 origin origin
  if r = n then return 1
  let (cr, cn) ← pair c origin r n
  let d := (cn - cr).abs
  if d > 0 then return Float.ofInt width / d else return 1
where
  go (origin : EventRef) : Nat → Int → EventRef → EventRef → MapperM (EventRef × EventRef)
    | 0, _, r, n => pure (r, n)
    | fuel + 1, distance, r, n => do
      if c.canceled then throw .canceled
      let distance := distance - 1
      if distance ≤ 0 then
        let (cr, cn) ← pair c origin r n
        if cr != cn then return (r, n)
      match ← onView (LogView.neighbour c.base c.canceled (some n) 1) with
      | some next => go origin fuel distance r next
      | none =>
        match ← onView (LogView.neighbour c.base c.canceled (some r) (-1)) with
        | none => pure (r, n)
        | some prev => go origin fuel distance prev n

end Mapper

end EventChart
