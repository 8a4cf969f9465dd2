import EventChart.Chart.Mode
import EventChart.Filter.LogView
import EventChart.Number.Elementary
import EventChart.Time.Approx
/-!
# Timeline coordinates

A `Mapper` places the events of a log view on a horizontal timeline,
relative to an origin event at coordinate 0, and maps coordinates back to
simulation times.  Every mode maps log order to coordinates that do not
decrease:

* `simulationTime`: the time since the origin, in seconds;
* `eventNumber`: the event number minus the origin's;
* `step`: one unit between consecutive events;
* `nonlinear`: between consecutive events `lo + (1 - lo) · atan (dt / focus) · 2/π`,
  where `dt` is their time difference, `lo` the minimum distance and `focus`
  the time difference that maps to half the way from `lo` to 1.

Step and nonlinear coordinates depend on every event between the origin
and the event, so they are computed by walking the view from the origin and
kept, by event number, for the contiguous stretch walked so far.  A change
of the base's epoch, or an origin that became stale, resets the mapper: the
origin is found again by number (or becomes the first event), and the focus
is derived again from the log.

The inverse queries (`lastNotAfter`, `firstNotBefore`, `timeAt`,
`coordinateAt`) start near the asked coordinate and walk to it.  Several
events may share a coordinate; the time of a coordinate is then the
earliest of their times, or the latest when an upper bound is asked for, and
between events it is interpolated.

Mapper computations run in `ExceptT Fault (StateM Mapper)`, so that what a
failed computation found stays found.
-/

namespace EventChart

/-- The smallest distance between consecutive events in nonlinear mode,
unless another in `(0, 1]` is asked for. -/
def defaultMinimumDelta : Float := 0.1

/-- A mapper between events, times and timeline coordinates. -/
structure Mapper where
  view : LogView
  mode : Mode
  minDelta : Float
  /-- The asked focus; the focus is derived from the log unless positive. -/
  focusOption : Float
  epoch : Nat
  origin : Option EventRef
  focus : Float
  coords : Std.HashMap Int Float
  forward : Option EventRef
  backward : Option EventRef
deriving Inhabited

/-- What the mapper reads: every log opened (an origin may come from an
earlier one), the mapped base log, and whether the caller gave up. -/
structure ChartEnv where
  logs : Array EventLog
  base : EventLog
  canceled : Bool
deriving Inhabited

namespace ChartEnv

/-- The data of an event of any log. -/
def event? (c : ChartEnv) (r : EventRef) : Option Event :=
  if r.log = c.base.id then c.base.event? r else (c.logs[r.log]?).bind (·.event? r)

/-- Whether an event belongs to its log's current epoch. -/
def isValid (c : ChartEnv) (r : EventRef) : Bool :=
  if r.log = c.base.id then c.base.epoch == r.epoch
  else match c.logs[r.log]? with
    | some l => l.epoch == r.epoch
    | none => false

/-- The time of an event. -/
def timeOf (c : ChartEnv) (r : EventRef) : SimTime := ((c.event? r).map (·.time)).getD SimTime.zero

/-- The number of an event. -/
def numberOf (c : ChartEnv) (r : EventRef) : Int := ((c.event? r).map (·.number)).getD 0

end ChartEnv

/-- A mapper computation. -/
abbrev MapperM := ExceptT Fault (StateM Mapper)

/-- Steps between two checks for cancelation in walks of the timeline. -/
def mapperCancelInterval : Nat := 1024

/-- The time of a float number of seconds; infinities and NaN have none. -/
def timeOfFloat (f : Float) : Except Fault SimTime :=
  match SimTime.ofFloat? f with
  | .ok t => .ok t
  | .error e => .error (.nonFinite e)

namespace Mapper

/-- Runs a view computation on the mapper's view. -/
def onView {α : Type} (k : ViewM α) : MapperM α := do
  let m ← get
  match k.run m.view with
  | .ok (a, v) =>
    set { m with view := v }
    pure a
  | .error e => throw e

/-- Moves the origin and forgets the walked coordinates. -/
def relocate (c : ChartEnv) (e : Option EventRef) : MapperM Unit :=
  let coords : Std.HashMap Int Float := match e with
    | some r => ({} : Std.HashMap Int Float).insert (c.numberOf r) 0
    | none => {}
  modify fun m => { m with origin := e, forward := e, backward := e, coords := coords }

/-- A tenth of the average time between events, or the first event's time,
or one second. -/
def defaultFocus (c : ChartEnv) (first last : Option EventRef) (events : Nat) : Float :=
  match first, last with
  | some a, some b =>
    let span := (c.timeOf b - c.timeOf a).toFloat
    if events > 0 ∧ span > 0 then span / Float.ofNat events / 10
    else
      let t := (c.timeOf a).toFloat
      if t > 0 then t else 1
  | _, _ => 1

/-- Derives the focus again and keeps the origin, or moves it to the first
event when it is gone. -/
def reset (c : ChartEnv) : MapperM Unit := do
  modify fun m => { m with epoch := c.base.epoch }
  let first ← onView (LogView.first c.base c.canceled)
  let last ← onView (LogView.last c.base c.canceled)
  let m ← get
  let focus ← if m.focusOption ≤ 0 then
      pure (defaultFocus c first last (← onView (LogView.approximateCount c.base)))
    else pure m.focusOption
  modify fun m => { m with focus := focus }
  let origin ← match (← get).origin with
    | some r => onView (LogView.eventForNumber c.base c.canceled (c.numberOf r))
    | none => pure none
  relocate c (origin <|> first)

/-- A mapper over a view, with its origin at the first event. -/
def create (c : ChartEnv) (view : LogView) (mode : Mode) (minDelta focus : Float) :
    Except Fault Mapper :=
  let minDelta := if minDelta ≤ 0 ∨ minDelta > 1 then defaultMinimumDelta else minDelta
  let m : Mapper := ⟨view, mode, minDelta, focus, 0, none, 0, {}, none, none⟩
  match (reset c).run m with
  | (.ok (), m') => .ok m'
  | (.error e, _) => .error e

/-- Resets after a change of the base, and requires an origin. -/
def sync (c : ChartEnv) : MapperM EventRef := do
  let m ← get
  let stale := match m.origin with
    | some r => !c.isValid r
    | none => false
  if m.epoch != c.base.epoch || stale then reset c
  match (← get).origin with
  | some r => pure r
  | none => throw .noOrigin

/-- The distance between consecutive events `a` and `b` in step and
nonlinear modes. -/
def delta (c : ChartEnv) (m : Mapper) (a b : EventRef) : Float :=
  if m.mode = .step then 1
  else
    let dt := (c.timeOf b - c.timeOf a).toFloat.abs
    let lo := m.minDelta
    lo + (1 - lo) * Number.atan (dt / m.focus) * 2 / Number.pi

/-- Extends the walked stretch in direction `dir` until it reaches event
number `target` or the view ends. -/
def walk (c : ChartEnv) (target : Int) (dir : Int) : MapperM Unit := do
  let m ← get
  match (if dir > 0 then m.forward else m.backward) with
  | none => pure ()
  | some cur => go (c.base.length + 2) 0 cur
where
  go : Nat → Nat → EventRef → MapperM Unit
    | 0, _, _ => pure ()
    | fuel + 1, steps, cur => do
      let n := c.numberOf cur
      if (dir > 0 ∧ n ≥ target) ∨ (dir < 0 ∧ n ≤ target) then return
      if steps % mapperCancelInterval = 0 ∧ c.canceled then throw .canceled
      match ← onView (LogView.neighbour c.base c.canceled (some cur) dir) with
      | none => pure ()
      | some next =>
        let m ← get
        let here := m.coords.getD n 0
        if dir > 0 then
          set { m with coords := m.coords.insert (c.numberOf next) (here + delta c m cur next),
                       forward := some next }
        else
          set { m with coords := m.coords.insert (c.numberOf next) (here - delta c m next cur),
                       backward := some next }
        go fuel (steps + 1) next

/-- The coordinate of an event, once the origin is known. -/
def coordinateOf (c : ChartEnv) (origin : EventRef) (e : EventRef) : MapperM Float := do
  let m ← get
  match m.mode with
  | .simulationTime => pure (c.timeOf e - c.timeOf origin).toFloat
  | .eventNumber => pure (Float.ofInt (Int64.ofInt (c.numberOf e) - Int64.ofInt (c.numberOf origin)).toInt)
  | _ =>
    let n := c.numberOf e
    if let some x := m.coords.get? n then return x
    let fwd := (m.forward.map c.numberOf).getD 0
    let bwd := (m.backward.map c.numberOf).getD 0
    if n > fwd then walk c n 1
    else if n < bwd then walk c n (-1)
    match (← get).coords.get? n with
    | some x => pure x
    | none => throw (.notInTimeline n)

/-- The coordinate of an event. -/
def coordinate (c : ChartEnv) (e : Option EventRef) : MapperM Float := do
  let origin ← sync c
  match e with
  | none => throw (.notInLog true)
  | some r =>
    if !c.isValid r then throw .staleEvent
    coordinateOf c origin r

/-- A result or failure of a pure computation. -/
def liftExcept {α : Type} (r : Except Fault α) : MapperM α :=
  match r with
  | .ok a => pure a
  | .error e => throw e

/-- An event near coordinate `x` to start a search from. -/
def start (c : ChartEnv) (origin : EventRef) (x : Float) : MapperM (Option EventRef) := do
  let m ← get
  match m.mode with
  | .simulationTime =>
    let t := c.timeOf origin + (← liftExcept (timeOfFloat x))
    match ← onView (LogView.lastNotAfter c.base c.canceled t) with
    | some e => pure (some e)
    | none => onView (LogView.first c.base c.canceled)
  | .eventNumber =>
    match m.view with
    | .full =>
      if c.base.length > 0 then
        let n := (Int64.ofInt (c.numberOf origin) + Int64.ofInt (Number.toInt64 x.floor)).toInt
        pure (c.base.eventAt (min (c.base.searchNumber n) (c.base.length - 1)))
      else pure (some origin)
    | .filtered _ => pure (some origin)
  | _ =>
    let coordOf (r : Option EventRef) : Float := (r.bind fun r => m.coords.get? (c.numberOf r)).getD 0
    if x > coordOf m.forward then pure m.forward
    else if x < coordOf m.backward then pure m.backward
    else pure (some origin)

/-- The last event whose coordinate is at most `x`. -/
def lastAtMost (c : ChartEnv) (origin : EventRef) (x : Float) : MapperM (Option EventRef) := do
  match ← start c origin x with
  | none => pure none
  | some e =>
    let ce ← coordinateOf c origin e
    go (c.base.length + 2) 1 e ce
where
  go : Nat → Nat → EventRef → Float → MapperM (Option EventRef)
    | 0, _, e, _ => pure (some e)
    | fuel + 1, steps, e, ce => do
      if steps % mapperCancelInterval = 0 ∧ c.canceled then throw .canceled
      let dir : Int := if ce > x then -1 else 1
      match ← onView (LogView.neighbour c.base c.canceled (some e) dir) with
      | none => pure (if dir < 0 then none else some e)
      | some next =>
        let cn ← coordinateOf c origin next
        if dir > 0 ∧ cn > x then return some e
        if dir < 0 ∧ cn ≤ x then return some next
        go fuel (steps + 1) next cn

/-- The last event whose coordinate is at most `x`. -/
def lastNotAfter (c : ChartEnv) (x : Float) : MapperM (Option EventRef) := do
  let origin ← sync c
  lastAtMost c origin x

/-- Walks back from `e` to the first event with coordinate `x`. -/
def firstOfRun (c : ChartEnv) (origin : EventRef) (e : EventRef) (x : Float) : MapperM EventRef :=
  go (c.base.length + 2) e
where
  go : Nat → EventRef → MapperM EventRef
    | 0, e => pure e
    | fuel + 1, e => do
      match ← onView (LogView.neighbour c.base c.canceled (some e) (-1)) with
      | none => pure e
      | some prev =>
        if (← coordinateOf c origin prev) != x then pure e else go fuel prev

/-- The first event whose coordinate is at least `x`. -/
def firstNotBefore (c : ChartEnv) (x : Float) : MapperM (Option EventRef) := do
  let origin ← sync c
  match ← lastAtMost c origin x with
  | none => onView (LogView.first c.base c.canceled)
  | some lo =>
    if (← coordinateOf c origin lo) == x then return some (← firstOfRun c origin lo x)
    onView (LogView.neighbour c.base c.canceled (some lo) 1)

/-- The simulation time at coordinate `x`: of the events there the
earliest time, or the latest if `upper`; between events interpolated. -/
def timeAt (c : ChartEnv) (x : Float) (upper : Bool) : MapperM SimTime := do
  let origin ← sync c
  let lo ← lastAtMost c origin x
  let mut cl : Float := 0
  if let some l := lo then
    cl ← coordinateOf c origin l
    if cl == x then
      if upper then return c.timeOf l
      return c.timeOf (← firstOfRun c origin l x)
  let hi ← match lo with
    | none => onView (LogView.first c.base c.canceled)
    | some l => onView (LogView.neighbour c.base c.canceled (some l) 1)
  let linear := c.timeOf origin + (← liftExcept (timeOfFloat x))
  let m ← get
  match lo, hi with
  | none, none => pure SimTime.zero
  | none, some h =>
    if m.mode = .simulationTime then pure (SimTime.max SimTime.zero (SimTime.min linear (c.timeOf h)))
    else pure (c.timeOf h)
  | some l, none =>
    if m.mode = .simulationTime then pure (SimTime.max linear (c.timeOf l)) else pure (c.timeOf l)
  | some l, some h =>
    let tl := c.timeOf l
    let th := c.timeOf h
    let t ← if m.mode = .simulationTime then pure linear
      else do
        let ch ← coordinateOf c origin h
        let d ← liftExcept (((th - tl).mulFloat? ((x - cl) / (ch - cl))).mapError Fault.nonFinite)
        pure (tl + d)
    pure (SimTime.max tl (SimTime.min t th))

/-- The coordinate of simulation time `t`: of the events at `t` the first's,
or the last's if `upper`; between events interpolated. -/
def coordinateAt (c : ChartEnv) (t : SimTime) (upper : Bool) : MapperM Float := do
  let origin ← sync c
  if (← get).mode = .simulationTime then return (t - c.timeOf origin).toFloat
  let lo ← onView (LogView.lastNotAfter c.base c.canceled t)
  let hi ← onView (LogView.firstNotBefore c.base c.canceled t)
  match lo, hi with
  | none, none => pure 0
  | none, some h => coordinateOf c origin h
  | some l, none => coordinateOf c origin l
  | some l, some h =>
    if (c.timeOf h).sameValue t then
      if upper then coordinateOf c origin l else coordinateOf c origin h
    else
      let cl ← coordinateOf c origin l
      let ch ← coordinateOf c origin h
      let tl := c.timeOf l
      let frac := (t - tl).toFloat / (c.timeOf h - tl).toFloat
      pure (cl + (ch - cl) * frac)

/-- Switches the mode; the origin stays and the walked coordinates go. -/
def setMode (c : ChartEnv) (mode : Mode) : MapperM Unit := do
  let m ← get
  if mode = m.mode then return
  set { m with mode := mode }
  relocate c m.origin

/-- Moves the origin to a valid event. -/
def relocateOrigin (c : ChartEnv) (e : Option EventRef) : MapperM Unit := do
  match e with
  | none => throw (.notInLog true)
  | some r =>
    if !c.isValid r then throw .staleEvent
    relocate c (some r)

end Mapper

end EventChart
