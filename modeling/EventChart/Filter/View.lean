import EventChart.Filter.Params
import EventChart.Graph.Collect
/-!
# Filtered views of a log

A `FilteredLog` shows the events of a base log that pass a chain of checks
built from `Parameters`, in this order and only when they apply: the event
number range, the excluded events, the module criteria, the message
criteria (on the message that caused the event), and membership in the
trace of the traced event.  An event is visible when every check passes.

Queries walk the base log and skip hidden events, staying within the
positions that the number range allows.  Dependencies between visible
events are aggregated over the hidden events between them: from a visible
event the walk goes on through hidden events and stops at the first visible
ones (`Graph.nearest`).

A view caches what it computed (verdicts by event number, the trace, the
aggregated dependencies, the estimated size) for one state of its base log:
any change of the base's epoch, length or size drops the caches.  The
caches do not change any answer.  The trace is collected on first use,
with a clock that does not move, so time limits never cut it.
-/

namespace EventChart

/-- The named checks of a filter. -/
inductive CheckName where
  | range
  | excluded
  | module
  | message
  | trace
deriving DecidableEq, Repr, Inhabited

/-- The name of a check. -/
def CheckName.name : CheckName → String
  | .range => "range"
  | .excluded => "excluded"
  | .module => "module"
  | .message => "message"
  | .trace => "trace"

/-- The outcome of the checks on an event, up to the first that fails. -/
structure Explanation where
  passed : Bool
  checks : List (CheckName × Bool)
deriving DecidableEq, Repr, Inhabited

/-- The first check that failed. -/
def Explanation.firstFailure (x : Explanation) : Option CheckName :=
  (x.checks.find? (!·.2)).map (·.1)

/-- A filtered view of a base log and its caches. -/
structure FilteredLog where
  params : Parameters
  criteria : Criteria
  checks : List CheckName
  epoch : Nat
  length : Nat
  size : Nat
  modules : ModuleTree
  verdicts : Std.HashMap Int Bool
  traced : Bool
  causes : Option Collection
  consequences : Option Collection
  nearCauses : Std.HashMap Int DepSet
  nearConsequences : Std.HashMap Int DepSet
  approx : Option Nat
deriving Inhabited

/-- The checks that parameters turn on. -/
def Parameters.checks (p : Parameters) (c : Criteria) : List CheckName :=
  (if p.firstEventNumber ≥ 0 ∨ p.lastEventNumber ≥ 0 then [.range] else []) ++
  (if c.excluded.isEmpty then [] else [.excluded]) ++
  (if p.enableModuleFilter then [.module] else []) ++
  (if p.enableMessageFilter then [.message] else []) ++
  (if p.tracing then [.trace] else [])

/-- A filter's state in the computations over its base log. -/
abbrev FilterM := StateT FilteredLog (Except Fault)

/-- Steps between two checks for cancelation. -/
def filterCancelInterval : Nat := 1024

/-- Lines in the approximation of a view's size. -/
def approximationSamples : Nat := 1000

/-- A clock that does not move. -/
def frozenClock : Clock := ⟨0, 0⟩

namespace FilteredLog

/-- Drops every cache and takes the base's state. -/
def reset (f : FilteredLog) (l : EventLog) : FilteredLog :=
  { f with epoch := l.epoch, length := l.length, size := l.size, modules := l.moduleTree, verdicts := {},
           traced := false, causes := none, consequences := none, nearCauses := {},
           nearConsequences := {}, approx := none }

/-- A view of `l` by parameters that are checked first. -/
def create (l : EventLog) (p : Parameters) : Except Fault FilteredLog :=
  match p.compile with
  | .error e => .error (.badParameters e)
  | .ok c =>
    let f : FilteredLog := ⟨p, c, p.checks c, 0, 0, 0, default, {}, false, none, none, {}, {}, none⟩
    .ok (f.reset l)

/-- The limits of a collection in a direction, for aggregated dependencies
(`forTrace` off) or for the trace. -/
def limits (p : Parameters) (dir : Direction) (forTrace : Bool) : Limits :=
  let reuses := if forTrace then p.traceMessageReuses else p.collectMessageReuses
  let noSelf := forTrace && !p.traceSelfMessages
  match dir with
  | .causes => ⟨p.maxCauseDepth, p.maxNumberOfCauses, p.maxCauseCollectionTime, reuses, noSelf⟩
  | .consequences =>
    ⟨p.maxConsequenceDepth, p.maxNumberOfConsequences, p.maxConsequenceCollectionTime, reuses, noSelf⟩

/-- Takes a fresh state of the base, and collects the trace on first use. -/
def prepare (l : EventLog) (canceled : Bool) : FilterM Unit := do
  let f ← get
  if f.epoch ≠ l.epoch ∨ f.length ≠ l.length ∨ f.size ≠ l.size then set (f.reset l)
  let f ← get
  if !f.params.tracing || f.traced then return
  match l.index.find? f.params.tracedEventNumber with
  | none => set { f with traced := true }
  | some origin =>
    let run (dir : Direction) : Except Fault Collection :=
      match (collect l.walkView l.length origin dir (limits f.params dir true) frozenClock canceled).run' () with
      | .ok c => .ok c
      | .error e => .error (.within ("tracing event " ++ toString origin.number) e)
    let causes ← liftM (run .causes)
    let consequences ← liftM (run .consequences)
    set { f with causes := some causes, consequences := some consequences, traced := true }
where
  liftM {α : Type} (r : Except Fault α) : FilterM α := StateT.lift r

/-- Whether a check passes an event. -/
def passes (f : FilteredLog) (e : Event) : CheckName → Bool
  | .range =>
    (f.params.firstEventNumber < 0 || e.number ≥ f.params.firstEventNumber) &&
      (f.params.lastEventNumber < 0 || e.number ≤ f.params.lastEventNumber)
  | .excluded => !f.criteria.excluded.contains e.number
  | .module => f.criteria.moduleMatches ((f.modules.find? e.moduleId).getD (Module.unknown e.moduleId))
  | .message =>
    match e.causeMessage with
    | some m => f.criteria.messageMatches m
    | none => false
  | .trace =>
    let t := f.params.tracedEventNumber
    if e.number = t then f.causes.isSome
    else if e.number < t then f.params.traceCauses && (f.causes.map (·.contains e.number)).getD false
    else f.params.traceConsequences && (f.consequences.map (·.contains e.number)).getD false

/-- The checks run on an event, up to the first that fails. -/
def explainEvent (f : FilteredLog) (e : Event) : Explanation :=
  go f.checks []
where
  go : List CheckName → List (CheckName × Bool) → Explanation
    | [], acc => ⟨true, acc.reverse⟩
    | c :: cs, acc => if f.passes e c then go cs ((c, true) :: acc) else ⟨false, ((c, false) :: acc).reverse⟩

/-- Whether an event is visible, cached by number. -/
def verdict (e : Event) : FilterM Bool := do
  let f ← get
  match f.verdicts.get? e.number with
  | some v => pure v
  | none =>
    let v := f.checks.all (f.passes e)
    set { f with verdicts := f.verdicts.insert e.number v }
    pure v

/-- The positions the number range allows. -/
def bounds (f : FilteredLog) (l : EventLog) : Int × Int :=
  let lo : Int := if f.params.firstEventNumber ≥ 0 then l.searchNumber f.params.firstEventNumber else 0
  -- the number after the last is taken in 64 bits: after the greatest comes the least
  let hi : Int := if f.params.lastEventNumber ≥ 0 then
      (l.searchNumber (Int64.ofInt f.params.lastEventNumber + 1).toInt : Int) - 1
    else (l.length : Int) - 1
  (lo, hi)

/-- The first visible event from position `i` in steps of `step`, within the
allowed positions, with its position. -/
def scan (l : EventLog) (canceled : Bool) (i : Int) (step : Int) : FilterM (Option (EventRef × Int)) := do
  let (lo, hi) := (← get).bounds l
  if i < lo ∧ step < 0 then return none
  let i := if i < lo then lo else i
  if i > hi ∧ step > 0 then return none
  let i := if i > hi then hi else i
  go lo hi (hi - lo + 2).toNat 0 i
where
  go (lo hi : Int) : Nat → Nat → Int → FilterM (Option (EventRef × Int))
    | 0, _, _ => pure none
    | fuel + 1, n, i => do
      if i < lo ∨ i > hi then return none
      if n % filterCancelInterval = 0 ∧ canceled then throw .canceled
      match l.index.events[i.toNat]? with
      | some e => if ← verdict e then return some (l.refOf e, i) else go lo hi fuel (n + 1) (i + step)
      | none => go lo hi fuel (n + 1) (i + step)

/-- The first visible event. -/
def first (l : EventLog) (canceled : Bool) : FilterM (Option EventRef) := do
  prepare l canceled
  return (← scan l canceled 0 1).map (·.1)

/-- The last visible event. -/
def last (l : EventLog) (canceled : Bool) : FilterM (Option EventRef) := do
  prepare l canceled
  return (← scan l canceled ((l.length : Int) - 1) (-1)).map (·.1)

/-- The event numbered `n` if it is visible. -/
def eventForNumber (l : EventLog) (canceled : Bool) (n : Int) : FilterM (Option EventRef) := do
  prepare l canceled
  match l.index.find? n with
  | none => pure none
  | some e =>
    let (lo, hi) := (← get).bounds l
    if (e.index : Int) < lo ∨ (e.index : Int) > hi then return none
    if ← verdict e then pure (some (l.refOf e)) else pure none

/-- The last visible event whose time is at most `t`. -/
def lastNotAfter (l : EventLog) (canceled : Bool) (t : SimTime) : FilterM (Option EventRef) := do
  prepare l canceled
  match l.lastNotAfter t with
  | none => pure none
  | some r => return (← scan l canceled r.index (-1)).map (·.1)

/-- The first visible event whose time is at least `t`. -/
def firstNotBefore (l : EventLog) (canceled : Bool) (t : SimTime) : FilterM (Option EventRef) := do
  prepare l canceled
  match l.firstNotBefore t with
  | none => pure none
  | some r => return (← scan l canceled r.index 1).map (·.1)

/-- The visible event `delta` visible events away; the start need not be
visible. -/
def neighbour (l : EventLog) (canceled : Bool) (r : Option EventRef) (delta : Int) :
    FilterM (Option EventRef) := do
  let e ← StateT.lift (l.check r)
  prepare l canceled
  let step : Int := if delta < 0 then -1 else 1
  -- the distance is negated in 64 bits, so the least one stays negative and moves nowhere
  let count : Int := if delta < 0 then (-Int64.ofInt delta).toInt else delta
  go step count.toNat (some (l.refOf e)) e.index
where
  go (step : Int) : Nat → Option EventRef → Int → FilterM (Option EventRef)
    | 0, cur, _ => pure cur
    | k + 1, _, i => do
      match ← scan l canceled (i + step) step with
      | none => pure none
      | some (e, j) => go step k (some e) j

/-- The estimated number of visible events: the allowed positions are
sampled at up to a thousand evenly spaced places. -/
def approximateCount (l : EventLog) : FilterM Nat := do
  prepare l false
  if let some a := (← get).approx then return a
  let (lo, hi) := (← get).bounds l
  let n := hi - lo + 1
  if n ≤ 0 then
    modify fun f => { f with approx := some 0 }
    return 0
  let samples : Int := min n approximationSamples
  let mut matched : Int := 0
  for k in List.range samples.toNat do
    let i := lo + (k : Int) * n / samples
    if let some e := l.index.events[i.toNat]? then
      if ← verdict e then matched := matched + 1
  let a := (matched * n / samples).toNat
  modify fun f => { f with approx := some a }
  return a

/-- The position of event number `n` between the first and last visible
events, in `[0, 1]`. -/
def percentage (l : EventLog) (n : Int) : FilterM Float := do
  let lo ← first l false
  let hi ← last l false
  match lo, hi with
  | some a, some b =>
    if b.index ≤ a.index then return 0
    let p := (Float.ofInt ((l.searchNumber n : Int) - a.index)) / Float.ofNat (b.index - a.index)
    return (if p < 1 then p else 1) |> fun q => if 0 < q then q else 0
  | _, _ => return 0

/-- The aggregated dependencies from an event to the nearest visible events
in a direction, cached by number. -/
def nearestDeps (l : EventLog) (canceled : Bool) (e : Event) (dir : Direction) : FilterM DepSet := do
  let f ← get
  let cache := match dir with
    | .causes => f.nearCauses
    | .consequences => f.nearConsequences
  if let some r := cache.get? e.number then return r
  let (lo, hi) := f.bounds l
  let accept (c : Event) : FilterM Bool := do
    if l.isValid (l.refOf c) ∧ lo ≤ (c.index : Int) ∧ (c.index : Int) ≤ hi then verdict c else pure false
  let view : WalkView FilteredLog := ⟨fun n => pure (l.index.find? n), fun c => l.index.consequencesOf c.number⟩
  let r ← nearest view l.length e dir (limits f.params dir false) frozenClock canceled accept
  modify fun f => match dir with
    | .causes => { f with nearCauses := f.nearCauses.insert e.number r }
    | .consequences => { f with nearConsequences := f.nearConsequences.insert e.number r }
  return r

/-- The aggregated dependencies of an event in a direction. -/
def dependenciesOf (l : EventLog) (canceled : Bool) (r : Option EventRef) (dir : Direction) :
    FilterM DepSet := do
  let e ← StateT.lift (l.check r)
  prepare l canceled
  nearestDeps l canceled e dir

/-- The aggregated dependencies with a visible end between two events. -/
def crossing (l : EventLog) (canceled : Bool) (a b : Option EventRef) : FilterM DepSet := do
  let ea ← StateT.lift (l.check a)
  let eb ← StateT.lift (l.check b)
  let (si, ei) := if ea.index > eb.index then (eb.index, ea.index) else (ea.index, eb.index)
  prepare l canceled
  let (c, inc) ← go ei (ei - si + 2) si DepCollector.empty false
  return ⟨c.sorted, inc⟩
where
  go (ei : Nat) : Nat → Nat → DepCollector → Bool → FilterM (DepCollector × Bool)
    | 0, _, c, inc => pure (c, inc)
    | fuel + 1, i, c, inc => do
      if i > ei then return (c, inc)
      match ← scan l canceled i 1 with
      | none => pure (c, inc)
      | some (r, j) =>
        if j > ei then return (c, inc)
        match l.index.events[j.toNat]? with
        | none => pure (c, inc)
        | some e =>
          let r1 ← nearestDeps l canceled e .causes
          let r2 ← nearestDeps l canceled e .consequences
          let _ := r
          go ei fuel (j.toNat + 1) ((c.addAll r1.deps).addAll r2.deps) (inc || r1.incomplete || r2.incomplete)

/-- Whether a limit cut the trace short. -/
def traceIncomplete (l : EventLog) (canceled : Bool) : FilterM Bool := do
  prepare l canceled
  let f ← get
  return (f.causes.map (·.incomplete)).getD false || (f.consequences.map (·.incomplete)).getD false

/-- Whether an event is visible. -/
def isVisible (l : EventLog) (canceled : Bool) (r : Option EventRef) : FilterM Bool := do
  let e ← StateT.lift (l.check r)
  prepare l canceled
  verdict e

/-- The checks run on an event. -/
def explain (l : EventLog) (canceled : Bool) (r : Option EventRef) : FilterM Explanation := do
  let e ← StateT.lift (l.check r)
  prepare l canceled
  return (← get).explainEvent e

end FilteredLog

end EventChart
