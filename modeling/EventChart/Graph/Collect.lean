import EventChart.Log.Basic
/-!
# Collecting causes and consequences

A walk starts at an origin event and follows dependencies towards earlier
events (`causes`) or later ones (`consequences`).  It is best-first: of the
events reached and not yet visited, the one nearest to the origin in log
order is visited next, so a walk cut short by a limit has found the nearest
events.  Each event is reached once, by the first dependency that leads to
it; the path found gives it a depth (its number of edges), a combined kind,
its first and last edges and a length.

A walk honours four bounds, each off when zero: a depth, beyond which edges
are not followed; a count of visited events; a duration measured on a clock;
and whether reuse edges are followed at all.  Sends of self messages can be
left out.  The first bound that cut the walk is reported.

`collect` gathers every event visited with the edge that reached it.
`nearest` stops at the events a test accepts and reports one aggregated
edge from each to the origin.

The events are looked up through a view of the log, which may keep state
(a filtered view caches what it has computed), so the walk runs in
`StateT σ (Except Fault)`.
-/

namespace EventChart

/-- The side of the causality graph a walk follows. -/
inductive Direction where
  | causes
  | consequences
deriving DecidableEq, Repr, Inhabited

/-- The name of a direction. -/
def Direction.name : Direction → String
  | .causes => "causes"
  | .consequences => "consequences"

/-- Bounds of a walk; zero means unbounded. -/
structure Limits where
  maxDepth : Int
  maxCount : Int
  /-- In nanoseconds. -/
  maxDuration : Int
  includeReuses : Bool
  excludeSelfMessages : Bool
deriving DecidableEq, Repr, Inhabited

/-- The bound that cut a walk short. -/
inductive Limit where
  | depth
  | count
  | time
deriving DecidableEq, Repr, Inhabited

/-- The name of a bound; empty for none. -/
def Limit.name : Option Limit → String
  | none => ""
  | some .depth => "depth"
  | some .count => "count"
  | some .time => "time"

/-- A clock that advances by a fixed step at each reading, in nanoseconds. -/
structure Clock where
  now : Int
  step : Int
deriving DecidableEq, Repr, Inhabited

/-- Reads a clock. -/
def Clock.read (c : Clock) : Int × Clock := (c.now + c.step, ⟨c.now + c.step, c.step⟩)

/-- An event reached by a walk and the path that reached it. -/
structure Reached where
  event : Event
  depth : Nat
  kind : DepKind
  first : Dependency
  last : Dependency
  length : Nat
  isOrigin : Bool
deriving Inhabited

/-- An event reached by a walk. -/
structure Node where
  number : Int
  depth : Nat
  kind : DepKind
deriving DecidableEq, Repr, Inhabited

/-- The result of `collect`. -/
structure Collection where
  origin : Int
  direction : Direction
  /-- The visited events but the origin, by number. -/
  nodes : List Node
  /-- The edges that reached them. -/
  deps : List Dependency
  limit : Option Limit
deriving Repr, Inhabited

/-- Whether a walk reached an event. -/
def Collection.contains (c : Collection) (n : Int) : Bool := c.nodes.any (·.number == n)

/-- Whether a walk was cut short. -/
def Collection.incomplete (c : Collection) : Bool := c.limit.isSome

/-- What a walk looks events up in. -/
structure WalkView (σ : Type) where
  /-- The event with a number, if the view shows it. -/
  find : Int → StateT σ (Except Fault) (Option Event)
  /-- The dependencies leaving an event. -/
  consequences : Event → List Dependency

/-- The frontier item nearest to the origin: the largest number towards the
causes, the smallest towards the consequences. -/
def pickNearest (dir : Direction) : List Reached → Option (Reached × List Reached)
  | [] => none
  | r :: rs =>
    match pickNearest dir rs with
    | none => some (r, [])
    | some (b, others) =>
      let better : Bool := match dir with
        | .causes => decide (b.event.number > r.event.number)
        | .consequences => decide (b.event.number < r.event.number)
      if better then some (b, r :: others) else some (r, rs)

/-- The state of a walk between two visits. -/
structure Walk where
  frontier : List Reached
  seen : List Int
  visited : Nat
  steps : Nat
  clock : Clock
  deadline : Option Int
  limit : Option Limit
  /-- The visited events with whether they were expanded, in visit order. -/
  log : Array (Reached × Bool)
deriving Inhabited

/-- Steps between two checks for cancelation. -/
def cancelInterval : Nat := 256

section
variable {σ : Type}

/-- Follows the edges of a visited item. -/
def pushEdges (view : WalkView σ) (dir : Direction) (lim : Limits) (it : Reached) :
    List Dependency → Walk → StateT σ (Except Fault) Walk
  | [], w => pure w
  | d :: ds, w => do
    if d.kind = .reuse ∧ !lim.includeReuses then return ← pushEdges view dir lim it ds w
    let next := match dir with
      | .causes => d.cause
      | .consequences => d.consequence
    if w.seen.contains next then return ← pushEdges view dir lim it ds w
    if lim.maxDepth > 0 ∧ (it.depth : Int) ≥ lim.maxDepth then
      return { w with limit := w.limit <|> some .depth }
    match ← view.find next with
    | none => pushEdges view dir lim it ds w
    | some e =>
      let consequence := match dir with
        | .causes => it.event
        | .consequences => e
      if d.kind = .send ∧ lim.excludeSelfMessages ∧ consequence.isSelfMessageProcessing then
        return ← pushEdges view dir lim it ds w
      let item : Reached :=
        if it.isOrigin then ⟨e, it.depth + 1, d.kind, d, d, 1, false⟩
        else ⟨e, it.depth + 1, it.kind.combine d.kind, it.first, d, it.length + 1, false⟩
      pushEdges view dir lim it ds { w with seen := next :: w.seen, frontier := item :: w.frontier }

/-- Runs a walk for at most `fuel` visits. -/
def walkLoop (view : WalkView σ) (dir : Direction) (lim : Limits) (canceled : Bool)
    (visit : Reached → StateT σ (Except Fault) Bool) : Nat → Walk → StateT σ (Except Fault) Walk
  | 0, w => pure w
  | fuel + 1, w => do
    match pickNearest dir w.frontier with
    | none => pure w
    | some (it, rest) =>
      if w.steps % cancelInterval = 0 ∧ canceled then
        throw (.within ("collecting " ++ dir.name) .canceled)
      let w := { w with steps := w.steps + 1 }
      let (late, w) := match w.deadline with
        | some dl =>
          let (t, c) := w.clock.read
          (decide (t > dl), { w with clock := c })
        | none => (false, w)
      if late then return { w with limit := w.limit <|> some .time }
      let w := { w with frontier := rest }
      if it.isOrigin then
        let w ← pushEdges view dir lim it (edgesOf it) w
        walkLoop view dir lim canceled visit fuel w
      else
        if lim.maxCount > 0 ∧ (w.visited : Int) ≥ lim.maxCount then
          return { w with limit := w.limit <|> some .count }
        let w := { w with visited := w.visited + 1 }
        let expand ← visit it
        let w := { w with log := w.log.push (it, expand) }
        if expand then
          let w ← pushEdges view dir lim it (edgesOf it) w
          walkLoop view dir lim canceled visit fuel w
        else walkLoop view dir lim canceled visit fuel w
where
  edgesOf (it : Reached) : List Dependency := match dir with
    | .causes => it.event.causes
    | .consequences => view.consequences it.event

/-- Walks from `origin`; `visit` is told of every event reached but the
origin and answers whether to follow its edges.  `size` bounds the number of
events that can be reached. -/
def walk (view : WalkView σ) (size : Nat) (origin : Event) (dir : Direction) (lim : Limits)
    (clock : Clock) (canceled : Bool) (visit : Reached → StateT σ (Except Fault) Bool) :
    StateT σ (Except Fault) Walk :=
  let (deadline, clock) := if lim.maxDuration > 0 then
      let (t, c) := clock.read
      (some (t + lim.maxDuration), c)
    else (none, clock)
  let start : Reached := ⟨origin, 0, .send, default, default, 0, true⟩
  walkLoop view dir lim canceled visit (size + 2) ⟨[start], [origin.number], 0, 0, clock, deadline, none, #[]⟩

/-- Every event reached from `origin` within the limits. -/
def collect (view : WalkView σ) (size : Nat) (origin : Event) (dir : Direction) (lim : Limits)
    (clock : Clock) (canceled : Bool) : StateT σ (Except Fault) Collection := do
  let w ← walk view size origin dir lim clock canceled fun _ => pure true
  let nodes := (w.log.toList.map fun (it, _) => (⟨it.event.number, it.depth, it.kind⟩ : Node))
  let deps := DepCollector.empty.addAll (w.log.toList.map fun (it, _) => it.last)
  pure ⟨origin.number, dir, nodes.mergeSort (fun a b => a.number ≤ b.number), deps.sorted, w.limit⟩

/-- The aggregated edges from `origin` to the nearest events that `accept`
takes, not walking past them; and whether a limit cut the walk. -/
def nearest (view : WalkView σ) (size : Nat) (origin : Event) (dir : Direction) (lim : Limits)
    (clock : Clock) (canceled : Bool) (accept : Event → StateT σ (Except Fault) Bool) :
    StateT σ (Except Fault) DepSet := do
  let w ← walk view size origin dir lim clock canceled fun it => do return !(← accept it.event)
  let deps := w.log.toList.filterMap fun (it, expanded) =>
    if expanded then none
    else some (match dir with
      | .causes => (⟨it.event.number, origin.number, it.kind, it.last.messageId, it.first.endMessageId,
          it.length⟩ : Dependency)
      | .consequences => ⟨origin.number, it.event.number, it.kind, it.first.messageId,
          it.last.endMessageId, it.length⟩)
  pure ⟨(DepCollector.empty.addAll deps).sorted, w.limit.isSome⟩

end

/-- A walk view of the full log. -/
def EventLog.walkView (l : EventLog) : WalkView Unit :=
  ⟨fun n => pure ((l.index.find? n)), fun e => l.index.consequencesOf e.number⟩

end EventChart
