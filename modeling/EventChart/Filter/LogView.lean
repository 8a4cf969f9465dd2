import EventChart.Filter.View
/-!
# Views of a log

A chart may show the full log or a filtered view of it.  `LogView` is
either, and answers the navigation queries the timeline and the collector
ask of a log: the first and last events, an event by number, by time and by
neighbourhood, and the estimated number of events.  The full log answers
directly; a filtered view answers through its caches, so the queries run in
`StateT LogView (Except Fault)`.
-/

namespace EventChart

/-- The full log or a filtered view of it. -/
inductive LogView where
  | full
  | filtered (f : FilteredLog)
deriving Inhabited

/-- A computation over a view. -/
abbrev ViewM := StateT LogView (Except Fault)

namespace LogView

/-- Runs a filter computation on a filtered view; `onFull` answers for the
full log. -/
def through {α : Type} (onFull : Except Fault α) (k : FilterM α) : ViewM α := do
  match ← get with
  | .full => StateT.lift onFull
  | .filtered f =>
    let (a, f') ← StateT.lift (k.run f)
    set (LogView.filtered f')
    pure a

/-- The first event. -/
def first (l : EventLog) (canceled : Bool) : ViewM (Option EventRef) :=
  through (.ok l.first) (FilteredLog.first l canceled)

/-- The last event. -/
def last (l : EventLog) (canceled : Bool) : ViewM (Option EventRef) :=
  through (.ok l.last) (FilteredLog.last l canceled)

/-- The event numbered `n`. -/
def eventForNumber (l : EventLog) (canceled : Bool) (n : Int) : ViewM (Option EventRef) :=
  through (.ok (l.eventForNumber n)) (FilteredLog.eventForNumber l canceled n)

/-- The last event whose time is at most `t`. -/
def lastNotAfter (l : EventLog) (canceled : Bool) (t : SimTime) : ViewM (Option EventRef) :=
  through (.ok (l.lastNotAfter t)) (FilteredLog.lastNotAfter l canceled t)

/-- The first event whose time is at least `t`. -/
def firstNotBefore (l : EventLog) (canceled : Bool) (t : SimTime) : ViewM (Option EventRef) :=
  through (.ok (l.firstNotBefore t)) (FilteredLog.firstNotBefore l canceled t)

/-- The event `delta` events away. -/
def neighbour (l : EventLog) (canceled : Bool) (r : Option EventRef) (delta : Int) :
    ViewM (Option EventRef) :=
  through (l.neighbour r delta) (FilteredLog.neighbour l canceled r delta)

/-- The estimated number of events. -/
def approximateCount (l : EventLog) : ViewM Nat :=
  through (.ok l.length) (FilteredLog.approximateCount l)

/-- A walk view that looks events up through this view. -/
def walkView (l : EventLog) (canceled : Bool) : WalkView LogView :=
  ⟨fun n => do
    match ← eventForNumber l canceled n with
    | some r => pure (l.event? r)
    | none => pure none,
   fun e => l.index.consequencesOf e.number⟩

end LogView

end EventChart
