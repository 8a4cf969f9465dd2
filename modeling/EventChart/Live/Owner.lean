import EventChart.Filter.LogView
/-!
# The owner of a live log

An `Owner` holds an open log and an optional filtered view of it, and runs
everything that touches them one request at a time.  A change of the file
is noticed by a check: asked for, found by a watcher or a poll, or made
because a query hit the change.  A check that finds new or rewritten
content resets the filtered view and tells every subscriber, in the order
they subscribed; applying or removing a filter tells them too.

A query that fails because the file changed under it is retried once after
a check.  Once stopped, the owner refuses every request.

Subscribers are numbered from zero up; what they are told is collected as
notes `"<id>:<change>"` until they are read.
-/

namespace EventChart

/-- Why the visible log changed. -/
inductive Notice where
  | appended
  | overwritten
  | filtered
deriving DecidableEq, Repr

/-- The name of a notice. -/
def Notice.name : Notice → String
  | .appended => "appended"
  | .overwritten => "overwritten"
  | .filtered => "filtered"

/-- An open log with its view, subscribers and pending notes. -/
structure Owner where
  store : Store
  log : EventLog
  view : LogView
  subscribers : List Nat
  nextId : Nat
  notes : Array String
  stopped : Bool
  /-- The file changed since the last check. -/
  unseen : Bool

namespace Owner

/-- An owner of a freshly opened log. -/
def start (st : Store) (l : EventLog) : Owner := ⟨st, l, .full, [], 0, #[], false, false⟩

/-- Tells every subscriber. -/
def notify (o : Owner) (n : Notice) : Owner :=
  { o with notes := o.subscribers.foldl (fun acc id => acc.push (toString id ++ ":" ++ n.name)) o.notes }

/-- Checks the file: synchronizes the log, resets the filtered view and
tells subscribers of new or rewritten content.  The change is the one the
file shows, even when synchronizing finds more. -/
def check (o : Owner) : Owner × Change × Option Fault :=
  let (l, _, change, err) := o.log.checkForChanges o.store false
  let o := { o with log := l, unseen := false }
  match err with
  | some e => (o, change, some e)
  | none =>
    if change = .unchanged then (o, change, none)
    else
      let view := match o.view with
        | .filtered f => LogView.filtered (f.reset l)
        | .full => .full
      let o := { o with view := view }
      (o.notify (if change = .overwritten then .overwritten else .appended), change, none)

/-- Runs a query on the visible log; a query that hits a file change is
run again after a check.  Also gives how many times the query ran. -/
def serve {α : Type} (o : Owner) (query : Owner → Owner × Except Fault α) : Owner × Nat × Except Fault α :=
  if o.stopped then (o, 0, .error .stopped)
  else
    let (o, r) := query o
    match r with
    | .error e =>
      if e.change?.isSome then
        let (o, _, err) := o.check
        match err with
        | some e' => (o, 1, .error e')
        | none => let (o, r) := query o; (o, 2, r)
      else (o, 1, .error e)
    | .ok a => (o, 1, .ok a)

/-- Runs a computation on the visible log and keeps the view's new state. -/
def onView {α : Type} (o : Owner) (k : ViewM α) : Owner × Except Fault α :=
  match k.run o.view with
  | .ok (a, v) => ({ o with view := v }, .ok a)
  | .error e => (o, .error e)

/-- The numbers of the visible events, in order. -/
def visibleNumbers (o : Owner) : Owner × Except Fault (List Int) :=
  match o.onView (LogView.first o.log false) with
  | (o, .error e) => (o, .error e)
  | (o, .ok r) => go (o.log.length + 2) o r []
where
  go : Nat → Owner → Option EventRef → List Int → Owner × Except Fault (List Int)
    | 0, o, _, acc => (o, .ok acc.reverse)
    | _, o, none, acc => (o, .ok acc.reverse)
    | n + 1, o, some r, acc =>
      let acc := ((o.log.event? r).map (·.number)).toList ++ acc
      match o.onView (LogView.neighbour o.log false (some r) 1) with
      | (o, .error e) => (o, .error e)
      | (o, .ok next) => go n o next acc

/-- The visible event of a number, read as its entries. -/
def entriesOf (n : Int) (o : Owner) : Owner × Except Fault (Option (List Entry)) :=
  match o.onView (LogView.eventForNumber o.log false n) with
  | (o, .error e) => (o, .error e)
  | (o, .ok none) => (o, .ok none)
  | (o, .ok (some r)) =>
    let (l, res) := o.log.entries o.store r
    ({ o with log := l }, some <$> res)

/-- The dependencies between the first and the last visible event; none for
an empty view. -/
def allDependencies (o : Owner) : Owner × Except Fault (Option DepSet) :=
  match o.onView (LogView.first o.log false) with
  | (o, .error e) => (o, .error e)
  | (o, .ok none) => (o, .ok none)
  | (o, .ok (some a)) =>
    match o.onView (LogView.last o.log false) with
    | (o, .error e) => (o, .error e)
    | (o, .ok b) =>
      match o.view with
      | .full => (o, some <$> o.log.crossing false (some a) b)
      | .filtered f =>
        match (FilteredLog.crossing o.log false (some a) b).run f with
        | .ok (ds, f) => ({ o with view := .filtered f }, .ok (some ds))
        | .error e => (o, .error e)

/-- Applies a filter. -/
def applyFilter (o : Owner) (p : Parameters) : Owner × Option Fault :=
  if o.stopped then (o, some .stopped)
  else
    match FilteredLog.create o.log p with
    | .ok f => ({ o with view := .filtered f }.notify .filtered, none)
    | .error e => (o, some e)

/-- Removes the filter. -/
def removeFilter (o : Owner) : Owner × Option Fault :=
  if o.stopped then (o, some .stopped)
  else
    match o.view with
    | .filtered _ => ({ o with view := .full }.notify .filtered, none)
    | .full => (o, none)

/-- Adds a subscriber and gives its number. -/
def subscribe (o : Owner) : Owner × Nat :=
  ({ o with subscribers := o.subscribers ++ [o.nextId], nextId := o.nextId + 1 }, o.nextId)

/-- Removes a subscriber; removing one twice does nothing. -/
def unsubscribe (o : Owner) (id : Nat) : Owner := { o with subscribers := o.subscribers.filter (· != id) }

/-- Takes the pending notes. -/
def takeNotes (o : Owner) : Owner × List String := ({ o with notes := #[] }, o.notes.toList)

/-- Subscribing gives a number that no earlier subscriber has. -/
theorem subscribe_fresh (o : Owner) (h : ∀ id ∈ o.subscribers, id < o.nextId) :
    (o.subscribe.2) ∉ o.subscribers := by
  intro hm
  have := h _ hm
  simp [subscribe] at this

end Owner

end EventChart
