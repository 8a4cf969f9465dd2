import EventChart.Log.Event
import Std.Data.HashMap
/-!
# The index of a log

The index holds one record per event, in log order, and what the lines
between events declare: created modules (one per id, a later record in the
place of the first), the simulation begin record, and the unreadable lines
(the first hundred kept, all counted).  It also maps each event number to
the dependencies that leave it, so that consequences are found without a
scan.

An index is built by a scan: a fold over the lines from a position
(`Scan.visit`).  Blank lines are skipped.  An unreadable line is recorded
and counted against the current event.  An event line starts a new event,
which must have a larger number and no earlier time than the one before it.
A module or simulation begin record is taken wherever it stands; the other
records belong to the current event: a send record adds a sent message (and
a reuse edge when the message was last processed by another event), a hop
or direct send marks the message as routed, and an arrival record gives the
pending message its arrival time.

A scan that continues an index (after the file grew) starts again at the
index's last event, whose lines may have grown; `Index.commit` puts the
re-read event in the place of the last one and appends the others.
-/

namespace EventChart

open EventChart.Text

/-- The first position in `[0, n)` where a monotone test holds, or `n`. -/
def lowerBound (n : Nat) (p : Nat → Bool) : Nat :=
  go 0 n
where
  go (lo hi : Nat) : Nat :=
    if h : lo < hi then
      let mid := (lo + hi) / 2
      if p mid then go lo mid else go (mid + 1) hi
    else lo
  termination_by hi - lo

/-- The number of unreadable lines whose errors are kept. -/
def keptParseErrors : Nat := 100

/-- The lookup structure of a log between two synchronizations. -/
structure Index where
  events : Array Event
  consequences : Std.HashMap Int (Array Dependency)
  modules : Array ModuleCreated
  simBegin : Option Entry
  parseErrors : Array LineError
  numParseErrors : Nat
  /-- Where the next scan resumes when there is no event yet. -/
  scanned : Position
deriving Inhabited

namespace Index

/-- The index of an empty file. -/
def empty : Index := ⟨#[], {}, #[], none, #[], 0, Position.start⟩

/-- The position of the first event numbered `n` or higher. -/
def searchNumber (x : Index) (n : Int) : Nat := lowerBound x.events.size fun i => x.events[i]!.number ≥ n

/-- The event numbered `n`. -/
def find? (x : Index) (n : Int) : Option Event :=
  match x.events[x.searchNumber n]? with
  | some e => if e.number = n then some e else none
  | none => none

/-- The last event. -/
def last? (x : Index) : Option Event := x.events.back?

/-- The dependencies leaving event `n`. -/
def consequencesOf (x : Index) (n : Int) : List Dependency := (x.consequences.getD n #[]).toList

/-- Records the edges that lead to `e`. -/
def register (x : Index) (e : Event) : Index :=
  let add (m : Std.HashMap Int (Array Dependency)) (d : Dependency) :=
    m.insert d.cause ((m.getD d.cause #[]).push d)
  { x with consequences := e.causes.foldl add x.consequences }

/-- Forgets the edges that lead to `e`. -/
def unregister (x : Index) (e : Event) : Index :=
  let drop (m : Std.HashMap Int (Array Dependency)) (d : Dependency) :=
    let kept := (m.getD d.cause #[]).filter (·.consequence != e.number)
    if kept.isEmpty then m.erase d.cause else m.insert d.cause kept
  { x with consequences := e.causes.foldl drop x.consequences }

/-- Adds a module record, in the place of an earlier one with its id. -/
def addModule (x : Index) (mc : ModuleCreated) : Index :=
  match x.modules.findIdx? (·.id == mc.id) with
  | some i => { x with modules := x.modules.set! i mc }
  | none => { x with modules := x.modules.push mc }

/-- Counts an unreadable line and keeps the first ones. -/
def addParseError (x : Index) (e : LineError) : Index :=
  { x with numParseErrors := x.numParseErrors + 1,
           parseErrors := if x.parseErrors.size < keptParseErrors then x.parseErrors.push e
             else x.parseErrors }

end Index

/-- The state of a scan over lines. -/
structure Scan where
  /-- The index the scan continues, empty for a full scan. -/
  base : Index
  /-- Whether the scan re-reads the base's last event. -/
  replacesLast : Bool
  events : Array Event
  modules : Array ModuleCreated
  simBegin : Option Entry
  parseErrors : Array LineError
  /-- The message of the current event waiting for its arrival record. -/
  pendingSend : Option Nat
  pendingRoute : Bool
  lines : Nat
  /-- The file size progress is measured against. -/
  size : Nat
  progress : Array Float
deriving Inhabited

/-- Lines between two progress reports. -/
def progressInterval : Nat := 4096

namespace Scan

/-- A scan that continues `base` (re-reading its last event if
`replacesLast`). -/
def start (base : Index) (replacesLast : Bool) (size : Nat) : Scan :=
  ⟨base, replacesLast, #[], #[], none, #[], none, false, 0, size, #[]⟩

/-- The event numbered `n` among the scanned events or the base's, the
base's last one excluded when it is being re-read. -/
def lookup (s : Scan) (n : Int) : Option Event :=
  match s.events.find? (·.number == n) with
  | some e => some e
  | none =>
    match s.base.find? n with
    | some e => if s.replacesLast ∧ e.index + 1 = s.base.events.size then none else some e
    | none => none

/-- The event before the next one. -/
def previous (s : Scan) : Option Event :=
  match s.events.back? with
  | some e => some e
  | none =>
    if !s.replacesLast then s.base.last?
    else if s.base.events.size > 1 then s.base.events[s.base.events.size - 2]?
    else none

/-- Changes the current event. -/
def modifyCurrent (s : Scan) (f : Event → Event) : Scan :=
  { s with events := s.events.modify (s.events.size - 1) f }

/-- Starts an event at an event line. -/
def beginEvent (s : Scan) (m : EventMarker) (l : Line) : Except Fault Scan := do
  if let some prev := s.previous then
    if m.number ≤ prev.number then
      throw (.corruptIndex ("line " ++ toString l.number ++ ": event number " ++ toString m.number ++
        " does not follow " ++ toString prev.number))
    if m.time < prev.time then
      throw (.corruptIndex ("line " ++ toString l.number ++ ": simulation time " ++ m.time.toText ++
        " of event " ++ toString m.number ++ " precedes " ++ prev.time.toText))
  let causeMessage :=
    match s.lookup m.causeEvent with
    | some c => if m.messageId ≥ 0 then c.sentMessage? m.messageId else none
    | none => none
  let e : Event := ⟨0, 0, m.number, m.time, m.moduleId, m.causeEvent, m.messageId,
    ⟨l.offset, l.number⟩, l.endOffset, causeMessage, #[], [], 0, none⟩
  pure { s with events := s.events.push e, pendingSend := none }

/-- A record that belongs to the current event. -/
def eventRecord (s : Scan) (en : Entry) : Scan :=
  match en.beginSend? with
  | some bs =>
    let s := s.modifyCurrent fun e =>
      let e := { e with sent := e.sent.push ⟨bs, SimTime.zero, false⟩ }
      if bs.previousEvent ≥ 0 ∧ bs.previousEvent ≠ e.number then
        { e with reuses := e.reuses ++ [⟨bs.previousEvent, e.number, .reuse, bs.messageId, bs.messageId, 1⟩] }
      else e
    { s with pendingSend := s.events.back?.map (·.sent.size - 1), pendingRoute := false }
  | none =>
    if en.isRoute then { s with pendingRoute := true }
    else match en.endSend?, s.pendingSend with
      | some es, some i =>
        let route := s.pendingRoute
        let s := s.modifyCurrent fun e =>
          { e with sent := e.sent.modify i fun m => { m with arrival := es.arrival, selfMessage := !route } }
        { s with pendingSend := none }
      | _, _ => s

/-- Reads one line into the scan. -/
def line (s : Scan) (l : Line) : Except Fault Scan :=
  if trimBlank l.text == "" then pure s
  else match Entry.parse l.text l.number l.offset with
    | .error pe =>
      let s := { s with parseErrors := s.parseErrors.push pe }
      pure (if s.events.isEmpty then s
        else s.modifyCurrent fun e => { e with parseErrors := e.parseErrors + 1, endOffset := l.endOffset })
    | .ok en =>
      match en.eventMarker? with
      | some m => s.beginEvent m l
      | none =>
        let s := match en.moduleCreated? with
          | some mc => { s with modules := s.modules.push mc }
          | none => s
        let s := if en.kind = .simulationBegin ∧ s.simBegin.isNone then { s with simBegin := some en } else s
        if s.events.isEmpty then pure s
        else pure ((s.modifyCurrent fun e => { e with endOffset := l.endOffset }).eventRecord en)

/-- Reads one line, reporting progress every `progressInterval` lines. -/
def visit (s : Scan) (l : Line) : Visit Scan :=
  let lines := s.lines + 1
  let s := { s with lines := lines }
  let s := if lines % progressInterval = 0 ∧ s.size > 0 then
      { s with progress := s.progress.push (Float.ofInt l.endOffset / Float.ofNat s.size) }
    else s
  match s.line l with
  | .ok s' => .next s'
  | .error e => .fail e s

end Scan

namespace Index

/-- Applies a finished scan in epoch `epoch`.  A re-read last event takes the
place of the last one; its unreadable lines before the old end are not
counted again. -/
def commit (x : Index) (s : Scan) (epoch : Nat) (next : Position) : Index := Id.run do
  let mut x := x
  let mut events := s.events.toList
  let mut reread : Int := 0
  if s.replacesLast then
    match events, x.last? with
    | first :: rest, some last =>
      reread := last.endOffset
      x := x.unregister last
      let last' := last.adopt first
      x := { x with events := x.events.set! last.index last' }
      x := x.register last'
      events := rest
    | _, _ => pure ()
  for e in events do
    let e := { e with epoch := epoch, index := x.events.size }
    x := { x with events := x.events.push e }
    x := x.register e
  for mc in s.modules do
    x := x.addModule mc
  if x.simBegin.isNone then
    x := { x with simBegin := s.simBegin }
  for pe in s.parseErrors do
    if pe.offset ≥ reread then
      x := x.addParseError pe
  pure { x with scanned := next }

end Index

end EventChart
