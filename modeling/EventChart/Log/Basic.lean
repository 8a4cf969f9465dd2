import EventChart.Log.Index
import EventChart.Log.Module
/-!
# The event log

An `EventLog` is the index of a log file together with the reader it reads
through.  It answers the queries of a sequence chart over the full,
unfiltered sequence of events: by position, by event number, by time, by
neighbourhood, and the dependencies crossing a range of events.

The log follows its file.  `EventLog.checkForChanges` asks the reader what
changed; an append extends the index from its last event, and an overwrite
(or an append that turns out not to be one) builds a new index in a new
epoch, after which the events of the earlier epochs are stale.  A change
that could not be applied stays pending and is retried by the next check.

The entries of an event are read from the file when first asked for and
kept for a bounded number of events; the oldest are dropped first.

Each operation that may scan reports the progress fractions of its scans
when the log was opened with progress reports.
-/

namespace EventChart

/-- How a log is opened. -/
structure LogOptions where
  /-- The number of events whose entries are kept; 1024 unless positive. -/
  maxCached : Int
  /-- The length of the compared first bytes; 4096 unless positive. -/
  fingerprint : Int
  progress : Bool
deriving DecidableEq, Repr, Inhabited

/-- The default number of events whose entries are kept. -/
def defaultMaxCached : Nat := 1024

/-- An indexed log file. -/
structure EventLog where
  /-- The identity of the log among the logs opened. -/
  id : Nat
  path : String
  reader : Reader
  maxCached : Nat
  reportsProgress : Bool
  epoch : Nat
  index : Index
  /-- The events of the earlier epochs; the `k`-th is epoch `k + 1`. -/
  retired : Array (Array Event)
  /-- Positions of the events whose entries are kept, oldest first. -/
  cache : List Nat
  pending : Change
deriving Inhabited

/-- A caller that gave up makes a read an operation cancelation. -/
def Fault.canceledRead : Fault → Fault
  | .interrupted => .canceled
  | f => f

namespace EventLog

/-- Scans the file from `pos`, continuing `base`. -/
def scanFrom (l : EventLog) (st : Store) (canceled : Bool) (base : Index) (pos : Position)
    (replacesLast : Bool) : Array Float × Except Fault (Scan × Position) :=
  let (s, next, err) := l.reader.readLines st canceled pos (-1) (Scan.start base replacesLast l.reader.size)
    Scan.visit
  let progress := if l.reportsProgress then s.progress else #[]
  match err with
  | some e => (progress, .error e.canceledRead)
  | none => (if l.reportsProgress then progress.push 1 else progress, .ok (s, next))

/-- A new index of the whole file, in the next epoch. -/
def rebuild (l : EventLog) (st : Store) (canceled : Bool) : Array Float × Except Fault Index :=
  let (progress, r) := l.scanFrom st canceled Index.empty Position.start false
  (progress, r.map fun (s, next) => Index.empty.commit s (l.epoch + 1) next)

/-- Opens and indexes the file at `path`; `id` is the log's identity. -/
def openFile (st : Store) (id : Nat) (path : String) (opts : LogOptions) (canceled : Bool) :
    Array Float × Except Fault EventLog :=
  match Reader.openFile st path opts.fingerprint with
  | .error e => (#[], .error e)
  | .ok r =>
    let maxCached := if opts.maxCached ≤ 0 then defaultMaxCached else opts.maxCached.toNat
    let l : EventLog := ⟨id, path, r, maxCached, opts.progress, 0, Index.empty, #[], [], .unchanged⟩
    let (progress, res) := l.rebuild st canceled
    match res with
    | .error e => (progress, .error (.within ("indexing " ++ path) e))
    | .ok x => (progress, .ok { l with index := x, epoch := 1 })

/-- Closes the file. -/
def close (l : EventLog) : EventLog := { l with reader := l.reader.close }

/-- The file size seen at the last synchronization. -/
def size (l : EventLog) : Nat := l.reader.size

/-- Extends the index by the lines after its last event. -/
def extend (l : EventLog) (st : Store) (canceled : Bool) : EventLog × Array Float × Option Fault :=
  let x := l.index
  let (start, last) := match x.last? with
    | some e => (e.pos, some e)
    | none => (x.scanned, none)
  let (progress, r) := l.scanFrom st canceled x start last.isSome
  match r with
  | .error e => (l, progress, some e)
  | .ok (s, next) =>
    match last with
    | some e =>
      if (s.events[0]?.map (·.number)) != some e.number then
        (l, progress, some (.fileChanged .overwritten none))
      else ({ l with index := x.commit s l.epoch next }, progress, none)
    | none => ({ l with index := x.commit s l.epoch next }, progress, none)

/-- Replaces the index by a new one in the next epoch. -/
def replace (l : EventLog) (st : Store) (canceled : Bool) : EventLog × Array Float × Option Fault :=
  let (progress, r) := l.rebuild st canceled
  match r with
  | .error e => (l, progress, some e)
  | .ok x =>
    ({ l with index := x, cache := [], epoch := l.epoch + 1, retired := l.retired.push l.index.events },
      progress, none)

/-- Brings the index up to date after `change`.  A failed change stays
pending. -/
def synchronize (l : EventLog) (st : Store) (canceled : Bool) (change : Change) :
    EventLog × Array Float × Option Fault :=
  match change with
  | .unchanged => (l, #[], none)
  | .appended =>
    let (l1, p1, r1) := l.extend st canceled
    match r1 with
    | none => ({ l1 with pending := .unchanged }, p1, none)
    | some e =>
      if e.change? == some .overwritten || e.hasKind .corruptIndex then
        let (l2, p2, r2) := l1.replace st canceled
        match r2 with
        | none => ({ l2 with pending := .unchanged }, p1 ++ p2, none)
        | some e2 => ({ l2 with pending := .overwritten }, p1 ++ p2, some e2)
      else ({ l1 with pending := .appended }, p1, some e)
  | .overwritten =>
    let (l1, p1, r1) := l.replace st canceled
    match r1 with
    | none => ({ l1 with pending := .unchanged }, p1, none)
    | some e => ({ l1 with pending := .overwritten }, p1, some e)
  | .other _ => (l, #[], some (.unknownChange change))

/-- Asks the reader for a change and applies it, with a pending one if that
is larger.  Returns the change acted on. -/
def checkForChanges (l : EventLog) (st : Store) (canceled : Bool) :
    EventLog × Array Float × Change × Option Fault :=
  let (r, res) := l.reader.check st
  let l := { l with reader := r }
  match res with
  | .error e => (l, #[], .unchanged, some e)
  | .ok c =>
    let change := Change.larger l.pending c
    if change = .unchanged then (l, #[], change, none)
    else
      let (l', p, err) := l.synchronize st canceled change
      (l', p, change, err)

/-! ## Events and queries -/

/-- The identity of an indexed event. -/
def refOf (l : EventLog) (e : Event) : EventRef := ⟨l.id, e.epoch, e.index⟩

/-- The event an identity names, in its epoch. -/
def event? (l : EventLog) (r : EventRef) : Option Event :=
  if r.epoch = l.epoch then l.index.events[r.index]?
  else (l.retired[r.epoch - 1]?).bind (·[r.index]?)

/-- Whether an event of this log belongs to the current epoch. -/
def isValid (l : EventLog) (r : EventRef) : Bool := r.epoch == l.epoch

/-- The event behind a reference, if it belongs to this log's current epoch. -/
def check (l : EventLog) : Option EventRef → Except Fault Event
  | none => .error (.notInLog true)
  | some r =>
    if r.log ≠ l.id then .error (.notInLog false)
    else if r.epoch ≠ l.epoch then .error .staleEvent
    else match l.index.events[r.index]? with
      | some e => .ok e
      | none => .error .staleEvent

/-- The number of events. -/
def length (l : EventLog) : Nat := l.index.events.size

/-- The event at a position in log order. -/
def eventAt (l : EventLog) (i : Int) : Option EventRef :=
  if i < 0 then none else (l.index.events[i.toNat]?).map l.refOf

/-- The position of an event in log order. -/
def indexOf (l : EventLog) (r : Option EventRef) : Except Fault Nat := (l.check r).map (·.index)

/-- The position of the first event numbered `n` or higher. -/
def searchNumber (l : EventLog) (n : Int) : Nat := l.index.searchNumber n

/-- The first event. -/
def first (l : EventLog) : Option EventRef := l.eventAt 0

/-- The last event. -/
def last (l : EventLog) : Option EventRef := l.index.last?.map l.refOf

/-- The event numbered `n`. -/
def eventForNumber (l : EventLog) (n : Int) : Option EventRef := (l.index.find? n).map l.refOf

/-- The last event whose time is at most `t`. -/
def lastNotAfter (l : EventLog) (t : SimTime) : Option EventRef :=
  let i := lowerBound l.length fun i => decide (t < l.index.events[i]!.time)
  l.eventAt (i - 1 : Int)

/-- The first event whose time is at least `t`. -/
def firstNotBefore (l : EventLog) (t : SimTime) : Option EventRef :=
  let i := lowerBound l.length fun i => !decide (l.index.events[i]!.time < t)
  l.eventAt i

/-- The event `delta` positions from another. -/
def neighbour (l : EventLog) (r : Option EventRef) (delta : Int) : Except Fault (Option EventRef) := do
  let e ← l.check r
  pure (l.eventAt (e.index + delta))

/-- The relative position of the first event numbered `n` or higher. -/
def percentage (l : EventLog) (n : Int) : Float :=
  if l.length < 2 then 0
  else
    let i := l.searchNumber n
    if i ≥ l.length then 1 else Float.ofNat i / Float.ofNat (l.length - 1)

/-- The module tree of the modules created so far. -/
def moduleTree (l : EventLog) : ModuleTree := ModuleTree.build l.index.modules.toList

/-- The dependencies leaving an event, none for a stale one. -/
def consequencesOf (l : EventLog) (r : EventRef) : List Dependency :=
  match l.event? r with
  | some e => if l.isValid r then l.index.consequencesOf e.number else []
  | none => []

/-- The dependencies with an end between two events, both ends in the log. -/
def crossing (l : EventLog) (canceled : Bool) (a b : Option EventRef) : Except Fault DepSet := do
  let ea ← l.check a
  let eb ← l.check b
  let (lo, hi) := if ea.index > eb.index then (eb.index, ea.index) else (ea.index, eb.index)
  if canceled then throw .canceled
  let known (n : Int) : Bool := (l.index.find? n).isSome
  let c := ((List.range (hi + 1 - lo)).map (· + lo)).foldl (fun c i =>
    match l.index.events[i]? with
    | some e => c.addAll ((e.causes ++ l.index.consequencesOf e.number).filter
        fun d => known d.cause && known d.consequence)
    | none => c) DepCollector.empty
  pure ⟨c.sorted, false⟩

/-- The message a direct dependency refers to: sent by the cause for a send,
sent again by the consequence for a reuse. -/
def messageFor (l : EventLog) (d : Dependency) : Option Message :=
  let e := match d.kind with
    | .send => l.index.find? d.cause
    | .reuse => l.index.find? d.consequence
    | _ => none
  e.bind (·.sentMessage? d.messageId)

/-- Takes one line of the text of event `n`: blank lines are skipped, the first
other line must be the event's own marker, and every line that parses is kept
as an entry of the event. The flag is set until the first line is taken. -/
def entryVisit (n : Int) (acc : Bool × Array Entry) (ln : Line) : Visit (Bool × Array Entry) :=
  if Text.trimBlank ln.text == "" then .next acc
  else
    let r := Entry.parse ln.text ln.number ln.offset
    let fits := match r with
      | .ok en => (en.eventMarker?.map (·.number)) == some n
      | .error _ => false
    if acc.1 && !fits then .fail (.fileChanged .overwritten none) acc
    else match r with
      | .ok en => .next (false, acc.2.push { en with eventNumber := n })
      | .error _ => .next (false, acc.2)

/-- Keeps `entries` on the event at position `i`, dropping the oldest kept
entries once more than `maxCached` events keep theirs. -/
def keepEntries (l : EventLog) (i : Nat) (entries : List Entry) : EventLog :=
  let events := l.index.events.modify i fun ev => { ev with entries := some entries }
  let cache := l.cache ++ [i]
  let (events, cache) := if cache.length > l.maxCached then
      match cache with
      | old :: rest => (events.modify old fun ev => { ev with entries := none }, rest)
      | [] => (events, cache)
    else (events, cache)
  { l with index := { l.index with events := events }, cache := cache }

/-- Reads the entries of the event at position `i` and keeps them. -/
def materialize (l : EventLog) (st : Store) (i : Nat) (e : Event) : EventLog × Except Fault (List Entry) :=
  let (acc, _, err) := l.reader.readLines st false e.pos e.endOffset (true, #[]) (entryVisit e.number)
  match err with
  | some f => (l, .error f)
  | none =>
    if acc.1 then (l, .error (.fileChanged .overwritten none))
    else (l.keepEntries i acc.2.toList, .ok acc.2.toList)

/-- The entries of an event, read from the file if they are not kept. -/
def entries (l : EventLog) (st : Store) (r : EventRef) : EventLog × Except Fault (List Entry) :=
  if r.epoch ≠ l.epoch then (l, .error .staleEvent)
  else match l.index.events[r.index]? with
    | none => (l, .error .staleEvent)
    | some e =>
      match e.entries with
      | some es => (l, .ok es)
      | none => l.materialize st r.index e

end EventLog

end EventChart
