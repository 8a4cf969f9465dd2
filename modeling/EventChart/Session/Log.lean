import EventChart.Session.Request
import EventChart.Graph.Chains
/-!
# A session over a log file

A `Session` holds what a client of the library holds while it works on one
log file: the file store, every log it opened (events keep the identity of
their log, so an event of a log opened earlier can still be asked about),
the current log, events held by name, a filtered view, a timeline mapper
and an independent reader of the same file.

`Session.step` runs one request against the session and answers it.  Each
request names its operation in `do`; events are named by number (`n`,
looked up in the current log, possibly finding none) or by a held name
(`held`).  A request may say that its caller has already given up
(`cancel`).  A failure is answered as an error record, with the data the
operation produced before it failed where it produced any.  When the log
reports progress, the fractions reported during a request are added to its
answer.
-/

namespace EventChart

/-- The log file of a session. -/
def sessionLogPath : String := "<dir>/sample.elog"

/-- What a client holds while working on a log file. -/
structure Session where
  store : Store
  logs : Array EventLog
  current : Option Nat
  held : List (String × Option EventRef)
  filter : Option FilteredLog
  mapper : Option Mapper
  reader : Option Reader
  progress : Array Float

namespace Session

/-- A session with an empty store. -/
def empty : Session := ⟨Store.empty, #[], none, [], none, none, none, #[]⟩

instance : Inhabited Session := ⟨empty⟩

/-- The current log. -/
def log? (s : Session) : Option EventLog := s.current.bind (s.logs[·]?)

/-- The current log, required. -/
def needLog (s : Session) : Except Fault EventLog :=
  match s.log? with
  | some l => .ok l
  | none => .error (.missing .log)

/-- The filter, required. -/
def needFilter (s : Session) : Except Fault FilteredLog :=
  match s.filter with
  | some f => .ok f
  | none => .error (.missing .filter)

/-- The mapper, required. -/
def needMapper (s : Session) : Except Fault Mapper :=
  match s.mapper with
  | some m => .ok m
  | none => .error (.missing .mapper)

/-- The reader, required. -/
def needReader (s : Session) : Except Fault Reader :=
  match s.reader with
  | some r => .ok r
  | none => .error (.missing .reader)

/-- Stores a changed log. -/
def putLog (s : Session) (l : EventLog) : Session := { s with logs := s.logs.set! l.id l }

/-- The data of an event of any log. -/
def eventOf? (s : Session) (r : EventRef) : Option Event := (s.logs[r.log]?).bind (·.event? r)

/-- An event by number, time and module, or null. -/
def short (s : Session) (r : Option EventRef) : Doc := Report.opt Report.shortEvent (r.bind s.eventOf?)

/-- The event a request names with a prefix: a held one, or the current
log's event of a number. -/
def ref (s : Session) (d : Doc) (pre : String := "") : Except Fault (Option EventRef) := do
  if d.has (pre ++ "held") then
    let name ← d.textReq (pre ++ "held")
    return (s.held.lookup name).join
  let l ← s.needLog
  return l.eventForNumber (← d.intReq (pre ++ "n"))

/-- Keeps progress fractions until the next answer. -/
def report (s : Session) (p : Array Float) : Session := { s with progress := s.progress ++ p }

/-- The summary of a log. -/
def summary (s : Session) (l : EventLog) : Doc :=
  .record [("len", .int l.length), ("epoch", .int l.epoch), ("size", .int l.size),
    ("first", s.short l.first), ("last", s.short l.last), ("approx", .int l.length),
    ("parse_errors", .list (l.index.parseErrors.toList.map fun e => Report.fault (.badLine e))),
    ("num_parse_errors", .int l.index.numParseErrors),
    ("modules", .list (l.index.modules.toList.map Report.moduleCreated)),
    ("sim_begin", Report.opt Report.entry l.index.simBegin)]

/-- Everything about an event. -/
def fullEvent (s : Session) (r : EventRef) : Doc :=
  match s.logs[r.log]?, s.eventOf? r with
  | some own, some e =>
    let index := match s.log? with
      | some l => Report.orFault (fun i => .int i) (l.indexOf (some r))
      | none => .null
    .record [("n", .int e.number), ("t", Report.time e.time), ("m", .int e.moduleId), ("ce", .int e.causeEvent),
      ("msg", .int e.messageId), ("line", .int e.pos.line), ("offset", .int e.pos.offset),
      ("end", .int e.endOffset), ("epoch", .int e.epoch), ("valid", .bool (own.isValid r)),
      ("self", .bool e.isSelfMessageProcessing), ("cause", Report.opt Report.dependency e.cause?),
      ("cause_message", Report.opt Report.message e.causeMessage),
      ("sent", .list (e.sent.toList.map Report.message)), ("causes", Report.dependencies e.causes),
      ("consequences", Report.dependencies (own.consequencesOf r)), ("index", index)]
  | _, _ => .null

/-- Whether each expression matches a subject, or its syntax error. -/
def exprMatches (exprs : List String) (subj : Match.Subject) : Doc :=
  .list (exprs.map fun src =>
    match Match.Filter.parse src with
    | .ok f => .bool (f.accepts subj)
    | .error e => Report.syntaxError e)

/-- A module of the tree. -/
def moduleDoc (m : Module) (exprs : Option (List String)) : Doc :=
  let base : List (String × Doc) :=
    [("id", .int m.id), ("parent_id", .int m.parentId), ("name", .text m.name), ("full_path", .text m.fullPath),
      ("class", .text m.className), ("type", .text m.typeName), ("compound", .bool m.compound),
      ("parent", Report.opt (fun p => .int p) m.parent), ("children", Report.ints m.children)]
  match exprs with
  | some xs => .record (base ++ [("expr_matches", exprMatches xs m.subject)])
  | none => .record base

/-- The chains of a list of dependencies. -/
def chainsDoc (deps : List Dependency) : Doc :=
  .list ((chains deps).map fun c =>
    .record [("id", .int c.id), ("events", Report.ints c.events), ("deps", Report.dependencies c.deps)])

/-- An optional list of texts: none when the field is absent. -/
def textsField? (d : Doc) (k : String) : Except Fault (Option (List String)) := do
  if (d.field? k).isSome then return some (← d.texts k) else return none

/-- The explanation of an event. -/
def explanationDoc (x : Explanation) : List (String × Doc) :=
  [("passed", .bool x.passed),
    ("checks", .list (x.checks.map fun (c, ok) => .record [("name", .text c.name), ("passed", .bool ok)])),
    ("first_failure", Report.opt (fun c => .text c.name) x.firstFailure)]

/-! ## File and log requests -/

/-- Opens the log file anew; the filter and the mapper are forgotten. -/
def openLog (s : Session) (d : Doc) (canceled : Bool) : Except Fault (Session × Doc) := do
  let opts : LogOptions := ⟨← d.intOr "max_cached_events" 0, ← d.intOr "fingerprint_bytes" 0,
    ← d.boolOr "progress" false⟩
  let s := match s.log? with
    | some l => s.putLog l.close
    | none => s
  let s := { s with filter := none, mapper := none }
  let (progress, r) := EventLog.openFile s.store s.logs.size sessionLogPath opts canceled
  match r with
  | .ok l =>
    let s := { s with logs := s.logs.push l, current := some l.id }
    pure (s.report progress, s.summary l)
  | .error e => pure (({ s with current := none }).report progress, Report.fault e)

/-- The requests on the file and on the current log. -/
def logStep (s : Session) (op : String) (d : Doc) (canceled : Bool) : Option (Except Fault (Session × Doc)) :=
  let ok : Doc := .record [("ok", .bool true)]
  let content : Except Fault ByteArray := (·.toUTF8) <$> d.textOr "content" ""
  match op with
  | "write" => some do pure ({ s with store := s.store.write sessionLogPath (← content) }, ok)
  | "append" => some do pure ({ s with store := s.store.append sessionLogPath (← content) }, ok)
  | "replace" => some do pure ({ s with store := s.store.replace sessionLogPath (← content) }, ok)
  | "remove" => some do pure ({ s with store := s.store.remove sessionLogPath }, ok)
  | "open" => some (s.openLog d canceled)
  | "close" => some do
    let l ← s.needLog
    pure (s.putLog l.close, ok)
  | "check" => some do
    let l ← s.needLog
    let (l', progress, change, err) := l.checkForChanges s.store canceled
    let doc := (Report.withFault (.record []) err).withField "change" (.text change.name)
    pure ((s.putLog l').report progress, doc)
  | "sync" => some do
    let l ← s.needLog
    let change ← Request.change d
    let (l', progress, err) := l.synchronize s.store canceled change
    pure ((s.putLog l').report progress, match err with | some e => Report.fault e | none => ok)
  | "summary" => some do
    let l ← s.needLog
    pure (s, s.summary l)
  | "events" => some do
    let l ← s.needLog
    pure (s, .record [("events", .list (l.index.events.toList.map Report.shortEvent))])
  | "event" => some do
    let r ← s.ref d
    pure (s, .record [("event", Report.opt s.fullEvent r)])
  | "event_at" => some do
    let l ← s.needLog
    pure (s, .record [("event", s.short (l.eventAt (← d.intOr "i" 0)))])
  | "hold" => some do
    let r ← s.ref d
    let name ← d.textReq "as"
    pure ({ s with held := (name, r) :: s.held.filter (·.1 != name) }, .record [("event", s.short r)])
  | "entries" => some do
    let r ← s.ref d
    let exprs ← textsField? d "exprs"
    match r with
    | none => pure (s, .record [("entries", .null)])
    | some r =>
      match s.logs[r.log]? with
      | none => pure (s, .record [("entries", .null)])
      | some own =>
        let (own', res) := own.entries s.store r
        let s := s.putLog own'
        match res with
        | .error e => pure (s, Report.fault e)
        | .ok es =>
          let doc := Doc.record [("entries", .list (es.map Report.entry))]
          match exprs with
          | none => pure (s, doc)
          | some xs => pure (s, doc.withField "expr_matches" (.list (es.map fun e => exprMatches xs e.subject)))
  | "by_time" => some do
    let l ← s.needLog
    let t ← Request.time d "t"
    pure (s, .record [("last_not_after", s.short (l.lastNotAfter t)),
      ("first_not_before", s.short (l.firstNotBefore t))])
  | "neighbour" => some do
    let l ← s.needLog
    let r ← s.ref d
    let delta ← d.intOr "delta" 1
    pure (s, Report.orFault (fun e => .record [("event", s.short e)]) (l.neighbour r delta))
  | "position" => some do
    let l ← s.needLog
    let n ← d.intReq "n"
    pure (s, .record [("search", .int (l.searchNumber n)), ("percentage", .float (l.percentage n))])
  | "deps" => some do
    let l ← s.needLog
    let a ← s.ref d "start_"
    let b ← s.ref d "end_"
    pure (s, Report.orFault Report.depSet (l.crossing canceled a b))
  | "message_for_dep" => some do
    let l ← s.needLog
    let dep ← Request.dependency ((d.field? "dep").getD .null)
    pure (s, .record [("message", Report.opt Report.message (l.messageFor dep))])
  | "module_tree" => some do
    let l ← s.needLog
    let exprs ← textsField? d "exprs"
    let t := l.moduleTree
    let byId := t.modules.mergeSort fun a b => a.id ≤ b.id
    let base : List (String × Doc) :=
      [("len", .int t.size), ("roots", Report.ints t.roots),
        ("walk", .list (t.walk.map fun (id, depth) => .list [.int id, .int depth])),
        ("modules", .list (byId.map (moduleDoc · exprs)))]
    match ← d.int? "lookup" with
    | some id => pure (s, .record (base ++ [("lookup", Report.opt (moduleDoc · exprs) (t.find? id))]))
    | none => pure (s, .record base)
  | "collect" => some do
    let l ← s.needLog
    let dir ← match ← d.textOr "dir" "causes" with
      | "causes" => pure Direction.causes
      | "consequences" => pure .consequences
      | other => throw (.badInput ("unknown direction " ++ other))
    let ms := 1000000
    let lim : Limits := ⟨← d.intOr "max_depth" 0, ← d.intOr "max_count" 0, (← d.intOr "max_duration_ms" 0) * ms,
      ← d.boolOr "include_reuses" false, ← d.boolOr "exclude_self" false⟩
    let clock : Clock := ⟨0, (← d.intOr "clock_step_ms" 0) * ms⟩
    let on ← d.textOr "on" "base"
    let contains ← d.ints "contains"
    let wantContains := (d.field? "contains").isSome
    let wantChains ← d.boolOr "chains" false
    let r ← s.ref d
    let some origin := r.bind s.eventOf? | throw .noSuchEvent
    let (col, s) ← if on = "filter" then do
        let f ← s.needFilter
        let (col, v) ← (collect (LogView.walkView l canceled) l.length origin dir lim clock canceled).run
          (LogView.filtered f)
        let s := match v with
          | .filtered f' => { s with filter := some f' }
          | .full => s
        pure (col, s)
      else do
        let col ← (collect l.walkView l.length origin dir lim clock canceled).run' ()
        pure (col, s)
    let base : List (String × Doc) :=
      [("origin", .int col.origin), ("direction", .text col.direction.name),
        ("nodes", .list (col.nodes.map fun n =>
          .record [("n", .int n.number), ("depth", .int n.depth), ("kind", .text n.kind.name)])),
        ("deps", Report.dependencies col.deps), ("partial", .bool col.incomplete),
        ("limit", .text (Limit.name col.limit))]
    let base := if wantContains then base ++ [("contains", .list (contains.map fun n => .bool (col.contains n)))]
      else base
    let base := if wantChains then base ++ [("chains", chainsDoc col.deps)] else base
    pure (s, .record base)
  | _ => none

/-! ## Filter requests -/

/-- Runs a filter computation and keeps the filter's new state. -/
def onFilter {α : Type} (s : Session) (k : EventLog → FilterM α) : Except Fault (Session × Except Fault α) := do
  let f ← s.needFilter
  let l ← s.needLog
  match (k l).run f with
  | .ok (a, f') => pure ({ s with filter := some f' }, .ok a)
  | .error e => pure (s, .error e)

/-- The numbers of the visible events from one end, walking by `step`. -/
def walkVisible (l : EventLog) (canceled : Bool) (step : Int) :
    FilteredLog → List Int × FilteredLog × Option Fault := fun f =>
  let start := if step > 0 then FilteredLog.first l canceled else FilteredLog.last l canceled
  match start.run f with
  | .error e => ([], f, some e)
  | .ok (e, f) => go (l.length + 2) e f []
where
  go : Nat → Option EventRef → FilteredLog → List Int → List Int × FilteredLog × Option Fault
    | 0, _, f, acc => (acc.reverse, f, none)
    | _, none, f, acc => (acc.reverse, f, none)
    | fuel + 1, some r, f, acc =>
      let acc := ((l.event? r).map (·.number)).toList ++ acc
      match (FilteredLog.neighbour l canceled (some r) step).run f with
      | .error e => (acc.reverse, f, some e)
      | .ok (next, f) => go fuel next f acc

/-- The requests on the filtered view. -/
def filterStep (s : Session) (op : String) (d : Doc) (canceled : Bool) : Option (Except Fault (Session × Doc)) :=
  let ok : Doc := .record [("ok", .bool true)]
  let eventAnswer (r : Except Fault (Session × Except Fault (Option EventRef))) : Except Fault (Session × Doc) := do
    let (s, res) ← r
    pure (s, Report.orFault (fun e => .record [("event", s.short e)]) res)
  let depsAnswer (r : Except Fault (Session × Except Fault DepSet)) : Except Fault (Session × Doc) := do
    let (s, res) ← r
    pure (s, Report.orFault Report.depSet res)
  match op with
  | "filter" => some do
    let l ← s.needLog
    let p ← Request.parametersField d "params"
    match FilteredLog.create l p with
    | .ok f => pure ({ s with filter := some f }, ok)
    | .error e => pure ({ s with filter := none }, Report.fault e)
  | "unfilter" => some (pure ({ s with filter := none }, ok))
  | "f_reset" => some do
    let f ← s.needFilter
    let l ← s.needLog
    pure ({ s with filter := some (f.reset l) }, ok)
  | "f_params" => some do
    let f ← s.needFilter
    pure (s, .record [("params", Report.parameters f.params)])
  | "f_events" | "f_events_back" => some do
    let f ← s.needFilter
    let l ← s.needLog
    let (ns, f', err) := walkVisible l canceled (if op = "f_events" then 1 else -1) f
    pure ({ s with filter := some f' }, Report.withFault (.record [("events", Report.ints ns)]) err)
  | "f_first" => some (eventAnswer (s.onFilter fun l => FilteredLog.first l canceled))
  | "f_last" => some (eventAnswer (s.onFilter fun l => FilteredLog.last l canceled))
  | "f_event" => some do
    let n ← d.intReq "n"
    eventAnswer (s.onFilter fun l => FilteredLog.eventForNumber l canceled n)
  | "f_neighbour" => some do
    let r ← s.ref d
    let delta ← d.intOr "delta" 1
    eventAnswer (s.onFilter fun l => FilteredLog.neighbour l canceled r delta)
  | "f_direction" => some do
    let r ← s.ref d
    let forward ← d.boolOr "forward" true
    eventAnswer (s.onFilter fun l => FilteredLog.neighbour l canceled r (if forward then 1 else -1))
  | "f_by_time" => some do
    let t ← Request.time d "t"
    let (s, a) ← s.onFilter fun l => FilteredLog.lastNotAfter l canceled t
    let (s, b) ← s.onFilter fun l => FilteredLog.firstNotBefore l canceled t
    match a, b with
    | .ok x, .ok y => pure (s, .record [("last_not_after", s.short x), ("first_not_before", s.short y)])
    | .error e1, .error e2 => pure (s, Report.fault (.both e1 e2))
    | .error e, _ => pure (s, Report.fault e)
    | _, .error e => pure (s, Report.fault e)
  | "f_matches" => some do
    let r ← s.ref d
    let (s, res) ← s.onFilter fun l => FilteredLog.isVisible l canceled r
    match res with
    | .ok v => pure (s, .record [("matches", .bool v)])
    | .error e => pure (s, (Report.fault e).withField "matches" (.bool false))
  | "f_explain" => some do
    let r ← s.ref d
    let (s, res) ← s.onFilter fun l => FilteredLog.explain l canceled r
    pure (s, Report.orFault (fun x => .record (explanationDoc x)) res)
  | "f_explain_all" => some do
    let _ ← s.needFilter
    let l ← s.needLog
    let mut s := s
    let mut out : Array Doc := #[]
    for e in l.index.events do
      let (s', res) ← s.onFilter fun l => FilteredLog.explain l canceled (some (l.refOf e))
      s := s'
      out := out.push (match res with
        | .ok x => .record (explanationDoc x ++ [("n", .int e.number)])
        | .error f => (Report.fault f).withField "n" (.int e.number))
    pure (s, .record [("explain", .list out.toList)])
  | "f_approx" => some do
    let (s, res) ← s.onFilter FilteredLog.approximateCount
    pure (s, Report.orFault (fun n => .record [("approx", .int n)]) res)
  | "f_percentage" => some do
    let n ← d.intReq "n"
    let (s, res) ← s.onFilter fun l => FilteredLog.percentage l n
    pure (s, Report.orFault (fun p => .record [("percentage", .float p)]) res)
  | "f_deps" => some do
    let a ← s.ref d "start_"
    let b ← s.ref d "end_"
    depsAnswer (s.onFilter fun l => FilteredLog.crossing l canceled a b)
  | "f_causes_of" => some do
    let r ← s.ref d
    depsAnswer (s.onFilter fun l => FilteredLog.dependenciesOf l canceled r .causes)
  | "f_consequences_of" => some do
    let r ← s.ref d
    depsAnswer (s.onFilter fun l => FilteredLog.dependenciesOf l canceled r .consequences)
  | "f_trace_partial" => some do
    let (s, res) ← s.onFilter fun l => FilteredLog.traceIncomplete l canceled
    match res with
    | .ok v => pure (s, .record [("partial", .bool v)])
    | .error e => pure (s, (Report.fault e).withField "partial" (.bool false))
  | _ => none

/-! ## Timeline requests -/

/-- Runs a mapper computation; the mapper keeps what it found even when the
computation fails. -/
def onMapper {α : Type} (s : Session) (canceled : Bool) (k : ChartEnv → MapperM α) :
    Except Fault (Session × Except Fault α) := do
  let m ← s.needMapper
  let l ← s.needLog
  let (res, m') := (k ⟨s.logs, l, canceled⟩).run.run m
  pure ({ s with mapper := some m' }, res)

/-- The origin and, if asked, the mode of the mapper. -/
def originDoc (s : Session) (withMode : Bool) : Doc :=
  match s.mapper with
  | some m =>
    let base := [("origin", s.short m.origin)]
    .record (if withMode then base ++ [("mode", .text m.mode.name)] else base)
  | none => .null

/-- The requests on the timeline mapper and the axis. -/
def chartStep (s : Session) (op : String) (d : Doc) (canceled : Bool) : Option (Except Fault (Session × Doc)) :=
  let originAnswer (withMode : Bool) (r : Except Fault (Session × Except Fault Unit)) :
      Except Fault (Session × Doc) := do
    let (s, res) ← r
    pure (s, Report.orFault (fun _ => s.originDoc withMode) res)
  match op with
  | "mapper" => some do
    let l ← s.needLog
    let mode ← Mode.parse (← d.textOr "mode" "simulation_time")
    let view ← match ← d.textOr "on" "base" with
      | "filter" => LogView.filtered <$> s.needFilter
      | _ => pure LogView.full
    let minDelta ← d.floatOr "min_delta" 0
    let focus ← d.floatOr "focus" 0
    match Mapper.create ⟨s.logs, l, canceled⟩ view mode minDelta focus with
    | .ok m => let s := { s with mapper := some m }; pure (s, s.originDoc true)
    | .error e => pure ({ s with mapper := none }, Report.fault e)
  | "m_set_mode" => some do
    let mode ← Mode.parse (← d.textReq "mode")
    originAnswer true (s.onMapper canceled fun c => Mapper.setMode c mode)
  | "m_relocate" => some do
    let r ← s.ref d
    originAnswer false (s.onMapper canceled fun c => Mapper.relocateOrigin c r)
  | "m_undefine" => some (originAnswer false (s.onMapper canceled fun c => Mapper.relocate c none))
  | "m_reset" => some (originAnswer false (s.onMapper canceled Mapper.reset))
  | "m_origin" => some do
    let _ ← s.needMapper
    pure (s, s.originDoc true)
  | "m_coord" => some do
    let _ ← s.needMapper
    let r ← s.ref d
    let (s, res) ← s.onMapper canceled fun c => Mapper.coordinate c r
    match res with
    | .ok x => pure (s, .record [("c", .float x)])
    | .error e => pure (s, (Report.fault e).withField "c" (.float 0))
  | "m_coords" => some do
    let l ← s.needLog
    let _ ← s.needMapper
    let mut s := s
    let mut out : Array Doc := #[]
    for e in l.index.events do
      let (s', res) ← s.onMapper canceled fun c => Mapper.coordinate c (some (l.refOf e))
      s := s'
      out := out.push (.list [.int e.number, Report.orFault .float res])
    pure (s, .record [("coords", .list out.toList)])
  | "m_last_not_after" | "m_first_not_before" => some do
    let _ ← s.needMapper
    let x ← d.floatReq "c"
    let (s, res) ← s.onMapper canceled fun c =>
      if op = "m_last_not_after" then Mapper.lastNotAfter c x else Mapper.firstNotBefore c x
    pure (s, Report.orFault (fun e => .record [("event", s.short e)]) res)
  | "m_time_for" => some do
    let _ ← s.needMapper
    let xs ← d.floats "cs"
    let upper ← d.boolOr "upper" false
    let mut s := s
    let mut out : Array Doc := #[]
    for x in xs do
      let (s', res) ← s.onMapper canceled fun c => Mapper.timeAt c x upper
      s := s'
      out := out.push (Report.orFault Report.time res)
    pure (s, .record [("times", .list out.toList)])
  | "m_coord_for" => some do
    let _ ← s.needMapper
    let ts := (← d.texts "ts").map Request.timeOfText
    let upper ← d.boolOr "upper" false
    let mut s := s
    let mut out : Array Doc := #[]
    for t in ts do
      let (s', res) ← s.onMapper canceled fun c => do Mapper.coordinateAt c (← Mapper.liftExcept t) upper
      s := s'
      out := out.push (Report.orFault .float res)
    pure (s, .record [("coords", .list out.toList)])
  | "m_default_ppu" => some do
    let _ ← s.needMapper
    let width ← d.intOr "width" 1000
    let (s, res) ← s.onMapper canceled fun c => Mapper.defaultScale c width
    match res with
    | .ok x => pure (s, .record [("ppu", .float x)])
    | .error e => pure (s, (Report.fault e).withField "ppu" (.float 1))
  | "axis_tick" => some do
    let _ ← s.needMapper
    let v ← Request.viewport d
    let x ← d.floatReq "x"
    let range ← d.floatOr "range" 1
    let (s, res) ← s.onMapper canceled fun c => Mapper.tickAt c v x range
    pure (s, Report.orFault (fun t => .record [("t", Report.time t)]) res)
  | "axis_ticks" => some do
    let _ ← s.needMapper
    let v ← Request.viewport d
    let spacing ← d.intOr "spacing" 0
    let (s, res) ← s.onMapper canceled fun c => Mapper.ticks c v spacing
    pure (s, Report.orFault (fun ts => .record [("prefix", Report.time ts.pref), ("prefix_text", .text ts.prefixText),
      ("ticks", .list (ts.ticks.map fun t =>
        .record [("t", Report.time t.time), ("x", .int t.x), ("label", .text t.label)]))]) res)
  | "axis_x" => some do
    let _ ← s.needMapper
    let v ← Request.viewport d
    let ts := (← d.texts "ts").map Request.timeOfText
    let mut s := s
    let mut out : Array Doc := #[]
    for t in ts do
      let (s', res) ← s.onMapper canceled fun c => do Mapper.pixelOf c v (← Mapper.liftExcept t)
      s := s'
      out := out.push (Report.orFault .int res)
    pure (s, .record [("xs", .list out.toList)])
  | "axis_time_at" => some do
    let _ ← s.needMapper
    let v ← Request.viewport d
    let xs ← d.floats "xs"
    let upper ← d.boolOr "upper" false
    let mut s := s
    let mut out : Array Doc := #[]
    for x in xs do
      let (s', res) ← s.onMapper canceled fun c => Mapper.timeAtPixel c v x upper
      s := s'
      out := out.push (Report.orFault Report.time res)
    pure (s, .record [("times", .list out.toList)])
  | _ => none

/-! ## Reader requests -/

/-- A line of the file. -/
def lineDoc (l : Line) : Doc :=
  .record [("text", .text l.text), ("offset", .int l.offset), ("number", .int l.number), ("end", .int l.endOffset)]

/-- The requests on the independent reader. -/
def readerStep (s : Session) (op : String) (d : Doc) (canceled : Bool) : Option (Except Fault (Session × Doc)) :=
  match op with
  | "r_open" => some do
    match Reader.openFile s.store sessionLogPath (← d.intOr "fingerprint_bytes" 0) with
    | .ok r => pure ({ s with reader := some r }, .record [("size", .int r.size)])
    | .error e => pure (s, Report.fault e)
  | "r_close" => some do
    let r ← s.needReader
    pure ({ s with reader := some r.close }, .record [("ok", .bool true)])
  | "r_check" => some do
    let r ← s.needReader
    let (r', res) := r.check s.store
    let s := { s with reader := some r' }
    match res with
    | .ok c => pure (s, .record [("change", .text c.name), ("size", .int r'.size)])
    | .error e => pure (s, (Report.fault e).withFields [("change", .text "unchanged"), ("size", .int r'.size)])
  | "r_lines" => some do
    let r ← s.needReader
    let start : Position := ⟨← d.intOr "from_offset" 0, ← d.intOr "from_line" 1⟩
    let upto ← d.intOr "to" (-1)
    let stopAfter ← d.intOr "stop_after" (-1)
    let visit (acc : Array Line) (l : Line) : Visit (Array Line) :=
      if stopAfter ≥ 0 ∧ (acc.size : Int) ≥ stopAfter then .stop acc else .next (acc.push l)
    let (lines, next, err) := r.readLines s.store canceled start upto #[] visit
    let doc : Doc := .record [("lines", .list (lines.toList.map lineDoc)), ("next_offset", .int next.offset),
      ("next_line", .int next.line)]
    pure (s, Report.withFault doc err)
  | "r_entry" => some do
    let r ← s.needReader
    let offset ← d.intReq "offset"
    let line ← d.intOr "line" 1
    pure (s, Report.orFault (fun e => .record [("entry", Report.entry e)]) (r.readEntryAt s.store offset line))
  | _ => none

/-- Runs one request; progress stays pending. -/
def perform (s : Session) (d : Doc) : Session × Doc :=
  let run : Except Fault (Session × Doc) := do
    let op ← d.textReq "do"
    let canceled ← d.boolOr "cancel" false
    match s.logStep op d canceled <|> s.filterStep op d canceled <|> s.chartStep op d canceled <|>
        s.readerStep op d canceled with
    | some r => r
    | none => throw (.badInput ("unknown step " ++ Text.quote op))
  match run with
  | .ok r => r
  | .error e => (s, Report.fault e)

/-- Runs one request and answers it with the progress reported since the
last answer. -/
def step (s : Session) (d : Doc) : Session × Doc :=
  let (s, a) := s.perform d
  if s.progress.isEmpty then (s, a)
  else ({ s with progress := #[] }, a.withField "progress" (.list (s.progress.toList.map .float)))

/-- Runs a whole request: writes the content, opens the log if asked, then
runs the steps in order. -/
def runLog (d : Doc) : Except Fault Doc := do
  let s := Session.empty
  let s := match d.field? "content" with
    | some (.text c) => { s with store := s.store.write sessionLogPath c.toUTF8 }
    | _ => s
  let (s, opened) ← match d.field? "open" with
    | some o =>
      let (s, a) := s.perform (o.withField "do" (.text "open"))
      pure (s, [("open", a)])
    | none => pure (s, [])
  let steps ← (·.getD []) <$> d.list? "steps"
  let (_, results) := steps.foldl (fun (s, acc) st => let (s, a) := s.step st; (s, acc.push a)) (s, #[])
  pure (.record (opened ++ [("results", .list results.toList)]))

end Session

end EventChart
