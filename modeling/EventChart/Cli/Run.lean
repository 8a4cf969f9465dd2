import EventChart.Cli.Invocation
import EventChart.Cli.Listing
import EventChart.Config.Sources
import EventChart.Filter.LogView
import EventChart.Filter.Settings
import EventChart.Chart.Axis
import EventChart.Live.Owner
import EventChart.Live.Watcher
/-!
# Running a command

A run reads its files from a `Store` and writes two streams: the report on
the standard output, and warnings, log lines and the final error on the
standard error.  `Console` holds both and the files; `RunM` is a run that
may stop with a `Fault`, keeping what it wrote.

The commands that read a log first load the settings, then open the log
(and log that it was indexed), then build the filter parameters from the
defaults, the configured limits, a `--filter` file and the filter options.
The view they query is the filtered one when any filter option or file was
given, and the whole log otherwise.

Log lines are written as `[log] LEVEL message`: every level in verbose
mode, only warnings otherwise (then as `[log] warn message`).
-/

namespace EventChart.Cli

/-- The levels of log lines. -/
inductive LogLevel where
  | debug
  | info
  | warn
deriving DecidableEq, Repr

/-- A level as verbose log lines show it. -/
def LogLevel.upper : LogLevel → String
  | .debug => "DEBUG"
  | .info => "INFO"
  | .warn => "WARN"

/-- What a run has written, and the files. -/
structure Console where
  out : String
  err : String
  store : Store
  /-- Whether log lines of every level are written. -/
  verbose : Bool
  /-- Whether log lines are written at all: only once the settings are read. -/
  logging : Bool

/-- A run that may stop with a fault, keeping what it wrote. -/
abbrev RunM := ExceptT Fault (StateM Console)

/-- Writes to the standard output. -/
def say (s : String) : RunM Unit := modify fun c => { c with out := c.out ++ s }

/-- Writes to the standard error. -/
def complain (s : String) : RunM Unit := modify fun c => { c with err := c.err ++ s }

/-- Writes a log line, if the level is shown. -/
def logLine (lv : LogLevel) (msg : String) : RunM Unit := modify fun c =>
  if !c.logging then c
  else if c.verbose then { c with err := c.err ++ "[log] " ++ lv.upper ++ " " ++ msg ++ "\n" }
  else if lv = .warn then { c with err := c.err ++ "[log] warn " ++ msg ++ "\n" }
  else c

/-- Stops with a fault of a computation. -/
def orStop {α : Type} (r : Except Fault α) : RunM α :=
  match r with
  | .ok a => pure a
  | .error e => throw e

/-! ## Settings, log and filter -/

/-- Loads the settings. -/
def loadConfig (inv : Invocation) (env : List (String × String)) : RunM Config := do
  let st := (← get).store
  let verboseFlag := if inv.changed "verbose" then some (inv.bool "verbose") else none
  let src : ConfigSources := ⟨settingsDocument st (inv.text "config"), env, verboseFlag⟩
  match src.load with
  | .ok c => pure c
  | .error e => throw (.other ("failed to load config: " ++ e))

/-- Loads the settings and starts logging as they say. -/
def startSession (inv : Invocation) (env : List (String × String)) : RunM Config := do
  let cfg ← loadConfig inv env
  modify fun c => { c with verbose := cfg.verbose, logging := true }
  pure cfg

/-- Opens and indexes a log. -/
def loadLog (cfg : Config) (path : String) : RunM EventLog := do
  let st := (← get).store
  let l ← orStop (EventLog.openFile st 0 path ⟨cfg.maxCachedEvents, cfg.headFingerprintBytes, false⟩ false).2
  logLine .info "event log indexed"
  logLine .debug "event log indexed"
  pure l

/-- Parameters with the configured collection limits. -/
def withLimits (p : Parameters) (lim : LimitsConfig) : Parameters :=
  { p with maxCauseDepth := lim.maxCauseDepth, maxConsequenceDepth := lim.maxConsequenceDepth,
           maxNumberOfCauses := lim.maxNumberOfCauses, maxNumberOfConsequences := lim.maxNumberOfConsequences,
           maxCauseCollectionTime := lim.maxCollectionTime,
           maxConsequenceCollectionTime := lim.maxCollectionTime,
           collectMessageReuses := lim.collectMessageReuses }

/-- Reads a filter file over parameters. -/
def loadFilterFile (path : String) (p : Parameters) : RunM Parameters := do
  match (← get).store.read? path with
  | none => throw (.other ("reading filter parameters: open " ++ path ++ ": no such file or directory"))
  | some data =>
    let text := (String.fromUTF8? data).getD ""
    match p.loadInto path text with
    | (q, none) => pure q
    | (_, some e) => throw e

/-- The options that make a view filtered. -/
def filteringFlags : List String :=
  ["from", "to", "exclude", "module-id", "module-name", "module-type", "module-expr", "message-id",
   "message-name", "message-class", "message-expr", "trace"]

/-- The filter parameters of a command line, and whether any filter was
asked for. -/
def filterParameters (inv : Invocation) (cfg : Config) : RunM (Parameters × Bool) := do
  let p := withLimits Parameters.default cfg.limits
  let file := inv.text "filter"
  let p ← if file.isEmpty then pure p else loadFilterFile file p
  let ch := inv.changed
  let p := if ch "from" then { p with firstEventNumber := inv.int "from" } else p
  let p := if ch "to" then { p with lastEventNumber := inv.int "to" } else p
  let p := if ch "exclude" then { p with excludedEventNumbers := inv.ints "exclude" } else p
  let p := if ch "module-id" || ch "module-name" || ch "module-type" || ch "module-expr" then
      { p with enableModuleFilter := true, moduleIds := inv.ints "module-id", moduleNames := inv.texts "module-name",
               moduleTypeNames := inv.texts "module-type", moduleExpression := inv.text "module-expr" }
    else p
  let p := if ch "message-id" || ch "message-name" || ch "message-class" || ch "message-expr" then
      { p with enableMessageFilter := true, messageIds := inv.ints "message-id",
               messageNames := inv.texts "message-name", messageClassNames := inv.texts "message-class",
               messageExpression := inv.text "message-expr" }
    else p
  let p := if ch "trace" then { p with tracedEventNumber := inv.int "trace" } else p
  let p := if ch "trace-causes" then { p with traceCauses := inv.bool "trace-causes" } else p
  let p := if ch "trace-consequences" then { p with traceConsequences := inv.bool "trace-consequences" } else p
  let active := !file.isEmpty || filteringFlags.any ch
  match p.validate with
  | some f => throw (.badParameters f)
  | none => pure (p, active)

/-- A filtered view of a log. -/
def filterView (l : EventLog) (p : Parameters) : RunM FilteredLog := do
  let f ← orStop (FilteredLog.create l p)
  logLine .debug "filter applied"
  pure f

/-- The view a command queries. -/
def visibleView (l : EventLog) (p : Parameters) (active : Bool) : RunM LogView :=
  if active then LogView.filtered <$> filterView l p else pure .full

/-- Logs the collection of a view's trace, when a query made it. -/
def noteTrace (before after : LogView) : RunM Unit :=
  match before, after with
  | .filtered f, .filtered g =>
    if !f.traced && g.traced then
      logLine .debug (if g.causes.isSome then "trace collected" else "traced event not in log")
    else pure ()
  | _, _ => pure ()

/-- Runs a query on a view; answers its result and the view's new state. -/
def withView {α : Type} (view : LogView) (k : ViewM α) : RunM (α × LogView) := do
  let (a, view') ← orStop (k.run view)
  noteTrace view view'
  pure (a, view')

/-- Runs a mapper computation; answers its result and the mapper's new state. -/
def withMapper {α : Type} (m : Mapper) (k : MapperM α) : RunM (α × Mapper) := do
  let (r, m') := k.run.run m
  noteTrace m.view m'.view
  match r with
  | .ok a => pure (a, m')
  | .error e => throw e

/-- The event with a number in a view. -/
def eventArg (l : EventLog) (view : LogView) (n : Int) : RunM (EventRef × LogView) := do
  let (r, view) ← withView view (LogView.eventForNumber l false n)
  match r with
  | some r => pure (r, view)
  | none => throw (.within ("event #" ++ toString n) (.notInLog false))

/-- The dependencies with an end between two events of a view. -/
def viewCrossing (l : EventLog) (a b : Option EventRef) : ViewM DepSet :=
  LogView.through (l.crossing false a b) (FilteredLog.crossing l false a b)

/-- The visible events of a view from the first on, at most `limit` of them
when `limit` is positive; and whether more are left. -/
def visibleEvents (l : EventLog) (view : LogView) (limit : Int) : RunM (List Event × Bool × LogView) := do
  let (first, view) ← withView view (LogView.first l false)
  let rec go : Nat → Option EventRef → LogView → List Event → RunM (List Event × Bool × LogView)
    | 0, _, view, acc => pure (acc.reverse, false, view)
    | _, none, view, acc => pure (acc.reverse, false, view)
    | fuel + 1, some r, view, acc => do
      if limit > 0 ∧ (acc.length : Int) = limit then return (acc.reverse, true, view)
      let acc := match l.event? r with
        | some e => e :: acc
        | none => acc
      let (next, view) ← withView view (LogView.neighbour l false (some r) 1)
      go fuel next view acc
  go (l.length + 2) first view []

/-! ## The commands -/

/-- `info`: a summary of the log. -/
def runInfo (inv : Invocation) (env : List (String × String)) (path : String) : RunM Unit := do
  let cfg ← startSession inv env
  let l ← loadLog cfg path
  say (summaryText path l)

/-- `modules`: the module tree. -/
def runModules (inv : Invocation) (env : List (String × String)) (path : String) : RunM Unit := do
  let cfg ← startSession inv env
  let l ← loadLog cfg path
  say (modulesText l.moduleTree)

/-- `events`: the visible events, or why one event is shown or hidden. -/
def runEvents (inv : Invocation) (env : List (String × String)) (path : String) : RunM Unit := do
  let cfg ← startSession inv env
  let l ← loadLog cfg path
  let (p, active) ← filterParameters inv cfg
  let tree := l.moduleTree
  if inv.changed "explain" then
    let n := inv.int "explain"
    let (r, _) ← eventArg l .full n
    let f ← filterView l p
    let (x, _) ← withView (.filtered f) (LogView.through (.error (.notInLog false))
      (FilteredLog.explain l false (some r)))
    say (explanationText n x)
  else
    let view ← visibleView l p active
    let limit := inv.int "limit"
    let (events, more, view) ← visibleEvents l view limit
    if more then
      say (eventsText tree events)
      let (total, _) ← withView view (LogView.approximateCount l)
      complain (warning ("output limited to " ++ toString limit ++ " of about " ++ toString total ++
        " events, use --limit to change"))
    else say (eventsText tree events)

/-- `deps`: the dependencies crossing a range of visible events. -/
def runDeps (inv : Invocation) (env : List (String × String)) (path : String) : RunM Unit := do
  let cfg ← startSession inv env
  let l ← loadLog cfg path
  let (p, active) ← filterParameters inv cfg
  let view ← visibleView l p active
  let (start, view) ← withView view (LogView.first l false)
  let (stop, view) ← withView view (LogView.last l false)
  let first := inv.int "first"
  let (start, view) ← if first ≥ 0 then do
      let (r, view) ← eventArg l view first
      pure (some r, view)
    else pure (start, view)
  let last := inv.int "last"
  let (stop, view) ← if last ≥ 0 then do
      let (r, view) ← eventArg l view last
      pure (some r, view)
    else pure (stop, view)
  if start.isNone ∨ stop.isNone then
    complain (warning "no events")
  else
    let (set, _) ← withView view (viewCrossing l start stop)
    say (dependenciesText set.deps)
    if set.incomplete then complain incompleteWarning

/-- The collection limits of the configured settings in a direction. -/
def collectionLimits (lim : LimitsConfig) : Direction → Limits
  | .causes => ⟨lim.maxCauseDepth, lim.maxNumberOfCauses, lim.maxCollectionTime, lim.collectMessageReuses, false⟩
  | .consequences =>
    ⟨lim.maxConsequenceDepth, lim.maxNumberOfConsequences, lim.maxCollectionTime, lim.collectMessageReuses, false⟩

/-- `trace`: the causes and consequences of an event, and their chains. -/
def runTrace (inv : Invocation) (env : List (String × String)) (path : String) : RunM Unit := do
  let cfg ← startSession inv env
  let l ← loadLog cfg path
  let n := inv.int "event"
  let (r, _) ← eventArg l .full n
  let some origin := l.event? r | throw (.notInLog true)
  let dirs := (if inv.bool "causes" then [Direction.causes] else []) ++
    (if inv.bool "consequences" then [Direction.consequences] else [])
  let tree := l.moduleTree
  let mut all := DepCollector.empty
  for dir in dirs do
    let col ← match (collect l.walkView l.length origin dir (collectionLimits cfg.limits dir) ⟨0, 0⟩ false).run' () with
      | .ok c => pure c
      | .error e => throw (.within ("collecting " ++ dir.name ++ " of #" ++ toString n) e)
    let events := col.nodes.filterMap fun node => l.index.find? node.number
    say (dir.name ++ " of #" ++ toString n ++ ":\n")
    say (eventsText tree events)
    say (dependenciesText col.deps)
    if col.incomplete then
      complain (warning (Limit.name col.limit ++ " limit reached while collecting " ++ dir.name))
    all := all.addAll col.deps
  say (chainsText (chains all.sorted))

/-- `ticks`: the ticks of the time axis of a viewport. -/
def runTicks (inv : Invocation) (env : List (String × String)) (path : String) : RunM Unit := do
  let cfg ← startSession inv env
  let l ← loadLog cfg path
  let (p, active) ← filterParameters inv cfg
  let view ← visibleView l p active
  let modeName := if (inv.text "mode").isEmpty then cfg.timeline.mode else inv.text "mode"
  let mode ← orStop (Mode.parse modeName)
  let c : ChartEnv := ⟨#[l], l, false⟩
  let m ← orStop (Mapper.create c view mode cfg.timeline.minimumDelta 0)
  noteTrace view m.view
  logLine .debug "timeline reset"
  let origin := inv.int "origin"
  let m ← if origin ≥ 0 then do
      let (r, m) ← withMapper m (Mapper.onView (LogView.eventForNumber l false origin))
      match r with
      | none => throw (.within ("event #" ++ toString origin) (.notInLog false))
      | some r =>
        let ((), m) ← withMapper m (Mapper.relocateOrigin c (some r))
        pure m
    else pure m
  let width := inv.int "width"
  if width ≤ 0 then throw (.other ("--width must be positive, got " ++ toString width))
  let ppu := inv.float "ppu"
  let (ppu, m) ← if ppu ≤ 0 then withMapper m (Mapper.defaultScale c width) else pure (ppu, m)
  let spacing := inv.int "spacing"
  let spacing := if spacing ≤ 0 then cfg.timeline.tickSpacing else spacing
  let (ts, m) ← withMapper m (Mapper.ticks c ⟨ppu, 0, width⟩ spacing)
  say (m.mode.name ++ ", " ++ Number.withSignificant 4 ppu ++ " pixels per unit\n")
  say (ticksText ts)

/-- The names of the directories a path lies in, outermost first. -/
def parentDirectories (path : String) : List String :=
  let parts := (path.splitOn "/").dropLast
  (List.range parts.length).filterMap fun i =>
    let dir := "/".intercalate (parts.take (i + 1))
    if dir.isEmpty ∨ dir = "." then none else some dir

/-- `filter save`: the filter of the options, written as a settings file. -/
def runFilterSave (inv : Invocation) (env : List (String × String)) (path : String) : RunM Unit := do
  let cfg ← loadConfig inv env
  let (p, _) ← filterParameters inv cfg
  let st := (← get).store
  match (parentDirectories path).find? fun d => (st.read? d).isSome with
  | some d =>
    let dir := "/".intercalate ((path.splitOn "/").dropLast)
    throw (.other ("creating directory " ++ dir ++ ": mkdir " ++ d ++ ": not a directory"))
  | none =>
    if st.names.any (fun (n, _) => n.startsWith (path ++ "/")) then
      throw (.other ("writing filter parameters: open " ++ path ++ ": is a directory"))
    modify fun c => { c with store := c.store.write path p.settingsText.toUTF8 }
    say ("✓ saved " ++ path ++ "\n")

/-- `filter check`: whether a settings file holds valid filter parameters. -/
def runFilterCheck (path : String) : RunM Unit := do
  let _ ← loadFilterFile path Parameters.default
  say ("✓ " ++ path ++ " is valid\n")

end EventChart.Cli
