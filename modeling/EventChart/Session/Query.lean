import EventChart.Session.Request
import EventChart.Graph.Chains
import EventChart.Filter.Settings
import EventChart.Config.Basic
/-!
# Questions that need no log

The requests answered from their own fields alone: facts and arithmetic of
simulation times, glob patterns and filter expressions against given
subjects, one line of the log read as an entry, kinds, chart modes, a
viewport's two directions, chains of given dependencies, kinds of
dependencies combined and filter parameters checked.
-/

namespace EventChart

namespace Query

open EventChart.Report

/-- The rounding a request names: `floor` unless it says `ceiling`. -/
def rounding (d : Doc) : Except Fault Rounding := do
  match ← d.text? "mode" with
  | none | some "floor" => pure .floor
  | some "ceiling" => pure .ceiling
  | some m => throw (.badInput ("unknown rounding mode " ++ m))

/-- A float, or the panic of a non-finite one. -/
def finite {α : Type} : Except NonFinite α → Except Fault α
  | .ok v => .ok v
  | .error e => .error (.nonFinite e)

/-- The sign of an ordering. -/
def orderingSign : Ordering → Int
  | .lt => -1
  | .eq => 0
  | .gt => 1

/-- Comparison and arithmetic of two times. -/
def timeOps (d : Doc) : Except Fault Doc := do
  let a ← Request.time d "a"
  let b ← Request.time d "b"
  pure (.record [("cmp", .int (orderingSign (a.cmp b))), ("less", .bool (decide (a < b))),
    ("equal", .bool (a.sameValue b)), ("add", time (a + b)), ("sub", time (a - b)),
    ("min", time (SimTime.min a b)), ("max", time (SimTime.max a b)), ("abs_a", time a.abs),
    ("common_prefix", .text (SimTime.commonPrefix a b))])

/-- Times from floats and powers of ten. -/
def timeFloat (d : Doc) : Except Fault Doc := do
  let f ← d.floatReq "f"
  let fromFloat ← finite (SimTime.ofFloat? f)
  let mul ← match ← d.text? "t" with
    | none => pure []
    | some s => do
      let t ← Request.timeOfText s
      pure [("mul", time (← finite (t.mulFloat? f)))]
  let pow ← match ← d.int? "pow10" with
    | none => pure []
    | some e => pure [("pow10", time (SimTime.pow10 e))]
  pure (.record ([("from_float", time fromFloat)] ++ mul ++ pow))

/-- A subject of filter expressions given as a default and attributes. -/
def subject (d : Doc) : Except Fault Match.Subject := do
  let dflt ← d.textOr "default" ""
  let attrs ← match d.field? "attrs" with
    | some (.record kvs) => kvs.mapM fun (k, v) => do pure (k, ← Request.textOf k v)
    | none => pure []
    | some _ => throw (.badInput "attrs is not an object")
  pure ⟨dflt, fun n => attrs.lookup n⟩

/-- A glob pattern against texts. -/
def pattern (d : Doc) : Except Fault Doc := do
  match Match.Glob.compile (← d.textReq "pattern") with
  | .error e => pure (syntaxError e)
  | .ok g =>
    let ins ← d.texts "inputs"
    pure (.record [("matches", .list (ins.map fun s => .bool (g.accepts s))), ("string", .text g.source)])

/-- A filter expression against subjects. -/
def expression (d : Doc) : Except Fault Doc := do
  match Match.Filter.parse (← d.textReq "expr") with
  | .error e => pure (syntaxError e)
  | .ok f =>
    let objs ← ((← d.list? "objects").getD []).mapM subject
    pure (.record [("matches", .list (objs.map fun s => .bool (f.accepts s))), ("string", .text f.source)])

/-- Whether an expression matches a subject, or its syntax error. -/
def exprMatch (src : String) (s : Match.Subject) : Doc :=
  match Match.Filter.parse src with
  | .error e => syntaxError e
  | .ok f => .bool (f.accepts s)

/-- The typed readings of one attribute of an entry. -/
def attributeReadings (e : Entry) (n : String) : Doc :=
  .record [("attr", .text ((e.attribute? n).getD "")), ("has", .bool (e.attribute? n).isSome),
    ("int", .int (e.int n (-7))), ("bool", .bool (e.bool n false)), ("bool_def_true", .bool (e.bool n true)),
    ("time", opt time (e.time? n))]

/-- One line read as an entry, with its views. -/
def parseLine (d : Doc) : Except Fault Doc := do
  let line ← d.textReq "line"
  let number ← d.intOr "line_number" 1
  let offset ← d.intOr "offset" 0
  let exprs ← d.texts "exprs"
  let gets ← d.texts "get"
  match Entry.parse line number offset with
  | .error e => pure (fault (.badLine e))
  | .ok e =>
    let ex := if (d.field? "exprs").isSome then [("expr_matches", .list (exprs.map (exprMatch · e.subject)))] else []
    let gt := if (d.field? "get").isSome then [("get", .record (gets.map fun n => (n, attributeReadings e n)))] else []
    pure (.record (entryFields e ++ entryViews e ++ [("attribute_names", texts e.kind.attributeNames)] ++ ex ++ gt))

/-- The request of a kind by tag. -/
def kindOf (d : Doc) : Except Fault Doc := do
  let k := Kind.ofTag (← d.textReq "tag")
  pure (.record [("kind", .text k.name), ("tag", .text k.tag), ("attribute_names", texts k.attributeNames)])

/-- Both directions of a viewport. -/
def viewport (d : Doc) : Except Fault Doc := do
  let v ← Request.viewport d
  let xs ← d.floats "xs"
  let cs ← d.floats "cs"
  pure (.record [("timeline", .list (xs.map fun x => .float (v.coordinate x))),
    ("viewport", .list (cs.map fun c => .int (v.pixel c)))])

/-- Chains of given dependencies. -/
def chainsOf (d : Doc) : Except Fault Doc := do
  let deps ← ((← d.list? "deps").getD []).mapM Request.dependency
  pure (.record [("chains", .list ((chains deps).map fun c =>
    .record [("id", .int c.id), ("events", ints c.events), ("deps", dependencies c.deps)]))])

/-- Two kinds of dependency and their combination. -/
def depKinds (d : Doc) : Except Fault Doc := do
  let a := DepKind.ofCode (← d.intReq "a")
  let b := DepKind.ofCode (← d.intReq "b")
  pure (.record [("a", .text a.name), ("b", .text b.name), ("combine", .text (a.combine b).name)])

/-- Filter parameters checked. -/
def validateParameters (d : Doc) : Except Fault Doc := do
  let p ← Request.parametersField d "params"
  let tracing := ("tracing", Doc.bool p.tracing)
  match p.validate with
  | none => pure (.record [tracing, ("valid", .bool true)])
  | some f => pure (.record [tracing, ("error", fault (.badParameters f))])

/-- Parameters read from a settings file over given or default ones. -/
def loadParameters (d : Doc) : Except Fault Doc := do
  let text ← d.textReq "toml"
  let start ← if ← d.boolOr "fresh" false then pure Parameters.default else Request.parametersField d "params"
  let (p, err) := start.loadInto "<dir>/params.toml" text
  let base := Doc.record [("params", parameters p)]
  pure (match err with
    | some e => base.withField "error" (fault e)
    | none => base)

/-- Parameters written as a settings file and read back. -/
def saveParameters (d : Doc) : Except Fault Doc := do
  let p ← Request.parametersField d "params"
  let text := p.settingsText
  let (q, err) := Parameters.default.loadInto "<dir>/sub/out.toml" text
  let base := Doc.record [("toml", .text text), ("reloaded", parameters q)]
  pure (match err with
    | some e => base.withField "reload_error" (fault e)
    | none => base)

/-- Fills timeline settings from a record by field name, in any case. -/
def timelineConfig (t : TimelineConfig) : Doc → Except Fault TimelineConfig
  | .record fs => fs.foldlM (fun t (k, v) =>
      let key := Request.lower k
      if key = "mode" then (fun x => { t with mode := x }) <$> Request.textOf k v
      else if key = "nonlinearminimumdelta" then
        match v.asFloat? with
        | some x => pure { t with minimumDelta := x }
        | none => throw (.badInput ("field " ++ k ++ " is not a number"))
      else if key = "tickspacing" then (fun x => { t with tickSpacing := x }) <$> Request.intOf k v
      else throw (.badInput ("json: unknown field " ++ Text.quote k))) t
  | .null => pure t
  | _ => throw (.badInput "Timeline is not an object")

/-- Fills collection limits from a record by field name, in any case. -/
def limitsConfig (l : LimitsConfig) : Doc → Except Fault LimitsConfig
  | .record fs => fs.foldlM (fun l (k, v) =>
      let key := Request.lower k
      if key = "maxcausedepth" then (fun x => { l with maxCauseDepth := x }) <$> Request.intOf k v
      else if key = "maxconsequencedepth" then (fun x => { l with maxConsequenceDepth := x }) <$> Request.intOf k v
      else if key = "maxnumberofcauses" then (fun x => { l with maxNumberOfCauses := x }) <$> Request.intOf k v
      else if key = "maxnumberofconsequences" then
        (fun x => { l with maxNumberOfConsequences := x }) <$> Request.intOf k v
      else if key = "maxcollectiontime" then (fun x => { l with maxCollectionTime := x }) <$> Request.intOf k v
      else if key = "collectmessagereuses" then
        (fun x => { l with collectMessageReuses := x }) <$> Request.boolOf k v
      else throw (.badInput ("json: unknown field " ++ Text.quote k))) l
  | .null => pure l
  | _ => throw (.badInput "Limits is not an object")

/-- Fills settings from a record by field name, in any case. -/
def config (c : Config) : Doc → Except Fault Config
  | .record fs => fs.foldlM (fun c (k, v) =>
      let key := Request.lower k
      if key = "pollinterval" then (fun x => { c with pollInterval := x }) <$> Request.intOf k v
      else if key = "maxcachedevents" then (fun x => { c with maxCachedEvents := x }) <$> Request.intOf k v
      else if key = "headfingerprintbytes" then (fun x => { c with headFingerprintBytes := x }) <$> Request.intOf k v
      else if key = "verbose" then (fun x => { c with verbose := x }) <$> Request.boolOf k v
      else if key = "timeline" then (fun x => { c with timeline := x }) <$> timelineConfig c.timeline v
      else if key = "limits" then (fun x => { c with limits := x }) <$> limitsConfig c.limits v
      else throw (.badInput ("json: unknown field " ++ Text.quote k))) c
  | .null => pure c
  | _ => throw (.badInput "config is not an object")

/-- Settings checked. -/
def validateConfig (d : Doc) : Except Fault Doc := do
  let c ← config Config.zero ((d.field? "config").getD .null)
  pure (match c.validate with
    | none => .record [("valid", .bool true)]
    | some m => .record [("error", .text "InvalidConfig"), ("message", .text m)])

/-- Answers a request that needs no log; none for other operations. -/
def answer (op : String) (d : Doc) : Option (Except Fault Doc) :=
  match op with
  | "time_info" => some (timeInfo <$> Request.time d "t")
  | "time_ops" => some (timeOps d)
  | "time_round" => some do
    let t ← Request.time d "t"
    pure (timeInfo (t.roundSignificant (← d.intReq "precision") (← rounding d)))
  | "time_quantize" => some do
    let t ← Request.time d "t"
    pure (timeInfo (t.quantize (← d.intReq "exp") (← rounding d)))
  | "shortest_within" => some do
    pure (timeInfo (SimTime.shortestWithin (← Request.time d "t") (← Request.time d "min") (← Request.time d "max")))
  | "time_float" => some (timeFloat d)
  | "pattern" => some (pattern d)
  | "expr" => some (expression d)
  | "parse_line" => some (parseLine d)
  | "kind" => some (kindOf d)
  | "parse_mode" => some do
    let m ← Mode.parse (← d.textReq "s")
    pure (.record [("mode", .text m.name), ("value", .int m.code)])
  | "mode_name" => some do pure (.record [("name", .text (Mode.nameOf (← d.intReq "value")))])
  | "viewport" => some (viewport d)
  | "chains" => some (chainsOf d)
  | "dep_kind" => some (depKinds d)
  | "params_validate" => some (validateParameters d)
  | "params_load" => some (loadParameters d)
  | "params_save" => some (saveParameters d)
  | "config_validate" => some (validateConfig d)
  | _ => none

end Query

end EventChart
