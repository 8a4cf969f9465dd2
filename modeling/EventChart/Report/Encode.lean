import EventChart.Report.Doc
import EventChart.Time.Round
import EventChart.Time.Duration
import EventChart.Filter.Params
import EventChart.Log.Event
/-!
# Answers as documents

How each value of the library is written in an answer.  Times are written
in plain notation that keeps their scale; a fault is a record with its class
(`error`), its message, and the facts its chain carries (the line, offset
and cause of an unreadable line, the offset and message of a syntax error,
the change of a changed file).
-/

namespace EventChart

namespace Report

/-- A time in plain notation. -/
def time (t : SimTime) : Doc := .text t.toPlain

/-- A list of texts. -/
def texts (xs : List String) : Doc := .list (xs.map .text)

/-- A list of integers. -/
def ints (xs : List Int) : Doc := .list (xs.map .int)

/-- An optional value. -/
def opt {α : Type} (f : α → Doc) : Option α → Doc
  | some a => f a
  | none => .null

/-- A fault as an error record. -/
def fault (f : Fault) : Doc :=
  let base : List (String × Doc) := [("error", .text f.kind.name), ("message", .text f.message)]
  let line := match f.lineError? with
    | some e => [("line", .int e.line), ("offset", .int e.offset), ("cause", .text e.fault.category.name)]
    | none => []
  let syn := match f.syntaxError? with
    | some e => [("pos", .int e.pos), ("msg", .text e.msg)]
    | none => []
  let chg := match f.change? with
    | some c => [("change", .text c.name)]
    | none => []
  .record (base ++ line ++ syn ++ chg)

/-- A value, or its fault as an error record. -/
def orFault {α : Type} (f : α → Doc) : Except Fault α → Doc
  | .ok a => f a
  | .error e => fault e

/-- An answer with a fault's fields added. -/
def withFault (d : Doc) : Option Fault → Doc
  | none => d
  | some f => d.withFields (fault f).fields

/-- The facts of a time. -/
def timeInfo (t : SimTime) : Doc :=
  .record [("string", .text t.toText), ("plain", .text t.toPlain), ("text", .text t.toPlain),
    ("coefficient", .text (toString t.coeff)), ("exponent", .int t.exp), ("sign", .int t.sign),
    ("is_zero", .bool t.isZero), ("digits", .int t.digits), ("precision", .int t.precision),
    ("last_digit", .int t.lastDigit), ("float", .float t.toFloat)]

/-- An entry: kind, tag, attributes in file order, text, place and line. -/
def entryFields (e : Entry) : List (String × Doc) :=
  [("kind", .text e.kind.name), ("tag", .text e.kind.tag),
    ("attrs", .list (e.attrs.map fun (n, v) => .list [.text n, .text v])), ("text", .text e.text),
    ("line", .int e.line), ("offset", .int e.offset), ("event", .int e.eventNumber),
    ("str", .text e.render), ("route", .bool e.isRoute)]

/-- An entry as a record. -/
def entry (e : Entry) : Doc := .record (entryFields e)

/-- The event view of an event line. -/
def eventMarker (m : EventMarker) : Doc :=
  .record [("n", .int m.number), ("t", time m.time), ("m", .int m.moduleId), ("ce", .int m.causeEvent),
    ("msg", .int m.messageId)]

/-- The fields of a send record. -/
def sendFields (b : BeginSend) : List (String × Doc) :=
  [("id", .int b.messageId), ("tid", .int b.treeId), ("eid", .int b.encapsulationId),
    ("etid", .int b.encapsulationTreeId), ("c", .text b.className), ("n", .text b.name),
    ("pe", .int b.previousEvent), ("k", .int b.messageKind), ("p", .int b.priority),
    ("l", .int b.length)]

/-- A module creation record. -/
def moduleCreated (m : ModuleCreated) : Doc :=
  .record [("id", .int m.id), ("c", .text m.className), ("t", .text m.typeName), ("pid", .int m.parentId),
    ("n", .text m.fullName), ("cm", .bool m.compound)]

/-- The typed views of an entry, for the kinds that have them. -/
def entryViews (e : Entry) : List (String × Doc) :=
  (e.eventMarker?.toList.map fun m => ("event_marker", eventMarker m)) ++
  (e.beginSend?.toList.map fun b => ("begin_send", .record (sendFields b))) ++
  (e.endSend?.toList.map fun x => ("end_send", .record [("t", time x.arrival), ("is", .bool x.receptionStart)])) ++
  (e.moduleCreated?.toList.map fun m => ("module_created", moduleCreated m)) ++
  (e.simulationBegin?.toList.map fun b =>
    ("simulation_begin", .record [("v", .int b.version), ("rid", .text b.runId)]))

/-- A syntax error as an error record. -/
def syntaxError (e : Match.SyntaxError) : Doc := fault (.badSyntax e)

/-- A message sent during an event. -/
def message (m : Message) : Doc :=
  .record (sendFields m.send ++ [("arrival", time m.arrival), ("self", .bool m.selfMessage)])

/-- A dependency. -/
def dependency (d : Dependency) : Doc :=
  .record [("cause", .int d.cause), ("consequence", .int d.consequence), ("kind", .text d.kind.name),
    ("msg", .int d.messageId), ("end_msg", .int d.endMessageId), ("length", .int d.length)]

/-- A list of dependencies. -/
def dependencies (ds : List Dependency) : Doc := .list (ds.map dependency)

/-- A set of dependencies with its completeness. -/
def depSet (s : DepSet) : Doc := .record [("deps", dependencies s.deps), ("partial", .bool s.incomplete)]

/-- An event by number, time and module. -/
def shortEvent (e : Event) : Doc := .record [("n", .int e.number), ("t", time e.time), ("m", .int e.moduleId)]

/-- Filter parameters by their field names; durations as text. -/
def parameters (p : Parameters) : Doc :=
  .record [("FirstEventNumber", .int p.firstEventNumber), ("LastEventNumber", .int p.lastEventNumber),
    ("ExcludedEventNumbers", ints p.excludedEventNumbers), ("EnableModuleFilter", .bool p.enableModuleFilter),
    ("ModuleExpression", .text p.moduleExpression), ("ModuleIDs", ints p.moduleIds),
    ("ModuleNames", texts p.moduleNames), ("ModuleNEDTypeNames", texts p.moduleTypeNames),
    ("EnableMessageFilter", .bool p.enableMessageFilter), ("MessageExpression", .text p.messageExpression),
    ("MessageClassNames", texts p.messageClassNames), ("MessageNames", texts p.messageNames),
    ("MessageIDs", ints p.messageIds), ("MessageTreeIDs", ints p.messageTreeIds),
    ("MessageEncapsulationIDs", ints p.messageEncapsulationIds),
    ("MessageEncapsulationTreeIDs", ints p.messageEncapsulationTreeIds),
    ("TracedEventNumber", .int p.tracedEventNumber), ("TraceCauses", .bool p.traceCauses),
    ("TraceConsequences", .bool p.traceConsequences), ("TraceMessageReuses", .bool p.traceMessageReuses),
    ("TraceSelfMessages", .bool p.traceSelfMessages), ("CollectMessageReuses", .bool p.collectMessageReuses),
    ("MaxCauseDepth", .int p.maxCauseDepth), ("MaxConsequenceDepth", .int p.maxConsequenceDepth),
    ("MaxNumberOfCauses", .int p.maxNumberOfCauses), ("MaxNumberOfConsequences", .int p.maxNumberOfConsequences),
    ("MaxCauseCollectionTime", .text (Duration.render ⟨p.maxCauseCollectionTime⟩)),
    ("MaxConsequenceCollectionTime", .text (Duration.render ⟨p.maxConsequenceCollectionTime⟩))]

end Report

end EventChart
