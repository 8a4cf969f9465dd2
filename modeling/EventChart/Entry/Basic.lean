import EventChart.Entry.Kind
import EventChart.Time.Text
import EventChart.Match.Expr
/-!
# Log entries

An entry is one record of the log: its kind, its attributes in file order
(duplicates kept), the free text of a log message, and where it was read
(line number, byte offset, owning event number or `-1`).

Attribute look-up takes the first attribute of a name.  The typed readers
`int`, `bool` and `time?` fall back to a default (or `none`) when the
attribute is absent or does not read as that type.  Booleans are written
`1`, `true`, `0` or `false`.

`Entry.render` writes the entry back as a line: the tag, then each
attribute as name and value, a value quoted when it is empty or holds a
blank, a quote or a backslash.  A log message is written `- ` and its text.

The typed views (`EventMarker`, `BeginSend`, …) read the attributes that
the index and the chart use, with the format's defaults.
-/

namespace EventChart

open EventChart.Text

/-- One record of the log. -/
structure Entry where
  kind : Kind
  attrs : List (String × String)
  text : String
  line : Int
  offset : Int
  eventNumber : Int
deriving DecidableEq, Repr, Inhabited

/-- Reads a boolean attribute value. -/
def readBool (v : String) : Option Bool :=
  if v = "1" ∨ v = "true" then some true
  else if v = "0" ∨ v = "false" then some false
  else none

/-- Whether a value must be quoted when written. -/
def needsQuotes (v : String) : Bool :=
  v.isEmpty || v.toList.any fun c => c == ' ' || c == '\t' || c == '"' || c == '\\'

/-- A value as written in a line: quoted with `\` before `\` and `"` when
needed. -/
def quoteValue (v : String) : String :=
  if needsQuotes v then
    String.ofList ('"' :: (v.toList.flatMap fun c =>
      if c == '\\' || c == '"' then ['\\', c] else [c]) ++ ['"'])
  else v

namespace Entry

/-- The first value of an attribute. -/
def get? (e : Entry) (name : String) : Option String := e.attrs.lookup name

/-- An integer attribute, or `d`. -/
def int (e : Entry) (name : String) (d : Int) : Int :=
  match e.get? name with
  | some v =>
    match readInt 64 v with
    | .ok n => n
    | .error _ => d
  | none => d

/-- A boolean attribute, or `d`. -/
def bool (e : Entry) (name : String) (d : Bool) : Bool :=
  match e.get? name with
  | some v => (readBool v).getD d
  | none => d

/-- A time attribute, if present and readable. -/
def time? (e : Entry) (name : String) : Option SimTime :=
  match e.get? name with
  | some v =>
    match SimTime.parse v with
    | .ok t => some t
    | .error _ => none
  | none => none

/-- A time attribute, or zero. -/
def timeOrZero (e : Entry) (name : String) : SimTime := (e.time? name).getD SimTime.zero

/-- The attribute a filter sees: `kind` is the kind's name, `text` the text
of a log message, anything else the stored attribute. -/
def attribute? (e : Entry) (name : String) : Option String :=
  if name = "kind" then some e.kind.name
  else if name = "text" ∧ e.kind = .logMessage then some e.text
  else e.get? name

/-- An entry as a subject of filter expressions; bare patterns test the
kind's name. -/
def subject (e : Entry) : Match.Subject := ⟨e.kind.name, e.attribute?⟩

/-- Whether the entry routes a message (a hop or a direct send). -/
def isRoute (e : Entry) : Bool := e.kind = .sendHop || e.kind = .sendDirect

/-- The entry written as a line. -/
def render (e : Entry) : String :=
  if e.kind = .logMessage then "- " ++ e.text
  else e.attrs.foldl (fun acc (n, v) => acc ++ " " ++ n ++ " " ++ quoteValue v) e.kind.tag

end Entry

/-- The event line: number, time, module and the event that caused it. -/
structure EventMarker where
  number : Int
  time : SimTime
  moduleId : Int
  causeEvent : Int
  messageId : Int
deriving DecidableEq, Repr, Inhabited

/-- The start of a message send. -/
structure BeginSend where
  messageId : Int
  treeId : Int
  encapsulationId : Int
  encapsulationTreeId : Int
  className : String
  name : String
  previousEvent : Int
  messageKind : Int
  priority : Int
  length : Int
deriving DecidableEq, Repr, Inhabited

/-- The end of a message send: the arrival time. -/
structure EndSend where
  arrival : SimTime
  receptionStart : Bool
deriving DecidableEq, Repr, Inhabited

/-- The creation of a module. -/
structure ModuleCreated where
  id : Int
  className : String
  typeName : String
  parentId : Int
  fullName : String
  compound : Bool
deriving DecidableEq, Repr, Inhabited

/-- The start of the simulation. -/
structure SimulationBegin where
  version : Int
  runId : String
deriving DecidableEq, Repr, Inhabited

namespace Entry

/-- The event view of an `E` record. -/
def eventMarker? (e : Entry) : Option EventMarker :=
  if e.kind = .event then
    some ⟨e.int "#" (-1), e.timeOrZero "t", e.int "m" (-1), e.int "ce" (-1), e.int "msg" (-1)⟩
  else none

/-- The send view of a `BS` record; tree and encapsulation ids default to the
message id. -/
def beginSend? (e : Entry) : Option BeginSend :=
  if e.kind = .beginSend then
    let id := e.int "id" (-1)
    some ⟨id, e.int "tid" id, e.int "eid" id, e.int "etid" id, (e.get? "c").getD "",
      (e.get? "n").getD "", e.int "pe" (-1), e.int "k" 0, e.int "p" 0, e.int "l" 0⟩
  else none

/-- The arrival view of an `ES` record. -/
def endSend? (e : Entry) : Option EndSend :=
  if e.kind = .endSend then some ⟨e.timeOrZero "t", e.bool "is" false⟩ else none

/-- The module view of an `MC` record. -/
def moduleCreated? (e : Entry) : Option ModuleCreated :=
  if e.kind = .moduleCreated then
    some ⟨e.int "id" (-1), (e.get? "c").getD "", (e.get? "t").getD "", e.int "pid" (-1),
      (e.get? "n").getD "", e.bool "cm" false⟩
  else none

/-- The view of an `SB` record. -/
def simulationBegin? (e : Entry) : Option SimulationBegin :=
  if e.kind = .simulationBegin then some ⟨e.int "v" 0, (e.get? "rid").getD ""⟩ else none

end Entry

end EventChart
