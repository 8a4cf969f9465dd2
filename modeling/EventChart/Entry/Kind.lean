/-!
# Record kinds of the event log

Each line of an event log is a record.  Its first word is a tag naming the
kind of record (`E` for an event, `BS` for the start of a message send, …),
and each kind declares its attributes in a canonical order, each with a type
(text, integer, boolean, simulation time) and whether it is required.

`Kind.ofTag` reads a tag; an unknown tag is `Kind.unknown`, whose tag is
empty and whose name is `Unknown`.
-/

namespace EventChart

/-- The type of an attribute's value. -/
inductive AttrType where
  | text
  | int
  | bool
  | time
deriving DecidableEq, Repr

/-- An attribute a kind declares. -/
structure AttrSpec where
  name : String
  type : AttrType
  required : Bool
deriving DecidableEq, Repr

/-- The kind of a record. -/
inductive Kind where
  | unknown
  | event
  | simulationBegin
  | simulationEnd
  | bubble
  | moduleCreated
  | moduleDeleted
  | gateCreated
  | gateDeleted
  | connectionCreated
  | connectionDeleted
  | connectionDisplayStringChanged
  | moduleDisplayStringChanged
  | componentMethodBegin
  | componentMethodEnd
  | cancelEvent
  | beginSend
  | endSend
  | sendDirect
  | sendHop
  | deleteMessage
  | logMessage
deriving DecidableEq, Repr, Inhabited

namespace Kind

/-- Every known kind, in the order of the format's definition. -/
def known : List Kind :=
  [event, simulationBegin, simulationEnd, bubble, moduleCreated, moduleDeleted, gateCreated,
   gateDeleted, connectionCreated, connectionDeleted, connectionDisplayStringChanged,
   moduleDisplayStringChanged, componentMethodBegin, componentMethodEnd, cancelEvent, beginSend,
   endSend, sendDirect, sendHop, deleteMessage, logMessage]

/-- The tag written in the log; empty for `unknown`. -/
def tag : Kind → String
  | unknown => ""
  | event => "E"
  | simulationBegin => "SB"
  | simulationEnd => "SE"
  | bubble => "BU"
  | moduleCreated => "MC"
  | moduleDeleted => "MD"
  | gateCreated => "GC"
  | gateDeleted => "GD"
  | connectionCreated => "CC"
  | connectionDeleted => "CD"
  | connectionDisplayStringChanged => "CS"
  | moduleDisplayStringChanged => "DS"
  | componentMethodBegin => "MB"
  | componentMethodEnd => "ME"
  | cancelEvent => "CE"
  | beginSend => "BS"
  | endSend => "ES"
  | sendDirect => "SD"
  | sendHop => "SH"
  | deleteMessage => "DM"
  | logMessage => "-"

/-- The descriptive name. -/
def name : Kind → String
  | unknown => "Unknown"
  | event => "Event"
  | simulationBegin => "SimulationBegin"
  | simulationEnd => "SimulationEnd"
  | bubble => "Bubble"
  | moduleCreated => "ModuleCreated"
  | moduleDeleted => "ModuleDeleted"
  | gateCreated => "GateCreated"
  | gateDeleted => "GateDeleted"
  | connectionCreated => "ConnectionCreated"
  | connectionDeleted => "ConnectionDeleted"
  | connectionDisplayStringChanged => "ConnectionDisplayStringChanged"
  | moduleDisplayStringChanged => "ModuleDisplayStringChanged"
  | componentMethodBegin => "ComponentMethodBegin"
  | componentMethodEnd => "ComponentMethodEnd"
  | cancelEvent => "CancelEvent"
  | beginSend => "BeginSend"
  | endSend => "EndSend"
  | sendDirect => "SendDirect"
  | sendHop => "SendHop"
  | deleteMessage => "DeleteMessage"
  | logMessage => "LogMessage"

/-- The kind of a tag; `unknown` for a tag no kind has. -/
def ofTag (t : String) : Kind :=
  (known.find? (·.tag == t)).getD unknown

private def reqAttr (n : String) (ty : AttrType) : AttrSpec := ⟨n, ty, true⟩
private def optAttr (n : String) (ty : AttrType) : AttrSpec := ⟨n, ty, false⟩

/-- The attributes of a kind in canonical order. -/
def attrs : Kind → List AttrSpec
  | unknown => []
  | event => [reqAttr "#" .int, reqAttr "t" .time, reqAttr "m" .int, optAttr "ce" .int, optAttr "msg" .int]
  | simulationBegin => [optAttr "v" .int, optAttr "rid" .text, optAttr "b" .time]
  | simulationEnd => [optAttr "e" .bool, optAttr "c" .int, optAttr "m" .text]
  | bubble => [reqAttr "id" .int, optAttr "txt" .text]
  | moduleCreated =>
    [reqAttr "id" .int, optAttr "c" .text, optAttr "t" .text, optAttr "pid" .int, reqAttr "n" .text, optAttr "cm" .bool]
  | moduleDeleted => [reqAttr "id" .int]
  | gateCreated => [reqAttr "m" .int, reqAttr "g" .int, optAttr "n" .text, optAttr "i" .int, optAttr "o" .bool]
  | gateDeleted => [reqAttr "m" .int, reqAttr "g" .int]
  | connectionCreated => [reqAttr "sm" .int, reqAttr "sg" .int, reqAttr "dm" .int, reqAttr "dg" .int]
  | connectionDeleted => [reqAttr "sm" .int, reqAttr "sg" .int]
  | connectionDisplayStringChanged => [reqAttr "sm" .int, reqAttr "sg" .int, optAttr "d" .text]
  | moduleDisplayStringChanged => [reqAttr "id" .int, optAttr "d" .text]
  | componentMethodBegin => [reqAttr "sm" .int, reqAttr "tm" .int, optAttr "m" .text]
  | componentMethodEnd => []
  | cancelEvent => [reqAttr "id" .int, optAttr "pe" .int]
  | beginSend =>
    [reqAttr "id" .int, optAttr "tid" .int, optAttr "eid" .int, optAttr "etid" .int, optAttr "c" .text, optAttr "n" .text,
     optAttr "pe" .int, optAttr "k" .int, optAttr "p" .int, optAttr "l" .int]
  | endSend => [reqAttr "t" .time, optAttr "is" .bool]
  | sendDirect => [reqAttr "sm" .int, reqAttr "dm" .int, optAttr "dg" .int, optAttr "pd" .time, optAttr "td" .time]
  | sendHop => [reqAttr "sm" .int, optAttr "sg" .int, optAttr "pd" .time, optAttr "td" .time]
  | deleteMessage => [reqAttr "id" .int, optAttr "pe" .int]
  | logMessage => []

/-- The attribute names of a kind in canonical order. -/
def attributeNames (k : Kind) : List String := k.attrs.map (·.name)

/-- A known kind is found again from its tag. -/
theorem ofTag_tag (k : Kind) (h : k ≠ unknown) : ofTag k.tag = k := by
  cases k with
  | unknown => exact absurd rfl h
  | _ => rfl

end Kind

end EventChart
