import EventChart.Log.Dependency
import EventChart.Log.Message
import EventChart.Log.Reader
/-!
# Events

An event as the index knows it: its number, time, module and the event and
message that caused it, where its lines are in the file, the messages it
sent, the reuse edges that lead to it, and, once read, its entries.

An event is identified by the log that indexed it, the epoch of that log
(which grows each time the file is found overwritten) and its position in
log order; `EventRef` is that identity.  An event stays valid while its log
is in the epoch it was indexed in.

`Event.causes` is the send edge through which the event was caused, if both
its cause event and message are known, followed by its reuse edges.
-/

namespace EventChart

/-- The identity of an event: its log, the log's epoch and its position. -/
structure EventRef where
  log : Nat
  epoch : Nat
  index : Nat
deriving DecidableEq, Repr, Inhabited

/-- An indexed event. -/
structure Event where
  epoch : Nat
  index : Nat
  number : Int
  time : SimTime
  moduleId : Int
  causeEvent : Int
  messageId : Int
  pos : Position
  endOffset : Int
  causeMessage : Option Message
  sent : Array Message
  reuses : List Dependency
  parseErrors : Nat
  entries : Option (List Entry)
deriving Inhabited

namespace Event

/-- The send edge that caused the event. -/
def cause? (e : Event) : Option Dependency :=
  if e.causeEvent < 0 ∨ e.messageId < 0 then none
  else some (Dependency.direct e.causeEvent e.number .send e.messageId)

/-- The send edge, then the reuse edges. -/
def causes (e : Event) : List Dependency := e.cause?.toList ++ e.reuses

/-- Whether the event processes a message its module scheduled to itself. -/
def isSelfMessageProcessing (e : Event) : Bool :=
  match e.causeMessage with
  | some m => m.selfMessage
  | none => false

/-- The first message sent with an id. -/
def sentMessage? (e : Event) (id : Int) : Option Message := e.sent.find? (·.send.messageId == id)

/-- The indexed state of `o` in place of that of `e`, keeping `e`'s identity
and number; the entries are dropped. -/
def adopt (e o : Event) : Event :=
  { o with epoch := e.epoch, index := e.index, number := e.number, entries := none }

end Event

end EventChart
