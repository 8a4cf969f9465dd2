import EventChart.Entry.Basic
/-!
# Messages

A message sent while an event was processed, as its send record and the
matching arrival record describe it: the send's attributes, the arrival
time, and whether it was scheduled by the module to itself (no hop or direct
send routed it).

As a subject of filter expressions a message answers its ids, name, class
and kind, and bare patterns test its name.
-/

namespace EventChart

/-- A message sent during an event. -/
structure Message where
  send : BeginSend
  arrival : SimTime
  selfMessage : Bool
deriving DecidableEq, Repr, Inhabited

namespace Message

/-- The attributes a filter expression sees. -/
def attribute? (m : Message) (name : String) : Option String :=
  if name = "id" then some (toString m.send.messageId)
  else if name = "tid" then some (toString m.send.treeId)
  else if name = "eid" then some (toString m.send.encapsulationId)
  else if name = "etid" then some (toString m.send.encapsulationTreeId)
  else if name = "name" then some m.send.name
  else if name = "class" ∨ name = "classname" then some m.send.className
  else if name = "kind" then some (toString m.send.messageKind)
  else none

/-- A message as a subject of filter expressions; bare patterns test its
name. -/
def subject (m : Message) : Match.Subject := ⟨m.send.name, m.attribute?⟩

end Message

end EventChart
