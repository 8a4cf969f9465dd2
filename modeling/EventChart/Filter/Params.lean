import EventChart.Fault
import EventChart.Match.Grammar
import EventChart.Log.Module
import EventChart.Log.Message
/-!
# Filter parameters

`Parameters` fully determine which events a filtered view shows: an event
number range, excluded events, module criteria, message criteria, and a
traced event whose causes and consequences alone are shown.  Event numbers
use `-1` for "unset"; durations are in nanoseconds.

`Parameters.compile` checks the parameters in a fixed order (the range,
the four limits, the two collection times, the two expressions, then the
patterns of each list) and turns them into `Criteria`; the first fault
found is reported.

The criteria of one group are alternatives: a module passes when any module
criterion selects it, and a group without criteria selects everything.
-/

namespace EventChart

open EventChart.Match

/-- What a filtered view shows. -/
structure Parameters where
  firstEventNumber : Int
  lastEventNumber : Int
  excludedEventNumbers : List Int
  enableModuleFilter : Bool
  moduleExpression : String
  moduleIds : List Int
  moduleNames : List String
  moduleTypeNames : List String
  enableMessageFilter : Bool
  messageExpression : String
  messageClassNames : List String
  messageNames : List String
  messageIds : List Int
  messageTreeIds : List Int
  messageEncapsulationIds : List Int
  messageEncapsulationTreeIds : List Int
  tracedEventNumber : Int
  traceCauses : Bool
  traceConsequences : Bool
  traceMessageReuses : Bool
  traceSelfMessages : Bool
  collectMessageReuses : Bool
  maxCauseDepth : Int
  maxConsequenceDepth : Int
  maxNumberOfCauses : Int
  maxNumberOfConsequences : Int
  maxCauseCollectionTime : Int
  maxConsequenceCollectionTime : Int
deriving DecidableEq, Repr, Inhabited

/-- The default depth of collections. -/
def defaultMaxDepth : Int := 15

/-- The default number of collected events. -/
def defaultMaxCount : Int := 100

namespace Parameters

/-- Parameters that show every event. -/
def default : Parameters :=
  ⟨-1, -1, [], false, "", [], [], [], false, "", [], [], [], [], [], [], -1, true, true, true, true,
    true, defaultMaxDepth, defaultMaxDepth, defaultMaxCount, defaultMaxCount, 0, 0⟩

/-- Whether the trace criterion is on. -/
def tracing (p : Parameters) : Bool := p.tracedEventNumber ≥ 0

end Parameters

/-- Parameters in the form that tests events. -/
structure Criteria where
  excluded : List Int
  moduleExpr : Option Filter
  moduleIds : List Int
  moduleNames : List Glob
  moduleTypes : List Glob
  messageExpr : Option Filter
  messageClasses : List Glob
  messageNames : List Glob
  messageIds : List Int
  messageTreeIds : List Int
  messageEncapsulationIds : List Int
  messageEncapsulationTreeIds : List Int
deriving Inhabited

/-- An expression, none if empty. -/
def compileExpression (what src : String) : Except ParamFault (Option Filter) :=
  if src = "" then .ok none
  else match Filter.parse src with
    | .ok f => .ok (some f)
    | .error e => .error (.badExpression what e)

/-- The patterns of a list, in order. -/
def compilePatterns (what : String) : List String → Except ParamFault (List Glob)
  | [] => .ok []
  | src :: rest =>
    match Glob.compile src with
    | .error e => .error (.badPattern what src e)
    | .ok g => (g :: ·) <$> compilePatterns what rest

namespace Parameters

/-- Checks the parameters and compiles their criteria. -/
def compile (p : Parameters) : Except ParamFault Criteria := do
  if p.firstEventNumber ≥ 0 ∧ p.lastEventNumber ≥ 0 ∧ p.firstEventNumber > p.lastEventNumber then
    throw (.reversedRange p.firstEventNumber p.lastEventNumber)
  for (name, v) in [("max_cause_depth", p.maxCauseDepth), ("max_consequence_depth", p.maxConsequenceDepth),
      ("max_number_of_causes", p.maxNumberOfCauses),
      ("max_number_of_consequences", p.maxNumberOfConsequences)] do
    if v < 0 then throw (.negativeLimit name)
  if p.maxCauseCollectionTime < 0 ∨ p.maxConsequenceCollectionTime < 0 then throw .negativeTime
  let moduleExpr ← compileExpression "module expression" p.moduleExpression
  let messageExpr ← compileExpression "message expression" p.messageExpression
  let moduleNames ← compilePatterns "module name" p.moduleNames
  let moduleTypes ← compilePatterns "module NED type" p.moduleTypeNames
  let messageClasses ← compilePatterns "message class" p.messageClassNames
  let messageNames ← compilePatterns "message name" p.messageNames
  pure ⟨p.excludedEventNumbers, moduleExpr, p.moduleIds, moduleNames, moduleTypes, messageExpr,
    messageClasses, messageNames, p.messageIds, p.messageTreeIds, p.messageEncapsulationIds,
    p.messageEncapsulationTreeIds⟩

/-- The first fault of the parameters, if any. -/
def validate (p : Parameters) : Option ParamFault :=
  match p.compile with
  | .ok _ => none
  | .error e => some e

end Parameters

namespace Criteria

/-- Whether a module criterion is set. -/
def hasModuleCriteria (c : Criteria) : Bool :=
  c.moduleExpr.isSome || !c.moduleIds.isEmpty || !c.moduleNames.isEmpty || !c.moduleTypes.isEmpty

/-- Whether the module criteria select a module. -/
def moduleMatches (c : Criteria) (m : Module) : Bool :=
  !c.hasModuleCriteria ||
    (match c.moduleExpr with
     | some f => f.accepts m.subject
     | none => false) ||
    c.moduleIds.contains m.id ||
    c.moduleNames.any (·.accepts m.fullPath) ||
    c.moduleTypes.any (·.accepts m.typeName)

/-- Whether a message criterion is set. -/
def hasMessageCriteria (c : Criteria) : Bool :=
  c.messageExpr.isSome || !c.messageClasses.isEmpty || !c.messageNames.isEmpty ||
    !c.messageIds.isEmpty || !c.messageTreeIds.isEmpty || !c.messageEncapsulationIds.isEmpty ||
    !c.messageEncapsulationTreeIds.isEmpty

/-- Whether the message criteria select a message. -/
def messageMatches (c : Criteria) (m : Message) : Bool :=
  !c.hasMessageCriteria ||
    (match c.messageExpr with
     | some f => f.accepts m.subject
     | none => false) ||
    c.messageClasses.any (·.accepts m.send.className) ||
    c.messageNames.any (·.accepts m.send.name) ||
    c.messageIds.contains m.send.messageId ||
    c.messageTreeIds.contains m.send.treeId ||
    c.messageEncapsulationIds.contains m.send.encapsulationId ||
    c.messageEncapsulationTreeIds.contains m.send.encapsulationTreeId

end Criteria

end EventChart
