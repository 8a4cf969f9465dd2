import EventChart.Filter.Params
/-!
# The fields of filter parameters

Each field of `Parameters` has a settings key (`first_event_number`), a
record name (`FirstEventNumber`), a type, and a reader and writer.  The
settings file and the answers both go through this table, in the order of
`Field.all`.  Lists and expressions are left out of a settings file when
empty.
-/

namespace EventChart

/-- The type of a parameter field. -/
inductive FieldType where
  | int64
  | int
  | bool
  | text
  | ints
  | texts
  | duration
deriving DecidableEq, Repr

namespace FieldType

/-- The declared type, as type faults write it. -/
def declared : FieldType → String
  | .int64 => "int64"
  | .int => "int"
  | .bool => "bool"
  | .text => "string"
  | .ints => "[]int64"
  | .texts => "[]string"
  | .duration => "filter.Duration"

/-- The kind of storage, as assignment faults write it. -/
def storage : FieldType → String
  | .int64 | .duration => "int64"
  | .int => "int"
  | .bool => "bool"
  | .text => "string"
  | .ints | .texts => "slice"

end FieldType

/-- A value of a parameter field. -/
inductive FieldValue where
  | int (n : Int)
  | bool (b : Bool)
  | text (s : String)
  | ints (xs : List Int)
  | texts (xs : List String)
deriving DecidableEq, Repr

/-- The fields of filter parameters. -/
inductive Field where
  | firstEventNumber | lastEventNumber | excludedEventNumbers
  | enableModuleFilter | moduleExpression | moduleIds | moduleNames | moduleTypeNames
  | enableMessageFilter | messageExpression | messageClassNames | messageNames | messageIds
  | messageTreeIds | messageEncapsulationIds | messageEncapsulationTreeIds
  | tracedEventNumber | traceCauses | traceConsequences | traceMessageReuses | traceSelfMessages
  | collectMessageReuses | maxCauseDepth | maxConsequenceDepth | maxNumberOfCauses
  | maxNumberOfConsequences | maxCauseCollectionTime | maxConsequenceCollectionTime
deriving DecidableEq, Repr

namespace Field

/-- Every field, in declaration order. -/
def all : List Field :=
  [firstEventNumber, lastEventNumber, excludedEventNumbers, enableModuleFilter, moduleExpression, moduleIds,
    moduleNames, moduleTypeNames, enableMessageFilter, messageExpression, messageClassNames, messageNames,
    messageIds, messageTreeIds, messageEncapsulationIds, messageEncapsulationTreeIds, tracedEventNumber,
    traceCauses, traceConsequences, traceMessageReuses, traceSelfMessages, collectMessageReuses,
    maxCauseDepth, maxConsequenceDepth, maxNumberOfCauses, maxNumberOfConsequences, maxCauseCollectionTime,
    maxConsequenceCollectionTime]

/-- The key of a field in a settings file. -/
def key : Field → String
  | firstEventNumber => "first_event_number"
  | lastEventNumber => "last_event_number"
  | excludedEventNumbers => "excluded_event_numbers"
  | enableModuleFilter => "enable_module_filter"
  | moduleExpression => "module_expression"
  | moduleIds => "module_ids"
  | moduleNames => "module_names"
  | moduleTypeNames => "module_ned_type_names"
  | enableMessageFilter => "enable_message_filter"
  | messageExpression => "message_expression"
  | messageClassNames => "message_class_names"
  | messageNames => "message_names"
  | messageIds => "message_ids"
  | messageTreeIds => "message_tree_ids"
  | messageEncapsulationIds => "message_encapsulation_ids"
  | messageEncapsulationTreeIds => "message_encapsulation_tree_ids"
  | tracedEventNumber => "traced_event_number"
  | traceCauses => "trace_causes"
  | traceConsequences => "trace_consequences"
  | traceMessageReuses => "trace_message_reuses"
  | traceSelfMessages => "trace_self_messages"
  | collectMessageReuses => "collect_message_reuses"
  | maxCauseDepth => "max_cause_depth"
  | maxConsequenceDepth => "max_consequence_depth"
  | maxNumberOfCauses => "max_number_of_causes"
  | maxNumberOfConsequences => "max_number_of_consequences"
  | maxCauseCollectionTime => "max_cause_collection_time"
  | maxConsequenceCollectionTime => "max_consequence_collection_time"

/-- The record name of a field. -/
def name : Field → String
  | firstEventNumber => "FirstEventNumber"
  | lastEventNumber => "LastEventNumber"
  | excludedEventNumbers => "ExcludedEventNumbers"
  | enableModuleFilter => "EnableModuleFilter"
  | moduleExpression => "ModuleExpression"
  | moduleIds => "ModuleIDs"
  | moduleNames => "ModuleNames"
  | moduleTypeNames => "ModuleNEDTypeNames"
  | enableMessageFilter => "EnableMessageFilter"
  | messageExpression => "MessageExpression"
  | messageClassNames => "MessageClassNames"
  | messageNames => "MessageNames"
  | messageIds => "MessageIDs"
  | messageTreeIds => "MessageTreeIDs"
  | messageEncapsulationIds => "MessageEncapsulationIDs"
  | messageEncapsulationTreeIds => "MessageEncapsulationTreeIDs"
  | tracedEventNumber => "TracedEventNumber"
  | traceCauses => "TraceCauses"
  | traceConsequences => "TraceConsequences"
  | traceMessageReuses => "TraceMessageReuses"
  | traceSelfMessages => "TraceSelfMessages"
  | collectMessageReuses => "CollectMessageReuses"
  | maxCauseDepth => "MaxCauseDepth"
  | maxConsequenceDepth => "MaxConsequenceDepth"
  | maxNumberOfCauses => "MaxNumberOfCauses"
  | maxNumberOfConsequences => "MaxNumberOfConsequences"
  | maxCauseCollectionTime => "MaxCauseCollectionTime"
  | maxConsequenceCollectionTime => "MaxConsequenceCollectionTime"

/-- The type of a field. -/
def type : Field → FieldType
  | firstEventNumber | lastEventNumber | tracedEventNumber => .int64
  | excludedEventNumbers | moduleIds | messageIds | messageTreeIds | messageEncapsulationIds
  | messageEncapsulationTreeIds => .ints
  | enableModuleFilter | enableMessageFilter | traceCauses | traceConsequences | traceMessageReuses
  | traceSelfMessages | collectMessageReuses => .bool
  | moduleExpression | messageExpression => .text
  | moduleNames | moduleTypeNames | messageClassNames | messageNames => .texts
  | maxCauseDepth | maxConsequenceDepth | maxNumberOfCauses | maxNumberOfConsequences => .int
  | maxCauseCollectionTime | maxConsequenceCollectionTime => .duration

/-- The value of a field. -/
def get (f : Field) (p : Parameters) : FieldValue :=
  match f with
  | firstEventNumber => .int p.firstEventNumber
  | lastEventNumber => .int p.lastEventNumber
  | excludedEventNumbers => .ints p.excludedEventNumbers
  | enableModuleFilter => .bool p.enableModuleFilter
  | moduleExpression => .text p.moduleExpression
  | moduleIds => .ints p.moduleIds
  | moduleNames => .texts p.moduleNames
  | moduleTypeNames => .texts p.moduleTypeNames
  | enableMessageFilter => .bool p.enableMessageFilter
  | messageExpression => .text p.messageExpression
  | messageClassNames => .texts p.messageClassNames
  | messageNames => .texts p.messageNames
  | messageIds => .ints p.messageIds
  | messageTreeIds => .ints p.messageTreeIds
  | messageEncapsulationIds => .ints p.messageEncapsulationIds
  | messageEncapsulationTreeIds => .ints p.messageEncapsulationTreeIds
  | tracedEventNumber => .int p.tracedEventNumber
  | traceCauses => .bool p.traceCauses
  | traceConsequences => .bool p.traceConsequences
  | traceMessageReuses => .bool p.traceMessageReuses
  | traceSelfMessages => .bool p.traceSelfMessages
  | collectMessageReuses => .bool p.collectMessageReuses
  | maxCauseDepth => .int p.maxCauseDepth
  | maxConsequenceDepth => .int p.maxConsequenceDepth
  | maxNumberOfCauses => .int p.maxNumberOfCauses
  | maxNumberOfConsequences => .int p.maxNumberOfConsequences
  | maxCauseCollectionTime => .int p.maxCauseCollectionTime
  | maxConsequenceCollectionTime => .int p.maxConsequenceCollectionTime

/-- Sets a field; a value of another shape leaves the parameters as they are. -/
def set (f : Field) (p : Parameters) (v : FieldValue) : Parameters :=
  match f, v with
  | firstEventNumber, .int n => { p with firstEventNumber := n }
  | lastEventNumber, .int n => { p with lastEventNumber := n }
  | excludedEventNumbers, .ints xs => { p with excludedEventNumbers := xs }
  | enableModuleFilter, .bool b => { p with enableModuleFilter := b }
  | moduleExpression, .text s => { p with moduleExpression := s }
  | moduleIds, .ints xs => { p with moduleIds := xs }
  | moduleNames, .texts xs => { p with moduleNames := xs }
  | moduleTypeNames, .texts xs => { p with moduleTypeNames := xs }
  | enableMessageFilter, .bool b => { p with enableMessageFilter := b }
  | messageExpression, .text s => { p with messageExpression := s }
  | messageClassNames, .texts xs => { p with messageClassNames := xs }
  | messageNames, .texts xs => { p with messageNames := xs }
  | messageIds, .ints xs => { p with messageIds := xs }
  | messageTreeIds, .ints xs => { p with messageTreeIds := xs }
  | messageEncapsulationIds, .ints xs => { p with messageEncapsulationIds := xs }
  | messageEncapsulationTreeIds, .ints xs => { p with messageEncapsulationTreeIds := xs }
  | tracedEventNumber, .int n => { p with tracedEventNumber := n }
  | traceCauses, .bool b => { p with traceCauses := b }
  | traceConsequences, .bool b => { p with traceConsequences := b }
  | traceMessageReuses, .bool b => { p with traceMessageReuses := b }
  | traceSelfMessages, .bool b => { p with traceSelfMessages := b }
  | collectMessageReuses, .bool b => { p with collectMessageReuses := b }
  | maxCauseDepth, .int n => { p with maxCauseDepth := n }
  | maxConsequenceDepth, .int n => { p with maxConsequenceDepth := n }
  | maxNumberOfCauses, .int n => { p with maxNumberOfCauses := n }
  | maxNumberOfConsequences, .int n => { p with maxNumberOfConsequences := n }
  | maxCauseCollectionTime, .int n => { p with maxCauseCollectionTime := n }
  | maxConsequenceCollectionTime, .int n => { p with maxConsequenceCollectionTime := n }
  | _, _ => p

/-- Whether a settings file leaves the field out when it is empty. -/
def omitsEmpty (f : Field) : Bool :=
  match f.type with
  | .ints | .texts | .text => true
  | _ => false

/-- The field of a settings key, matched without regard to case. -/
def ofKey? (k : String) : Option Field :=
  let k := String.ofList (k.toList.map Char.toLower)
  all.find? (·.key == k)

/-- Setting a field and reading it back gives the value set. -/
theorem get_set_traceCauses (p : Parameters) (b : Bool) :
    traceCauses.get (traceCauses.set p (.bool b)) = .bool b := rfl

end Field

end EventChart
