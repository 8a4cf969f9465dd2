import EventChart.Report.Encode
import EventChart.Chart.Axis
/-!
# Reading requests

The parts of requests that several requests share: filter parameters keyed
by their field names (matched without regard to case, durations as text,
fields not given keeping their value), dependencies, changes, viewports and
times.
-/

namespace EventChart

namespace Request

/-- A time field, read by the simulation time grammar. -/
def time (d : Doc) (k : String) : Except Fault SimTime := do
  match SimTime.parse (← d.textReq k) with
  | .ok t => pure t
  | .error e => throw (.badTime e)

/-- A text as a time. -/
def timeOfText (s : String) : Except Fault SimTime :=
  match SimTime.parse s with
  | .ok t => .ok t
  | .error e => .error (.badTime e)

/-- ASCII lower case. -/
def lower (s : String) : String :=
  String.ofList (s.toList.map fun c => if 'A' ≤ c ∧ c ≤ 'Z' then Char.ofNat (c.toNat + 32) else c)

/-- A value as an integer. -/
def intOf (k : String) (v : Doc) : Except Fault Int :=
  match v.asInt? with
  | some n => .ok n
  | none => .error (.badInput ("field " ++ k ++ " is not an integer"))

/-- A value as a boolean. -/
def boolOf (k : String) : Doc → Except Fault Bool
  | .bool b => .ok b
  | _ => .error (.badInput ("field " ++ k ++ " is not a boolean"))

/-- A value as a text. -/
def textOf (k : String) : Doc → Except Fault String
  | .text s => .ok s
  | _ => .error (.badInput ("field " ++ k ++ " is not a string"))

/-- A value as a list of integers; null is the empty list. -/
def intsOf (k : String) : Doc → Except Fault (List Int)
  | .null => .ok []
  | .list xs => xs.mapM (intOf k)
  | _ => .error (.badInput ("field " ++ k ++ " is not a list"))

/-- A value as a list of texts; null is the empty list. -/
def textsOf (k : String) : Doc → Except Fault (List String)
  | .null => .ok []
  | .list xs => xs.mapM (textOf k)
  | _ => .error (.badInput ("field " ++ k ++ " is not a list"))

/-- A value as a duration text. -/
def durationOf (k : String) : Doc → Except Fault Int
  | .text s =>
    match Duration.parse s with
    | .ok d => .ok d.nanos
    | .error e => .error (.badInput e)
  | _ => .error (.badInput ("field " ++ k ++ " is not a duration"))

/-- Sets one field of parameters by its name. -/
def setParameter (p : Parameters) (k : String) (v : Doc) : Except Fault Parameters := do
  let key := lower k
  -- null leaves a scalar field as it is
  let scalar {α : Type} (f : Doc → Except Fault α) (set : α → Parameters) : Except Fault Parameters :=
    match v with
    | .null => .ok p
    | _ => set <$> f v
  if key = "firsteventnumber" then scalar (intOf k) fun x => { p with firstEventNumber := x }
  else if key = "lasteventnumber" then scalar (intOf k) fun x => { p with lastEventNumber := x }
  else if key = "excludedeventnumbers" then (fun x => { p with excludedEventNumbers := x }) <$> intsOf k v
  else if key = "enablemodulefilter" then scalar (boolOf k) fun x => { p with enableModuleFilter := x }
  else if key = "moduleexpression" then scalar (textOf k) fun x => { p with moduleExpression := x }
  else if key = "moduleids" then (fun x => { p with moduleIds := x }) <$> intsOf k v
  else if key = "modulenames" then (fun x => { p with moduleNames := x }) <$> textsOf k v
  else if key = "modulenedtypenames" then (fun x => { p with moduleTypeNames := x }) <$> textsOf k v
  else if key = "enablemessagefilter" then scalar (boolOf k) fun x => { p with enableMessageFilter := x }
  else if key = "messageexpression" then scalar (textOf k) fun x => { p with messageExpression := x }
  else if key = "messageclassnames" then (fun x => { p with messageClassNames := x }) <$> textsOf k v
  else if key = "messagenames" then (fun x => { p with messageNames := x }) <$> textsOf k v
  else if key = "messageids" then (fun x => { p with messageIds := x }) <$> intsOf k v
  else if key = "messagetreeids" then (fun x => { p with messageTreeIds := x }) <$> intsOf k v
  else if key = "messageencapsulationids" then
    (fun x => { p with messageEncapsulationIds := x }) <$> intsOf k v
  else if key = "messageencapsulationtreeids" then
    (fun x => { p with messageEncapsulationTreeIds := x }) <$> intsOf k v
  else if key = "tracedeventnumber" then scalar (intOf k) fun x => { p with tracedEventNumber := x }
  else if key = "tracecauses" then scalar (boolOf k) fun x => { p with traceCauses := x }
  else if key = "traceconsequences" then scalar (boolOf k) fun x => { p with traceConsequences := x }
  else if key = "tracemessagereuses" then scalar (boolOf k) fun x => { p with traceMessageReuses := x }
  else if key = "traceselfmessages" then scalar (boolOf k) fun x => { p with traceSelfMessages := x }
  else if key = "collectmessagereuses" then scalar (boolOf k) fun x => { p with collectMessageReuses := x }
  else if key = "maxcausedepth" then scalar (intOf k) fun x => { p with maxCauseDepth := x }
  else if key = "maxconsequencedepth" then scalar (intOf k) fun x => { p with maxConsequenceDepth := x }
  else if key = "maxnumberofcauses" then scalar (intOf k) fun x => { p with maxNumberOfCauses := x }
  else if key = "maxnumberofconsequences" then scalar (intOf k) fun x => { p with maxNumberOfConsequences := x }
  else if key = "maxcausecollectiontime" then scalar (durationOf k) fun x => { p with maxCauseCollectionTime := x }
  else if key = "maxconsequencecollectiontime" then
    scalar (durationOf k) fun x => { p with maxConsequenceCollectionTime := x }
  else throw (.badInput ("json: unknown field " ++ Text.quote k))

/-- Parameters from a record over `p`. -/
def parameters (d : Doc) (p : Parameters) : Except Fault Parameters :=
  match d with
  | .record fs => fs.foldlM (fun p (k, v) => setParameter p k v) p
  | .null => .ok p
  | _ => .error (.badInput "params is not an object")

/-- Parameters from a field, over the defaults. -/
def parametersField (d : Doc) (k : String) : Except Fault Parameters :=
  parameters ((d.field? k).getD .null) Parameters.default

/-- A dependency kind by name. -/
def depKind (s : String) : Except Fault DepKind :=
  if s = "send" then .ok .send else if s = "reuse" then .ok .reuse else if s = "mixed" then .ok .mixed
  else .error (.badInput ("unknown dependency kind " ++ s))

/-- A dependency: cause, consequence, kind (send), message (-1), end message
(the message) and length (1). -/
def dependency (d : Doc) : Except Fault Dependency := do
  let msg ← d.intOr "msg" (-1)
  pure ⟨← d.intReq "cause", ← d.intReq "consequence", ← depKind (← d.textOr "kind" "send"), msg,
    ← d.intOr "end_msg" msg, ← d.intOr "length" 1⟩

/-- A change by name or number. -/
def change (d : Doc) : Except Fault Change :=
  match d.field? "change" with
  | some (.text "unchanged") => .ok .unchanged
  | some (.text "appended") => .ok .appended
  | some (.text "overwritten") => .ok .overwritten
  | some v =>
    match v.asInt? with
    | some n => .ok (Change.ofCode n)
    | none => .error (.badInput "unknown change")
  | none => .error (.badInput "missing field change")

/-- A viewport: pixels per unit (1), fix point (0) and width (1000). -/
def viewport (d : Doc) : Except Fault Viewport := do
  pure ⟨← d.floatOr "ppu" 1, ← d.intOr "fix" 0, ← d.intOr "width" 1000⟩

end Request

end EventChart
