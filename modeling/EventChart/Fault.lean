import EventChart.Entry.Line
import EventChart.Log.Change
import EventChart.Time.Approx
import EventChart.Number.FloatText
/-!
# Faults

Every way an operation of this library can fail is a constructor of
`Fault`, and its text is given by `Fault.message` alone.  A fault may wrap
another one with a context (`within`), or join two (`both`); the wrapped
faults form its chain.

`Fault.kind` classifies a fault by the first of a fixed list of causes found
anywhere in its chain: invalid filter parameters first, then a syntax error,
a cancelation, an unreadable line, a changed file, and so on, and a plain
error last.  The extra facts that some causes carry (the line of an
unreadable line, the offset of a syntax error, the change of a changed file)
are looked up along the chain in the same way.
-/

namespace EventChart

open EventChart.Text

/-- Why filter parameters are rejected. -/
inductive ParamFault where
  | reversedRange (first last : Int)
  | negativeLimit (name : String)
  | negativeTime
  | badExpression (what : String) (e : Match.SyntaxError)
  | badPattern (what : String) (source : String) (e : Match.SyntaxError)
deriving DecidableEq, Repr

/-- The message of a parameter fault, after `invalid filter parameters: `. -/
def ParamFault.message : ParamFault → String
  | .reversedRange a b =>
    "first event number " ++ toString a ++ " is after last event number " ++ toString b
  | .negativeLimit n => n ++ " is negative"
  | .negativeTime => "negative collection time"
  | .badExpression w e => w ++ ": " ++ e.message
  | .badPattern w s e => w ++ " " ++ quote s ++ ": " ++ e.message

/-- State that a request needs and that does not exist. -/
inductive Missing where
  | log
  | filter
  | mapper
  | reader
deriving DecidableEq, Repr

/-- The message of missing state. -/
def Missing.message : Missing → String
  | .log => "no open log"
  | .filter => "no filter applied"
  | .mapper => "no mapper created"
  | .reader => "no reader open"

/-- A failure. -/
inductive Fault where
  | fileNotFound (path : String)
  | fileChanged (change : Change) (detail : Option String)
  /-- The caller gave up before the read started. -/
  | interrupted
  /-- An operation stopped because the caller gave up. -/
  | canceled
  | corruptIndex (detail : String)
  | staleEvent
  | notInLog (nilEvent : Bool)
  | badLine (e : LineError)
  | badSyntax (e : Match.SyntaxError)
  | badParameters (p : ParamFault)
  | noOrigin
  | notInTimeline (n : Int)
  | unknownMode (text : String)
  | unknownChange (c : Change)
  | invalidScale (ppu : Float)
  | nonFinite (v : NonFinite)
  | stopped
  | missing (what : Missing)
  | noSuchEvent
  | badTime (e : TimeSyntaxError)
  | badInput (message : String)
  | within (context : String) (inner : Fault)
  | both (a b : Fault)
  | other (message : String)
deriving Repr, Inhabited

/-- The classes of faults. -/
inductive FaultKind where
  | invalidParameters
  | syntaxError
  | canceled
  | parseError
  | fileChanged
  | fileNotFound
  | corruptIndex
  | staleEvent
  | eventNotInLog
  | noOrigin
  | notInTimeline
  | unknownMode
  | stopped
  | error
  | invalidTime
  | noLog
  | noFilter
  | noMapper
  | noReader
  | noSuchEvent
  | panic
  | badInput
deriving DecidableEq, Repr

/-- The name of a class of faults. -/
def FaultKind.name : FaultKind → String
  | .invalidParameters => "InvalidParameters"
  | .syntaxError => "SyntaxError"
  | .canceled => "Canceled"
  | .parseError => "ParseError"
  | .fileChanged => "FileChanged"
  | .fileNotFound => "FileNotFound"
  | .corruptIndex => "CorruptIndex"
  | .staleEvent => "StaleEvent"
  | .eventNotInLog => "EventNotInLog"
  | .noOrigin => "NoOrigin"
  | .notInTimeline => "NotInTimeline"
  | .unknownMode => "UnknownMode"
  | .stopped => "Stopped"
  | .error => "Error"
  | .invalidTime => "InvalidTime"
  | .noLog => "NoLog"
  | .noFilter => "NoFilter"
  | .noMapper => "NoMapper"
  | .noReader => "NoReader"
  | .noSuchEvent => "NoSuchEvent"
  | .panic => "Panic"
  | .badInput => "BadInput"

/-- The name of a class of unreadable lines. -/
def FaultClass.name : FaultClass → String
  | .unknownTag => "UnknownTag"
  | .missingAttribute => "MissingAttribute"
  | .invalidValue => "InvalidValue"
  | .malformed => "Malformed"

namespace Fault

/-- The text of a fault. -/
def message : Fault → String
  | fileNotFound p => "event log file not found: " ++ p
  | fileChanged c none => "event log file changed: " ++ c.name
  | fileChanged c (some d) => "event log file changed: " ++ c.name ++ ": " ++ d
  | interrupted => "context canceled"
  | canceled => "operation canceled: context canceled"
  | corruptIndex d => "corrupt event log index: " ++ d
  | staleEvent => "stale event from an overwritten log"
  | notInLog false => "event does not belong to this log"
  | notInLog true => "event does not belong to this log: nil event"
  | badLine e => e.message
  | badSyntax e => e.message
  | badParameters p => "invalid filter parameters: " ++ p.message
  | noOrigin => "timeline coordinate system has no origin"
  | notInTimeline n => "event is not part of the timeline: event " ++ toString n
  | unknownMode s => "unknown timeline mode: " ++ quote s
  | unknownChange c => "unknown change " ++ c.name
  | invalidScale v => "invalid scale " ++ Number.showFloat .general v ++ " pixels per unit"
  | nonFinite v => v.message
  | stopped => "input loop stopped"
  | missing m => m.message
  | noSuchEvent => "origin event not in log"
  | badTime e => e.message
  | badInput m => m
  | within c f => c ++ ": " ++ f.message
  | both a b => a.message ++ "\n" ++ b.message
  | other m => m

/-- The fault and every fault it wraps, outermost first. -/
def chain : Fault → List Fault
  | within c f => within c f :: f.chain
  | both a b => both a b :: (a.chain ++ b.chain)
  | f => [f]

/-- The syntax error a fault carries itself, if any. -/
def ownSyntax? : Fault → Option Match.SyntaxError
  | badSyntax e => some e
  | badParameters (.badExpression _ e) => some e
  | badParameters (.badPattern _ _ e) => some e
  | _ => none

/-- The class a fault has by itself, if it is one of the named causes. -/
def ownKind? : Fault → Option FaultKind
  | fileNotFound _ => some .fileNotFound
  | fileChanged _ _ => some .fileChanged
  | canceled => some .canceled
  | corruptIndex _ => some .corruptIndex
  | staleEvent => some .staleEvent
  | notInLog _ => some .eventNotInLog
  | badLine _ => some .parseError
  | badSyntax _ => some .syntaxError
  | badParameters _ => some .invalidParameters
  | noOrigin => some .noOrigin
  | notInTimeline _ => some .notInTimeline
  | unknownMode _ => some .unknownMode
  | stopped => some .stopped
  | _ => none

/-- The causes in the order in which they classify a fault. -/
def precedence : List FaultKind :=
  [.invalidParameters, .syntaxError, .canceled, .parseError, .fileChanged, .fileNotFound,
   .corruptIndex, .staleEvent, .eventNotInLog, .noOrigin, .notInTimeline, .unknownMode, .stopped]

/-- Whether a fault of the chain has a class; a syntax error also counts when
it is the cause of invalid parameters. -/
def hasKind (f : Fault) (k : FaultKind) : Bool :=
  f.chain.any fun g => g.ownKind? == some k || (k == .syntaxError && (ownSyntax? g).isSome)

/-- The class of a fault: the first cause of `precedence` found in its chain;
faults of requests are classed by themselves. -/
def kind (f : Fault) : FaultKind :=
  match f with
  | nonFinite _ => .panic
  | missing .log => .noLog
  | missing .filter => .noFilter
  | missing .mapper => .noMapper
  | missing .reader => .noReader
  | noSuchEvent => .noSuchEvent
  | badTime _ => .invalidTime
  | badInput _ => .badInput
  | _ => (precedence.find? f.hasKind).getD .error

/-- The first unreadable line in the chain. -/
def lineError? (f : Fault) : Option LineError :=
  f.chain.findSome? fun
    | badLine e => some e
    | _ => none

/-- The first syntax error in the chain. -/
def syntaxError? (f : Fault) : Option Match.SyntaxError := f.chain.findSome? ownSyntax?

/-- The change of the first changed file in the chain. -/
def change? (f : Fault) : Option Change :=
  f.chain.findSome? fun
    | fileChanged c _ => some c
    | _ => none

end Fault

end EventChart
