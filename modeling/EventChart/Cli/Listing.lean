import EventChart.Log.Basic
import EventChart.Graph.Chains
import EventChart.Filter.View
import EventChart.Chart.Axis
import EventChart.Number.Fixed
import EventChart.Number.Elementary
/-!
# What the commands print

The commands print plain lines, with a few marks: `✓` for a check passed,
`✗` for one failed, `⚠` before a warning, `→` between the ends of a range
and `←` before a cause.

* Counts carry thousands separators (`12,345`); sizes are written with
  decimal units (`284 B`, `2.0 kB`, `13 MB`), one decimal below ten.
* An event is one line: `#` and its number in six places, `t=` and its
  time in fourteen, the full path of its module (or `module N`), and its
  cause with the name of the causing message.
* A dependency is one line: its ends, its kind in six places, its message,
  and its number of hops when it stands for several edges.
* A list ends with its count: `3 events`, `1 dependency`.
-/

namespace EventChart.Cli

/-- A text padded with spaces on the right to a width in characters. -/
def padTo (width : Nat) (s : String) : String := s ++ String.ofList (List.replicate (width - s.length) ' ')

/-- The singular or plural of a word for a count. -/
def plural (n : Nat) (one many : String) : String := if n = 1 then one else many

/-- Groups of three digits separated by commas, from the right. -/
def groupDigits (ds : List Char) : List Char :=
  let rec go : Nat → List Char → List Char
    | 0, _ => []
    | fuel + 1, rest =>
      if rest.length ≤ 3 then rest else go fuel (rest.take (rest.length - 3)) ++ ',' :: rest.drop (rest.length - 3)
  go ds.length ds

/-- An integer with thousands separators. -/
def comma (n : Int) : String :=
  let body := String.ofList (groupDigits (toString n.natAbs).toList)
  if n < 0 then "-" ++ body else body

/-- A byte count in decimal units: below ten as bytes, else rounded to one
decimal of the largest unit it reaches, the decimal shown below ten. -/
def byteSize (n : Nat) : String :=
  if n < 10 then toString n ++ " B"
  else
    let units := ["B", "kB", "MB", "GB", "TB", "PB", "EB"]
    let x := Float.ofNat n
    let e := (Number.log x / Number.log 1000).floor
    let k := e.toUInt64.toNat
    let v := (x / Float.ofNat (Nat.pow 1000 k) * 10 + 0.5).floor / 10
    let text := if v < 10 then Number.withDecimals 1 v else Number.withDecimals 0 v
    text ++ " " ++ units.getD k "EB"

/-- A labelled line of a summary. -/
def field (label value : String) : String := "  " ++ padTo 13 label ++ " " ++ value ++ "\n"

/-- A warning line. -/
def warning (msg : String) : String := "⚠ warning: " ++ msg ++ "\n"

/-- The name of a module: its full path, or its id when it has none. -/
def moduleLabel (tree : ModuleTree) (id : Int) : String :=
  match tree.find? id with
  | some m => if m.fullPath.isEmpty then "module " ++ toString id else m.fullPath
  | none => "module " ++ toString id

/-- The line of an event. -/
def eventLine (tree : ModuleTree) (e : Event) : String :=
  let base := "#" ++ padTo 6 (toString e.number) ++ " t=" ++ padTo 14 e.time.toText ++ " " ++
    moduleLabel tree e.moduleId
  if e.causeEvent ≥ 0 then
    let msg := match e.causeMessage with
      | some m => if m.send.name.isEmpty then "" else " (" ++ m.send.name ++ ")"
      | none => ""
    base ++ "  ← #" ++ toString e.causeEvent ++ msg
  else base

/-- Events, one per line, and their count. -/
def eventsText (tree : ModuleTree) (es : List Event) : String :=
  String.join (es.map fun e => eventLine tree e ++ "\n") ++
    comma es.length ++ " " ++ plural es.length "event" "events" ++ "\n"

/-- The line of a dependency. -/
def dependencyLine (d : Dependency) : String :=
  let msg := if d.endMessageId = d.messageId then "msg " ++ toString d.messageId
    else "msg " ++ toString d.messageId ++ " → " ++ toString d.endMessageId
  let line := "#" ++ toString d.cause ++ " → #" ++ toString d.consequence ++ "  " ++ padTo 6 d.kind.name ++ " " ++ msg
  if d.length > 1 then line ++ "  (" ++ toString d.length ++ " hops)" else line

/-- Dependencies, one per line, and their count. -/
def dependenciesText (ds : List Dependency) : String :=
  String.join (ds.map fun d => dependencyLine d ++ "\n") ++
    comma ds.length ++ " " ++ plural ds.length "dependency" "dependencies" ++ "\n"

/-- The warning of an incomplete dependency set. -/
def incompleteWarning : String := warning "a collection limit was reached; the result may be incomplete"

/-- One line per chain: its events' range and its size. -/
def chainsText (cs : List Chain) : String :=
  String.join (cs.map fun c =>
    let n := c.events.length
    "chain " ++ toString c.id ++ " #" ++ toString (c.events.headD 0) ++ " → #" ++ toString (c.events.getLastD 0) ++
      " (" ++ toString n ++ " " ++ plural n "event" "events" ++ ", " ++ toString c.deps.length ++ " " ++
      plural c.deps.length "dependency" "dependencies" ++ ")\n")

/-- The module tree, children indented under their parents. -/
def modulesText (tree : ModuleTree) : String :=
  String.join (tree.walk.map fun (id, depth) =>
    let m := (tree.find? id).getD (Module.unknown id)
    let detail := if m.typeName.isEmpty then "id " ++ toString m.id else m.typeName ++ ", id " ++ toString m.id
    String.join (List.replicate depth "  ") ++ m.name ++ " (" ++ detail ++ ")\n")

/-- The ticks of an axis: the prefix their labels leave out, then one line
per tick. -/
def ticksText (ts : TickSet) : String :=
  (if ts.prefixText.isEmpty then "" else field "prefix" ts.prefixText) ++
    String.join (ts.ticks.map fun t => "  x=" ++ padTo 7 (toString t.x) ++ " " ++ t.label ++ "\n")

/-- The verdict on an event and the checks it went through. -/
def explanationText (n : Int) (x : Explanation) : String :=
  "#" ++ toString n ++ (if x.passed then " ✓ shown" else " ✗ hidden") ++ "\n" ++
    String.join (x.checks.map fun (c, ok) => "  " ++ (if ok then "✓ " else "✗ ") ++ c.name ++ "\n")

/-- The summary of a log. -/
def summaryText (path : String) (l : EventLog) : String :=
  let head := path ++ " (" ++ byteSize l.size ++ ")\n" ++ field "events" (comma l.length)
  let range := match l.index.events[0]?, l.index.last? with
    | some a, some b =>
      field "range" ("#" ++ toString a.number ++ " → #" ++ toString b.number) ++
        field "time" (a.time.toText ++ "s → " ++ b.time.toText ++ "s")
    | _, _ => ""
  let modules := field "modules" (comma l.moduleTree.size)
  let count := l.index.numParseErrors
  let errors := if count = 0 then field "parse errors" "none"
    else
      let kept := l.index.parseErrors.toList
      field "parse errors" (comma count) ++ String.join (kept.map fun e => "  ⚠ " ++ e.message ++ "\n") ++
        (if count > kept.length then "  ... and " ++ comma (count - kept.length) ++ " more\n" else "")
  head ++ range ++ modules ++ errors

end EventChart.Cli
