import EventChart.Session.Query
import EventChart.Session.Log
import EventChart.Session.Live
import EventChart.Session.Cli
/-!
# Answering requests

`answer` takes a request document, picks its operation by `op` and answers
it: the questions that need no log, a session over a log file, and a run
of the program.  Every
failure is answered as an error record.
-/

namespace EventChart

/-- The answer to one request. -/
def answer (d : Doc) : Doc :=
  let run : Except Fault Doc := do
    let op ← d.textReq "op"
    match Query.answer op d with
    | some r => r
    | none =>
      match op with
      | "log" => Session.runLog d
      | "input" => Live.session d
      | "watcher" => Live.watchSession d
      | "cli" => Session.runCli d
      | _ => throw (.badInput ("unknown op " ++ Text.quote op))
  Report.orFault id run

end EventChart
