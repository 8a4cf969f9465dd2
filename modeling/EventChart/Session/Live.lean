import EventChart.Session.Log
import EventChart.Live.Owner
import EventChart.Live.Watcher
/-!
# Requests on a live log

A live session writes the log file, opens it and hands it to an `Owner`,
optionally with the first subscriber.  The owner may watch the file or poll
it; a change of the file is then noticed while the client waits.  Each
step's answer carries the notes its own request caused, except a wait,
which answers with the notes that came in while waiting.

A watch session starts a watcher on one file and reports, for each file
action, whether a signal came in the wait after it.
-/

namespace EventChart

namespace Live

/-- How a live session notices changes by itself. -/
structure Noticing where
  watch : Bool
  pollMs : Int

/-- The state of a live session. -/
structure LiveState where
  owner : Owner
  noticing : Noticing

/-- Changes the log file and marks the change as not yet seen. -/
def fileStep (s : LiveState) (op : String) (d : Doc) : Except Fault (LiveState × Doc) := do
  let content := (← d.textOr "content" "").toUTF8
  let st := s.owner.store
  let st := match op with
    | "write" => st.write sessionLogPath content
    | "append" => st.append sessionLogPath content
    | "replace" => st.replace sessionLogPath content
    | _ => st.remove sessionLogPath
  pure ({ s with owner := { s.owner with store := st, unseen := true } }, .record [("ok", .bool true)])

/-- Runs one step; the second part says whether the answer takes the notes. -/
def step (s : LiveState) (d : Doc) : Except Fault (LiveState × Doc × Bool) := do
  let op ← d.textReq "do"
  let o := s.owner
  let ok : Doc := .record [("ok", .bool true)]
  let put (o : Owner) : LiveState := { s with owner := o }
  match op with
  | "write" | "append" | "replace" | "remove" =>
    let (s, a) ← fileStep s op d
    pure (s, a, true)
  | "check" =>
    if o.stopped then return (s, Report.fault .stopped, true)
    let (o, c1, err1) := o.check
    let (o, c, err) := match err1 with
      | some e =>
        if e.change?.isSome then
          let (o, _, err2) := o.check
          match err2 with
          | some e2 => (o, c1, some e2)
          | none => o.check
        else (o, c1, err1)
      | none => (o, c1, none)
    let a := (Report.withFault (.record []) err).withField "change" (.text c.name)
    pure (put o, a, true)
  | "filter" =>
    let p ← Request.parametersField d "params"
    let (o, err) := o.applyFilter p
    pure (put o, (match err with | some e => Report.fault e | none => ok), true)
  | "unfilter" =>
    let (o, err) := o.removeFilter
    pure (put o, (match err with | some e => Report.fault e | none => ok), true)
  | "subscribe" =>
    let (o, id) := o.subscribe
    pure (put o, .record [("id", .int id)], true)
  | "unsubscribe" =>
    let id ← d.intReq "id"
    pure (put (o.unsubscribe id.toNat), ok, true)
  | "events" =>
    let query (o : Owner) : Owner × Except Fault (List Int × Nat) :=
      match o.visibleNumbers with
      | (o, .error e) => (o, .error e)
      | (o, .ok ns) =>
        match o.onView (LogView.approximateCount o.log) with
        | (o, .error e) => (o, .error e)
        | (o, .ok n) => (o, .ok (ns, n))
    let (o, _, r) := o.serve query
    pure (put o, Report.orFault (fun (ns, n) =>
      .record [("events", Report.ints ns), ("approx", .int n), ("epoch", .int o.log.epoch)]) r, true)
  | "entries" =>
    let n ← d.intReq "n"
    let (o, calls, r) := o.serve (Owner.entriesOf n)
    let a := match r with
      | .ok es => Doc.record [("entries", Report.opt (fun (xs : List Entry) => Report.texts (xs.map Entry.render)) es)]
      | .error e => Report.fault e
    pure (put o, a.withField "calls" (.int calls), true)
  | "deps" =>
    let (o, _, r) := o.serve Owner.allDependencies
    pure (put o, Report.orFault (fun ds => match ds with
      | some ds => Report.depSet ds
      | none => .record [("deps", .null)]) r, true)
  | "fail" =>
    let msg ← d.textOr "message" "query failed"
    let (o, _, r) := o.serve (fun o => ((o, .error (.other msg)) : Owner × Except Fault Unit))
    pure (put o, Report.orFault (fun _ => ok) r, true)
  | "stop" => pure (put { o with stopped := true }, ok, true)
  | "wait" =>
    let ms ← d.intOr "ms" 600
    let count ← d.intOr "count" 1
    let noticed := s.noticing.watch ∨ (s.noticing.pollMs > 0 ∧ s.noticing.pollMs ≤ ms)
    let o := if (o.notes.size : Int) < count ∧ !o.stopped ∧ o.unseen ∧ noticed then o.check.1 else o
    let (o, notes) := o.takeNotes
    pure (put o, .record [("notes", Report.texts notes)], false)
  | _ => throw (.badInput ("unknown step " ++ Text.quote op))

/-- Runs the steps of a live session. -/
def runSteps (s : LiveState) : List Doc → List Doc
  | [] => []
  | d :: ds =>
    match step s d with
    | .ok (s, a, takesNotes) =>
      if takesNotes then
        let (o, notes) := s.owner.takeNotes
        a.withField "notes" (Report.texts notes) :: runSteps { s with owner := o } ds
      else a :: runSteps s ds
    | .error e =>
      let (o, notes) := s.owner.takeNotes
      (Report.fault e).withField "notes" (Report.texts notes) :: runSteps { s with owner := o } ds

/-- Answers a live session request. -/
def session (d : Doc) : Except Fault Doc := do
  let content ← d.textOr "content" ""
  let fingerprint ← d.intOr "fingerprint_bytes" 0
  let pollMs ← d.intOr "poll_ms" (-1)
  let watch ← d.boolOr "watch" false
  let subscribe ← d.boolOr "subscribe" true
  let steps := (← d.list? "steps").getD []
  let st := Store.empty.write sessionLogPath content.toUTF8
  match (EventLog.openFile st 0 sessionLogPath ⟨0, fingerprint, false⟩ false).2 with
  | .error e => pure (.record [("open", Report.fault e)])
  | .ok l =>
    let o := Owner.start st l
    let o := if subscribe then o.subscribe.1 else o
    let pollMs := if pollMs = 0 then 3000 else pollMs
    pure (.record [("results", .list (runSteps ⟨o, ⟨watch, pollMs⟩⟩ steps))])

/-- Answers a watch request. -/
def watchSession (d : Doc) : Except Fault Doc := do
  let watched ← d.textOr "watch_path" "sample.elog"
  let hasContent := (d.field? "content").isSome
  let actions ← ((← d.list? "actions").getD []).mapM fun a => do
    let op ← a.textReq "do"
    let file ← a.textOr "file" "sample.elog"
    let wait ← a.intOr "wait_ms" 400
    pure (Watcher.Action.mk file (op = "remove") wait)
  let base : List (String × Doc) := [("path_is_abs", .bool true)]
  if !Watcher.directoryExists watched then
    return .record (base ++ [("start", Report.fault (.other "no such file or directory"))])
  let present := if hasContent then ["sample.elog"] else []
  let results := Watcher.signals watched ⟨0, none, present⟩ actions
  pure (.record (base ++ [("results", .list (results.map fun b => .record [("event", .bool b)]))]))

end Live

end EventChart
