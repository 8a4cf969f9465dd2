import EventChart.Cli.Run
/-!
# The program

`runProgram` runs a command line against the files of a working directory
and an environment, and answers the exit status, both output streams and
the files afterwards.

* A command line that asks for help shows it on the standard output.
* A refused command line, or a command that fails, writes `Error: ` and
  the message, then the message again, on the standard error, and exits
  with status 1.  A word that names no command also points to the root's
  help.
* `help` shows the help of the command its words name; for words that name
  none it writes the root's usage on the standard error.

`watch` keeps a log in step with its file while the file changes: each
change that the watcher reports is read, and the command prints what
happened to the log (`appended 4 events`, `overwritten 2 events`), or logs
that reading it failed.  The changes to make and how long to wait after
each are given as `FileAction`s; the watch ends after the last.
-/

namespace EventChart.Cli

/-- The ways a file is changed while a command runs. -/
inductive FileEdit where
  /-- New contents in place. -/
  | write
  /-- Bytes added at the end. -/
  | append
  /-- A new file under the name. -/
  | replace
  /-- The name removed. -/
  | remove
deriving DecidableEq, Repr

/-- A change to a file, and how long to wait after it, in milliseconds. -/
structure FileAction where
  edit : FileEdit
  file : String
  content : ByteArray
  waitMs : Int

/-- The files after a change. -/
def FileAction.apply (a : FileAction) (st : Store) : Store :=
  match a.edit with
  | .write => st.write a.file a.content
  | .append => st.append a.file a.content
  | .replace => st.replace a.file a.content
  | .remove => st.remove a.file

/-! ## Watching -/

/-- Opens the log to watch and applies the filter of the options. -/
def startWatch (inv : Invocation) (env : List (String × String)) (path : String) : RunM Owner := do
  let cfg ← startSession inv env
  let l ← loadLog cfg path
  let (p, active) ← filterParameters inv cfg
  let o := Owner.start (← get).store l
  say ("watching " ++ path ++ " (" ++ toString l.length ++ " events), press Ctrl-C to stop\n")
  if active then
    let (o, err) := o.applyFilter p
    match err with
    | some e => throw e
    | none =>
      logLine .debug "filter applied"
      say ("filtered " ++ comma o.log.length ++ " events\n")
      pure o
  else pure o

/-- Reads a change of the watched file and reports it. -/
def watchCheck (o : Owner) : RunM Owner := do
  let epoch := o.log.epoch
  let (o, change, err) := o.check
  match err with
  | some _ =>
    if change ≠ .unchanged then logLine .debug "event log file changed"
    logLine .warn "resynchronizing event log failed"
  | none =>
    if change ≠ .unchanged then
      logLine .debug "event log file changed"
      if o.log.epoch ≠ epoch then logLine .info "event log rebuilt after overwrite"
      else logLine .debug "event log extended"
      logLine .debug "event log synchronized"
      logLine .info "event log changed"
      say (change.name ++ " " ++ comma o.log.length ++ " events\n")
  pure o

/-- `watch`: follows the log through the file actions. -/
def runWatch (inv : Invocation) (env : List (String × String)) (path : String) (actions : List FileAction) :
    RunM Unit := do
  let o ← startWatch inv env path
  let signals := Watcher.signals path ⟨0, none, [path]⟩
    (actions.map fun a => ⟨a.file, a.edit = .remove, a.waitMs⟩)
  let mut o := o
  for (a, signal) in actions.zip signals do
    o := { o with store := a.apply o.store }
    if signal then o ← watchCheck o
  let st := o.store
  modify fun c => { c with store := st }

/-! ## Help -/

/-- A word between backquotes, or quoted when it cannot be. -/
def backquoted (s : String) : String :=
  let tick := Char.ofNat 96
  if s.toList.any fun c => c = tick ∨ (c.toNat < 0x20 ∧ c ≠ '\t') ∨ c.toNat = 0x7F ∨ c.toNat = 0xFEFF then
    Text.quote s
  else String.singleton tick ++ s ++ String.singleton tick

/-- `help`: the help of the command the words name. -/
def runHelp (words : List String) : RunM Unit :=
  match helpTopic words with
  | some c => say c.helpText
  | none =>
    complain ("Unknown help topic [" ++ " ".intercalate (words.map backquoted) ++ "]\n" ++ Command.root.usageText)

/-! ## Running -/

/-- What a run of the program produced. -/
structure Outcome where
  exit : Nat
  out : String
  err : String
  store : Store

/-- The outcome of a run that stopped with a message; `hint` also points to
the root's help. -/
def Outcome.failure (c : Console) (msg : String) (hint : Bool) : Outcome :=
  ⟨1, c.out, c.err ++ "Error: " ++ msg ++ "\n" ++
    (if hint then "Run '" ++ Command.programName ++ " --help' for usage.\n" else "") ++ msg ++ "\n", c.store⟩

/-- The command a command line runs. -/
def runCommand (inv : Invocation) (env : List (String × String)) (actions : List FileAction) : RunM Unit :=
  let path := inv.args.headD ""
  match inv.command with
  | .info => runInfo inv env path
  | .modules => runModules inv env path
  | .events => runEvents inv env path
  | .deps => runDeps inv env path
  | .trace => runTrace inv env path
  | .ticks => runTicks inv env path
  | .watch => runWatch inv env path actions
  | .filterSave => runFilterSave inv env path
  | .filterCheck => runFilterCheck path
  | .help => runHelp inv.args
  | _ => pure ()

/-- Runs the program on a command line, an environment and the files of its
working directory; `actions` are the file changes made while it watches. -/
def runProgram (args : List String) (env : List (String × String)) (store : Store) (actions : List FileAction) :
    Outcome :=
  let console : Console := ⟨"", "", store, false, false⟩
  match launch args with
  | .showHelp c => ⟨0, c.helpText, "", store⟩
  | .refuse f hint => Outcome.failure console f.message hint
  | .run inv =>
    match (runCommand inv env actions).run.run console with
    | (.ok (), c) => ⟨0, c.out, c.err, c.store⟩
    | (.error e, c) => Outcome.failure c e.message false

/-! ## Running against a real directory -/

/-- The files a run wrote: every name whose contents differ from before. -/
def writtenFiles (before after : Store) : List (String × ByteArray) :=
  after.names.filterMap fun (name, _) =>
    match after.read? name, before.read? name with
    | some now, some old => if now.data == old.data then none else some (name, now)
    | some now, none => some (name, now)
    | none, _ => none

/-- A watch in progress: the log's owner, what was written so far, and the
watched path. -/
structure Watching where
  owner : Owner
  console : Console
  path : String

/-- How often a running watch looks at its file, in milliseconds. -/
def Watching.pollMs : Nat := 150

/-- Starts the program: a watch that starts goes on as `Watching`, every
other run is answered by its outcome. -/
def startProgram (args : List String) (env : List (String × String)) (store : Store) : Sum Outcome Watching :=
  match launch args with
  | .run inv =>
    if inv.command = .watch then
      let path := inv.args.headD ""
      match (startWatch inv env path).run.run ⟨"", "", store, false, false⟩ with
      | (.ok o, c) => .inr ⟨o, c, path⟩
      | (.error e, c) => .inl (Outcome.failure c e.message false)
    else .inl (runProgram args env store [])
  | _ => .inl (runProgram args env store [])

/-- One look at the watched file as it is now; answers the watch and what
it printed to each stream. -/
def Watching.poll (w : Watching) (contents : Option ByteArray) : Watching × String × String :=
  let st := match contents with
    | some data =>
      match w.owner.store.read? w.path with
      | some old => if old.data == data.data then w.owner.store else w.owner.store.write w.path data
      | none => w.owner.store.replace w.path data
    | none => w.owner.store.remove w.path
  let quiet : Console := { w.console with out := "", err := "" }
  if (w.owner.store.read? w.path).map (·.data) == contents.map (·.data) then (w, "", "")
  else
    match (watchCheck { w.owner with store := st }).run.run quiet with
    | (.ok o, c) => ({ w with owner := o }, c.out, c.err)
    | (.error _, c) => ({ w with owner := { w.owner with store := st } }, c.out, c.err)

end EventChart.Cli
