import EventChart.Cli.Program
/-!
# The command line

The program reads the files its command line may name (arguments, option
values and the settings files of the working directory) and the settings'
environment variables, runs, prints both streams, and writes the files the
run wrote.  A watch goes on looking at its file until the process is
interrupted.
-/

open EventChart EventChart.Cli

/-- The contents of a file, if there is one. -/
def readIfFile (path : String) : IO (Option ByteArray) := do
  try
    let data ← IO.FS.readBinFile path
    pure (some data)
  catch _ => pure none

/-- The files a command line may read. -/
def loadFiles (args : List String) : IO Store := do
  let values := args.filterMap fun a =>
    match a.splitOn "=" with
    | _ :: rest@(_ :: _) => some ("=".intercalate rest)
    | _ => none
  (args ++ values ++ settingsCandidates).foldlM (fun st name => do
    if (st.read? name).isSome then return st
    match ← readIfFile name with
    | some data => pure (st.write name data)
    | none => pure st) Store.empty

/-- Follows a watch until the process is interrupted. -/
partial def follow (w : Watching) : IO Unit := do
  IO.sleep Watching.pollMs.toUInt32
  let (w, out, err) := w.poll (← readIfFile w.path)
  IO.print out
  IO.eprint err
  (← IO.getStdout).flush
  follow w

def main (args : List String) : IO UInt32 := do
  let env ← configVariables.filterMapM fun v => do return (← IO.getEnv v).map (v, ·)
  let store ← loadFiles args
  match startProgram args env store with
  | .inl o =>
    IO.print o.out
    IO.eprint o.err
    for (name, data) in writtenFiles store o.store do
      for dir in parentDirectories name do
        IO.FS.createDirAll dir
      IO.FS.writeBinFile name data
    pure o.exit.toUInt32
  | .inr w =>
    IO.print w.console.out
    IO.eprint w.console.err
    (← IO.getStdout).flush
    follow w
    pure 0
