import EventChart.Cli.Program
import EventChart.Session.Request
/-!
# Running the program for a request

A program request gives the command line, the files of a fresh working
directory, the environment, the file changes to make while a watch runs,
and the files to read back afterwards.  The answer is the exit status,
both output streams, and the contents of those files (null for a file that
is not there).
-/

namespace EventChart

namespace Session

open EventChart.Cli

/-- A file change of a request. -/
def fileAction (d : Doc) : Except Fault FileAction := do
  let edit ← match ← d.textReq "do" with
    | "write" => pure FileEdit.write
    | "append" => pure .append
    | "replace" => pure .replace
    | "remove" => pure .remove
    | other => throw (.badInput ("unknown action " ++ Text.quote other))
  pure ⟨edit, ← d.textOr "file" "sample.elog", (← d.textOr "content" "").toUTF8, ← d.intOr "wait_ms" 800⟩

/-- The text fields of a record. -/
def textFields (d : Doc) (k : String) : Except Fault (List (String × String)) :=
  match d.field? k with
  | none | some .null => pure []
  | some (.record fs) => fs.mapM fun (name, v) => do pure (name, ← Request.textOf name v)
  | some _ => throw (.badInput (k ++ " is not an object"))

/-- Answers a program request. -/
def runCli (d : Doc) : Except Fault Doc := do
  let args ← d.texts "args"
  let files ← textFields d "files"
  let env ← textFields d "env"
  let reads ← if d.has "read_files" then some <$> d.texts "read_files" else pure none
  let actions ← ((← d.list? "actions").getD []).mapM fileAction
  let store := files.foldl (fun st (name, content) => st.write name content.toUTF8) Store.empty
  let o := runProgram args env store actions
  let base : List (String × Doc) := [("exit", .int o.exit), ("stdout", .text o.out), ("stderr", .text o.err)]
  let read := match reads with
    | some names => [("files", Doc.record (names.map fun n =>
        (n, match o.store.read? n with
          | some data => Doc.text (String.fromUTF8? data |>.getD "")
          | none => Doc.null)))]
    | none => []
  pure (.record (base ++ read))

end Session

end EventChart
