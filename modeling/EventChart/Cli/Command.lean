import EventChart.Cli.Flag
/-!
# The commands of the program

The program is a tree of commands under the root `seqchart`: the queries
on a log (`info`, `modules`, `events`, `deps`, `trace`, `ticks`, `watch`),
the group `filter` with `save` and `check`, `help`, and `completion` with
one command per shell.

Each command has a usage line, a one-line summary, perhaps a longer
description, its own options, and a rule for its arguments.  The root's
options `--config` and `--verbose` are shared by every command; each command
also has `--help`.

`helpText` lays out a command's help: the description, the usage lines,
the commands under it with their summaries, the command's own options, the
shared ones, and a pointer to the help of the commands under it.
-/

namespace EventChart.Cli

/-- The commands. -/
inductive Command where
  | root
  | completion
  | bash
  | fish
  | powershell
  | zsh
  | deps
  | events
  | filter
  | filterCheck
  | filterSave
  | help
  | info
  | modules
  | ticks
  | trace
  | watch
deriving DecidableEq, Repr, Inhabited

/-- How many arguments a command takes; `free` commands take any, and the
root refuses one that names no command. -/
inductive ArgRule where
  | free
  | noArgs
  | exactly (n : Nat)
deriving DecidableEq, Repr

namespace Command

/-- The program's name. -/
def programName : String := "seqchart"

/-- The name a command is called by. -/
def name : Command → String
  | .root => programName
  | .completion => "completion"
  | .bash => "bash"
  | .fish => "fish"
  | .powershell => "powershell"
  | .zsh => "zsh"
  | .deps => "deps"
  | .events => "events"
  | .filter => "filter"
  | .filterCheck => "check"
  | .filterSave => "save"
  | .help => "help"
  | .info => "info"
  | .modules => "modules"
  | .ticks => "ticks"
  | .trace => "trace"
  | .watch => "watch"

/-- The command a command belongs to. -/
def parent? : Command → Option Command
  | .root => none
  | .bash | .fish | .powershell | .zsh => some .completion
  | .filterCheck | .filterSave => some .filter
  | _ => some .root

/-- The commands under a command, in the order they were added. -/
def children : Command → List Command
  | .root => [.deps, .events, .filter, .info, .modules, .ticks, .trace, .watch, .help, .completion]
  | .completion => [.bash, .zsh, .fish, .powershell]
  | .filter => [.filterSave, .filterCheck]
  | _ => []

/-- The names from the root down to a command, joined by spaces. -/
def path (c : Command) : String :=
  match c.parent? with
  | none => programName
  | some .completion => programName ++ " completion " ++ c.name
  | some .filter => programName ++ " filter " ++ c.name
  | some _ => programName ++ " " ++ c.name

/-- The usage pattern: the name and what follows it. -/
def use : Command → String
  | .deps => "deps <file>"
  | .events => "events <file>"
  | .filterCheck => "check <params.toml>"
  | .filterSave => "save <out.toml>"
  | .help => "help [command]"
  | .info => "info <file>"
  | .modules => "modules <file>"
  | .ticks => "ticks <file>"
  | .trace => "trace <file>"
  | .watch => "watch <file>"
  | c => c.name

/-- The line that tells how to load a shell's completion script. -/
def shellSummary (shell : String) : String := "Generate the autocompletion script for " ++ shell

/-- The one-line summary. -/
def short : Command → String
  | .root => "Inspect OMNeT++ event logs"
  | .completion => "Generate the autocompletion script for the specified shell"
  | .bash => shellSummary "bash"
  | .fish => shellSummary "fish"
  | .powershell => shellSummary "powershell"
  | .zsh => shellSummary "zsh"
  | .deps => "List message dependencies crossing an event range"
  | .events => "List the events of a log, optionally filtered"
  | .filter => "Manage saved filter parameters"
  | .filterCheck => "Validate a saved filter"
  | .filterSave => "Save the filter given by flags to a TOML file for use with --filter"
  | .help => "Help about any command"
  | .info => "Summarize an event log"
  | .modules => "Print the module tree of an event log"
  | .ticks => "Compute the time axis ticks of a sequence chart viewport"
  | .trace => "Collect the causes and consequences of an event"
  | .watch => "Follow an event log while the simulation writes it"

/-- The longer description, where there is one. -/
def long? : Command → Option String
  | .root => some ("Seqchart indexes OMNeT++ event log files and answers the queries a sequence chart needs:\n" ++
      "events, filters, message dependencies, causal traces and timeline ticks.")
  | .completion => some ("Generate the autocompletion script for " ++ programName ++
      " for the specified shell.\nSee each sub-command's help for details on how to use the generated script.\n")
  | .bash => some ("Generate the autocompletion script for the bash shell.\n\n" ++
      "This script depends on the 'bash-completion' package.\n" ++
      "If it is not installed already, you can install it via your OS's package manager.\n\n" ++
      "To load completions in your current shell session:\n\n" ++
      "\tsource <(" ++ programName ++ " completion bash)\n\n" ++
      "To load completions for every new session, execute once:\n\n" ++
      "#### Linux:\n\n" ++
      "\t" ++ programName ++ " completion bash > /etc/bash_completion.d/" ++ programName ++ "\n\n" ++
      "#### macOS:\n\n" ++
      "\t" ++ programName ++ " completion bash > $(brew --prefix)/etc/bash_completion.d/" ++ programName ++ "\n\n" ++
      "You will need to start a new shell for this setup to take effect.\n")
  | .zsh => some ("Generate the autocompletion script for the zsh shell.\n\n" ++
      "If shell completion is not already enabled in your environment you will need\n" ++
      "to enable it.  You can execute the following once:\n\n" ++
      "\techo \"autoload -U compinit; compinit\" >> ~/.zshrc\n\n" ++
      "To load completions in your current shell session:\n\n" ++
      "\tsource <(" ++ programName ++ " completion zsh)\n\n" ++
      "To load completions for every new session, execute once:\n\n" ++
      "#### Linux:\n\n" ++
      "\t" ++ programName ++ " completion zsh > \"$\x7bfpath[1]\x7d/_" ++ programName ++ "\"\n\n" ++
      "#### macOS:\n\n" ++
      "\t" ++ programName ++ " completion zsh > $(brew --prefix)/share/zsh/site-functions/_" ++ programName ++ "\n\n" ++
      "You will need to start a new shell for this setup to take effect.\n")
  | .fish => some ("Generate the autocompletion script for the fish shell.\n\n" ++
      "To load completions in your current shell session:\n\n" ++
      "\t" ++ programName ++ " completion fish | source\n\n" ++
      "To load completions for every new session, execute once:\n\n" ++
      "\t" ++ programName ++ " completion fish > ~/.config/fish/completions/" ++ programName ++ ".fish\n\n" ++
      "You will need to start a new shell for this setup to take effect.\n")
  | .powershell => some ("Generate the autocompletion script for powershell.\n\n" ++
      "To load completions in your current shell session:\n\n" ++
      "\t" ++ programName ++ " completion powershell | Out-String | Invoke-Expression\n\n" ++
      "To load completions for every new session, add the output of the above command\n" ++
      "to your powershell profile.\n")
  | .deps => some ("Deps prints every message dependency with at least one end in the event range\n" ++
      "given by --first and --last. With a filter, dependencies through hidden events are\n" ++
      "aggregated into one dependency between the visible events.")
  | .help => some ("Help provides help for any command in the application.\n" ++
      "Simply type " ++ programName ++ " help [path to command] for full details.")
  | .watch => some ("Watch keeps the log indexed as it grows and prints a line for every append\n" ++
      "or rewrite, until interrupted. Changes are picked up from file system\n" ++
      "notifications and from a periodic poll (poll_interval).")
  | _ => none

/-- Whether a command does something itself, rather than only group others. -/
def runnable : Command → Bool
  | .root | .completion | .filter => false
  | _ => true

/-- The rule for a command's arguments. -/
def argRule : Command → ArgRule
  | .root | .filter | .help => .free
  | .completion | .bash | .fish | .powershell | .zsh => .noArgs
  | _ => .exactly 1

/-- Whether the usage line leaves out the options. -/
def hidesFlagsInUse : Command → Bool
  | .bash | .fish | .powershell | .zsh => true
  | _ => false

end Command

/-! ## Options -/

/-- The options that narrow a log down to a filtered view. -/
def filterFlags : List Flag :=
  [Flag.textual "filter" "filter parameters file (TOML)",
   Flag.number "from" .int64 (-1) "first event number shown",
   Flag.number "to" .int64 (-1) "last event number shown",
   Flag.list "exclude" .int64s "event numbers to hide",
   Flag.list "module-id" .int64s "show events of these module ids",
   Flag.list "module-name" .texts "show events of modules whose full path matches a pattern",
   Flag.list "module-type" .texts "show events of modules whose NED type matches a pattern",
   Flag.textual "module-expr" "show events of modules matching a match expression",
   Flag.list "message-id" .int64s "show events processing these message ids",
   Flag.list "message-name" .texts "show events processing messages whose name matches a pattern",
   Flag.list "message-class" .texts "show events processing messages whose class matches a pattern",
   Flag.textual "message-expr" "show events processing messages matching a match expression",
   Flag.number "trace" .int64 (-1) "show only the causes and consequences of this event",
   Flag.switch "trace-causes" none true "include causes of the traced event",
   Flag.switch "trace-consequences" none true "include consequences of the traced event"]

/-- The options shared by every command. -/
def sharedFlags : List Flag :=
  [Flag.textual "config" "config file (default .seqchart.yaml)",
   Flag.switch "verbose" (some 'v') false "verbose output"]

/-- The `--help` option of a command. -/
def helpFlag (c : Command) : Flag := Flag.switch "help" (some 'h') false ("help for " ++ c.name)

/-- A command's own options, without `--help`. -/
def Command.ownFlags : Command → List Flag
  | .bash | .fish | .powershell | .zsh => [Flag.switch "no-descriptions" none false "disable completion descriptions"]
  | .deps => filterFlags ++
      [Flag.number "first" .int64 (-1) "first event of the range (default: first event)",
       Flag.number "last" .int64 (-1) "last event of the range (default: last event)"]
  | .events => filterFlags ++
      [Flag.number "limit" .int 100 "maximum number of events printed (0 for all)",
       Flag.number "explain" .int64 (-1) "explain why this event is shown or hidden"]
  | .filterSave | .watch => filterFlags
  | .ticks => filterFlags ++
      [Flag.textual "mode" "timeline mode: simulation_time, event_number, step or nonlinear (default from config)",
       Flag.number "width" .int 1000 "viewport width in pixels",
       ⟨"ppu", none, .float, .float 0, "pixels per timeline unit (0 fits the first events)", false⟩,
       Flag.number "origin" .int64 (-1) "event drawn at pixel 0 (default: first event)",
       Flag.number "spacing" .int 0 "minimum pixels between ticks (default from config)"]
  | .trace =>
      [{ Flag.number "event" .int64 (-1) "event to trace (required)" with required := true },
       Flag.switch "causes" none true "collect causes",
       Flag.switch "consequences" none true "collect consequences"]
  | _ => []

/-- The options listed as a command's own in its help: the shared ones are
the root's own. -/
def Command.localFlags (c : Command) : List Flag :=
  (if c = .root then sharedFlags else []) ++ c.ownFlags ++ [helpFlag c]

/-- The options a command inherits from the root. -/
def Command.inheritedFlags (c : Command) : List Flag :=
  if c = .root then [] else sharedFlags

/-- Every option a command reads, before `--help` is added. -/
def Command.knownFlags (c : Command) : List Flag := sharedFlags ++ c.ownFlags

/-- Every option a command reads. -/
def Command.allFlags (c : Command) : List Flag := c.knownFlags ++ [helpFlag c]

/-! ## Help texts -/

/-- Drops white space at the end of a text. -/
def trimEnd (s : String) : String :=
  String.ofList (s.toList.reverse.dropWhile Char.isWhitespace).reverse

/-- Pads a text with spaces on the right to a width. -/
def padRight (s : String) (width : Nat) : String :=
  s ++ String.ofList (List.replicate (width - s.length) ' ')

namespace Command

/-- Whether a command is listed among the commands of its parent. -/
def listed (c : Command) : Bool := c.runnable || !c.children.isEmpty

/-- The usage line of a runnable command. -/
def useLine (c : Command) : String :=
  let line := match c.parent? with
    | some p => p.path ++ " " ++ c.use
    | none => c.use
  if c.hidesFlagsInUse then line else line ++ " [flags]"

/-- The usage part of a help text. -/
def usageText (c : Command) : String :=
  let subs := c.children.filter listed
  let hasSubs := !subs.isEmpty
  let width := max 11 (c.children.foldl (fun m k => max m k.name.length) 0)
  let sorted := c.children.mergeSort fun a b => decide (a.name ≤ b.name)
  let s := "Usage:"
  let s := if c.runnable then s ++ "\n  " ++ c.useLine else s
  let s := if hasSubs then s ++ "\n  " ++ c.path ++ " [command]" else s
  let s := if hasSubs then
      s ++ "\n\nAvailable Commands:" ++ String.join ((sorted.filter fun k => k.listed || k = .help).map
        fun k => "\n  " ++ padRight k.name width ++ " " ++ k.short)
    else s
  let s := s ++ "\n\nFlags:\n" ++ trimEnd (usages c.localFlags)
  let s := if c.inheritedFlags.isEmpty then s else s ++ "\n\nGlobal Flags:\n" ++ trimEnd (usages c.inheritedFlags)
  let s := if hasSubs then
      s ++ "\n\nUse \"" ++ c.path ++ " [command] --help\" for more information about a command." else s
  s ++ "\n"

/-- The help text of a command. -/
def helpText (c : Command) : String :=
  let about := trimEnd (c.long?.getD c.short)
  let head := if about.isEmpty then "" else about ++ "\n\n"
  if c.runnable || !c.children.isEmpty then head ++ c.usageText else head

end Command

end EventChart.Cli
