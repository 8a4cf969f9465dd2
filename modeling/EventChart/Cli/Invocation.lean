import EventChart.Cli.Command
/-!
# Reading a command line

A command line is read in two passes.

* **Finding the command.**  The words that are neither options nor option
  values are looked at from the left; while one names a command under the
  current one, that command is entered and the word is removed.  An option
  written without `=` is taken to have its value in the next word unless it
  is a known switch.  The root refuses a word that names no command, and
  suggests the commands it is close to.
* **Reading the options** of the command found: `--name=value`,
  `--name value`, `-x value`, `-xvalue`, `-x=value`, and runs of switches
  `-vx`.  A lone `--` ends the options.  Every other word is an argument.

Then `--help`, or a command that only groups others, shows the help; the
arguments are checked against the command's rule and the required options
must be present.  Each way to fail is a constructor of `UsageFault`.
-/

namespace EventChart.Cli

open EventChart.Text

/-- The quoted form of a single character, as messages show an option
letter: the first byte of its encoding, between single quotes. -/
def quoteLetter (c : Char) : String :=
  let b := ((String.singleton c).toUTF8.toList.headD 0).toNat
  let c := Char.ofNat b
  if c = '\'' then "'\\''"
  else if c = '"' then "'\"'"
  else "'" ++ String.ofList (escapeChar c) ++ "'"

/-- Why a command line is refused. -/
inductive UsageFault where
  | badSyntax (arg : String)
  | unknownFlag (name : String)
  | unknownLetter (c : Char) (group : String)
  | needsValue (arg : String)
  | letterNeedsValue (c : Char) (group : String)
  | badValue (value : String) (flag : String) (reason : String)
  | unknownCommand (word : String) (path : String) (suggestions : List String)
  | argCount (expected got : Nat)
  | missingFlags (names : List String)
deriving Repr

/-- The message of a refusal. -/
def UsageFault.message : UsageFault → String
  | .badSyntax a => "bad flag syntax: " ++ a
  | .unknownFlag n => "unknown flag: --" ++ n
  | .unknownLetter c g => "unknown shorthand flag: " ++ quoteLetter c ++ " in -" ++ g
  | .needsValue a => "flag needs an argument: " ++ a
  | .letterNeedsValue c g => "flag needs an argument: " ++ quoteLetter c ++ " in -" ++ g
  | .badValue v f r => "invalid argument " ++ quote v ++ " for " ++ quote f ++ " flag: " ++ r
  | .unknownCommand w p ss =>
    let hint := if ss.isEmpty then ""
      else "\n\nDid you mean this?\n" ++ String.join (ss.map fun s => "\t" ++ s ++ "\n")
    "unknown command " ++ quote w ++ " for " ++ quote p ++ hint
  | .argCount e g => "accepts " ++ toString e ++ " arg(s), received " ++ toString g
  | .missingFlags ns => "required flag(s) \"" ++ "\", \"".intercalate ns ++ "\" not set"

/-! ## Finding the command -/

/-- Whether a word `--name` without `=` takes the next word as its value:
all options but known switches do. -/
def longTakesValue (flags : List Flag) (name : String) : Bool :=
  match flags.find? (·.name = name) with
  | some f => f.kind ≠ .bool
  | none => true

/-- Whether a word `-x` takes the next word as its value. -/
def letterTakesValue (flags : List Flag) (c : Char) : Bool :=
  match flags.find? (·.short = some c) with
  | some f => f.kind ≠ .bool
  | none => true

/-- Whether a word is an option that takes the next word as its value. -/
def takesNext (flags : List Flag) (s : String) : Bool :=
  if s.contains '=' then false
  else if s.startsWith "--" then longTakesValue flags (s.drop 2).toString
  else match s.toList with
    | ['-', c] => letterTakesValue flags c
    | _ => false

/-- The words of a command line that are neither options nor their values. -/
def plainWords (flags : List Flag) : List String → List String
  | [] => []
  | s :: rest =>
    if s = "--" then []
    else if takesNext flags s then plainWords flags (rest.drop 1)
    else if s ≠ "" ∧ !s.startsWith "-" then s :: plainWords flags rest
    else plainWords flags rest
termination_by args => args.length
decreasing_by all_goals (simp; try omega)

/-- Removes the first plain word equal to `x`. -/
def removeWord (flags : List Flag) (x : String) : List String → List String
  | [] => []
  | s :: rest =>
    if s = "--" then s :: rest
    else if takesNext flags s then s :: rest.take 1 ++ removeWord flags x (rest.drop 1)
    else if !s.startsWith "-" ∧ s = x then rest
    else s :: removeWord flags x rest
termination_by args => args.length
decreasing_by all_goals (simp; try omega)

/-- The edit distance of two texts, case ignored. -/
def editDistance (s t : String) : Nat :=
  let a := s.toLower.toUTF8.toList
  let b := t.toLower.toUTF8.toList
  let first := List.range (b.length + 1)
  let last := a.foldl (fun (prev : List Nat) (x : UInt8) =>
    let start := prev.headD 0 + 1
    let (row, _) := (b.zip (prev.zip (prev.drop 1))).foldl
      (fun (acc : List Nat × Nat) (y, diag, up) =>
        let (row, left) := acc
        let cost := if x = y then 0 else 1
        let v := min (min (up + 1) (left + 1)) (diag + cost)
        (v :: row, v))
      ([start], start)
    row.reverse) first
  last.getLastD 0

/-- The commands under the root that a mistyped word may have meant. -/
def suggestions (word : String) : List String :=
  (Command.root.children.filter fun c => c.listed && c ≠ .help).filterMap fun c =>
    if editDistance word c.name ≤ 2 ∨ c.name.toLower.startsWith word.toLower then some c.name else none

/-- Follows the plain words down the command tree, with fuel for its depth. -/
def descend : Nat → Command → List String → Command × List String
  | 0, c, args => (c, args)
  | fuel + 1, c, args =>
    match plainWords c.knownFlags args with
    | [] => (c, args)
    | next :: _ =>
      match c.children.find? (·.name = next) with
      | some k => descend fuel k (removeWord c.knownFlags next args)
      | none => (c, args)

/-- The command a command line names, and the words left for it. -/
def findCommand (args : List String) : Except UsageFault (Command × List String) :=
  let (c, rest) := descend 3 .root args
  if c.argRule = .free ∧ c = .root then
    match plainWords c.knownFlags rest with
    | w :: _ => .error (.unknownCommand w c.path (suggestions w))
    | [] => .ok (c, rest)
  else .ok (c, rest)

/-! ## Reading the options -/

/-- The options given on a command line with their values, and the
arguments. -/
structure Invocation where
  command : Command
  given : List (String × FlagValue)
  args : List String
deriving Inhabited

namespace Invocation

/-- Whether an option was given. -/
def changed (inv : Invocation) (name : String) : Bool := (inv.given.lookup name).isSome

/-- The value of an option: given or initial. -/
def value (inv : Invocation) (name : String) : FlagValue :=
  match inv.given.lookup name with
  | some v => v
  | none => ((inv.command.allFlags.find? (·.name = name)).map (·.initial)).getD (.text "")

/-- A switch's value. -/
def bool (inv : Invocation) (name : String) : Bool :=
  match inv.value name with
  | .bool b => b
  | _ => false

/-- A number option's value. -/
def int (inv : Invocation) (name : String) : Int :=
  match inv.value name with
  | .int n => n
  | _ => 0

/-- A double option's value. -/
def float (inv : Invocation) (name : String) : Float :=
  match inv.value name with
  | .float x => x
  | _ => 0

/-- A text option's value. -/
def text (inv : Invocation) (name : String) : String :=
  match inv.value name with
  | .text s => s
  | _ => ""

/-- An integer list option's value. -/
def ints (inv : Invocation) (name : String) : List Int :=
  match inv.value name with
  | .ints ns => ns
  | _ => []

/-- A text list option's value. -/
def texts (inv : Invocation) (name : String) : List String :=
  match inv.value name with
  | .texts ss => ss
  | _ => []

end Invocation

/-- Gives an option a value read from a text. -/
def assign (given : List (String × FlagValue)) (f : Flag) (s : String) :
    Except UsageFault (List (String × FlagValue)) :=
  let before := given.lookup f.name
  match f.read before s with
  | .ok v =>
    if before.isSome then .ok (given.map fun (n, w) => if n = f.name then (n, v) else (n, w))
    else .ok (given ++ [(f.name, v)])
  | .error r => .error (.badValue s f.shownName r)

/-- Reads a run of option letters `-xyz`; the last may take a value from
its own rest or from the next word.  Answers the options set and whether
the next word was taken. -/
def readLetters (flags : List Flag) (given : List (String × FlagValue)) (next : Option String) :
    List Char → Except UsageFault (List (String × FlagValue) × Bool)
  | [] => .ok (given, false)
  | c :: rest =>
    let group := String.ofList (c :: rest)
    match flags.find? (·.short = some c) with
    | none => .error (.unknownLetter c group)
    | some f =>
      match rest with
      | '=' :: v :: vs => do
        return (← assign given f (String.ofList (v :: vs)), false)
      | _ =>
        if f.kind = .bool then do
          readLetters flags (← assign given f "true") next rest
        else if !rest.isEmpty then do
          return (← assign given f (String.ofList rest), false)
        else match next with
          | some v => do return (← assign given f v, true)
          | none => .error (.letterNeedsValue c group)

/-- Reads the options of a command line; answers the options set and the
arguments. -/
def readFlags (flags : List Flag) (given : List (String × FlagValue)) :
    List String → Except UsageFault (List (String × FlagValue) × List String)
  | [] => .ok (given, [])
  | s :: rest =>
    match s.toList with
    | '-' :: '-' :: [] => .ok (given, rest)
    | '-' :: '-' :: body =>
      match body with
      | '-' :: _ | '=' :: _ => .error (.badSyntax s)
      | _ =>
        let (name, value?) := match body.span (· != '=') with
          | (n, []) => (String.ofList n, none)
          | (n, _ :: v) => (String.ofList n, some (String.ofList v))
        match flags.find? (·.name = name) with
        | none => .error (.unknownFlag name)
        | some f =>
          match value? with
          | some v => do readFlags flags (← assign given f v) rest
          | none =>
            if f.kind = .bool then do readFlags flags (← assign given f "true") rest
            else match rest with
              | v :: more => do readFlags flags (← assign given f v) more
              | [] => .error (.needsValue s)
    | '-' :: c :: cs => do
      let (given, took) ← readLetters flags given rest.head? (c :: cs)
      readFlags flags given (if took then rest.drop 1 else rest)
    | _ => do
      let (given, args) ← readFlags flags given rest
      return (given, s :: args)
termination_by args => args.length
decreasing_by all_goals (try split) <;> simp <;> omega

/-! ## What a command line asks for -/

/-- The outcome of reading a command line. -/
inductive Launch where
  /-- Show a command's help. -/
  | showHelp (c : Command)
  /-- Refuse the command line; `hint` also points to the root's help. -/
  | refuse (fault : UsageFault) (hint : Bool)
  /-- Run a command. -/
  | run (inv : Invocation)

/-- The fault of a command's arguments against its rule. -/
def argFault (c : Command) (args : List String) : Option UsageFault :=
  match c.argRule, args with
  | .exactly n, _ => if args.length = n then none else some (.argCount n args.length)
  | .noArgs, w :: _ => some (.unknownCommand w c.path [])
  | _, _ => none

/-- Reads a command line. -/
def launch (args : List String) : Launch :=
  match findCommand args with
  | .error f => .refuse f true
  | .ok (c, rest) =>
    match readFlags c.allFlags [] rest with
    | .error f => .refuse f false
    | .ok (given, positional) =>
      let inv : Invocation := ⟨c, given, positional⟩
      if inv.bool "help" || !c.runnable then .showHelp c
      else match argFault c positional with
        | some f => .refuse f false
        | none =>
          let missing := ((c.allFlags.filter fun f => f.required && !inv.changed f.name).map (·.name)).mergeSort
            fun a b => decide (a ≤ b)
          if missing.isEmpty then .run inv else .refuse (.missingFlags missing) false

/-- The command a help request names: the command and whether the words
named one. -/
def helpTopic (words : List String) : Option Command :=
  match findCommand words with
  | .ok (c, _) => some c
  | .error _ => none

end EventChart.Cli
