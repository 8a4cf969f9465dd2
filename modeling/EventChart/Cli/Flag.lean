import EventChart.Cli.Literal
import EventChart.Text.Csv
import EventChart.Number.FloatText
/-!
# Options of a command

An option (a flag) has a long name, perhaps a one-letter short name, a kind
and an initial value.  Its kind decides how a value is read:

* a switch (`bool`) reads a boolean and needs no value on the command line;
* `int`, `int64` and `float` read one number;
* `string` takes the text as it is;
* `int64Slice` reads comma-separated integers, `stringSlice` one
  comma-separated record; a list option given twice collects both.

`usages` lays out the option table of a help text: options by name, a
placeholder for the value, the description aligned in a column, and the
initial value unless it is the kind's zero.
-/

namespace EventChart.Cli

open EventChart.Text

/-- The kinds of option values. -/
inductive FlagKind where
  | bool
  | int
  | int64
  | float
  | text
  | int64s
  | texts
deriving DecidableEq, Repr

/-- The name of a kind, as messages and help texts show it. -/
def FlagKind.typeName : FlagKind → String
  | .bool => "bool"
  | .int => "int"
  | .int64 => "int64"
  | .float => "float64"
  | .text => "string"
  | .int64s => "int64Slice"
  | .texts => "stringSlice"

/-- The placeholder shown after an option's name; none for a switch. -/
def FlagKind.placeholder : FlagKind → String
  | .bool => ""
  | .int | .int64 => "int"
  | .float => "float"
  | .text => "string"
  | .int64s => "int64Slice"
  | .texts => "strings"

/-- The value of an option. -/
inductive FlagValue where
  | bool (b : Bool)
  | int (n : Int)
  | float (x : Float)
  | text (s : String)
  | ints (ns : List Int)
  | texts (ss : List String)
deriving Inhabited

/-- An option of a command. -/
structure Flag where
  name : String
  short : Option Char
  kind : FlagKind
  initial : FlagValue
  usage : String
  required : Bool

/-- The text of a value, as the initial value is shown. -/
def FlagValue.render : FlagValue → String
  | .bool b => if b then "true" else "false"
  | .int n => toString n
  | .float x => Number.showFloat Number.FloatLayout.general x
  | .text s => s
  | .ints ns => "[" ++ ",".intercalate (ns.map toString) ++ "]"
  | .texts ss => "[" ++ ",".intercalate ss ++ "]"

namespace Flag

/-- A switch. -/
def switch (name : String) (short : Option Char) (initial : Bool) (usage : String) : Flag :=
  ⟨name, short, .bool, .bool initial, usage, false⟩

/-- A number option of a kind. -/
def number (name : String) (kind : FlagKind) (initial : Int) (usage : String) : Flag :=
  ⟨name, none, kind, .int initial, usage, false⟩

/-- A text option. -/
def textual (name : String) (usage : String) : Flag := ⟨name, none, .text, .text "", usage, false⟩

/-- A list option of a kind, initially empty. -/
def list (name : String) (kind : FlagKind) (usage : String) : Flag :=
  ⟨name, none, kind, if kind = .int64s then .ints [] else .texts [], usage, false⟩

/-- The name as messages show it: both names when there is a short one. -/
def shownName (f : Flag) : String :=
  match f.short with
  | some c => "-" ++ c.toString ++ ", --" ++ f.name
  | none => "--" ++ f.name

/-- Whether the initial value is the zero of its kind, and so not shown. -/
def hasZeroInitial (f : Flag) : Bool :=
  let t := f.initial.render
  match f.kind with
  | .bool => t = "false" ∨ t = ""
  | .int | .int64 | .float => t = "0"
  | .text => t = ""
  | .texts => t = "[]"
  | .int64s => t = "false" ∨ t = "<nil>" ∨ t = "" ∨ t = "0"

/-- The left column of the option's line in a help text. -/
def usageHead (f : Flag) : String :=
  let head := match f.short with
    | some c => "  -" ++ c.toString ++ ", --" ++ f.name
    | none => "      --" ++ f.name
  let ph := f.kind.placeholder
  if ph.isEmpty then head else head ++ " " ++ ph

/-- The right column: the description and the initial value. -/
def usageTail (f : Flag) : String :=
  if f.hasZeroInitial then f.usage
  else if f.kind = .text then f.usage ++ " (default " ++ quote f.initial.render ++ ")"
  else f.usage ++ " (default " ++ f.initial.render ++ ")"

/-- Reads a value of the option's kind; a list option given before keeps
what it had and adds to it. -/
def read (f : Flag) (before : Option FlagValue) (s : String) : Except String FlagValue :=
  let literal {α : Type} (r : Except LiteralError α) : Except String α := r.mapError (·.message)
  match f.kind with
  | .bool => FlagValue.bool <$> literal (boolLiteral s)
  | .int | .int64 => FlagValue.int <$> literal (intLiteral s 0)
  | .float => FlagValue.float <$> literal (floatLiteral s)
  | .text => .ok (.text s)
  | .int64s => do
    let ns ← (s.splitOn ",").mapM fun p => literal (intLiteral p 0)
    match before with
    | some (.ints old) => pure (.ints (old ++ ns))
    | _ => pure (.ints ns)
  | .texts => do
    let ss ← if s.isEmpty then pure [] else (readCsvRecord s).mapError (·.message)
    match before with
    | some (.texts old) => pure (.texts (old ++ ss))
    | _ => pure (.texts ss)

end Flag

/-- The option table of a help text, by name, with the descriptions in one
column two places right of the longest left column. -/
def usages (flags : List Flag) : String :=
  let sorted := flags.mergeSort fun a b => decide (a.name ≤ b.name)
  let width := sorted.foldl (fun m f => max m (f.usageHead.length + 1)) 0
  String.join (sorted.map fun f =>
    f.usageHead ++ " " ++ String.ofList (List.replicate (width - f.usageHead.length) ' ') ++ " " ++
      f.usageTail ++ "\n")

end EventChart.Cli
