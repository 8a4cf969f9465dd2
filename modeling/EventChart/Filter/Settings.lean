import EventChart.Filter.Fields
import EventChart.Toml.Seen
import EventChart.Toml.Number
import EventChart.Time.Duration
/-!
# Filter parameters in a settings file

`Parameters.loadInto` reads a settings file over given parameters: each
expression is checked for repeated keys and then acted on, in order, so the
keys before a fault keep their new values.  A key that names no field is
ignored; a table header hides the keys under it.  A value must suit its
field's type: an integer for a number, a boolean for a flag, a string for an
expression, an array for a list (a list fault keeps the items before it),
and for a collection time any value whose text reads as a duration.  After
the whole file is read, the parameters are checked.

`Parameters.settingsText` writes parameters as a settings file: one line per
field in declaration order, empty lists and expressions left out, strings
in single quotes unless they hold a quote or a control character.
-/

namespace EventChart

open EventChart.Toml

namespace Settings

/-- The fault of a value that does not suit a field. -/
def mismatch (f : Field) (what : String) : String :=
  "toml: cannot decode TOML " ++ what ++ " into struct field filter.Parameters." ++ f.name ++
    " of type " ++ f.type.declared

/-- What a value is, as type faults write it. -/
def valueKind : Value → String
  | .str _ => "string"
  | .int _ => "integer"
  | .float _ => "float"
  | .bool _ => "boolean"
  | .date k _ => k.name
  | .array _ => "array"
  | .table _ => "inline table"

/-- The faults every field type reports alike: a value that does not read,
a float, a boolean, a table. -/
def common (f : Field) (storage : String) (v : Value) : String :=
  match v with
  | .int raw =>
    match readInteger raw with
    | .error e => "toml: " ++ e
    | .ok _ => mismatch f "integer"
  | .float raw =>
    match readFloat raw with
    | .error e => "toml: " ++ e
    | .ok _ => "toml: float cannot be assigned to " ++ storage
  | .bool b => "toml: cannot assign boolean to a " ++ (if b then "true" else "false")
  | .table _ => "toml: cannot store inline table in Go type " ++ storage
  | other => mismatch f (valueKind other)

/-- An integer item or value. -/
def integer (f : Field) (storage : String) (v : Value) : Except String Int :=
  match v with
  | .int raw => (readInteger raw).mapError ("toml: " ++ ·)
  | other => .error (common f storage other)

/-- A string item or value. -/
def string (f : Field) (storage : String) (v : Value) : Except String String :=
  match v with
  | .str s => .ok s
  | other => .error (common f storage other)

/-- Reads array items until one does not suit; the items before it are kept. -/
def items {α : Type} (read : Value → Except String α) : List Value → List α × Option String
  | [] => ([], none)
  | v :: vs =>
    match read v with
    | .error e => ([], some e)
    | .ok a => let (rest, e) := items read vs; (a :: rest, e)

/-- The new value of a field from a settings value, and the fault if the
value does not suit; a list keeps the items read before its fault. -/
def decode (f : Field) (v : Value) : Option FieldValue × Option String :=
  let whole {α : Type} (r : Except String α) (mk : α → FieldValue) : Option FieldValue × Option String :=
    match r with
    | .ok a => (some (mk a), none)
    | .error e => (none, some e)
  match f.type with
  | .duration => whole ((Duration.parse v.data).mapError ("toml: " ++ ·)) fun d => .int d.nanos
  | .int64 => whole (integer f "int64" v) .int
  | .int => whole (integer f "int" v) .int
  | .bool =>
    match v with
    | .bool b => (some (.bool b), none)
    | other => (none, some (common f "bool" other))
  | .text => whole (string f "string" v) .text
  | .ints =>
    match v with
    | .array vs => let (xs, e) := items (integer f "int64") vs; (some (.ints xs), e)
    | other => (none, some (common f "slice" other))
  | .texts =>
    match v with
    | .array vs => let (xs, e) := items (string f "string") vs; (some (.texts xs), e)
    | other => (none, some (common f "slice" other))

/-- Whether a list field is empty. -/
def isEmptyList (f : Field) (p : Parameters) : Bool :=
  match f.get p with
  | .ints xs => xs.isEmpty
  | .texts xs => xs.isEmpty
  | _ => false

/-- The state of reading: the parameters, the keys seen, and whether keys are
hidden under a table header. -/
structure Reading where
  params : Parameters
  seen : Seen
  hidden : Bool

/-- Acts on one expression. -/
def step (r : Reading) : Expression → Except String Reading
  | .keyValue k v =>
    if r.hidden then .ok r
    else do
      let seen ← r.seen.keyValue k v
      let r := { r with seen := seen }
      match k, k.head?.bind Field.ofKey? with
      | [_], some f =>
        let (nv, err) := decode f v
        let r := match nv with
          | some x => { r with params := f.set r.params x }
          | none => r
        match err with
        | some e => throw e
        | none => pure r
      | _, _ => pure r
  | .table k => do
    let seen ← r.seen.table k
    match k.head?.bind Field.ofKey? with
    | some f =>
      if (f.type = .ints ∨ f.type = .texts) ∧ isEmptyList f r.params then throw "toml: cannot store a table in a slice"
      else pure { r with seen := seen, hidden := true }
    | none => pure { r with seen := seen, hidden := true }
  | .arrayTable k => do
    let seen ← r.seen.arrayTable k
    pure { r with seen := seen, hidden := true }

/-- Acts on the expressions in order; the parameters reached and the first
fault. -/
def run : Reading → List Expression → Parameters × Option String
  | r, [] => (r.params, none)
  | r, e :: es =>
    match step r e with
    | .ok r => run r es
    | .error msg => (r.params, some msg)

end Settings

namespace Parameters

/-- Reads a settings file over parameters; the parameters reached, and the
fault of reading or checking them. -/
def loadInto (path text : String) (p : Parameters) : Parameters × Option Fault :=
  let doc := Document.read text
  let (p, err) := Settings.run ⟨p, Seen.empty, false⟩ doc.expressions
  let err := match err with
    | some e => some e
    | none => doc.fault.map ("toml: " ++ ·)
  match err with
  | some e => (p, some (.within ("parsing filter parameters " ++ path) (.other e)))
  | none =>
    match p.validate with
    | some f => (p, some (.within ("filter parameters " ++ path) (.badParameters f)))
    | none => (p, none)

/-- A string as a settings value. -/
def settingsString (s : String) : String :=
  let quoted := s.toList.any fun c => c == '\'' || c == '\r' || c == '\n' || Toml.isForbidden c
  if !quoted then "'" ++ s ++ "'"
  else
    let esc (c : Char) : List Char :=
      if c = '\\' then ['\\', '\\'] else if c = '"' then ['\\', '"']
      else if c = '\x08' then ['\\', 'b'] else if c = '\x0c' then ['\\', 'f']
      else if c = '\n' then ['\\', 'n'] else if c = '\r' then ['\\', 'r'] else if c = '\t' then ['\\', 't']
      else if c.toNat < 0x20 || c.toNat == 0x7F then
        ['\\', 'u', '0', '0'] ++ (Text.hexWidth c.toNat 2).map Char.toUpper
      else [c]
    String.ofList ('"' :: (s.toList.flatMap esc ++ ['"']))

/-- A field value as a settings value. -/
def settingsValue (f : Field) : FieldValue → String
  | .int n => if f.type = .duration then settingsString (Duration.render ⟨n⟩) else toString n
  | .bool b => if b then "true" else "false"
  | .text s => settingsString s
  | .ints xs => "[" ++ ", ".intercalate (xs.map toString) ++ "]"
  | .texts xs => "[" ++ ", ".intercalate (xs.map settingsString) ++ "]"

/-- Whether a field value is empty. -/
def FieldValue.isEmpty : FieldValue → Bool
  | .text s => s.isEmpty
  | .ints xs => xs.isEmpty
  | .texts xs => xs.isEmpty
  | _ => false

/-- Parameters written as a settings file. -/
def settingsText (p : Parameters) : String :=
  String.join (Field.all.filterMap fun f =>
    let v := f.get p
    if f.omitsEmpty ∧ FieldValue.isEmpty v then none
    else some (f.key ++ " = " ++ settingsValue f v ++ "\n"))

end Parameters

end EventChart
