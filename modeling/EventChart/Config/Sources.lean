import EventChart.Config.Basic
import EventChart.Yaml.Document
import EventChart.Log.Store
import EventChart.Number.Elementary
/-!
# Where the settings come from

Each setting has a dotted key (`timeline.tick_spacing`) and takes the
first value found among:

* the `--verbose` option, for `verbose`, when it was given;
* the environment variable `SEQCHART_` and the key in upper case with dots
  as underscores, when it is set and not empty;
* the settings file, when it gives the key a value other than null;
* the built-in value.

The settings file is the one `--config` names, read by its extension
(`yaml`, `yml` or `json`; a file of another kind, or one that is missing or
does not read, is ignored), or else the first of `.seqchart.json`,
`.seqchart.toml`, `.seqchart.yaml`, … and `.seqchart` in the working
directory, read as YAML.  Keys are matched in any case.

A section (`timeline`, `limits`) that the file sets to something other
than a mapping stands for the whole section: a null takes the built-in
section, anything else cannot be read as one.

Values are converted leniently: a text is read as the number or boolean
the setting needs (the empty text as zero), a boolean counts as `1` or
`0`, a double is cut to an integer, and a duration is read from a text
such as `1.5s` or counts nanoseconds.  Every value that cannot be
converted is reported, in the order of the settings.
-/

namespace EventChart

open EventChart.Cli

/-- The kinds of settings. -/
inductive SettingKind where
  | duration
  | int
  | float
  | bool
  | text
deriving DecidableEq, Repr

/-- The name of a setting's type, as messages show it. -/
def SettingKind.typeName : SettingKind → String
  | .duration => "time.Duration"
  | .int => "int"
  | .float => "float64"
  | .bool => "bool"
  | .text => "string"

/-- A converted setting. -/
inductive SettingValue where
  | num (n : Int)
  | float (x : Float)
  | bool (b : Bool)
  | text (s : String)

/-- The settings of a section, or of the top level. -/
structure SettingSpec where
  key : String
  kind : SettingKind
  initial : Yaml.Value

/-- The top-level settings, in their order. -/
def topSettings : List SettingSpec :=
  [⟨"poll_interval", .duration, .int 3000000000⟩, ⟨"max_cached_events", .int, .int 1024⟩,
   ⟨"head_fingerprint_bytes", .int, .int 4096⟩, ⟨"verbose", .bool, .bool false⟩]

/-- The timeline settings, in their order. -/
def timelineSettings : List SettingSpec :=
  [⟨"mode", .text, .str "nonlinear"⟩, ⟨"nonlinear_minimum_delta", .float, .float 0.1⟩,
   ⟨"tick_spacing", .int, .int 100⟩]

/-- The limits settings, in their order. -/
def limitsSettings : List SettingSpec :=
  [⟨"max_cause_depth", .int, .int 15⟩, ⟨"max_consequence_depth", .int, .int 15⟩,
   ⟨"max_number_of_causes", .int, .int 100⟩, ⟨"max_number_of_consequences", .int, .int 100⟩,
   ⟨"max_collection_time", .duration, .int 0⟩, ⟨"collect_message_reuses", .bool, .bool true⟩]

/-- The name of a value's shape, as messages show it. -/
def Yaml.Value.shape : Yaml.Value → String
  | .null => "<nil>"
  | .bool _ => "bool"
  | .int _ => "int"
  | .float _ => "float64"
  | .str _ => "string"
  | .seq _ => "[]interface \x7b\x7d"
  | .map _ => "map[string]interface \x7b\x7d"

/-- The kind of a value, as a section's message shows it. -/
def Yaml.Value.kindName : Yaml.Value → String
  | .seq _ => "slice"
  | .map _ => "map"
  | v => v.shape

/-- The reason of a number or boolean fault, without the text. -/
def literalReason (e : LiteralError) : String := e.brief

/-- A duration fault's message without the text it quotes. -/
def durationReason (msg : String) : String :=
  if msg.startsWith "time: unknown unit " then "time: unknown unit"
  else
    let cs := msg.toList
    match cs.reverse.idxOf? ' ' with
    | some i => String.ofList (cs.take (cs.length - 1 - i))
    | none => msg

/-- A double cut to an integer. -/
def truncate (x : Float) : Int := Number.toInt64 x

/-- Converts a value to a setting's kind; the fault names the key. -/
def convert (key : String) (kind : SettingKind) (v : Yaml.Value) : Except String SettingValue :=
  let cannot (r : String) : Except String SettingValue :=
    .error ("'" ++ key ++ "' cannot parse value as '" ++ kind.typeName ++ "': " ++ r)
  let unconvertible : Except String SettingValue :=
    .error ("'" ++ key ++ "' expected type '" ++ kind.typeName ++ "', got unconvertible type '" ++ v.shape ++ "'")
  match kind, v with
  | .duration, .str s =>
    match Duration.parse s with
    | .ok d => .ok (.num d.nanos)
    | .error e => .error ("'" ++ key ++ "' " ++ durationReason e)
  | .duration, .int n | .int, .int n => .ok (.num n)
  | .duration, .float x | .int, .float x => .ok (.num (truncate x))
  | .duration, .bool b | .int, .bool b => .ok (.num (if b then 1 else 0))
  | .int, .str s =>
    match intLiteral (if s.isEmpty then "0" else s) 0 with
    | .ok n => .ok (.num n)
    | .error e => cannot (literalReason e)
  | .float, .int n => .ok (.float (Float.ofInt n))
  | .float, .float x => .ok (.float x)
  | .float, .bool b => .ok (.float (if b then 1 else 0))
  | .float, .str s =>
    match floatLiteral (if s.isEmpty then "0" else s) with
    | .ok x => .ok (.float x)
    | .error e => cannot (literalReason e)
  | .bool, .bool b => .ok (.bool b)
  | .bool, .int n => .ok (.bool (n ≠ 0))
  | .bool, .float x => .ok (.bool (x != 0))
  | .bool, .str s =>
    match boolLiteral s with
    | .ok b => .ok (.bool b)
    | .error e => if s.isEmpty then .ok (.bool false) else cannot (literalReason e)
  | .text, .str s => .ok (.text s)
  | .text, .int n => .ok (.text (toString n))
  | .text, .float x => .ok (.text (Number.showFloat Number.FloatLayout.positional x))
  | .text, .bool b => .ok (.text (if b then "1" else "0"))
  | _, _ => unconvertible

/-- The environment variable of a key. -/
def envName (key : String) : String :=
  "SEQCHART_" ++ String.ofList (key.toList.map fun c => if c = '.' then '_' else c.toUpper)

/-- Keys in lower case, at every level. -/
def lowerKeys : Nat → Yaml.Value → Yaml.Value
  | 0, v => v
  | fuel + 1, .map es => .map (es.map fun (k, v) => (k.toLower, lowerKeys fuel v))
  | fuel + 1, .seq xs => .seq (xs.map (lowerKeys fuel))
  | _, v => v

/-- The value a mapping gives a key, if not null. -/
def given? (m : Option Yaml.Value) (key : String) : Option Yaml.Value :=
  match m with
  | some (.map es) =>
    match es.lookup key with
    | some .null | none => none
    | some v => some v
  | _ => none

/-- What the settings are read from. -/
structure ConfigSources where
  /-- The settings file's document, keys in lower case. -/
  file : Option Yaml.Value
  env : List (String × String)
  verboseFlag : Option Bool

/-- The value of a setting: the option, the environment, the file, or the
built-in value. -/
def ConfigSources.pick (src : ConfigSources) (section? : Option Yaml.Value) (key : String)
    (spec : SettingSpec) : Yaml.Value :=
  let flag := if key = "verbose" then src.verboseFlag.map Yaml.Value.bool else none
  let env := match src.env.lookup (envName key) with
    | some s => if s.isEmpty then none else some (Yaml.Value.str s)
    | none => none
  (flag <|> env <|> given? section? spec.key).getD spec.initial

/-- Converts the settings of one section; answers the values by key and the
faults. -/
def ConfigSources.section (src : ConfigSources) (section? : Option Yaml.Value) (pre : String)
    (specs : List SettingSpec) : List (String × SettingValue) × List String :=
  specs.foldl (fun (vals, errs) spec =>
    let key := pre ++ spec.key
    match convert key spec.kind (src.pick section? key spec) with
    | .ok v => (vals ++ [(spec.key, v)], errs)
    | .error e => (vals, errs ++ [e])) ([], [])

/-- Converts a section that the file may set as a whole. -/
def ConfigSources.nested (src : ConfigSources) (name : String) (specs : List SettingSpec) :
    List (String × SettingValue) × List String :=
  let whole := match src.file with
    | some (.map es) => es.lookup name
    | _ => none
  match whole with
  | none | some (.map _) => src.section (whole.bind fun w => some w) (name ++ ".") specs
  | some v =>
    let v := match src.env.lookup (envName name) with
      | some s => if s.isEmpty then v else .str s
      | none => v
    match v with
    | .null => src.section none (name ++ ".") specs
    | other => ([], ["'" ++ name ++ "' expected a map or struct, got '" ++ other.kindName ++ "'"])

/-- A converted number setting. -/
def numberOf (vals : List (String × SettingValue)) (key : String) (d : Int) : Int :=
  match vals.lookup key with
  | some (.num n) => n
  | _ => d

/-- Reads the settings; the fault lists every value that could not be
converted, or names the first setting out of range. -/
def ConfigSources.load (src : ConfigSources) : Except String Config := do
  let (top, e1) := src.section src.file "" topSettings
  let (tl, e2) := src.nested "timeline" timelineSettings
  let (lim, e3) := src.nested "limits" limitsSettings
  let errs := e1 ++ e2 ++ e3
  if !errs.isEmpty then
    throw ("decoding config: decoding failed due to the following error(s):\n\n" ++ "\n".intercalate errs)
  let z := Config.zero
  let boolOf (vals : List (String × SettingValue)) (key : String) : Bool :=
    match vals.lookup key with
    | some (.bool b) => b
    | _ => false
  let c : Config :=
    { pollInterval := numberOf top "poll_interval" 0
      maxCachedEvents := numberOf top "max_cached_events" 0
      headFingerprintBytes := numberOf top "head_fingerprint_bytes" 0
      verbose := boolOf top "verbose"
      timeline :=
        { mode := match tl.lookup "mode" with
            | some (.text s) => s
            | _ => z.timeline.mode
          minimumDelta := match tl.lookup "nonlinear_minimum_delta" with
            | some (.float x) => x
            | _ => z.timeline.minimumDelta
          tickSpacing := numberOf tl "tick_spacing" 0 }
      limits :=
        { maxCauseDepth := numberOf lim "max_cause_depth" 0
          maxConsequenceDepth := numberOf lim "max_consequence_depth" 0
          maxNumberOfCauses := numberOf lim "max_number_of_causes" 0
          maxNumberOfConsequences := numberOf lim "max_number_of_consequences" 0
          maxCollectionTime := numberOf lim "max_collection_time" 0
          collectMessageReuses := boolOf lim "collect_message_reuses" } }
  match c.validate with
  | some e => throw e
  | none => pure c

/-- The environment variables the settings are read from. -/
def configVariables : List String :=
  ["timeline", "limits"].map envName ++ (topSettings.map (envName ·.key)) ++
    (timelineSettings.map fun s => envName ("timeline." ++ s.key)) ++
    (limitsSettings.map fun s => envName ("limits." ++ s.key))

/-- The extension of a path's last element, without its dot. -/
def extensionOf (path : String) : String :=
  let base := (path.splitOn "/").getLastD ""
  match base.splitOn "." with
  | [] | [_] => ""
  | parts => parts.getLastD ""

/-- The names the settings file is looked for under, in order. -/
def settingsCandidates : List String :=
  (["json", "toml", "yaml", "yml", "properties", "props", "prop", "hcl", "tfvars", "dotenv", "env", "ini"].map
    fun ext => ".seqchart." ++ ext) ++ [".seqchart"]

/-- Reads a settings document; a document that is not a mapping counts as
none. -/
def readSettings (data : ByteArray) : Option Yaml.Value :=
  match String.fromUTF8? data with
  | none => none
  | some text =>
    match Yaml.Value.read text with
    | .ok .null => some (.map [])
    | .ok (.map es) => some (lowerKeys 64 (.map es))
    | _ => none

/-- The settings file's document: the one `--config` names, or the first
one found in the working directory. -/
def settingsDocument (store : Store) (configPath : String) : Option Yaml.Value :=
  if configPath ≠ "" then
    let ext := extensionOf configPath
    if ext = "yaml" ∨ ext = "yml" ∨ ext = "json" then (store.read? configPath).bind readSettings
    else none
  else
    match settingsCandidates.find? fun p => (store.read? p).isSome with
    | some p => (store.read? p).bind readSettings
    | none => none

end EventChart
