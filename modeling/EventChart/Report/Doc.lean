import EventChart.Fault
import EventChart.Number.FloatText
/-!
# Documents

Requests and answers are documents: null, booleans, integers, decimal
numbers, doubles, texts, lists and records with named fields.  A request's
numbers arrive as decimals (`num m e` is `m · 10^-e`); an answer's numbers
are integers or doubles.

`Doc.render` writes a document as JSON text.  Doubles are written with
their shortest digits in the JSON number layout; the values without a
number (NaN and the infinities) are written as the texts `NaN`, `+Inf` and
`-Inf`.

The readers (`Doc.text?`, `Doc.int?`, …) look a field up in a request,
treating null as absent, and fail with `badInput` when it has the wrong
type.
-/

namespace EventChart

/-- A request or answer document. -/
inductive Doc where
  | null
  | bool (b : Bool)
  | int (n : Int)
  | num (mantissa : Int) (exponent : Nat)
  | float (f : Float)
  | text (s : String)
  | list (xs : List Doc)
  | record (fields : List (String × Doc))
deriving Inhabited

namespace Doc

/-- A JSON string literal. -/
def quoteJson (s : String) : String :=
  let esc (c : Char) : List Char :=
    if c = '"' then ['\\', '"'] else if c = '\\' then ['\\', '\\']
    else if c = '\n' then ['\\', 'n'] else if c = '\r' then ['\\', 'r'] else if c = '\t' then ['\\', 't']
    else if c.toNat < 0x20 then ['\\', 'u', '0', '0'] ++ Text.hexWidth c.toNat 2
    else [c]
  String.ofList ('"' :: (s.toList.flatMap esc ++ ['"']))

/-- The JSON text of a decimal `m · 10^-e`. -/
def decimalText (m : Int) (e : Nat) : String :=
  if e = 0 then toString m else toString m ++ "e-" ++ toString e

mutual

/-- The JSON text of a document. -/
def render : Doc → String
  | null => "null"
  | bool b => if b then "true" else "false"
  | int n => toString n
  | num m e => decimalText m e
  | float f =>
    match Number.FloatText.ofFloat .json f with
    | .number s => s
    | other => quoteJson other.render
  | text s => quoteJson s
  | list xs => "[" ++ renderList xs ++ "]"
  | record fs => "\x7b" ++ renderFields fs ++ "\x7d"

/-- The JSON texts of documents, separated by commas. -/
def renderList : List Doc → String
  | [] => ""
  | [x] => render x
  | x :: xs => render x ++ "," ++ renderList xs

/-- The JSON texts of named fields, separated by commas. -/
def renderFields : List (String × Doc) → String
  | [] => ""
  | [(k, v)] => quoteJson k ++ ":" ++ render v
  | (k, v) :: rest => quoteJson k ++ ":" ++ render v ++ "," ++ renderFields rest

end

/-- A field of a record; null and missing fields are absent. -/
def field? (d : Doc) (k : String) : Option Doc :=
  match d with
  | record fs =>
    match fs.lookup k with
    | some null => none
    | v => v
  | _ => none

/-- Whether a record has a field, null or not. -/
def has (d : Doc) (k : String) : Bool :=
  match d with
  | record fs => (fs.lookup k).isSome
  | _ => false

/-- The fields of a record. -/
def fields : Doc → List (String × Doc)
  | record fs => fs
  | _ => []

/-- A document as an integer. -/
def asInt? : Doc → Option Int
  | int n => some n
  | num m 0 => some m
  | _ => none

/-- A document as a double. -/
def asFloat? : Doc → Option Float
  | int n => some (Float.ofInt n)
  | num m e =>
    let f := Float.ofScientific m.natAbs true e
    some (if m < 0 then -f else f)
  | float f => some f
  | _ => none

/-- A text field. -/
def text? (d : Doc) (k : String) : Except Fault (Option String) :=
  match d.field? k with
  | none => .ok none
  | some (text s) => .ok (some s)
  | some _ => .error (.badInput ("field " ++ k ++ " is not a string"))

/-- An integer field. -/
def int? (d : Doc) (k : String) : Except Fault (Option Int) :=
  match d.field? k with
  | none => .ok none
  | some v =>
    match v.asInt? with
    | some n => .ok (some n)
    | none => .error (.badInput ("field " ++ k ++ " is not an integer"))

/-- A double field. -/
def float? (d : Doc) (k : String) : Except Fault (Option Float) :=
  match d.field? k with
  | none => .ok none
  | some v =>
    match v.asFloat? with
    | some f => .ok (some f)
    | none => .error (.badInput ("field " ++ k ++ " is not a number"))

/-- A boolean field. -/
def bool? (d : Doc) (k : String) : Except Fault (Option Bool) :=
  match d.field? k with
  | none => .ok none
  | some (bool b) => .ok (some b)
  | some _ => .error (.badInput ("field " ++ k ++ " is not a boolean"))

/-- A list field. -/
def list? (d : Doc) (k : String) : Except Fault (Option (List Doc)) :=
  match d.field? k with
  | none => .ok none
  | some (list xs) => .ok (some xs)
  | some _ => .error (.badInput ("field " ++ k ++ " is not a list"))

/-- A field that must be there. -/
def required {α : Type} (k : String) (r : Except Fault (Option α)) : Except Fault α :=
  match r with
  | .ok (some a) => .ok a
  | .ok none => .error (.badInput ("missing field " ++ k))
  | .error e => .error e

/-- A text field that must be there. -/
def textReq (d : Doc) (k : String) : Except Fault String := required k (d.text? k)

/-- An integer field that must be there. -/
def intReq (d : Doc) (k : String) : Except Fault Int := required k (d.int? k)

/-- A double field that must be there. -/
def floatReq (d : Doc) (k : String) : Except Fault Float := required k (d.float? k)

/-- A text field or a default. -/
def textOr (d : Doc) (k : String) (dflt : String) : Except Fault String := (·.getD dflt) <$> d.text? k

/-- An integer field or a default. -/
def intOr (d : Doc) (k : String) (dflt : Int) : Except Fault Int := (·.getD dflt) <$> d.int? k

/-- A double field or a default. -/
def floatOr (d : Doc) (k : String) (dflt : Float) : Except Fault Float := (·.getD dflt) <$> d.float? k

/-- A boolean field or a default. -/
def boolOr (d : Doc) (k : String) (dflt : Bool) : Except Fault Bool := (·.getD dflt) <$> d.bool? k

/-- Each element of a list read by `f`. -/
def eachOf {α : Type} (k : String) (f : Doc → Option α) (xs : List Doc) : Except Fault (List α) :=
  xs.mapM fun x =>
    match f x with
    | some a => .ok a
    | none => .error (.badInput ("field " ++ k ++ " has an element of the wrong type"))

/-- A list of texts, empty if absent. -/
def texts (d : Doc) (k : String) : Except Fault (List String) := do
  eachOf k (fun | text s => some s | _ => none) ((← d.list? k).getD [])

/-- A list of integers, empty if absent. -/
def ints (d : Doc) (k : String) : Except Fault (List Int) := do
  eachOf k asInt? ((← d.list? k).getD [])

/-- A list of doubles, empty if absent. -/
def floats (d : Doc) (k : String) : Except Fault (List Float) := do
  eachOf k asFloat? ((← d.list? k).getD [])

/-- A record with one more field in front. -/
def withField (d : Doc) (k : String) (v : Doc) : Doc :=
  match d with
  | record fs => record ((k, v) :: fs.filter (·.1 != k))
  | other => other

/-- A record with more fields, later ones replacing earlier ones. -/
def withFields (d : Doc) (more : List (String × Doc)) : Doc := more.foldl (fun d (k, v) => d.withField k v) d

end Doc

end EventChart
