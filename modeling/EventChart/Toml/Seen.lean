import EventChart.Toml.Document
/-!
# Keys defined so far

A document may define each key once.  `Seen` records, for every key path
defined so far, whether it names a value, a table or an array of tables, and
whether the table was opened by its own header (or closed for further
dotted keys when a later header started).  Each expression is checked
against it before it is acted on:

* a key and value may not define a key twice, nor reach through a value or
  into a table that has its own header;
* a table header may not open a table twice nor reach through a value;
* an array-table header may only extend an array of tables.

Inline tables are checked on their own: their keys do not outlive them.
-/

namespace EventChart

namespace Toml

/-- What a key path names. -/
inductive SeenKind where
  | value
  | table
  | arrayTable
deriving DecidableEq, Repr

/-- The name of what a key path names, as fault messages write it. -/
def SeenKind.name : SeenKind → String
  | .value => "value"
  | .table => "table"
  | .arrayTable => "array table"

/-- A defined key path. -/
structure SeenEntry where
  path : List String
  kind : SeenKind
  explicit : Bool
deriving Repr

/-- The key paths defined so far and the table that key-values go to. -/
structure Seen where
  entries : List SeenEntry
  current : Option (List String)
deriving Repr

namespace Seen

/-- Nothing defined yet. -/
def empty : Seen := ⟨[], none⟩

/-- The entry of a path. -/
def find? (s : Seen) (p : List String) : Option SeenEntry := s.entries.find? (·.path == p)

/-- Adds an entry. -/
def create (s : Seen) (p : List String) (k : SeenKind) (explicit : Bool) : Seen :=
  { s with entries := s.entries ++ [⟨p, k, explicit⟩] }

/-- Changes the entry of a path. -/
def update (s : Seen) (p : List String) (f : SeenEntry → SeenEntry) : Seen :=
  { s with entries := s.entries.map fun e => if e.path == p then f e else e }

/-- Whether a path lies strictly below another. -/
def isBelow (p q : List String) : Bool := q.isPrefixOf p && q.length < p.length

/-- Closes everything below the current table for later dotted keys. -/
def closeCurrent (s : Seen) : Seen :=
  match s.current with
  | some c => { s with entries := s.entries.map fun e => if isBelow e.path c then { e with explicit := true } else e }
  | none => s

/-- Walks the parts of a header before its last, creating missing tables. -/
def headerParents (s : Seen) : List String → List String → Except String (Seen × List String)
  | parent, [] => .ok (s, parent)
  | parent, k :: ks => do
    let p := parent ++ [k]
    let s ← match s.find? p with
      | none => pure (s.create p .table false)
      | some e =>
        if e.kind = .value then throw ("toml: expected " ++ k ++ " to be a table, not a " ++ e.kind.name)
        else pure s
    headerParents s p ks

/-- Checks and records a table header. -/
def table (s : Seen) (key : List String) : Except String Seen := do
  let s := s.closeCurrent
  let (s, parent) ← s.headerParents [] key.dropLast
  let k := key.getLast?.getD ""
  let p := parent ++ [k]
  let s ← match s.find? p with
    | some e =>
      if e.kind ≠ .table then throw ("toml: key " ++ k ++ " should be a table, not a " ++ e.kind.name)
      else if e.explicit then throw ("toml: table " ++ k ++ " already exists")
      else pure (s.update p fun e => { e with explicit := true })
    | none => pure (s.create p .table true)
  pure { s with current := some p }

/-- Checks and records an array-table header; a repeated header starts a new
element, so what the previous element defined is forgotten. -/
def arrayTable (s : Seen) (key : List String) : Except String Seen := do
  let s := s.closeCurrent
  let (s, parent) ← s.headerParents [] key.dropLast
  let k := key.getLast?.getD ""
  let p := parent ++ [k]
  let s ← match s.find? p with
    | some e =>
      if e.kind ≠ .arrayTable then throw ("toml: key " ++ k ++ " already exists")
      else pure { s with entries := s.entries.filter fun e => !isBelow e.path p }
    | none => pure (s.create p .arrayTable true)
  pure { s with current := some p }

/-- Walks the parts of a key, creating missing tables; the last part may not
exist yet. -/
def keyParts (s : Seen) : List String → List String → Except String (Seen × List String)
  | parent, [] => .ok (s, parent)
  | parent, k :: ks => do
    let p := parent ++ [k]
    let s ← match s.find? p with
      | none => pure (s.create p .table false)
      | some e =>
        if ks.isEmpty then throw ("toml: key " ++ k ++ " is already defined")
        else if e.kind ≠ .table then throw ("toml: expected " ++ k ++ " to be a table, not a " ++ e.kind.name)
        else if e.explicit then
          throw ("toml: cannot redefine table " ++ k ++ " that has already been explicitly defined")
        else pure s
    keyParts s p ks

mutual

/-- Checks and records a key and its value. -/
def keyValue (s : Seen) (key : List String) (v : Value) : Except String Seen := do
  let (s, p) ← s.keyParts (s.current.getD []) key
  let s := s.update p fun e => { e with kind := .value }
  checkValue v
  pure s

/-- Checks the inline tables within a value. -/
def checkValue : Value → Except String Unit
  | .table entries => checkTable Seen.empty entries
  | .array items => checkItems items
  | _ => .ok ()

/-- Checks the items of an array. -/
def checkItems : List Value → Except String Unit
  | [] => .ok ()
  | v :: vs => do checkValue v; checkItems vs

/-- Checks the entries of an inline table on their own. -/
def checkTable (s : Seen) : List (List String × Value) → Except String Unit
  | [] => .ok ()
  | (k, v) :: rest => do
    let s ← s.keyValue k v
    checkTable s rest

end

/-- Checks and records an expression. -/
def expression (s : Seen) : Expression → Except String Seen
  | .keyValue k v => s.keyValue k v
  | .table k => s.table k
  | .arrayTable k => s.arrayTable k

end Seen

end Toml

end EventChart
