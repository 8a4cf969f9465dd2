import EventChart.Cli.Literal
/-!
# Reading a YAML settings file

The settings file is a block mapping of keys to values, nested by
indentation:

```text
timeline:
  mode: step        # a comment
limits:
  max_cause_depth: 1
```

The reader knows block mappings and block sequences (`- item`, also as a
mapping's value at the key's own indentation, and with a compact mapping
as an item), plain, single-quoted and double-quoted scalars, one-line flow
sequences `[a, b]` and flow mappings `{a: 1}`, comments, and the document
markers `---` and `...`.  A plain scalar may run on over more indented
lines, which are joined by single spaces.  Anything else is refused:
the caller then treats the file as absent.

A plain scalar is typed by its text: `~`, `null` and the empty text are
null; `true` and `false` (also capitalised or upper case) are booleans;
an integer in decimal, `0x`, `0o`, `0b` or leading-`0` octal, underscores
allowed, is an integer; a decimal with a point or an exponent is a
double, as are `.inf` and `.nan`; every other text is a string.  Quoted
scalars are always strings.
-/

namespace EventChart.Yaml

open EventChart.Cli

/-- A value of a document. -/
inductive Value where
  | null
  | bool (b : Bool)
  | int (n : Int)
  | float (x : Float)
  | str (s : String)
  | seq (items : List Value)
  | map (entries : List (String × Value))
deriving Inhabited

/-! ## Scalars -/

/-- Whether a text has the shape of a decimal double: sign, digits with an
optional point, or a point and digits, and an optional exponent. -/
def floatShape (cs : List Char) : Bool :=
  let isDigit (c : Char) := '0' ≤ c && c ≤ '9'
  let cs := match cs with
    | '+' :: r | '-' :: r => r
    | r => r
  let (mant, exp) := cs.span fun c => c != 'e' && c != 'E'
  let mantOk := match mant with
    | '.' :: ds => !ds.isEmpty && ds.all isDigit
    | _ =>
      let (ip, frac) := mant.span isDigit
      !ip.isEmpty && (frac.isEmpty || (frac.head? = some '.' && (frac.drop 1).all isDigit))
  let expOk := match exp with
    | [] => true
    | _ :: rest =>
      let ds := match rest with
        | '+' :: r | '-' :: r => r
        | r => r
      !ds.isEmpty && ds.all isDigit
  mantOk && expOk

/-- An integer with a two-letter base prefix after an optional minus. -/
def prefixedInt (cs : List Char) : Option Int :=
  let (neg, body) := match cs with
    | '-' :: r => (true, r)
    | r => (false, r)
  let base := match body with
    | '0' :: 'b' :: _ => some 2
    | '0' :: 'o' :: _ => some 8
    | _ => none
  base.bind fun b =>
    match intLiteral (String.ofList (body.drop 2)) b with
    | .ok n => some (if neg then -n else n)
    | .error _ => none

/-- The typed value of a plain scalar. -/
def resolve (s : String) : Value :=
  if s = "" ∨ s = "~" ∨ s = "null" ∨ s = "Null" ∨ s = "NULL" then .null
  else if s = "true" ∨ s = "True" ∨ s = "TRUE" then .bool true
  else if s = "false" ∨ s = "False" ∨ s = "FALSE" then .bool false
  else if s = ".inf" ∨ s = ".Inf" ∨ s = ".INF" ∨ s = "+.inf" ∨ s = "+.Inf" ∨ s = "+.INF" then .float infinity
  else if s = "-.inf" ∨ s = "-.Inf" ∨ s = "-.INF" then .float (-infinity)
  else if s = ".nan" ∨ s = ".NaN" ∨ s = ".NAN" then .float (0.0 / 0.0)
  else
    let c := s.front
    if ('0' ≤ c && c ≤ '9') || c = '+' || c = '-' || c = '.' then
      let plain := String.ofList (s.toList.filter (· != '_'))
      match intLiteral plain 0 with
      | .ok n => .int n
      | .error _ =>
        if floatShape plain.toList then
          match floatLiteral plain with
          | .ok x => .float x
          | .error _ => .str s
        else match prefixedInt plain.toList with
          | some n => .int n
          | none => .str s
    else .str s

/-- The value of a hex digit. -/
def hexDigit? (c : Char) : Option Nat :=
  if '0' ≤ c && c ≤ '9' then some (c.toNat - 48)
  else if 'a' ≤ c && c ≤ 'f' then some (c.toNat - 87)
  else if 'A' ≤ c && c ≤ 'F' then some (c.toNat - 55)
  else none

/-- A code point from exactly `width` hex digits. -/
def hexPoint (cs : List Char) (width : Nat) : Option Char :=
  if cs.length < width then none
  else (cs.take width).foldlM (fun acc c => (hexDigit? c).map (acc * 16 + ·)) 0 |>.map Char.ofNat

/-- The number of hex digits after an escape letter: two after `x`, four
after `u`, eight after `U`, none after any other letter. -/
def escapeWidth (c : Char) : Nat :=
  if c = 'x' then 2 else if c = 'u' then 4 else if c = 'U' then 8 else 0

/-- The body of a double-quoted scalar after its opening quote, and what
follows the closing quote. -/
def doubleQuoted : List Char → Except String (List Char × List Char)
  | [] => .error "found unexpected end of stream"
  | '"' :: rest => .ok ([], rest)
  | '\\' :: c :: rest =>
    let simple : Option Char := match c with
      | '0' => some '\x00' | 'a' => some '\x07' | 'b' => some '\x08' | 't' => some '\t'
      | '\t' => some '\t' | 'n' => some '\n' | 'v' => some '\x0b' | 'f' => some '\x0c'
      | 'r' => some '\r' | 'e' => some '\x1b' | ' ' => some ' ' | '"' => some '"'
      | '/' => some '/' | '\\' => some '\\' | 'N' => some '\x85' | '_' => some '\xa0'
      | 'L' => some '\u2028' | 'P' => some '\u2029'
      | _ => none
    match simple with
    | some e => (doubleQuoted rest).map fun (b, r) => (e :: b, r)
    | none =>
      match (if escapeWidth c = 0 then none else hexPoint rest (escapeWidth c)) with
      | some e =>
        have : (rest.drop (escapeWidth c)).length < (c :: rest).length + 1 :=
          Nat.lt_succ_of_le (Nat.le_trans (Nat.le_of_eq List.length_drop)
            (Nat.le_trans (Nat.sub_le rest.length (escapeWidth c)) (Nat.le_succ rest.length)))
        (doubleQuoted (rest.drop (escapeWidth c))).map fun (b, r) => (e :: b, r)
      | none => .error "found unknown escape character while parsing a quoted scalar"
  | c :: rest => (doubleQuoted rest).map fun (b, r) => (c :: b, r)
termination_by cs => cs.length
decreasing_by
  · exact Nat.lt_of_lt_of_le (Nat.lt_succ_self rest.length) (Nat.le_succ (rest.length + 1))
  · exact this
  · exact Nat.lt_succ_self rest.length

/-- The body of a single-quoted scalar after its opening quote, and what
follows the closing quote; a doubled quote stands for one. -/
def singleQuoted : List Char → Except String (List Char × List Char)
  | [] => .error "found unexpected end of stream"
  | '\'' :: '\'' :: rest => (singleQuoted rest).map fun (b, r) => ('\'' :: b, r)
  | '\'' :: rest => .ok ([], rest)
  | c :: rest => (singleQuoted rest).map fun (b, r) => (c :: b, r)

/-- Drops blanks from the front. -/
def skipBlanks (cs : List Char) : List Char := cs.dropWhile fun c => c = ' ' || c = '\t'

/-- Drops blanks from the end. -/
def trimBlanksEnd (cs : List Char) : List Char := (skipBlanks cs.reverse).reverse

/-- Whether a flow plain scalar ends before this character. -/
def endsFlowPlain : List Char → Bool
  | c :: rest => c = ',' || c = ']' || c = '}' || c = '[' || c = '{' ||
      (c = ':' && (rest.isEmpty || rest.head? = some ' ' || rest.head? ∈ [some ',', some ']', some '}']))
  | [] => true

/-- A flow plain scalar and what follows it. -/
def flowPlain : List Char → List Char × List Char
  | [] => ([], [])
  | c :: rest =>
    if endsFlowPlain (c :: rest) then ([], c :: rest)
    else let (p, r) := flowPlain rest; (c :: p, r)

/-- A value in flow style: a flow sequence or mapping, a quoted scalar or a
plain scalar; with fuel for the nesting. -/
def flowValue : Nat → List Char → Except String (Value × List Char)
  | 0, _ => .error "flow nesting too deep"
  | fuel + 1, cs =>
    match skipBlanks cs with
    | '[' :: rest => flowItems fuel (skipBlanks rest) []
    | '{' :: rest => flowEntries fuel (skipBlanks rest) []
    | '"' :: rest => do
      let (b, r) ← doubleQuoted rest
      pure (.str (String.ofList b), r)
    | '\'' :: rest => do
      let (b, r) ← singleQuoted rest
      pure (.str (String.ofList b), r)
    | cs =>
      let (p, r) := flowPlain cs
      pure (resolve (String.ofList (trimBlanksEnd p)), r)
where
  flowItems : Nat → List Char → List Value → Except String (Value × List Char)
    | 0, _, _ => .error "flow sequence too long"
    | _, ']' :: rest, acc => .ok (.seq acc.reverse, rest)
    | fuel + 1, cs, acc => do
      let (v, r) ← flowValue fuel cs
      match skipBlanks r with
      | ',' :: rest => flowItems fuel (skipBlanks rest) (v :: acc)
      | ']' :: rest => .ok (.seq (v :: acc).reverse, rest)
      | _ => .error "did not find expected ',' or ']'"
  flowEntries : Nat → List Char → List (String × Value) → Except String (Value × List Char)
    | 0, _, _ => .error "flow mapping too long"
    | _, '}' :: rest, acc => .ok (.map acc.reverse, rest)
    | fuel + 1, cs, acc => do
      let (k, r) ← flowValue fuel cs
      let key := match k with
        | .str s => s
        | _ => String.ofList (flowPlain (skipBlanks cs)).1
      let (v, r) ← match skipBlanks r with
        | ':' :: rest => flowValue fuel rest
        | r => pure (Value.null, r)
      match skipBlanks r with
      | ',' :: rest => flowEntries fuel (skipBlanks rest) ((key, v) :: acc)
      | '}' :: rest => .ok (.map ((key, v) :: acc).reverse, rest)
      | _ => .error "did not find expected ',' or '\x7d'"

/-- Whether a plain text holds `: ` or ends in `:`, which a plain scalar
in block context may not. -/
def hasMappingColon : List Char → Bool
  | [] => false
  | [':'] => true
  | ':' :: ' ' :: _ => true
  | _ :: rest => hasMappingColon rest

/-- The value of a scalar or flow collection written in block context. -/
def scalar (cs : List Char) : Except String Value := do
  let cs := trimBlanksEnd (skipBlanks cs)
  match cs with
  | [] => pure .null
  | c :: _ =>
    if c = '[' ∨ c = '{' ∨ c = '"' ∨ c = '\'' then
      let (v, rest) ← flowValue (cs.length + 1) cs
      if (skipBlanks rest).isEmpty then pure v
      else throw "did not find expected key"
    else if c = '|' ∨ c = '>' ∨ c = '&' ∨ c = '*' ∨ c = '!' ∨ c = '%' ∨ c = '@' ∨ c = '`' ∨
        c = ',' ∨ c = ']' ∨ c = '}' ∨ c = '#' then
      throw "found character that cannot start any token"
    else if (c = '-' ∨ c = '?') ∧ (cs.length = 1 ∨ cs[1]? = some ' ') then
      throw "block sequence entries are not allowed in this context"
    else if hasMappingColon cs then throw "mapping values are not allowed in this context"
    else pure (resolve (String.ofList cs))

/-! ## Lines -/

/-- A line of the document: its indentation and its content without the
comment and the blanks at its end. -/
structure Line where
  indent : Nat
  body : List Char

/-- Cuts a comment off a line's content: a `#` at the start or after a
blank, outside quotes. -/
def stripComment (cs : List Char) : List Char :=
  let rec go : List Char → Option Char → Char → List Char
    | [], _, _ => []
    | c :: rest, none, prev =>
      if c = '#' ∧ (prev = ' ' ∨ prev = '\t' ∨ prev = '\n') then []
      else if (c = '"' ∨ c = '\'') ∧ (prev = ' ' ∨ prev = '\n' ∨ prev = '[' ∨ prev = '{' ∨ prev = ',') then
        c :: go rest (some c) c
      else c :: go rest none c
    | '\\' :: d :: rest, some '"', _ => '\\' :: d :: go rest (some '"') d
    | c :: rest, some q, _ => c :: go rest (if c = q then none else some q) c
  go cs none '\n'

/-- The lines of the first document that carry content; a tab before the
content is refused. -/
def documentLines (text : String) : Except String (List Line) := do
  let raw := (text.splitOn "\n").map fun l =>
    let cs := l.toList
    if cs.getLast? = some '\r' then cs.dropLast else cs
  let rec collect : List (List Char) → Bool → Except String (List Line)
    | [], _ => .ok []
    | cs :: rest, started =>
      let indent := (cs.takeWhile (· = ' ')).length
      let body := trimBlanksEnd (stripComment (cs.drop indent))
      if body.isEmpty then collect rest started
      else if indent = 0 ∧ (body = ['-', '-', '-'] ∨ body.take 4 = ['-', '-', '-', ' ']) then
        if started then .ok [] else
          let after := skipBlanks (body.drop 3)
          if after.isEmpty then collect rest true
          else do
            let more ← collect rest true
            pure (⟨4, after⟩ :: more)
      else if indent = 0 ∧ body = ['.', '.', '.'] then .ok []
      else if body.head? = some '\t' then .error "found character that cannot start any token"
      else do
        let more ← collect rest true
        pure (⟨indent, body⟩ :: more)
  collect raw false

/-! ## Blocks -/

/-- Whether a line's content is a sequence item. -/
def isItem (cs : List Char) : Bool :=
  match cs with
  | ['-'] => true
  | '-' :: ' ' :: _ => true
  | _ => false

/-- The key of a mapping entry and the text after its `:`, if the content is
an entry. -/
def keyAndRest? (cs : List Char) : Option (Except String (String × List Char)) :=
  match cs with
  | '"' :: rest =>
    match doubleQuoted rest with
    | .ok (k, after) =>
      match skipBlanks after with
      | ':' :: v => if v.isEmpty || v.head? = some ' ' then some (.ok (String.ofList k, v)) else none
      | _ => none
    | .error _ => none
  | '\'' :: rest =>
    match singleQuoted rest with
    | .ok (k, after) =>
      match skipBlanks after with
      | ':' :: v => if v.isEmpty || v.head? = some ' ' then some (.ok (String.ofList k, v)) else none
      | _ => none
    | .error _ => none
  | c :: _ =>
    if c = '[' ∨ c = '{' ∨ isItem cs then none
    else
      let rec split : List Char → List Char → Option (List Char × List Char)
        | [], _ => none
        | [':'], acc => some (acc.reverse, [])
        | ':' :: ' ' :: rest, acc => some (acc.reverse, ' ' :: rest)
        | d :: rest, acc => split rest (d :: acc)
      (split cs []).map fun (k, v) => .ok (String.ofList (trimBlanksEnd k), v)
  | [] => none

/-- Takes the lines indented more than `n`, the continuation of a scalar. -/
def continuation (n : Int) (lines : List Line) : List Line × List Line :=
  lines.span fun l => (l.indent : Int) > n

/-- A scalar with its continuation lines joined by single spaces. -/
def scalarWith (first : List Char) (more : List Line) : Except String Value :=
  scalar (first ++ more.flatMap fun l => ' ' :: l.body)

mutual

/-- The node that starts at the first line, inside a block indented by
`above`; with fuel for the lines. -/
def node : Nat → Int → List Line → Except String (Value × List Line)
  | 0, _, _ => .error "document too deep"
  | _, _, [] => .ok (.null, [])
  | fuel + 1, above, l :: rest =>
    if isItem l.body then sequenceAt fuel l.indent (l :: rest) []
    else match keyAndRest? l.body with
      | some (.error e) => .error e
      | some (.ok _) => mappingAt fuel l.indent (l :: rest) []
      | none =>
        let (more, after) := continuation above rest
        return (← scalarWith l.body more, after)

/-- The value after an entry's `:` or an item's `-`: on the same line, or
in the lines below indented more than `n`. -/
def valueAfter : Nat → Nat → List Char → List Line → Except String (Value × List Line)
  | 0, _, _, _ => .error "document too deep"
  | fuel + 1, n, text, rest =>
    if (skipBlanks text).isEmpty then
      match rest with
      | l :: _ => if l.indent > n then node fuel n rest else .ok (.null, rest)
      | [] => .ok (.null, [])
    else
      let (more, after) := continuation n rest
      return (← scalarWith text more, after)

/-- The entries of a block mapping at indentation `n`. -/
def mappingAt : Nat → Nat → List Line → List (String × Value) → Except String (Value × List Line)
  | 0, _, _, _ => .error "document too deep"
  | _, _, [], acc => .ok (.map acc.reverse, [])
  | fuel + 1, n, l :: rest, acc =>
    if l.indent < n then .ok (.map acc.reverse, l :: rest)
    else if l.indent > n then .error "mapping values are not allowed in this context"
    else match keyAndRest? l.body with
      | some (.ok (k, text)) => do
        if (acc.lookup k).isSome then throw ("mapping key " ++ Text.quote k ++ " already defined")
        let (v, after) ← match rest with
          | r :: _ =>
            if (skipBlanks text).isEmpty ∧ r.indent = n ∧ isItem r.body then sequenceAt fuel n rest []
            else valueAfter fuel n text rest
          | [] => valueAfter fuel n text rest
        mappingAt fuel n after ((k, v) :: acc)
      | some (.error e) => .error e
      | none => .error "could not find expected ':'"

/-- The items of a block sequence at indentation `n`. -/
def sequenceAt : Nat → Nat → List Line → List Value → Except String (Value × List Line)
  | 0, _, _, _ => .error "document too deep"
  | _, _, [], acc => .ok (.seq acc.reverse, [])
  | fuel + 1, n, l :: rest, acc =>
    if l.indent ≠ n ∨ !isItem l.body then
      if l.indent > n then .error "did not find expected '-' indicator"
      else .ok (.seq acc.reverse, l :: rest)
    else
      let text := l.body.drop 1
      let inner := skipBlanks text
      let k := n + 1 + (text.length - inner.length)
      if inner.isEmpty then do
        let (v, after) ← valueAfter fuel n [] rest
        sequenceAt fuel n after (v :: acc)
      else if isItem inner ∨ (keyAndRest? inner).isSome then do
        let (v, after) ← node fuel n (⟨k, inner⟩ :: rest)
        sequenceAt fuel n after (v :: acc)
      else do
        let (v, after) ← valueAfter fuel n inner rest
        sequenceAt fuel n after (v :: acc)

end

/-- Reads a document: its root value, or null for a document without
content. -/
def Value.read (text : String) : Except String Value := do
  let lines ← documentLines text
  let (v, rest) ← node (2 * lines.length + 2) (-1) lines
  if rest.isEmpty then pure v else throw "did not find expected <document start>"

end EventChart.Yaml
