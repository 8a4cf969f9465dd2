import EventChart.Text.Quoted
/-!
# Reading a settings document

A settings document is read one expression at a time: a key and its value,
a table header `[a.b]` or an array-table header `[[a.b]]`.  Expressions
are separated by line ends; blanks and comments (`#` to the end of the
line) may surround them.  Keys are bare (letters, digits, `-`, `_`) or
quoted, and may be dotted.  Values are basic strings (`"…"` with
backslash escapes), literal strings (`'…'`), both also in their
three-quote multi-line forms, integers (decimal, or `0x`, `0o`, `0b`),
floats, booleans, dates and times, arrays and inline tables.

Reading stops at the first malformed expression: `Document.read` gives the
expressions read before it and the message of the fault.  A consumer that
acts on each expression in turn therefore acts on everything before the
fault, and sees the fault after the last of them.  A number's or date's
text is kept as written; it is read when a consumer needs it.
-/

namespace EventChart

namespace Toml

open EventChart.Text

/-- Which of the four date and time forms a value has. -/
inductive DateKind where
  | localDate
  | localTime
  | localDateTime
  | dateTime
deriving DecidableEq, Repr

/-- The name of a date form, as fault messages write it. -/
def DateKind.name : DateKind → String
  | .localDate => "local date"
  | .localTime => "local time"
  | .localDateTime => "local datetime"
  | .dateTime => "datetime"

/-- A value of the document. -/
inductive Value where
  | str (s : String)
  | int (raw : String)
  | float (raw : String)
  | bool (b : Bool)
  | date (kind : DateKind) (raw : String)
  | array (items : List Value)
  | table (entries : List (List String × Value))
deriving Repr, Inhabited

/-- The text of a value as written, for values read through a text reader:
the contents of a string, the digits of a number or date, the word of a
boolean, and nothing for arrays and tables. -/
def Value.data : Value → String
  | .str s => s
  | .int raw | .float raw | .date _ raw => raw
  | .bool b => if b then "true" else "false"
  | .array _ | .table _ => ""

/-- One expression of the document. -/
inductive Expression where
  | keyValue (key : List String) (value : Value)
  | table (key : List String)
  | arrayTable (key : List String)
deriving Repr, Inhabited

/-- The expressions read before a fault, and the fault's message if reading
stopped at one. -/
structure Document where
  expressions : List Expression
  fault : Option String
deriving Repr, Inhabited

/-! ## Characters -/

/-- Blanks inside a line. -/
def isSpace (c : Char) : Bool := c == ' ' || c == '\t'

/-- Decimal digits. -/
def isDigit (c : Char) : Bool := '0' ≤ c && c ≤ '9'

/-- The characters of a bare key. -/
def isKeyChar (c : Char) : Bool :=
  ('a' ≤ c && c ≤ 'z') || ('A' ≤ c && c ≤ 'Z') || isDigit c || c == '-' || c == '_'

/-- Control characters that may not appear as themselves (tab, line feed
and carriage return may). -/
def isForbidden (c : Char) : Bool :=
  let n := c.toNat
  (n < 0x20 && n != 0x09 && n != 0x0A && n != 0x0D) || n == 0x7F

/-- The first byte of a character's UTF-8 form. -/
def leadByte (c : Char) : Nat :=
  let n := c.toNat
  if n < 0x80 then n else if n < 0x800 then 0xC0 + n / 64
  else if n < 0x10000 then 0xE0 + n / 4096 else 0xF0 + n / 262144

/-- A byte read as the character of the same number. -/
def byteChar (b : Nat) : Char := Char.ofNat b

/-- A code point as `U+00XX 'c'`, the character shown only when printable. -/
def codePoint (b : Nat) : String :=
  let printable := (0x20 ≤ b && b ≤ 0x7E) || (0xA1 ≤ b && b ≤ 0xFF && b != 0xAD)
  "U+" ++ String.ofList ((hexWidth b 4).map Char.toUpper) ++
    (if printable then " '" ++ (byteChar b).toString ++ "'" else "")

/-- Drops blanks. -/
def skipSpace : List Char → List Char
  | c :: cs => if isSpace c then skipSpace cs else c :: cs
  | [] => []

/-- Whether the input starts with a word. -/
def startsWith (cs : List Char) (w : String) : Bool := w.toList.isPrefixOf cs

/-- Skips a comment's text up to its line end. -/
def comment : List Char → Except String (List Char)
  | [] => .ok []
  | '\n' :: rest => .ok ('\n' :: rest)
  | '\r' :: '\n' :: rest => .ok ('\n' :: rest)
  | '\r' :: _ => .error "invalid character in comment"
  | c :: rest => if isForbidden c then .error "invalid character in comment" else comment rest

/-- A line end. -/
def lineEnd : List Char → Except String (List Char)
  | '\n' :: rest => .ok rest
  | ['\r'] => .error "windows new line expected"
  | '\r' :: '\n' :: rest => .ok rest
  | '\r' :: _ => .error "windows new line should be \\r\\n"
  | c :: _ => .error ("expected newline but got " ++ codePoint (leadByte c))
  | [] => .ok []

/-- Blanks, comments and line ends, as between the items of an array. -/
def skipGaps : Nat → List Char → Except String (List Char)
  | 0, cs => .ok cs
  | n + 1, cs => do
    let cs := skipSpace cs
    let cs ← match cs with
      | '#' :: rest => comment rest
      | _ => pure cs
    match cs with
    | '\n' :: _ | '\r' :: _ => skipGaps n (← lineEnd cs)
    | _ => pure cs

/-- Requires a character. -/
def expect (x : Char) : List Char → Except String (List Char)
  | [] => .error ("expected character " ++ x.toString ++ " but the document ended here")
  | c :: rest => if c = x then .ok rest else .error ("expected character " ++ x.toString)

/-! ## Strings -/

/-- The body of a literal string after its opening quote. -/
def literalBody : List Char → Except String ((List Char) × List Char)
  | [] => .error "unterminated literal string"
  | '\'' :: rest => .ok ([], rest)
  | '\n' :: _ | '\r' :: _ => .error "literal strings cannot have new lines"
  | c :: rest =>
    if isForbidden c then .error "invalid character"
    else (literalBody rest).map fun (s, r) => (c :: s, r)

/-- The raw body of a basic string after its opening quote, whether it holds
an escape, and the rest after its closing quote. -/
def basicBody : List Char → Except String (List Char × Bool × List Char)
  | [] => .error "basic string not terminated by \""
  | '"' :: rest => .ok ([], false, rest)
  | '\n' :: _ | '\r' :: _ => .error "basic strings cannot have new lines"
  | ['\\'] => .error "need a character after \\"
  | '\\' :: c :: rest => (basicBody rest).map fun (s, _, r) => ('\\' :: c :: s, true, r)
  | c :: rest => (basicBody rest).map fun (s, e, r) => (c :: s, e, r)

/-- The value of a hex digit. -/
def hexValue (c : Char) : Option Nat :=
  if isDigit c then some (c.toNat - 48)
  else if 'a' ≤ c && c ≤ 'f' then some (c.toNat - 87)
  else if 'A' ≤ c && c ≤ 'F' then some (c.toNat - 55)
  else none

/-- The code point of a `\u` or `\U` escape from its hex digits. -/
def escapedPoint (cs : List Char) (width : Nat) : Except String Char := do
  let ds := cs.take width
  if ds.length < width then
    throw ("unicode point needs " ++ toString width ++ " character, not " ++ toString ds.length)
  let n ← ds.foldlM (fun acc c => match hexValue c with
    | some v => pure (acc * 16 + v)
    | none => throw "non-hex character") 0
  if n > 0x10FFFF || (0xD800 ≤ n && n < 0xE000) then throw "escape sequence is invalid Unicode code point"
  pure (Char.ofNat n)

/-- Reads the escapes of a string body followed by its closing quote.  In a
multi-line body a backslash that ends a line drops the line end and the
blanks after it. -/
def unescape (multiline : Bool) : Nat → List Char → Except String (List Char)
  | 0, _ => .ok []
  | _, [] => .ok []
  | _, ['"'] => .ok []
  | n + 1, '\\' :: rest =>
    let (gap, after) := rest.span isSpace
    match after with
    | '\n' :: _ | '\r' :: '\n' :: _ =>
      if multiline then
        unescape multiline n (after.dropWhile fun c => c == '\n' || c == '\r' || c == ' ' || c == '\t')
      else escape n gap rest
    | _ => escape n gap rest
  | n + 1, c :: rest =>
    if isForbidden c then .error ("invalid character " ++ codePoint (leadByte c))
    else (c :: ·) <$> unescape multiline n rest
where
  escape (n : Nat) (_gap : List Char) : List Char → Except String (List Char)
    | [] => .ok []
    | c :: rest =>
      let plain (d : Char) := (d :: ·) <$> unescape multiline n rest
      match c with
      | '"' => plain '"'
      | '\\' => plain '\\'
      | 'b' => plain '\x08'
      | 'f' => plain '\x0c'
      | 'n' => plain '\n'
      | 'r' => plain '\r'
      | 't' => plain '\t'
      | 'u' => do
        let d ← escapedPoint rest 4
        (d :: ·) <$> unescape multiline n (rest.drop 4)
      | 'U' => do
        let d ← escapedPoint rest 8
        (d :: ·) <$> unescape multiline n (rest.drop 8)
      | _ => .error ("invalid escaped character " ++ codePoint (leadByte c))

/-- Checks a string body without escapes. -/
def checkPlain (multiline : Bool) (cs : List Char) : Except String Unit :=
  if cs.any fun c => isForbidden c || (!multiline && (c == '\n' || c == '\r')) then .error "invalid UTF-8"
  else .ok ()

/-- A basic string after its opening quote. -/
def basicString (cs : List Char) : Except String (String × List Char) := do
  let (body, escaped, rest) ← basicBody cs
  if escaped then
    let s ← unescape false (body.length + 2) (body ++ ['"'])
    pure (String.ofList s, rest)
  else
    checkPlain false body
    pure (String.ofList body, rest)

/-- The raw body of a multi-line string after its opening delimiter: up to
three quotes, where up to two more quotes right before the delimiter belong
to the body. -/
def multilineBody (q : Char) (basic : Bool) : List Char → Except String (List Char × Bool × List Char)
  | [] => .error (if basic then "multiline basic string not terminated by \"\"\""
      else "multiline literal string not terminated by '''")
  | c :: rest =>
    if c = q ∧ startsWith rest (String.ofList [q, q]) then
      let after := rest.drop 2
      match after with
      | d :: after' =>
        if d = q then
          match after' with
          | e :: after'' =>
            if e = q then
              match after'' with
              | f :: _ =>
                if f = q then
                  .error (if basic then "\"\"\" not allowed in multiline basic string"
                    else "''' not allowed in multiline literal string")
                else .ok ([q, q], false, after'')
              | [] => .ok ([q, q], false, after'')
            else .ok ([q], false, after')
          | [] => .ok ([q], false, after')
        else .ok ([], false, after)
      | [] => .ok ([], false, after)
    else if basic ∧ c = '\\' then
      match rest with
      | [] => .error "need a character after \\"
      | d :: rest' => (multilineBody q basic rest').map fun (s, _, r) => ('\\' :: d :: s, true, r)
    else if c = '\r' then
      match rest with
      | '\n' :: rest' => (multilineBody q basic rest').map fun (s, e, r) => ('\r' :: '\n' :: s, e, r)
      | _ => .error "need a \\n after \\r"
    else if !basic ∧ isForbidden c then .error "invalid character"
    else (multilineBody q basic rest).map fun (s, e, r) => (c :: s, e, r)

/-- Drops the line end right after a multi-line string's opening delimiter. -/
def dropFirstLineEnd : List Char → List Char
  | '\n' :: rest => rest
  | '\r' :: '\n' :: rest => rest
  | cs => cs

/-- A multi-line basic string after its opening delimiter. -/
def multilineBasic (cs : List Char) : Except String (String × List Char) := do
  let (body, escaped, rest) ← multilineBody '"' true cs
  let body := dropFirstLineEnd body
  if escaped then
    let s ← unescape true (body.length + 2) (body ++ ['"'])
    pure (String.ofList s, rest)
  else
    checkPlain true body
    pure (String.ofList body, rest)

/-- A multi-line literal string after its opening delimiter. -/
def multilineLiteral (cs : List Char) : Except String (String × List Char) := do
  let (body, _, rest) ← multilineBody '\'' false cs
  pure (String.ofList (dropFirstLineEnd body), rest)

/-! ## Keys -/

/-- One part of a key. -/
def simpleKey : List Char → Except String (String × List Char)
  | [] => .error "expected key but found none"
  | '\'' :: rest => (literalBody rest).map fun (s, r) => (String.ofList s, r)
  | '"' :: rest => basicString rest
  | c :: rest =>
    if isKeyChar c then
      let (k, r) := rest.span isKeyChar
      .ok (String.ofList (c :: k), r)
    else .error ("invalid character at start of key: " ++ (byteChar (leadByte c)).toString)

/-- The further parts of a dotted key. -/
def keyParts : Nat → List Char → Except String ((List String) × List Char)
  | 0, cs => .ok ([], cs)
  | n + 1, cs =>
    match skipSpace cs with
    | '.' :: rest => do
      let (k, r) ← simpleKey (skipSpace rest)
      let (ks, r) ← keyParts n r
      pure (k :: ks, r)
    | _ => .ok ([], cs)

/-- A key, possibly dotted. -/
def key (cs : List Char) : Except String ((List String) × List Char) := do
  let (k, r) ← simpleKey cs
  let (ks, r) ← keyParts (r.length + 1) r
  pure (k :: ks, r)

/-! ## Numbers and dates -/

/-- The digits of a prefixed integer. -/
def radixDigit (base : Char) (c : Char) : Bool :=
  match base with
  | 'x' => (hexValue c).isSome || c == '_'
  | 'o' => ('0' ≤ c && c ≤ '7') || c == '_'
  | _ => c == '0' || c == '1' || c == '_'

/-- The text of a decimal integer or a float. -/
def numberText : List Char → Except String (List Char × Bool × List Char)
  | [] => .ok ([], false, [])
  | c :: rest =>
    if isDigit c || c == '+' || c == '-' || c == '_' then
      (numberText rest).map fun (s, f, r) => (c :: s, f, r)
    else if c == '.' || c == 'e' || c == 'E' then
      (numberText rest).map fun (s, _, r) => (c :: s, true, r)
    else if c == 'i' then
      if startsWith (c :: rest) "inf" then .ok (['i', 'n', 'f'], true, rest.drop 2)
      else .error "unexpected character 'i' while scanning for a number"
    else if c == 'n' then
      if startsWith (c :: rest) "nan" then .ok (['n', 'a', 'n'], true, rest.drop 2)
      else .error "unexpected character 'n' while scanning for a number"
    else .ok ([], false, c :: rest)

/-- An integer or a float. -/
def number (cs : List Char) : Except String (Value × List Char) :=
  match cs with
  | '0' :: c :: d :: more =>
    if c = '.' ∨ c = 'e' ∨ c = 'E' then decimal
    else if c = 'x' ∨ c = 'o' ∨ c = 'b' then
      let (ds, r) := (d :: more).span (radixDigit c)
      .ok (.int (String.ofList ('0' :: c :: ds)), r)
    else .ok (.int "0", c :: d :: more)
  | _ => decimal
where
  decimal : Except String (Value × List Char) := do
    let (text, isFloat, rest) ← numberText cs
    if text.isEmpty then throw "incomplete number"
    let s := String.ofList text
    pure (if isFloat then .float s else .int s, rest)

/-- The text of a date or time: digits and `T:Z.+-`, with at most one space
followed by a digit; the character after that digit is taken as it is. -/
def dateText : Nat → Bool → List Char → List Char × List Char
  | 0, _, cs => ([], cs)
  | n + 1, seenSpace, c :: rest =>
    if isDigit c || c == '-' || c == 'T' || c == 't' || c == ':' || c == '.' || c == '+' then
      let (s, r) := dateText n seenSpace rest
      (c :: s, r)
    else if c == 'Z' || c == 'z' then ([c], rest)
    else if c == ' ' && !seenSpace then
      match rest with
      | d :: rest' =>
        if isDigit d then
          match rest' with
          | e :: rest'' =>
            let (s, r) := dateText n true rest''
            (c :: d :: e :: s, r)
          | [] => ([c, d], [])
        else ([], c :: rest)
      | [] => ([], c :: rest)
    else ([], c :: rest)
  | _ + 1, _, [] => ([], [])

/-- A date, a time, or both. -/
def date (cs : List Char) : Except String (Value × List Char) :=
  let (text, rest) := dateText (cs.length + 1) false cs
  let indexed := text.zipIdx
  let hasDate := text.contains '-'
  let hasTime := text.any fun c => c == 'T' || c == 't' || c == ':' || c == '.' || c == ' '
  let hasZone := text.any (fun c => c == 'Z' || c == 'z' || c == '+') ||
    indexed.any fun (c, i) => c == '-' && i ≥ 8
  let kind : DateKind :=
    if hasTime then (if hasDate then (if hasZone then .dateTime else .localDateTime) else .localTime)
    else .localDate
  .ok (.date kind (String.ofList text), rest)

/-- Whether a value that starts with digits is a date or a time. -/
def looksLikeDate (cs : List Char) : Bool :=
  let rec go : Nat → List Char → Bool
    | _, [] => false
    | i, c :: rest =>
      if i ≥ 5 then false
      else if isDigit c then go (i + 1) rest
      else (i = 2 && c == ':') || (i = 4 && c == '-')
  cs.length ≥ 3 && go 0 cs

/-! ## Values -/

mutual

/-- A value. -/
def value : Nat → List Char → Except String (Value × List Char)
  | 0, _ => .error "document nested too deeply"
  | n + 1, cs =>
    match cs with
    | [] => .error "expected value, not eof"
    | '"' :: rest =>
      if startsWith rest "\"\"" then (multilineBasic (rest.drop 2)).map fun (s, r) => (.str s, r)
      else (basicString rest).map fun (s, r) => (.str s, r)
    | '\'' :: rest =>
      if startsWith rest "''" then (multilineLiteral (rest.drop 2)).map fun (s, r) => (.str s, r)
      else (literalBody rest).map fun (s, r) => (.str (String.ofList s), r)
    | 't' :: _ =>
      if startsWith cs "true" then .ok (.bool true, cs.drop 4) else .error "expected 'true'"
    | 'f' :: _ =>
      if startsWith cs "false" then .ok (.bool false, cs.drop 5) else .error "expected 'false'"
    | '[' :: rest => arrayItems n rest true []
    | '{' :: rest => tableItems n rest true []
    | 'i' :: _ =>
      if startsWith cs "inf" then .ok (.float "inf", cs.drop 3) else .error "expected 'inf'"
    | 'n' :: _ =>
      if startsWith cs "nan" then .ok (.float "nan", cs.drop 3) else .error "expected 'nan'"
    | '+' :: _ | '-' :: _ => number cs
    | _ => if looksLikeDate cs then date cs else number cs

/-- The items of an array after its opening bracket. -/
def arrayItems : Nat → List Char → Bool → List Value → Except String (Value × List Char)
  | 0, _, _, _ => .error "document nested too deeply"
  | n + 1, cs, first, acc => do
    if cs.isEmpty then throw "expected character ] but the document ended here"
    let cs ← skipGaps (cs.length + 1) cs
    match cs with
    | [] => throw "array is incomplete"
    | ']' :: rest => pure (.array acc.reverse, rest)
    | ',' :: rest =>
      if first then throw "array cannot start with comma"
      let cs ← skipGaps (rest.length + 1) rest
      match cs with
      | ']' :: rest => pure (.array acc.reverse, rest)
      | _ => item n cs acc
    | _ =>
      if !first then throw "array elements must be separated by commas"
      item n cs acc

/-- One item of an array and the items after it. -/
def item : Nat → List Char → List Value → Except String (Value × List Char)
  | 0, _, _ => .error "document nested too deeply"
  | n + 1, cs, acc => do
    let (v, rest) ← value n cs
    arrayItems n rest false (v :: acc)

/-- The entries of an inline table after its opening brace. -/
def tableItems : Nat → List Char → Bool → List (List String × Value) → Except String (Value × List Char)
  | 0, _, _, _ => .error "document nested too deeply"
  | n + 1, cs, first, acc => do
    if cs.isEmpty then throw "expected character \x7d but the document ended here"
    let cs' := skipSpace cs
    match cs' with
    | [] => throw "inline table is incomplete"
    | '}' :: rest => pure (.table acc.reverse, rest)
    | _ =>
      let cs' ← if first then pure cs' else skipSpace <$> expect ',' cs'
      let (kv, rest) ← keyValue n cs'
      tableItems n rest false (kv :: acc)

/-- A key, `=` and a value. -/
def keyValue : Nat → List Char → Except String ((List String × Value) × List Char)
  | 0, _ => .error "document nested too deeply"
  | n + 1, cs => do
    let (k, rest) ← key cs
    let rest := skipSpace rest
    if rest.isEmpty then throw "expected = after a key, but the document ends there"
    let rest ← expect '=' rest
    let (v, rest) ← value n (skipSpace rest)
    pure ((k, v), rest)

end

/-! ## Expressions -/

/-- A table or array-table header after its first bracket. -/
def header (cs : List Char) : Except String (Expression × List Char) :=
  match cs with
  | '[' :: rest => do
    let (k, r) ← key (skipSpace rest)
    let r ← expect ']' (skipSpace r)
    let r ← expect ']' r
    pure (.arrayTable k, r)
  | _ => do
    let (k, r) ← key (skipSpace cs)
    let r ← expect ']' (skipSpace r)
    pure (.table k, r)

/-- One expression, if the line holds one, and the rest after its trailing
blanks and comment. -/
def expression (cs : List Char) : Except String (Option Expression × List Char) := do
  let cs := skipSpace cs
  match cs with
  | [] => pure (none, [])
  | '#' :: rest => pure (none, ← comment rest)
  | '\n' :: _ | '\r' :: _ => pure (none, cs)
  | _ =>
    let (e, rest) ← match cs with
      | '[' :: rest => header rest
      | _ => (keyValue (2 * cs.length + 2) cs).map fun (kv, r) => (Expression.keyValue kv.1 kv.2, r)
    let rest := skipSpace rest
    match rest with
    | '#' :: more => pure (some e, ← comment more)
    | _ => pure (some e, rest)

/-- Reads expressions until the input ends or a fault. -/
def readFrom : Nat → Bool → List Char → List Expression → Document
  | 0, _, _, acc => ⟨acc.reverse, none⟩
  | _, _, [], acc => ⟨acc.reverse, none⟩
  | n + 1, first, cs, acc =>
    let afterEnd : Except String (List Char) := if first then .ok cs else lineEnd cs
    match afterEnd with
    | .error e => ⟨acc.reverse, some e⟩
    | .ok [] => ⟨acc.reverse, none⟩
    | .ok cs =>
      match expression cs with
      | .error e => ⟨acc.reverse, some e⟩
      | .ok (some e, rest) => readFrom n false rest (e :: acc)
      | .ok (none, rest) => readFrom n false rest acc

/-- Reads a document. -/
def Document.read (text : String) : Document :=
  let cs := text.toList
  readFrom (2 * cs.length + 2) true cs []

end Toml

end EventChart
