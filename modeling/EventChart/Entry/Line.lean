import EventChart.Entry.Basic
/-!
# Reading a line of the log

A line is read as follows, after line-end characters at its end are
dropped:

* a blank line is malformed;
* a line starting with `-` is a log message; its text is the rest, without
  one leading space;
* otherwise it is split into words at spaces and tabs, where a word starting
  with `"` runs to the next unescaped `"` (a backslash takes the next
  character literally).  The first word is the tag, the others alternate
  between attribute names and values.

The entry is then checked against its kind: each declared attribute, in
canonical order, must be present if required and must read as its type.

Each way to fail is a constructor of `LineFault`; `LineError` adds where the
line was and its text, which the message shows cut after 80 bytes.
-/

namespace EventChart

open EventChart.Text

/-- Why a value does not read as its attribute's type. -/
inductive ValueFault where
  | notInt (e : NumeralError) (v : String)
  | notBool
  | notTime (e : TimeSyntaxError)
deriving DecidableEq, Repr

/-- The message of a value fault. -/
def ValueFault.message : ValueFault → String
  | .notInt e v => e.message v
  | .notBool => "not a boolean"
  | .notTime e => e.message

/-- Why a line is not an entry. -/
inductive LineFault where
  | blankLine
  | unterminatedQuote
  | noValue (name : String)
  | unknownTag (tag : String)
  | missingAttribute (name : String) (tag : String)
  | invalidValue (name : String) (value : String) (fault : ValueFault)
deriving DecidableEq, Repr

/-- The four classes of line faults. -/
inductive FaultClass where
  | unknownTag
  | missingAttribute
  | invalidValue
  | malformed
deriving DecidableEq, Repr

namespace LineFault

/-- The class of a fault. -/
def category : LineFault → FaultClass
  | .blankLine | .unterminatedQuote | .noValue _ => .malformed
  | .unknownTag _ => .unknownTag
  | .missingAttribute _ _ => .missingAttribute
  | .invalidValue _ _ _ => .invalidValue

/-- The message of a fault. -/
def message : LineFault → String
  | .blankLine => "malformed record: blank line"
  | .unterminatedQuote => "malformed record: unterminated quoted value"
  | .noValue n => "malformed record: attribute " ++ quote n ++ " has no value"
  | .unknownTag t => "unknown record tag " ++ quote t
  | .missingAttribute n t => "missing required attribute " ++ quote n ++ " on " ++ t
  | .invalidValue n v f => "invalid attribute value: " ++ n ++ " " ++ quote v ++ ": " ++ f.message

end LineFault

/-- A line that is not an entry, with its number, offset and text. -/
structure LineError where
  line : Int
  offset : Int
  text : String
  fault : LineFault
deriving DecidableEq, Repr

/-- The message: line number, fault and the text, cut after 80 bytes. -/
def LineError.message (e : LineError) : String :=
  let bytes := e.text.toUTF8.toList
  let shown := if bytes.length ≤ 80 then bytes else bytes.take 80 ++ "...".toUTF8.toList
  "line " ++ toString e.line ++ ": " ++ e.fault.message ++ ": " ++ quoteBytes shown

/-- Drops line-end characters from the end of a line. -/
def trimLineEnd (s : String) : String :=
  String.ofList (s.toList.reverse.dropWhile (fun c => c == '\r' || c == '\n')).reverse

/-- The characters of a quoted word after its opening quote, and what
follows the closing quote; none if it does not close. -/
def readQuotedWord : List Char → Option (List Char × List Char)
  | [] => none
  | '\\' :: c :: rest => (readQuotedWord rest).map fun (w, r) => (c :: w, r)
  | '"' :: rest => some ([], rest)
  | c :: rest => (readQuotedWord rest).map fun (w, r) => (c :: w, r)

theorem readQuotedWord_length {cs w r : List Char} (h : readQuotedWord cs = some (w, r)) :
    r.length < cs.length := by
  induction cs using readQuotedWord.induct generalizing w r with
  | case1 => simp [readQuotedWord] at h
  | case2 c rest ih =>
    simp only [readQuotedWord, Option.map_eq_some_iff, Prod.exists, Prod.mk.injEq] at h
    obtain ⟨w', r', h1, -, rfl⟩ := h
    have := ih h1
    simp; omega
  | case3 rest =>
    simp only [readQuotedWord, Option.some.injEq, Prod.mk.injEq] at h
    obtain ⟨-, rfl⟩ := h
    simp
  | case4 c rest _ _ ih =>
    simp only [readQuotedWord, Option.map_eq_some_iff, Prod.exists, Prod.mk.injEq] at h
    · obtain ⟨w', r', h1, -, rfl⟩ := h
      have := ih h1
      simp; omega

/-- Splits a line into words at spaces and tabs, honouring quotes. -/
def splitWords (cs : List Char) : Option (List String) :=
  match h : cs with
  | [] => some []
  | c :: rest =>
    if c = ' ' ∨ c = '\t' then splitWords rest
    else if c = '"' then
      match hq : readQuotedWord rest with
      | some (w, after) =>
        have : after.length < rest.length + 1 := by
          have := readQuotedWord_length hq; omega
        (String.ofList w :: ·) <$> splitWords after
      | none => none
    else
      let word := c :: rest.takeWhile (fun d => d != ' ' && d != '\t')
      have : (rest.dropWhile (fun d => d != ' ' && d != '\t')).length < rest.length + 1 := by
        have := length_dropWhile_le (fun d => d != ' ' && d != '\t') rest
        omega
      (String.ofList word :: ·) <$> splitWords (rest.dropWhile (fun d => d != ' ' && d != '\t'))
termination_by cs.length
decreasing_by all_goals (subst h; simp only [List.length_cons]; omega)

/-- Pairs up attribute names and values; an odd word out is returned. -/
def pairUp : List String → Except String (List (String × String))
  | [] => .ok []
  | [n] => .error n
  | n :: v :: rest => ((n, v) :: ·) <$> pairUp rest

/-- Checks a value against its type. -/
def checkValue (ty : AttrType) (v : String) : Option ValueFault :=
  match ty with
  | .text => none
  | .int =>
    match readInt 64 v with
    | .ok _ => none
    | .error e => some (.notInt e v)
  | .bool => if (readBool v).isSome then none else some .notBool
  | .time =>
    match SimTime.parse v with
    | .ok _ => none
    | .error e => some (.notTime e)

/-- The first fault of an entry against its kind's declared attributes. -/
def validate (e : Entry) : Option LineFault :=
  e.kind.attrs.findSome? fun spec =>
    match e.get? spec.name with
    | none => if spec.required then some (.missingAttribute spec.name e.kind.tag) else none
    | some v => (checkValue spec.type v).map (.invalidValue spec.name v)

/-- Reads one line of the log. -/
def Entry.parse (line : String) (lineNumber : Int) (offset : Int) : Except LineError Entry :=
  let line := trimLineEnd line
  let fail (f : LineFault) : Except LineError Entry := .error ⟨lineNumber, offset, line, f⟩
  if trimBlank line == "" then fail .blankLine
  else match line.toList with
    | '-' :: rest =>
      let text := match rest with
        | ' ' :: t => t
        | t => t
      .ok ⟨.logMessage, [], String.ofList text, lineNumber, offset, -1⟩
    | cs =>
      match splitWords cs with
      | none => fail .unterminatedQuote
      | some [] => fail (.unknownTag "")
      | some (tag :: words) =>
        let kind := Kind.ofTag tag
        if kind = .unknown then fail (.unknownTag tag)
        else match pairUp words with
          | .error n => fail (.noValue n)
          | .ok attrs =>
            let e : Entry := ⟨kind, attrs, "", lineNumber, offset, -1⟩
            match validate e with
            | some f => fail f
            | none => .ok e

end EventChart
