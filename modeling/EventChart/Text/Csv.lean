/-!
# Comma-separated records

A list-valued option takes its items as one record of comma-separated
fields.  A field is either plain, running to the next comma or the end of
the line, or quoted: it starts with `"`, a doubled quote stands for one
quote, and it ends with a quote followed by a comma or the end of the line.
A quoted field may run over a line end.

Lines end at `\n`; a `\r` before it is dropped, and so is a `\r` at the very
end of the text.  Empty lines before the record are skipped, and a text
that has only empty lines holds no record.

A quote in a plain field, a quote in a quoted field that is neither doubled
nor closing, and a quoted field that does not close are faults, reported
with the line and the 1-based byte column where they were found.
-/

namespace EventChart.Text

/-- Why a text is not a record. -/
inductive CsvFault where
  | noRecord
  | bareQuote (line column : Nat)
  | strayQuote (line column : Nat)
deriving DecidableEq, Repr

/-- The message of a record fault. -/
def CsvFault.message : CsvFault → String
  | .noRecord => "EOF"
  | .bareQuote l c => "parse error on line " ++ toString l ++ ", column " ++ toString c ++
      ": bare \" in non-quoted field"
  | .strayQuote l c => "parse error on line " ++ toString l ++ ", column " ++ toString c ++
      ": extraneous or missing \" in quoted-field"

/-- The lines of a text, each with its `\n` when it has one. -/
def csvLines (cs : List Char) : List (List Char) :=
  let rec go : List Char → List Char → List (List Char)
    | [], [] => []
    | [], acc =>
      let l := acc.reverse
      [if l.getLast? = some '\r' then l.dropLast else l]
    | '\r' :: '\n' :: rest, acc => ('\n' :: acc).reverse :: go rest []
    | '\n' :: rest, acc => ('\n' :: acc).reverse :: go rest []
    | c :: rest, acc => go rest (c :: acc)
  go cs []

/-- The byte length of characters. -/
def charsWidth (cs : List Char) : Nat := cs.foldl (fun n c => n + c.utf8Size) 0

/-- Whether a line is empty apart from its line end. -/
def isLineEnd (cs : List Char) : Bool := cs.isEmpty || cs == ['\n']

/-- Splits at the first occurrence of a character. -/
def splitAtChar (c : Char) (cs : List Char) : Option (List Char × List Char) :=
  match cs.span (· != c) with
  | (_, []) => none
  | (front, _ :: back) => some (front, back)

/-- The rest of a quoted field, from after its opening quote, with the
current line, the lines after it, and the position reached.  Answers the
field, what follows it on its line, the lines left, the position, and
whether the record goes on after it. -/
def quotedField (fuel : Nat) (field : List Char) (line : List Char) (more : List (List Char))
    (row col : Nat) : Except CsvFault (List Char × List Char × List (List Char) × Nat × Nat × Bool) :=
  match fuel with
  | 0 => .error (.strayQuote row col)
  | fuel + 1 =>
    match splitAtChar '"' line with
    | some (front, after) =>
      let field := field ++ front
      let col := col + charsWidth front + 1
      match after with
      | '"' :: rest => quotedField fuel (field ++ ['"']) rest more row (col + 1)
      | ',' :: rest => .ok (field, rest, more, row, col + 1, true)
      | rest =>
        if isLineEnd rest then .ok (field, [], more, row, col, false)
        else .error (.strayQuote row col)
    | none =>
      if line.isEmpty then .error (.strayQuote row col)
      else
        let field := field ++ line
        let col := col + charsWidth line
        match more with
        | [] => .error (.strayQuote row col)
        | next :: rest => quotedField fuel field next rest (row + 1) 1

/-- The fields of a record from a position in its line. -/
def recordFields (fuel : Nat) (line : List Char) (more : List (List Char)) (row col : Nat) :
    Except CsvFault (List String) :=
  match fuel with
  | 0 => .ok []
  | fuel + 1 =>
    match line with
    | '"' :: rest => do
      let (field, line, more, row, col, goesOn) ←
        quotedField (charsWidth rest + more.foldl (fun n l => n + charsWidth l) 0 + 1) [] rest more row (col + 1)
      if goesOn then
        return String.ofList field :: (← recordFields fuel line more row col)
      else return [String.ofList field]
    | _ =>
      match splitAtChar ',' line with
      | some (field, rest) =>
        match field.idxOf? '"' with
        | some j => .error (.bareQuote row (col + charsWidth (field.take j)))
        | none => return String.ofList field :: (← recordFields fuel rest more row (col + charsWidth field + 1))
      | none =>
        let field := if line.getLast? = some '\n' then line.dropLast else line
        match field.idxOf? '"' with
        | some j => .error (.bareQuote row (col + charsWidth (field.take j)))
        | none => .ok [String.ofList field]

/-- The first record of a text. -/
def readCsvRecord (s : String) : Except CsvFault (List String) :=
  let lines := csvLines s.toList
  let numbered := lines.zipIdx 1
  match numbered.dropWhile (fun (l, _) => isLineEnd l) with
  | [] => .error .noRecord
  | (line, row) :: rest => recordFields (s.length + 1) line (rest.map (·.1)) row 1

end EventChart.Text
