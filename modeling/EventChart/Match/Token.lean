import EventChart.Match.Glob
import EventChart.Text.Blank
/-!
# Tokens of the filter language

The filter language has four kinds of tokens, tried in this order at each
position:

* a quoted string `"…"`, where a backslash takes the next character (other
  than a line feed) into the string;
* the match operator `=~`;
* a parenthesis;
* a word: a run of characters other than ASCII blanks, parentheses, `"` and `=`.

Runs of ASCII blanks separate tokens and are dropped.  Offsets are byte
offsets in the UTF-8 text.  A position where no token starts is an error
showing at most sixteen characters of the rest.
-/

namespace EventChart.Match

open EventChart.Text

/-- The kind of a token. -/
inductive TokenKind where
  | quoted
  | matchOp
  | paren
  | word
deriving DecidableEq, Repr

/-- A token with its text and byte offset. -/
structure Token where
  kind : TokenKind
  text : String
  offset : Nat
deriving DecidableEq, Repr

/-- The rest of a quoted string after its opening quote: the consumed
characters (closing quote included) and what follows, which is shorter than
the input; none if it does not close. -/
def scanQuoted : (cs : List Char) → Option (List Char × { r : List Char // r.length < cs.length })
  | [] => none
  | '"' :: rest => some (['"'], ⟨rest, by simp⟩)
  | '\\' :: c :: rest =>
    if c = '\n' then none
    else (scanQuoted rest).map fun (a, b) => ('\\' :: c :: a, ⟨b.1, by have := b.2; simp; omega⟩)
  | c :: rest =>
    if c = '\\' then none
    else (scanQuoted rest).map fun (a, b) => (c :: a, ⟨b.1, by have := b.2; simp; omega⟩)

/-- Characters that end a word. -/
def endsWord (c : Char) : Bool :=
  isAsciiBlank c || c == '(' || c == ')' || c == '"' || c == '='

/-- The byte length of a character list. -/
def byteLength (cs : List Char) : Nat := cs.foldl (fun n c => n + c.utf8Size) 0

/-- The lexer error at a position: the rest of the text, cut after sixteen
characters. -/
def invalidText (rest : List Char) : String :=
  let sample := if rest.length > 16 then rest.take 16 ++ ['.', '.', '.'] else rest
  "invalid input text " ++ quote (String.ofList sample)

/-- Splits a text into tokens; `off` is the byte offset of the head. The error
is a byte offset and a message. -/
def tokenize (cs : List Char) (off : Nat) : Except (Nat × String) (List Token) :=
  match h : cs with
  | [] => .ok []
  | '"' :: rest =>
    match scanQuoted rest with
    | some (body, after) =>
      have : after.1.length < cs.length := by
        have := after.2; subst h; simp; omega
      let text := '"' :: body
      (⟨.quoted, String.ofList text, off⟩ :: ·) <$> tokenize after.1 (off + byteLength text)
    | none => .error (off, invalidText cs)
  | '=' :: '~' :: rest =>
    (⟨.matchOp, "=~", off⟩ :: ·) <$> tokenize rest (off + 2)
  | c :: rest =>
    if c = '(' || c = ')' then
      (⟨.paren, c.toString, off⟩ :: ·) <$> tokenize rest (off + 1)
    else if isAsciiBlank c then
      tokenize rest (off + 1)
    else if endsWord c then .error (off, invalidText cs)
    else
      let w := c :: rest.takeWhile (fun d => !endsWord d)
      have : (rest.dropWhile (fun d => !endsWord d)).length < cs.length := by
        have := length_dropWhile_le (fun d => !endsWord d) rest
        subst h; simp; omega
      (⟨.word, String.ofList w, off⟩ :: ·) <$>
        tokenize (rest.dropWhile (fun d => !endsWord d)) (off + byteLength w)
termination_by cs.length
decreasing_by all_goals (subst h; simp_all) <;> omega

end EventChart.Match
