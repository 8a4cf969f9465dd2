import EventChart.Match.Token
import EventChart.Match.Expr
import EventChart.Text.Letter
/-!
# Reading filter expressions

The grammar of the filter language, loosest binding first:

    OrExpr      ::= AndExpr ("OR" AndExpr)*
    AndExpr     ::= UnaryExpr ("AND" UnaryExpr)*
    UnaryExpr   ::= "NOT" UnaryExpr | PrimaryExpr
    PrimaryExpr ::= "(" OrExpr ")" | TermExpr | ArgExpr
    TermExpr    ::= word [ "(" ArgExpr ")" | "=~" ArgExpr ]
    ArgExpr     ::= word | quoted

Keywords are words compared without regard to ASCII case.  The reader is a
backtracking recursive descent with one token of lookahead:

* an alternative that fails after reading at most one token is abandoned
  and the next alternative is tried, but its failure is remembered if it got
  further than any failure before;
* an alternative that fails after reading two or more tokens fails the whole
  parse;
* when text is left over, the furthest failure remembered is reported, or
  else the unexpected token.

A failure inside a rule after its first part is "unexpected token" with the
rest of the rule as what was expected.  The tree read is then checked:
a call `f(…)` needs an identifier glued to its parenthesis, `f =~ …` an
identifier, and a bare word must not be a keyword; the patterns are compiled
with their offsets in the source.
-/

namespace EventChart.Match

open EventChart.Text

/-- An argument: a word, or a quoted string with its quotes. -/
structure Arg where
  offset : Nat
  quoted : Bool
  text : String
deriving Repr

/-- What follows the word of a term. -/
inductive TermTail where
  | bare
  | call (paren : Nat) (arg : Arg)
  | matchOp (arg : Arg)
deriving Repr

/-- A word and what follows it. -/
structure Term where
  offset : Nat
  word : String
  tail : TermTail
deriving Repr

/-- The parse tree of a filter expression. -/
inductive Tree where
  | or (first : Tree) (rest : List Tree)
  | and (first : Tree) (rest : List Tree)
  | not (t : Tree)
  | group (t : Tree)
  | term (t : Term)
  | quoted (a : Arg)
deriving Repr

/-- A reading failure: byte offset and message. -/
structure ReadError where
  offset : Nat
  msg : String
deriving Repr

/-- The reader's position and the furthest failure seen so far with the
position it was seen at. -/
structure Cursor where
  pos : Nat
  furthest : Option ReadError
  depth : Nat

/-- The outcome of reading a rule: no match (nothing read), a value, or a
failure. -/
inductive Step (α : Type) where
  | none
  | ok (v : α) (c : Cursor)
  | fail (e : ReadError) (c : Cursor)

namespace Cursor

/-- Takes over the position of an alternative that was chosen. -/
def accept (p b : Cursor) : Cursor :=
  if b.depth ≥ p.depth then ⟨b.pos, b.furthest, b.depth⟩ else { p with pos := b.pos }

/-- Records the failure of an alternative and says whether it got far enough
to fail its parent. -/
def abandon (p b : Cursor) (e : ReadError) : Cursor × Bool :=
  let p1 :=
    if b.depth > p.depth then { p with furthest := b.furthest, depth := b.depth }
    else if b.pos > p.depth then { p with furthest := some e, depth := Max.max b.pos b.depth }
    else p
  if b.pos > p.pos + 1 then (accept p1 b, true) else (p1, false)

/-- Remembers a failure seen at the current position if none further is known. -/
def note (c : Cursor) (e : ReadError) : Cursor :=
  if c.pos > c.depth then { c with furthest := some e, depth := c.pos } else c

end Cursor

/-- A rule's failure is remembered at the position where it stopped. -/
def Step.noted {α : Type} : Step α → Step α
  | .fail e c => .fail e (c.note e)
  | r => r

/-- Applies a function to the value of a step. -/
def Step.map {α β : Type} (f : α → β) : Step α → Step β
  | .none => .none
  | .ok v c => .ok (f v) c
  | .fail e c => .fail e c

/-- The tokens being read and the offset of their end. -/
structure Input where
  tokens : Array Token
  endOffset : Nat

namespace Input

/-- The token at the cursor, if any. -/
def peek (inp : Input) (c : Cursor) : Option Token := inp.tokens[c.pos]?

/-- "unexpected token" at the cursor, with what was expected. -/
def unexpected (inp : Input) (c : Cursor) (expected : Option String) : ReadError :=
  let t := inp.peek c
  let shown := match t with
    | some t => t.text
    | none => "<EOF>"
  let off := match t with
    | some t => t.offset
    | none => inp.endOffset
  let tail := match expected with
    | some x => " (expected " ++ x ++ ")"
    | none => ""
  ⟨off, "unexpected token " ++ quote shown ++ tail⟩

/-- Reads a keyword. -/
def keyword (inp : Input) (k : String) (c : Cursor) : Option Cursor :=
  match inp.peek c with
  | some t => if t.kind = .word && t.text.toUpper = k then some { c with pos := c.pos + 1 } else none
  | none => none

/-- Reads a punctuation token with the given text, returning its offset. -/
def punct (inp : Input) (p : String) (c : Cursor) : Option (Nat × Cursor) :=
  match inp.peek c with
  | some t =>
    if t.text = p && t.kind ≠ .word && t.kind ≠ .quoted then some (t.offset, { c with pos := c.pos + 1 })
    else none
  | none => none

/-- Reads a token of a kind. -/
def ofKind (inp : Input) (k : TokenKind) (c : Cursor) : Option (Token × Cursor) :=
  match inp.peek c with
  | some t => if t.kind = k then some (t, { c with pos := c.pos + 1 }) else none
  | none => none

/-- Tries alternatives in order (see the module comment). -/
def firstOf {α : Type} (c : Cursor) (alts : List (Cursor → Step α)) : Step α :=
  go c none 0 alts
where
  /-- Tries the remaining alternatives. -/
  go (c : Cursor) (first : Option ReadError) (deepest : Nat) : List (Cursor → Step α) → Step α
    | [] =>
      match first with
      | some e => .fail e (c.note e)
      | none => .none
    | a :: as =>
      match a c with
      | .fail e c' =>
        let (c1, halt) := c.abandon c' e
        if halt then .fail e c1
        else if c'.pos ≥ deepest then go c1 (some e) c'.pos as
        else go c1 first deepest as
      | .none => go c first deepest as
      | .ok v c' => .ok v (c.accept c')

/-- Tries an optional part once: `none` if it did not match or failed within
one token. -/
def optional {α : Type} (c : Cursor) (p : Cursor → Step α) : Step (Option α) :=
  match p c with
  | .fail e c' =>
    let (c2, halt) := (c.note e).abandon c' e
    if halt then .fail e c2 else .ok none c2
  | .none => .ok none c
  | .ok v c' => .ok (some v) (c.accept c')

/-- `ArgExpr`. -/
def argExpr (inp : Input) (c : Cursor) : Step Arg :=
  Step.noted <| firstOf c [
    fun c => match inp.ofKind .word c with
      | some (t, c') => .ok ⟨t.offset, false, t.text⟩ c'
      | none => .none,
    fun c => match inp.ofKind .quoted c with
      | some (t, c') => .ok ⟨t.offset, true, t.text⟩ c'
      | none => .none]

/-- A rule's part after its first one: no match is a failure. -/
def required {α : Type} (inp : Input) (c : Cursor) (expected : String) : Step α → Step α
  | .none => .fail (inp.unexpected c (some expected)) c
  | r => r

/-- `"(" ArgExpr ")"` after a word. -/
def callTail (inp : Input) (c : Cursor) : Step TermTail :=
  Step.noted <| match inp.punct "(" c with
  | none => .none
  | some (paren, c1) =>
    match inp.required c1 "ArgExpr \")\"" (inp.argExpr c1) with
    | .ok a c2 =>
      match inp.punct ")" c2 with
      | some (_, c3) => .ok (.call paren a) c3
      | none => .fail (inp.unexpected c2 (some "\")\"")) c2
    | .fail e c' => .fail e c'
    | .none => .none

/-- `"=~" ArgExpr` after a word. -/
def matchTail (inp : Input) (c : Cursor) : Step TermTail :=
  match inp.punct "=~" c with
  | none => .none
  | some (_, c1) => (inp.required c1 "ArgExpr" (inp.argExpr c1)).map .matchOp

/-- `TermExpr`. -/
def termExpr (inp : Input) (c : Cursor) : Step Term :=
  Step.noted <| match inp.ofKind .word c with
  | none => .none
  | some (t, c1) =>
    match optional c1 (fun c => firstOf c [inp.callTail, inp.matchTail]) with
    | .ok tail c2 => .ok ⟨t.offset, t.text, tail.getD .bare⟩ c2
    | .fail e c2 => .fail e c2
    | .none => .none

mutual

/-- `OrExpr`, with `fuel` bounding the depth of the descent. -/
def orExpr (inp : Input) : Nat → Cursor → Step Tree
  | 0, _ => .none
  | f + 1, c => Step.noted <|
    match inp.andExpr f c with
    | .ok a c1 => (inp.orRest f c1).map (Tree.or a)
    | .fail e c1 => .fail e c1
    | .none => .none

/-- The repeated `("OR" AndExpr)*`. -/
def orRest (inp : Input) : Nat → Cursor → Step (List Tree)
  | 0, c => .ok [] c
  | f + 1, c =>
    let item (c : Cursor) : Step Tree :=
      match inp.keyword "OR" c with
      | none => .none
      | some c1 => inp.required c1 "AndExpr" (inp.andExpr f c1)
    match optional c item with
    | .ok (some t) c1 => (inp.orRest f c1).map (t :: ·)
    | .ok none c1 => .ok [] c1
    | .fail e c1 => .fail e c1
    | .none => .none

/-- `AndExpr`. -/
def andExpr (inp : Input) : Nat → Cursor → Step Tree
  | 0, _ => .none
  | f + 1, c => Step.noted <|
    match inp.unaryExpr f c with
    | .ok a c1 => (inp.andRest f c1).map (Tree.and a)
    | .fail e c1 => .fail e c1
    | .none => .none

/-- The repeated `("AND" UnaryExpr)*`. -/
def andRest (inp : Input) : Nat → Cursor → Step (List Tree)
  | 0, c => .ok [] c
  | f + 1, c =>
    let item (c : Cursor) : Step Tree :=
      match inp.keyword "AND" c with
      | none => .none
      | some c1 => inp.required c1 "UnaryExpr" (inp.unaryExpr f c1)
    match optional c item with
    | .ok (some t) c1 => (inp.andRest f c1).map (t :: ·)
    | .ok none c1 => .ok [] c1
    | .fail e c1 => .fail e c1
    | .none => .none

/-- `UnaryExpr`. -/
def unaryExpr (inp : Input) : Nat → Cursor → Step Tree
  | 0, _ => .none
  | f + 1, c => Step.noted <| firstOf c [
    fun c => match inp.keyword "NOT" c with
      | none => .none
      | some c1 => (inp.required c1 "UnaryExpr" (inp.unaryExpr f c1)).map Tree.not,
    fun c => inp.primaryExpr f c]

/-- `PrimaryExpr`. -/
def primaryExpr (inp : Input) : Nat → Cursor → Step Tree
  | 0, _ => .none
  | f + 1, c => Step.noted <| firstOf c [
    fun c => match inp.punct "(" c with
      | none => .none
      | some (_, c1) =>
        match inp.required c1 "OrExpr \")\"" (inp.orExpr f c1) with
        | .ok t c2 =>
          match inp.punct ")" c2 with
          | some (_, c3) => .ok (.group t) c3
          | none => .fail (inp.unexpected c2 (some "\")\"")) c2
        | .fail e c2 => .fail e c2
        | .none => .none,
    fun c => (inp.termExpr c).map Tree.term,
    fun c => (inp.argExpr c).map Tree.quoted]

end

end Input

/-- Compiles a pattern found at byte offset `off` of the source. -/
def compileAt (src : String) (pat : String) (off : Nat) : Except SyntaxError Glob :=
  match Glob.compile pat with
  | .ok g => .ok g
  | .error e => .error ⟨src, off + e.pos, e.msg⟩

/-- Compiles an argument: a quoted one without its quotes, escapes kept. -/
def compileArg (src : String) (a : Arg) : Except SyntaxError Glob :=
  if a.quoted then
    compileAt src (String.ofList ((a.text.toList.drop 1).dropLast)) (a.offset + 1)
  else compileAt src a.text a.offset

/-- Whether a word is one of the keywords. -/
def isKeyword (w : String) : Bool :=
  let u := w.toUpper
  u == "AND" || u == "OR" || u == "NOT"

/-- Checks a term and compiles its pattern. -/
def buildTerm (src : String) (t : Term) : Except SyntaxError Expr :=
  match t.tail with
  | .call paren a =>
    if paren ≠ t.offset + t.word.utf8ByteSize || !isIdentifier t.word then
      .error ⟨src, paren, "unexpected '('"⟩
    else (Expr.pattern (some t.word)) <$> compileArg src a
  | .matchOp a =>
    if !isIdentifier t.word then .error ⟨src, t.offset, "invalid field name '" ++ t.word ++ "'"⟩
    else (Expr.pattern (some t.word)) <$> compileArg src a
  | .bare =>
    if isKeyword t.word then
      .error ⟨src, t.offset, "expected pattern but found '" ++ t.word ++ "'"⟩
    else (Expr.pattern none) <$> compileAt src t.word t.offset

mutual

/-- Turns a parse tree into an expression, checking it left to right. -/
def Tree.build (src : String) : Tree → Except SyntaxError Expr
  | .or t ts => do Tree.buildChain src Expr.or (← t.build src) ts
  | .and t ts => do Tree.buildChain src Expr.and (← t.build src) ts
  | .not t => Expr.not <$> t.build src
  | .group t => t.build src
  | .term t => buildTerm src t
  | .quoted a => (Expr.pattern none) <$> compileArg src a

/-- Joins the expressions of the trees to `acc` from the left. -/
def Tree.buildChain (src : String) (join : Expr → Expr → Expr) (acc : Expr) :
    List Tree → Except SyntaxError Expr
  | [] => .ok acc
  | t :: ts => do Tree.buildChain src join (join acc (← t.build src)) ts

end

/-- Reads a filter expression. -/
def Filter.parse (src : String) : Except SyntaxError Filter :=
  if trimBlank src == "" then .error ⟨src, 0, "empty expression"⟩
  else match tokenize src.toList 0 with
    | .error (off, msg) => .error ⟨src, off, msg⟩
    | .ok toks =>
      let inp : Input := ⟨toks.toArray, src.utf8ByteSize⟩
      let fail (c : Cursor) : Except SyntaxError Filter :=
        let e := inp.unexpected c none
        let e := if c.pos > c.depth then e else c.furthest.getD e
        .error ⟨src, e.offset, e.msg⟩
      let c0 : Cursor := ⟨0, none, 0⟩
      match inp.orExpr (8 * (toks.length + 2)) c0 with
      | .fail e _ => .error ⟨src, e.offset, e.msg⟩
      | .none => fail c0
      | .ok t c =>
        if c.pos < toks.length then fail c
        else (fun r => ⟨src, r⟩) <$> t.build src

end EventChart.Match
