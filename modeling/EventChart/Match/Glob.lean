import EventChart.Text.Numeral
/-!
# Glob patterns

A glob pattern is read left to right into pieces, each matching a stretch of
the subject text:

* `*` any run of characters without a `.`, `**` any run at all;
* `?` one character other than `.`;
* `{a-z_}` one character of a set, `{^…}` one character outside it;
* `{lo..hi}` a run of ASCII digits whose value lies in the inclusive range,
  either bound may be left out;
* `\c` the character `c` itself, any other character itself.

A pattern matches a text when the whole text splits into consecutive
stretches, one per piece.  `Glob.accepts` decides this by carrying the set of
positions reachable after each piece, so its cost is the number of pieces
times the square of the text length at worst.

`SyntaxError` is the error of the filter language and its patterns: the
source, a position and a message.
-/

namespace EventChart.Match

open EventChart.Text

/-- A malformed pattern or filter expression: its source, the offset where
reading failed and why. -/
structure SyntaxError where
  source : String
  pos : Nat
  msg : String
deriving DecidableEq, Repr

/-- The message of a syntax error. -/
def SyntaxError.message (e : SyntaxError) : String :=
  "filter expression syntax error: " ++ quote e.source ++ " at offset " ++ toString e.pos ++
    ": " ++ e.msg

/-- One piece of a glob pattern. -/
inductive Piece where
  /-- The character itself. -/
  | char (c : Char)
  /-- Any run of characters without a `.`. -/
  | anyNoDot
  /-- Any run of characters. -/
  | any
  /-- One character other than `.`. -/
  | one
  /-- One character inside (or, negated, outside) the inclusive ranges. -/
  | set (ranges : List (Char × Char)) (negate : Bool)
  /-- A non-empty run of digits with its value between the bounds. -/
  | range (lo hi : Option Int)
deriving DecidableEq, Repr

/-- A compiled glob pattern with its source text. -/
structure Glob where
  source : String
  pieces : List Piece
deriving Repr

/-- The ranges of a character set body: `a-z` is a range, other characters
stand for themselves. -/
def setRanges : List Char → List (Char × Char)
  | a :: '-' :: b :: rest => (a, b) :: setRanges rest
  | a :: rest => (a, a) :: setRanges rest
  | [] => []

/-- Splits a character list at the first `..`. -/
def splitDots : List Char → Option (List Char × List Char)
  | '.' :: '.' :: rest => some ([], rest)
  | c :: rest => (splitDots rest).map fun (a, b) => (c :: a, b)
  | [] => none

/-- Reads the body of `{…}` found at position `pos`. -/
def readBraces (pos : Nat) (body : List Char) : Except (Nat × String) Piece :=
  match splitDots body with
  | some (lo, hi) => do
    let bound (cs : List Char) : Except (Nat × String) (Option Int) :=
      if cs.isEmpty then .ok none
      else match readInt 64 (String.ofList cs) with
        | .ok v => .ok (some v)
        | .error _ => .error (pos, "invalid range bound " ++ quote (String.ofList cs))
    let l ← bound lo
    let h ← bound hi
    pure (.range l h)
  | none =>
    let (negate, rest) := match body with
      | '^' :: r => (true, r)
      | r => (false, r)
    if rest.isEmpty then .error (pos, "empty character set")
    else .ok (.set (setRanges rest) negate)

/-- Reads the pieces of a pattern; `pos` is the character index of the head. -/
def readPieces (cs : List Char) (pos : Nat) : Except (Nat × String) (List Piece) :=
  match cs with
  | [] => .ok []
  | ['\\'] => .error (pos, "dangling escape")
  | '\\' :: c :: rest => (Piece.char c :: ·) <$> readPieces rest (pos + 2)
  | '*' :: '*' :: rest => (Piece.any :: ·) <$> readPieces rest (pos + 2)
  | '*' :: rest => (Piece.anyNoDot :: ·) <$> readPieces rest (pos + 1)
  | '?' :: rest => (Piece.one :: ·) <$> readPieces rest (pos + 1)
  | '{' :: rest =>
    match rest.idxOf? '}' with
    | none => .error (pos, "unterminated '\x7b'")
    | some k => do
      let p ← readBraces pos (rest.take k)
      let ps ← readPieces (rest.drop (k + 1)) (pos + k + 2)
      pure (p :: ps)
  | c :: rest => (Piece.char c :: ·) <$> readPieces rest (pos + 1)
termination_by cs.length
decreasing_by all_goals simp; try omega

namespace Glob

/-- Compiles a pattern; the error carries the character index. -/
def compile (src : String) : Except SyntaxError Glob :=
  match readPieces src.toList 0 with
  | .ok ps => .ok ⟨src, ps⟩
  | .error (pos, msg) => .error ⟨src, pos, msg⟩

/-- Whether a character lies in a set piece. -/
def inSet (ranges : List (Char × Char)) (negate : Bool) (c : Char) : Bool :=
  ranges.any (fun (lo, hi) => lo ≤ c && c ≤ hi) != negate

/-- The value of the digits `s[p, q)`, if it fits 64 signed bits. -/
def digitValue (s : Array Char) (p q : Nat) : Option Int :=
  let cs := (s.extract p q).toList
  match readInt 64 (String.ofList cs) with
  | .ok v => some v
  | .error _ => none

/-- Whether `s[p, q)` is a run of digits matched by a range piece. -/
def rangeMatches (lo hi : Option Int) (s : Array Char) (p q : Nat) : Bool :=
  p < q && (s.extract p q).all Char.isDigit &&
    match digitValue s p q with
    | some v => (lo.all (· ≤ v)) && (hi.all (v ≤ ·))
    | none => false

/-- The positions reachable after a piece, from the reachable positions
`reach` (indexed `0 … s.size`). -/
def advance (s : Array Char) (reach : Array Bool) : Piece → Array Bool
  | .char c => step fun p => s[p]? == some c
  | .one => step fun p => s[p]? != some '.' && p < s.size
  | .set rs neg => step fun p => match s[p]? with
    | some c => inSet rs neg c
    | none => false
  | .any => Array.ofFn (n := s.size + 1) fun q => (List.range (q.val + 1)).any (reach.getD · false)
  | .anyNoDot => Array.ofFn (n := s.size + 1) fun q =>
      (List.range (q.val + 1)).any fun p =>
        reach.getD p false && ((s.extract p q.val).all (· != '.'))
  | .range lo hi => Array.ofFn (n := s.size + 1) fun q =>
      (List.range q.val).any fun p => reach.getD p false && rangeMatches lo hi s p q.val
where
  /-- One character forward where `ok` holds at the position before. -/
  step (ok : Nat → Bool) : Array Bool :=
    Array.ofFn (n := s.size + 1) fun q =>
      q.val > 0 && reach.getD (q.val - 1) false && ok (q.val - 1)

/-- Whether the whole text matches the pattern. -/
def accepts (g : Glob) (text : String) : Bool :=
  let s := text.toList.toArray
  let start := Array.ofFn (n := s.size + 1) fun q => q.val == 0
  (g.pieces.foldl (advance s) start).getD s.size false

end Glob

end EventChart.Match
