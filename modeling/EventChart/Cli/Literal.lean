import EventChart.Text.Quoted
/-!
# Numbers and booleans written by a user

The command line and the settings read integers, doubles and booleans from
text.  An integer may carry a sign and a base prefix (`0x`, `0o`, `0b`, or a
leading `0` for octal); underscores may separate its digits.  A double is a
decimal with an optional exponent, or `inf`, `infinity` or `nan` in any case.
A boolean is one of `1 t T TRUE true True` or `0 f F FALSE false False`.

A text that is not such a value is a `LiteralFault`: malformed, or outside
the 64-bit range.  Its message names the reader and the text, as in
`strconv.ParseInt: parsing "x": invalid syntax`.
-/

namespace EventChart.Cli

/-- Why a text is not a value. -/
inductive LiteralFault where
  | malformed
  | outOfRange
deriving DecidableEq, Repr

/-- The reason part of a fault's message. -/
def LiteralFault.reason : LiteralFault → String
  | .malformed => "invalid syntax"
  | .outOfRange => "value out of range"

/-- A fault of one reader about one text. -/
structure LiteralError where
  reader : String
  text : String
  fault : LiteralFault

/-- The full message of a literal fault. -/
def LiteralError.message (e : LiteralError) : String :=
  "strconv." ++ e.reader ++ ": parsing " ++ Text.quote e.text ++ ": " ++ e.fault.reason

/-- The message without the text. -/
def LiteralError.brief (e : LiteralError) : String := "strconv." ++ e.reader ++ ": " ++ e.fault.reason

/-- The value of a digit in a base. -/
def literalDigit (base : Nat) (c : Char) : Option Nat :=
  let c := c.toLower
  let d := if '0' ≤ c && c ≤ '9' then some (c.toNat - 48)
    else if 'a' ≤ c && c ≤ 'z' then some (c.toNat - 87) else none
  d.bind fun d => if d < base then some d else none

/-- Whether underscores stand only between digits (a base prefix counts as
a digit). -/
def underscoresPlaced (cs : List Char) : Bool :=
  let cs := match cs with
    | '+' :: rest | '-' :: rest => rest
    | _ => cs
  let (start, hex, cs) := match cs with
    | '0' :: b :: rest =>
      let b' := b.toLower
      if b' = 'b' ∨ b' = 'o' ∨ b' = 'x' then ('0', b' == 'x', rest) else ('^', false, cs)
    | _ => ('^', false, cs)
  let rec go : Char → List Char → Bool
    | saw, [] => saw != '_'
    | saw, c :: rest =>
      let isDigit := ('0' ≤ c && c ≤ '9') || (hex && 'a' ≤ c.toLower && c.toLower ≤ 'f')
      if isDigit then go '0' rest
      else if c = '_' then (saw = '0') && go '_' rest
      else if saw = '_' then false
      else go '!' rest
  go start cs

/-- Reads the digits of an unsigned integer; `none` for a malformed text,
`some none` for one that overflows 64 bits. -/
def unsignedDigits (base : Nat) (underscores : Bool) : List Char → Nat → Option (Option Nat)
  | [], n => some (some n)
  | c :: cs, n =>
    if c = '_' ∧ underscores then unsignedDigits base underscores cs n
    else match literalDigit base c with
      | none => none
      | some d =>
        let m := n * base + d
        if m ≥ Nat.pow 2 64 then some none
        else unsignedDigits base underscores cs m

/-- Reads a signed 64-bit integer, with a base prefix when `base = 0`. -/
def intLiteral (text : String) (base : Nat) : Except LiteralError Int := do
  let fail (f : LiteralFault) : Except LiteralError Int := .error ⟨"ParseInt", text, f⟩
  let cs := text.toList
  if cs.isEmpty then return ← fail .malformed
  let (neg, body) := match cs with
    | '+' :: rest => (false, rest)
    | '-' :: rest => (true, rest)
    | _ => (false, cs)
  if body.isEmpty then return ← fail .malformed
  let (b, digits) :=
    if base ≠ 0 then (base, body)
    else match body with
      | '0' :: c :: rest =>
        let c' := c.toLower
        if rest.length ≥ 1 ∧ c' = 'b' then (2, rest)
        else if rest.length ≥ 1 ∧ c' = 'o' then (8, rest)
        else if rest.length ≥ 1 ∧ c' = 'x' then (16, rest)
        else (8, c :: rest)
      | '0' :: [] => (8, [])
      | _ => (10, body)
  match unsignedDigits b (base = 0) digits 0 with
  | none => fail .malformed
  | some none => fail .outOfRange
  | some (some n) =>
    if base = 0 ∧ body.contains '_' ∧ !underscoresPlaced body then return ← fail .malformed
    if neg then
      if n > Nat.pow 2 63 then fail .outOfRange else pure (-(n : Int))
    else if n ≥ Nat.pow 2 63 then fail .outOfRange else pure n

/-- Reads a boolean. -/
def boolLiteral (text : String) : Except LiteralError Bool :=
  if ["1", "t", "T", "TRUE", "true", "True"].contains text then .ok true
  else if ["0", "f", "F", "FALSE", "false", "False"].contains text then .ok false
  else .error ⟨"ParseBool", text, .malformed⟩

/-- Whether a text is a decimal double: sign, digits with at most one point
and at least one digit, and an optional exponent. -/
def decimalShape (cs : List Char) : Bool :=
  let isDigit (c : Char) := '0' ≤ c && c ≤ '9'
  let (mant, exp) := cs.span fun c => c != 'e' && c != 'E'
  let (intPart, frac) := mant.span (· != '.')
  let fracDigits := frac.drop 1
  let mantOk := intPart.all isDigit && fracDigits.all isDigit && intPart.length + fracDigits.length > 0
  let expOk := match exp with
    | [] => true
    | _ :: rest =>
      let ds := match rest with
        | '+' :: r | '-' :: r => r
        | r => r
      !ds.isEmpty && ds.all isDigit
  mantOk && expOk

/-- Positive infinity. -/
def infinity : Float := 1.0 / 0.0

/-- The value of a decimal double text, rounded to the nearest double. -/
def decimalValue (cs : List Char) : Float :=
  let (mant, exp) := cs.span fun c => c != 'e' && c != 'E'
  let (intPart, frac) := mant.span (· != '.')
  let fracDigits := frac.drop 1
  let m : Nat := (intPart ++ fracDigits).foldl (fun acc c => acc * 10 + (c.toNat - 48)) 0
  let e : Int := match exp with
    | [] => 0
    | _ :: rest =>
      let (neg, ds) := match rest with
        | '-' :: r => (true, r)
        | '+' :: r => (false, r)
        | r => (false, r)
      let v : Nat := ds.foldl (fun acc c => acc * 10 + (c.toNat - 48)) 0
      if neg then -(v : Int) else (v : Int)
  let e := e - (fracDigits.length : Int)
  if m = 0 then 0
  else if e > 400 then infinity
  else if e < -800 then 0
  else if e ≥ 0 then Float.ofScientific m false e.toNat else Float.ofScientific m true (-e).toNat

/-- Reads a double. -/
def floatLiteral (text : String) : Except LiteralError Float :=
  let cs := text.toList
  let (neg, body) := match cs with
    | '+' :: rest => (false, rest)
    | '-' :: rest => (true, rest)
    | _ => (false, cs)
  let word := String.ofList (body.map Char.toLower)
  let sign (f : Float) := if neg then -f else f
  if word = "inf" ∨ word = "infinity" then .ok (sign infinity)
  else if word = "nan" ∧ body.length = cs.length then .ok (0.0 / 0.0)
  else if !decimalShape body then .error ⟨"ParseFloat", text, .malformed⟩
  else
    let v := decimalValue body
    if v.isInf then .error ⟨"ParseFloat", text, .outOfRange⟩ else .ok (sign v)

end EventChart.Cli
