import EventChart.Text.Quoted
/-!
# Integer numerals

An integer numeral is an optional sign `+` or `-` followed by one or more
ASCII digits, nothing else.  `readNumeral` reads one without a bound;
`readInt bits` also requires the value to fit a signed word of `bits` bits
and tells a malformed numeral (`malformed`) from one out of range (`outOfRange`).
-/

namespace EventChart.Text

/-- Why a numeral was refused. -/
inductive NumeralError where
  | malformed
  | outOfRange
deriving DecidableEq, Repr, Inhabited

/-- The value of a list of ASCII digits, or none if one is not a digit. -/
def digitsValue (cs : List Char) : Option Nat :=
  cs.foldl (fun acc c => acc.bind fun v =>
    if c.isDigit then some (10 * v + (c.toNat - 48)) else none) (some 0)

/-- Reads an optionally signed, non-empty run of ASCII digits. -/
def readNumeral (s : String) : Option Int :=
  let (neg, ds) := match s.toList with
    | '-' :: r => (true, r)
    | '+' :: r => (false, r)
    | r => (false, r)
  if ds.isEmpty then none
  else (digitsValue ds).map fun v => if neg then -(v : Int) else v

/-- Reads a numeral that fits a signed word of `bits` bits. -/
def readInt (bits : Nat) (s : String) : Except NumeralError Int :=
  match readNumeral s with
  | none => .error .malformed
  | some v =>
    if -(Int.pow 2 (bits - 1)) ≤ v ∧ v < Int.pow 2 (bits - 1) then .ok v else .error .outOfRange

/-- The message of a refused 64-bit numeral, naming the reading function. -/
def NumeralError.message (e : NumeralError) (s : String) : String :=
  let why := match e with
    | .malformed => "invalid syntax"
    | .outOfRange => "value out of range"
  "strconv.ParseInt: parsing " ++ quote s ++ ": " ++ why

end EventChart.Text
