import EventChart.Time.Basic
import EventChart.Text.Blank
import EventChart.Text.Numeral
/-!
# Reading and writing simulation times

A time is read from the decimal grammar

    time     ::= numeral [ "." digits ] [ ("e" | "E") exponent ]
    numeral  ::= [ "+" | "-" ] digits

after blanks around it are trimmed; the digits before and after the point
may be empty as long as one of them is not (`.5` and `5.` are times).  The
exponent is a signed 32-bit integer and so is the resulting exponent of the
value.  Each way to fail is a constructor of `DecimalError`, checked in this
order: a bad exponent, a second decimal point, a bad digit string, an
exponent out of range.

Two printers write a time positionally, never with an exponent:

* `toText` drops trailing zeros of the fraction (`1.000` is written `1`);
* `toPlain` keeps the scale (`1.000` stays `1.000`).

A negative zero is written without its sign.
-/

namespace EventChart

open EventChart.Text

/-- Why a text is not a decimal number. -/
inductive DecimalError where
  /-- The part after the exponent mark is not a numeral. -/
  | exponentNotNumeric (text : String)
  /-- The exponent does not fit 32 bits. -/
  | tooLong (text : String)
  /-- More than one decimal point. -/
  | tooManyPoints (text : String)
  /-- The digits are not a numeral. -/
  | notNumber (text : String)
deriving DecidableEq, Repr

/-- The message of a decimal error. -/
def DecimalError.message : DecimalError → String
  | .exponentNotNumeric s => "can't convert " ++ s ++ " to decimal: exponent is not numeric"
  | .tooLong s => "can't convert " ++ s ++ " to decimal: fractional part too long"
  | .tooManyPoints s => "can't convert " ++ s ++ " to decimal: too many .s"
  | .notNumber s => "can't convert " ++ s ++ " to decimal"

/-- A text that is not a simulation time: the text as given and the reason. -/
structure TimeSyntaxError where
  input : String
  reason : DecimalError
deriving DecidableEq, Repr

/-- The message of a time syntax error. -/
def TimeSyntaxError.message (e : TimeSyntaxError) : String :=
  "invalid simulation time " ++ quote e.input ++ ": " ++ e.reason.message

/-- Whether an integer fits 32 signed bits. -/
def fits32 (n : Int) : Bool := -2147483648 ≤ n && n ≤ 2147483647

/-- Splits a character list at its first exponent mark. -/
def splitExponent (cs : List Char) : List Char × Option (List Char) :=
  match cs.findIdx? (fun c => c == 'e' || c == 'E') with
  | some i => (cs.take i, some (cs.drop (i + 1)))
  | none => (cs, none)

/-- Reads a decimal number (no blanks around it). -/
def readDecimal (s : String) : Except DecimalError SimTime := do
  let (mantissa, expPart) := splitExponent s.toList
  let exp ← match expPart with
    | none => pure (0 : Int)
    | some e =>
      match readInt 32 (String.ofList e) with
      | .ok v => pure v
      | .error .outOfRange => throw (.tooLong s)
      | .error .malformed => throw (.exponentNotNumeric s)
  let m := String.ofList mantissa
  if mantissa.count '.' > 1 then throw (.tooManyPoints m)
  let intPart := mantissa.takeWhile (· != '.')
  let fracPart := (mantissa.dropWhile (· != '.')).drop 1
  match readNumeral (String.ofList (intPart ++ fracPart)) with
  | none => throw (.notNumber m)
  | some c =>
    let e := exp - fracPart.length
    if fits32 e then pure ⟨c, e⟩ else throw (.tooLong s)

namespace SimTime

/-- Reads a simulation time; blanks around it are ignored. -/
def parse (s : String) : Except TimeSyntaxError SimTime :=
  match readDecimal (trimBlank s) with
  | .ok t => .ok t
  | .error r => .error ⟨s, r⟩

/-- Digits of the magnitude with the point `f` places from the right, as
integer part and fraction part. -/
def splitDigits (ds : List Char) (f : Nat) : List Char × List Char :=
  if ds.length > f then (ds.take (ds.length - f), ds.drop (ds.length - f))
  else (['0'], List.replicate (f - ds.length) '0' ++ ds)

/-- Drops trailing zeros from a digit list. -/
def dropTrailingZeros (ds : List Char) : List Char :=
  (ds.reverse.dropWhile (· == '0')).reverse

/-- Writes a time positionally; `trim` drops trailing zeros of the fraction. -/
def render (t : SimTime) (trim : Bool) : String :=
  if t.exp ≥ 0 then toString (t.coeff * Int.pow 10 t.exp.toNat)
  else
    let (ip, fp) := splitDigits (toString t.coeff.natAbs).toList (-t.exp).toNat
    let fp := if trim then dropTrailingZeros fp else fp
    let body := if fp.isEmpty then ip else ip ++ '.' :: fp
    String.ofList (if t.coeff < 0 then '-' :: body else body)

/-- The canonical text: positional, without trailing zeros. -/
def toText (t : SimTime) : String := t.render true

/-- The plain text: positional, keeping the scale. -/
def toPlain (t : SimTime) : String := t.render false

end SimTime

end EventChart
