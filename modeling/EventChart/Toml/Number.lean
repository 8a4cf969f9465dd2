import EventChart.Toml.Document
/-!
# Reading numbers of a settings document

The reader keeps a number's text as written; these functions give its value
when a consumer needs it.  Integers are 64-bit: decimal with an optional
sign and no leading zero, or hexadecimal, octal or binary after `0x`, `0o`
or `0b`.  Underscores may stand between digits.  A float has digits on both
sides of its point.  Integer texts are read like a fixed-width integer
reader does, whose faults say `invalid syntax` or `value out of range` about
the text given to it.
-/

namespace EventChart

namespace Toml

/-- The bounds of 64-bit integers. -/
def int64Max : Int := 9223372036854775807

/-- Why a text is not an integer of the reader. -/
inductive IntegerFault where
  | malformed
  | range
deriving DecidableEq, Repr

/-- The fault's message about a text. -/
def IntegerFault.message (f : IntegerFault) (fn text : String) : String :=
  "strconv." ++ fn ++ ": parsing " ++ Text.quote text ++ ": " ++
    (match f with | .malformed => "invalid syntax" | .range => "value out of range")

/-- The value of a digit in a base, if it is one. -/
def digitIn (base : Nat) (c : Char) : Option Nat :=
  let c := c.toLower
  let d := if '0' ≤ c && c ≤ '9' then some (c.toNat - 48)
    else if 'a' ≤ c && c ≤ 'z' then some (c.toNat - 87) else none
  d.bind fun d => if d < base then some d else none

/-- Reads unsigned digits; the first digit that would overflow 64 bits is a
range fault even when later characters are not digits. -/
def readUnsigned (base : Nat) : List Char → Nat → Except IntegerFault Nat
  | [], n => .ok n
  | c :: cs, n =>
    match digitIn base c with
    | none => .error .malformed
    | some d =>
      let m := n * base + d
      if m > 18446744073709551615 then .error .range else readUnsigned base cs m

/-- Reads a signed 64-bit integer in a base. -/
def readSigned (text : String) (base : Nat) : Except IntegerFault Int := do
  let cs := text.toList
  let (neg, digits) := match cs with
    | '-' :: rest => (true, rest)
    | '+' :: rest => (false, rest)
    | _ => (false, cs)
  if digits.isEmpty then throw .malformed
  let n ← readUnsigned base digits 0
  if neg then
    if (n : Int) > int64Max + 1 then throw .range else pure (-(n : Int))
  else if (n : Int) > int64Max then throw .range else pure n

/-- Removes the underscores between the digits of an integer. -/
def integerUnderscores (cs : List Char) : Except String (List Char) := do
  let body := match cs with
    | '+' :: rest | '-' :: rest => rest
    | _ => cs
  if body.isEmpty then return cs
  if body.head? = some '_' then throw "number cannot start with underscore"
  if cs.getLast? = some '_' then throw "number cannot end with underscore"
  match cs.idxOf? '_' with
  | none => pure cs
  | some i =>
    let rec go : List Char → Bool → Except String (List Char)
      | [], _ => .ok []
      | '_' :: rest, before =>
        if before then go rest false else .error "number must have at least one digit between underscores"
      | c :: rest, _ => (c :: ·) <$> go rest true
    (cs.take i ++ ·) <$> go (cs.drop (i + 1)) false

/-- The value of an integer's text. -/
def readInteger (raw : String) : Except String Int := do
  let cs := raw.toList
  match cs with
  | '0' :: b :: rest =>
    if cs.length > 2 ∧ (b = 'x' ∨ b = 'o' ∨ b = 'b') then
      let (base, name) := if b = 'x' then (16, "hexadecimal") else if b = 'o' then (8, "octal") else (2, "binary")
      let cleaned := String.ofList (← integerUnderscores rest)
      match readSigned cleaned base with
      | .ok n => pure n
      | .error f => throw ("couldn't parse " ++ name ++ " number: " ++ f.message "ParseInt" cleaned)
    else decimal cs
  | _ => decimal cs
where
  decimal (cs : List Char) : Except String Int := do
    let cleaned ← integerUnderscores cs
    let body := match cleaned with
      | '+' :: rest | '-' :: rest => rest
      | _ => cleaned
    if body.length > 1 ∧ body.head? = some '0' then throw "leading zero not allowed on decimal number"
    let text := String.ofList cleaned
    match readSigned text 10 with
    | .ok n => pure n
    | .error f => throw ("couldn't parse decimal number: " ++ f.message "ParseInt" text)

/-- Removes the underscores of a float, checking where they stand. -/
def floatUnderscores (cs : List Char) : Except String (List Char) := do
  if cs.head? = some '_' then throw "number cannot start with underscore"
  if cs.getLast? = some '_' then throw "number cannot end with underscore"
  if !cs.contains '_' then return cs
  let rec go : Option Char → List Char → Bool → Except String (List Char)
    | _, [], _ => .ok []
    | _, '_' :: rest, before =>
      if !before then .error "number must have at least one digit between underscores"
      else if rest.head? = some 'e' ∨ rest.head? = some 'E' then .error "cannot have underscore before exponent"
      else go (some '_') rest false
    | _, c :: rest, before =>
      if c = '+' ∨ c = '-' then (c :: ·) <$> go (some c) rest false
      else if c = 'e' ∨ c = 'E' then
        if rest.head? = some '_' then .error "cannot have underscore after exponent"
        else (c :: ·) <$> go (some c) rest before
      else if c = '.' then
        if rest.head? = some '_' then .error "cannot have underscore after decimal point"
        else (c :: ·) <$> go (some c) rest before
      else (c :: ·) <$> go (some c) rest true
  -- an underscore right before a point is caught by the point's left neighbour
  let rec beforePoint : List Char → Bool
    | '_' :: '.' :: _ => true
    | _ :: rest => beforePoint rest
    | [] => false
  if beforePoint cs then throw "cannot have underscore before decimal point"
  go none cs false

/-- Whether a text is a float that the fixed-width float reader accepts:
sign, digits with at most one point and at least one digit, an optional
exponent, or `inf`, `infinity` and `nan` in any case. -/
def floatSyntax (cs : List Char) : Bool :=
  let body := match cs with
    | '+' :: rest | '-' :: rest => rest
    | _ => cs
  let word := String.ofList (body.map Char.toLower)
  if word = "inf" ∨ word = "infinity" ∨ word = "nan" then true
  else
    let (mant, exp) := body.span fun c => c != 'e' && c != 'E'
    let (intPart, frac) := mant.span (· != '.')
    let fracDigits := frac.drop 1
    let mantOk := intPart.all isDigit && fracDigits.all isDigit && (intPart.length + fracDigits.length > 0)
    let expOk := match exp with
      | [] => true
      | _ :: rest =>
        let digits := match rest with
          | '+' :: r | '-' :: r => r
          | r => r
        !digits.isEmpty && digits.all isDigit
    mantOk && expOk

/-- The decimal value of a well-formed float text, as mantissa and power of
ten. -/
def floatParts (cs : List Char) : Nat × Int :=
  let body := match cs with
    | '+' :: rest | '-' :: rest => rest
    | _ => cs
  let (mant, exp) := body.span fun c => c != 'e' && c != 'E'
  let (intPart, frac) := mant.span (· != '.')
  let fracDigits := frac.drop 1
  let m := (intPart ++ fracDigits).foldl (fun acc c => acc * 10 + (c.toNat - 48)) 0
  let e : Int := match exp with
    | [] => 0
    | _ :: rest =>
      let (neg, digits) := match rest with
        | '-' :: r => (true, r)
        | '+' :: r => (false, r)
        | r => (false, r)
      let v : Nat := digits.foldl (fun acc c => acc * 10 + (c.toNat - 48)) 0
      if neg then -(v : Int) else (v : Int)
  (m, e - (fracDigits.length : Int))

/-- Whether a well-formed float text is too large for a double. -/
def floatOverflows (cs : List Char) : Bool :=
  let (m, e) := floatParts cs
  if m = 0 then false
  else if e > 400 then true
  else if e < -400 then false
  else
    let f := if e ≥ 0 then Float.ofScientific m false e.toNat else Float.ofScientific m true (-e).toNat
    f.isInf

/-- Checks a float's text. -/
def readFloat (raw : String) : Except String Unit := do
  let cs := raw.toList
  if cs = ['+', 'n', 'a', 'n'] ∨ cs = ['-', 'n', 'a', 'n'] then return ()
  let cleaned ← floatUnderscores cs
  if cleaned.head? = some '.' then throw "float cannot start with a dot"
  if cleaned.getLast? = some '.' then throw "float cannot end with a dot"
  let rec dots : Option Char → List Char → Bool → Except String Unit
    | _, [], _ => .ok ()
    | prev, '.' :: rest, seen =>
      if seen then .error "float can have at most one decimal point"
      else if !(prev.map isDigit).getD false then .error "float decimal point must be preceded by a digit"
      else if !(rest.head?.map isDigit).getD false then .error "float decimal point must be followed by a digit"
      else dots (some '.') rest true
    | _, c :: rest, seen => dots (some c) rest seen
  dots none cleaned false
  let body := match cleaned with
    | '+' :: rest | '-' :: rest => rest
    | _ => cleaned
  match body with
  | '0' :: d :: _ => if isDigit d then throw "float integer part cannot have leading zeroes"
  | _ => pure ()
  let text := String.ofList cleaned
  if !floatSyntax cleaned then
    throw ("unable to parse float: strconv.ParseFloat: parsing " ++ Text.quote text ++ ": invalid syntax")
  if floatOverflows cleaned then
    throw ("unable to parse float: strconv.ParseFloat: parsing " ++ Text.quote text ++ ": value out of range")

end Toml

end EventChart
