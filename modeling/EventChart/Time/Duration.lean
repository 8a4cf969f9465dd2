import EventChart.Text.Quoted
/-!
# Durations

A duration is a signed number of nanoseconds in 64 bits.

Its text (`Duration.render`) is `0s` for zero; below one second a number of
nanoseconds, microseconds (`µs`) or milliseconds with a fraction and no
trailing zeros (`1.5ms`); from one second on hours, minutes and seconds,
leading zero units left out (`1m30.5s`, `2h0m0s`).

`Duration.parse` reads a signed sequence of decimal numbers, each with an
optional fraction and a unit among `ns`, `us`, `µs`, `μs`, `ms`, `s`, `m`
and `h` (`300ms`, `-1.5h`, `2h45m`).  A lone `0` needs no unit.  The
fraction of a unit is converted through a double, as the format has always
done, and a sum beyond 64 bits is refused.
-/

namespace EventChart

/-- A signed number of nanoseconds. -/
structure Duration where
  nanos : Int
deriving DecidableEq, Repr, Inhabited

namespace Duration

/-- The fraction `v mod 10^prec` after a point, without trailing zeros, and
the point only when it is not zero. -/
def fractionText (v : Nat) (prec : Nat) : String :=
  let frac := v % Nat.pow 10 prec
  if frac = 0 then ""
  else
    let ds := (toString frac).toList
    let ds := List.replicate (prec - ds.length) '0' ++ ds
    "." ++ String.ofList (ds.reverse.dropWhile (· = '0')).reverse

/-- The text of a duration. -/
def render (d : Duration) : String :=
  let u := d.nanos.natAbs
  let sign := if d.nanos < 0 then "-" else ""
  if u = 0 then "0s"
  else if u < 1000000000 then
    let (prec, unit) :=
      if u < 1000 then (0, "ns") else if u < 1000000 then (3, "µs") else (6, "ms")
    sign ++ toString (u / Nat.pow 10 prec) ++ fractionText u prec ++ unit
  else
    let secs := u / 1000000000
    let body := toString (secs % 60) ++ fractionText u 9 ++ "s"
    let mins := secs / 60
    let body := if mins > 0 then
        let hours := mins / 60
        let body := toString (mins % 60) ++ "m" ++ body
        if hours > 0 then toString hours ++ "h" ++ body else body
      else body
    sign ++ body

/-- Quotes a text as durations are quoted in messages: other than printable
ASCII as `\x` escapes of its bytes. -/
def quoteText (s : String) : String :=
  let body := s.toList.flatMap fun c =>
    if c.toNat ≥ 0x80 ∨ c.toNat < 0x20 then
      (String.singleton c).toUTF8.toList.flatMap fun b => '\\' :: 'x' :: Text.hexWidth b.toNat 2
    else if c = '"' ∨ c = '\\' then ['\\', c] else [c]
  String.ofList ('"' :: body ++ ['"'])

/-- The nanoseconds of a unit. -/
def unitNanos (u : String) : Option Nat :=
  if u = "ns" then some 1
  else if u = "us" ∨ u = "µs" ∨ u = "μs" then some 1000
  else if u = "ms" then some 1000000
  else if u = "s" then some 1000000000
  else if u = "m" then some 60000000000
  else if u = "h" then some 3600000000000
  else none

/-- The largest magnitude of a duration, `2^63`. -/
def bound : Nat := 9223372036854775808

/-- Reads leading digits; none on overflow. -/
def leadingInt : List Char → Nat → Option (Nat × List Char)
  | [], x => some (x, [])
  | c :: cs, x =>
    if c.isDigit then
      if x > bound / 10 then none
      else
        let y := x * 10 + (c.toNat - '0'.toNat)
        if y > bound then none else leadingInt cs y
    else some (x, c :: cs)

/-- Reads the digits of a fraction: the value and its scale, digits past
overflow ignored. -/
def leadingFraction : List Char → Nat → Float → Bool → Nat × Float × List Char
  | [], x, scale, _ => (x, scale, [])
  | c :: cs, x, scale, spilled =>
    if c.isDigit then
      if spilled then leadingFraction cs x scale true
      else if x > (bound - 1) / 10 then leadingFraction cs x scale true
      else
        let y := x * 10 + (c.toNat - '0'.toNat)
        if y > bound then leadingFraction cs x scale true else leadingFraction cs y (scale * 10) false
    else (x, scale, c :: cs)

/-- Reads the terms of a duration after its sign. -/
def readTerms (orig : String) : Nat → List Char → Nat → Except String Nat
  | 0, _, d => .ok d
  | _ + 1, [], d => .ok d
  | fuel + 1, cs, d => do
    let invalid : String := "time: invalid duration " ++ quoteText orig
    match cs with
    | [] => .ok d
    | c :: _ =>
      if !(c = '.' ∨ c.isDigit) then throw invalid
      let some (v, rest) := leadingInt cs 0 | throw invalid
      let pre := rest.length != cs.length
      let (f, scale, rest, post) := match rest with
        | '.' :: r =>
          let (f, scale, r') := leadingFraction r 0 1 false
          (f, scale, r', r'.length != r.length)
        | r => (0, 1, r, false)
      if !pre && !post then throw invalid
      let unit := rest.takeWhile fun ch => !(ch = '.' ∨ ch.isDigit)
      let rest := rest.drop unit.length
      if unit.isEmpty then throw ("time: missing unit in duration " ++ quoteText orig)
      let some u := unitNanos (String.ofList unit)
        | throw ("time: unknown unit " ++ quoteText (String.ofList unit) ++ " in duration " ++ quoteText orig)
      if v > bound / u then throw invalid
      let v := v * u
      let v := if f > 0 then v + (Float.ofNat f * (Float.ofNat u / scale)).toUInt64.toNat else v
      if v > bound then throw invalid
      let d := d + v
      if d > bound then throw invalid
      readTerms orig fuel rest d

/-- Reads a duration. -/
def parse (s : String) : Except String Duration := do
  let (neg, body) := match s.toList with
    | '-' :: r => (true, r)
    | '+' :: r => (false, r)
    | r => (false, r)
  if body = ['0'] then return ⟨0⟩
  if body.isEmpty then throw ("time: invalid duration " ++ quoteText s)
  let d ← readTerms s (body.length + 1) body 0
  if neg then return ⟨-(d : Int)⟩
  if d > bound - 1 then throw ("time: invalid duration " ++ quoteText s)
  return ⟨d⟩

end Duration

end EventChart
