import EventChart.Time.Text
/-!
# Rounding simulation times

Three ways to shorten a time, all exact:

* `roundSignificant p mode` keeps `p` digits of the coefficient, rounding the
  dropped part away in the direction `mode`; a carry (`999 → 1000`) drops one
  more zero so that the coefficient keeps `p` digits;
* `quantize e mode` rounds to a multiple of `10 ^ e`; a time whose exponent is
  already at least `e`, or that is a multiple of `10 ^ e`, is returned as it is;
* `shortestWithin t lo hi` looks for a value with few significant digits in
  `[lo, hi]` (widened to contain `t`), starting from `t`: it lowers the
  precision of `t` rounded down and rounded up while the result stays inside,
  then moves the last digit to a `5` or to an even digit when that stays
  inside.  Fewer significant digits win; on a tie a last digit `5` wins over
  an even one, and the rounded-down candidate over the rounded-up one.

`commonPrefix a b` is the longest common leading text of the plain forms of
`a` and `b` once their fractions are padded to the same length, provided the
decimal point stands at the same place in both.
-/

namespace EventChart

/-- A rounding direction. -/
inductive Rounding where
  | floor
  | ceiling
deriving DecidableEq, Repr, Inhabited

namespace SimTime

/-- Rounds to `p` significant digits (at least one) in direction `mode`. -/
def roundSignificant (t : SimTime) (p : Int) (mode : Rounding) : SimTime :=
  let p := (Max.max p 1).toNat
  let n := t.digits
  if n ≤ p then t
  else
    let drop := n - p
    let q0 := t.coeff.tdiv (Int.pow 10 drop)
    let r := t.coeff.tmod (Int.pow 10 drop)
    let q :=
      if r = 0 then q0
      else match mode with
        | .floor => if t.coeff < 0 then q0 - 1 else q0
        | .ceiling => if t.coeff > 0 then q0 + 1 else q0
    let e := t.exp + drop
    if digitCount q.natAbs > p then ⟨q.tdiv 10, e + 1⟩ else ⟨q, e⟩

/-- Rounds to a multiple of `10 ^ e` in direction `mode`. -/
def quantize (t : SimTime) (e : Int) (mode : Rounding) : SimTime :=
  if t.exp ≥ e then t
  else
    let r := t.rescale e
    if (r.cmp t) = .eq then t
    else match mode with
      | .floor => if t.coeff > 0 then r else ⟨r.coeff - 1, e⟩
      | .ceiling => if t.coeff > 0 then ⟨r.coeff + 1, e⟩ else r

/-- Whether `lo ≤ v ≤ hi`. -/
def within (v lo hi : SimTime) : Bool := !(v < lo) && !(hi < v)

/-- Moves the last digit of `v` to `5`, or else to the even digit below it,
when the result stays in `[lo, hi]`; negative values are kept. -/
def nudgeLastDigit (v lo hi : SimTime) : SimTime :=
  if v.coeff < 0 then v
  else
    let five : SimTime := ⟨v.coeff / 10 * 10 + 5, v.exp⟩
    let even : SimTime := ⟨v.coeff - v.coeff % 2, v.exp⟩
    if within five lo hi then five
    else if within even lo hi then even
    else v

/-- The last rounding of `t` in direction `mode`, from precision `p` down to
one, that still satisfies `ok`; `t` itself if none does. -/
def lowestPrecision (t : SimTime) (mode : Rounding) (ok : SimTime → Bool) :
    Nat → SimTime → SimTime
  | 0, best => best
  | p + 1, best =>
    let r := t.roundSignificant (p + 1) mode
    if ok r then lowestPrecision t mode ok p r else best

/-- A value with few significant digits in `[lo, hi]`, widened to contain `t`. -/
def shortestWithin (t lo hi : SimTime) : SimTime :=
  let lo := if t < lo then t else lo
  let hi := if hi < t then t else hi
  let dp : Int := (hi - lo).precision
  let p := (Max.max 1 (1 + Max.max ((lo.precision : Int) - dp) ((hi.precision : Int) - dp))).toNat
  let bestFloor := lowestPrecision t .floor (fun r => !(r < lo)) p t
  let bestCeiling := lowestPrecision t .ceiling (fun r => !(hi < r)) p t
  let f := nudgeLastDigit bestFloor lo hi
  let c := nudgeLastDigit bestCeiling lo hi
  if f.precision < c.precision then f
  else if c.precision < f.precision then c
  else if f.strippedLastDigit = 5 then f
  else if c.strippedLastDigit = 5 then c
  else if f.strippedLastDigit % 2 = 0 then f
  else if c.strippedLastDigit % 2 = 0 then c
  else f

/-- The number of digits after the point of a plain text. -/
def fractionLength (s : List Char) : Nat :=
  match s.idxOf? '.' with
  | some i => s.length - i - 1
  | none => 0

/-- Pads the fraction of a plain text with `n` zeros, adding a point if needed. -/
def padFraction (s : List Char) (n : Nat) : List Char :=
  (if s.contains '.' then s else s ++ ['.']) ++ List.replicate n '0'

/-- The longest common prefix of two character lists. -/
def commonPrefixOf : List Char → List Char → List Char
  | a :: as, b :: bs => if a = b then a :: commonPrefixOf as bs else []
  | _, _ => []

/-- The common leading text of the padded plain forms of `a` and `b`, or the
empty text when their points stand at different places. -/
def commonPrefix (a b : SimTime) : String :=
  let sa := a.toPlain.toList
  let sb := b.toPlain.toList
  let fa := fractionLength sa
  let fb := fractionLength sb
  let sa := if fa < fb then padFraction sa (fb - fa) else sa
  let sb := if fb < fa then padFraction sb (fa - fb) else sb
  if sa.idxOf? '.' ≠ sb.idxOf? '.' then ""
  else String.ofList (commonPrefixOf sa sb)

end SimTime

end EventChart
