/-!
# Simulation times

A simulation time is an exact decimal `coeff * 10 ^ exp`.  The exponent is
part of the value: `1.000` (coefficient `1000`, exponent `-3`) and `1` denote
the same number but are written differently, so structural equality is
"same number and same scale" and `SimTime.cmp` is the numeric order.

Arithmetic follows the usual decimal rules:

* a sum or difference is computed at the smaller of the two exponents;
* a product adds the exponents;
* the absolute value and the negation keep the exponent.

The digit measures used by the rounding functions live here too: the number
of digits of the coefficient (`digits`), the number of significant digits
once trailing zeros are removed (`precision`), and the last digit.
-/

namespace EventChart

/-- The number of decimal digits of `n`; zero has one digit. -/
def digitCount (n : Nat) : Nat :=
  if n < 10 then 1 else digitCount (n / 10) + 1
termination_by n
decreasing_by omega

theorem digitCount_pos (n : Nat) : 0 < digitCount n := by
  unfold digitCount
  split <;> omega

/-- Removes trailing decimal zeros from a natural number; zero stays zero. -/
def stripZeros (n : Nat) : Nat × Nat :=
  if n = 0 then (0, 0)
  else if n % 10 = 0 then
    let r := stripZeros (n / 10)
    (r.1, r.2 + 1)
  else (n, 0)
termination_by n
decreasing_by omega

/-- An exact decimal simulation time, `coeff * 10 ^ exp`. -/
structure SimTime where
  coeff : Int
  exp : Int
deriving DecidableEq, Inhabited, Repr

namespace SimTime

/-- Zero seconds at scale `10 ^ 0`. -/
def zero : SimTime := ⟨0, 0⟩

/-- The time `n` seconds. -/
def ofInt (n : Int) : SimTime := ⟨n, 0⟩

/-- `10 ^ e` with coefficient one. -/
def pow10 (e : Int) : SimTime := ⟨1, e⟩

/-- The coefficient of `t` written at the smaller exponent `e ≤ t.exp`. -/
def coeffAt (t : SimTime) (e : Int) : Int :=
  t.coeff * Int.pow 10 (t.exp - e).toNat

/-- The numeric order of two times, whatever their scales. -/
def cmp (a b : SimTime) : Ordering :=
  let e := min a.exp b.exp
  compare (a.coeffAt e) (b.coeffAt e)

instance : LT SimTime := ⟨fun a b => a.cmp b = .lt⟩
instance : LE SimTime := ⟨fun a b => a.cmp b ≠ .gt⟩

instance (a b : SimTime) : Decidable (a < b) :=
  inferInstanceAs (Decidable (a.cmp b = .lt))

instance (a b : SimTime) : Decidable (a ≤ b) :=
  inferInstanceAs (Decidable (a.cmp b ≠ .gt))

/-- Numeric equality: same number, any scale. -/
def sameValue (a b : SimTime) : Bool := a.cmp b == .eq

/-- The sum, at the smaller exponent. -/
def add (a b : SimTime) : SimTime :=
  let e := min a.exp b.exp
  ⟨a.coeffAt e + b.coeffAt e, e⟩

/-- The negation keeps the scale. -/
def neg (a : SimTime) : SimTime := ⟨-a.coeff, a.exp⟩

/-- The difference, at the smaller exponent. -/
def sub (a b : SimTime) : SimTime :=
  let e := min a.exp b.exp
  ⟨a.coeffAt e - b.coeffAt e, e⟩

/-- The product: coefficients multiply and exponents add. -/
def mul (a b : SimTime) : SimTime := ⟨a.coeff * b.coeff, a.exp + b.exp⟩

/-- The absolute value keeps the scale. -/
def abs (a : SimTime) : SimTime := ⟨a.coeff.natAbs, a.exp⟩

instance : Add SimTime := ⟨add⟩
instance : Sub SimTime := ⟨sub⟩
instance : Neg SimTime := ⟨neg⟩
instance : Mul SimTime := ⟨mul⟩

/-- The smaller of two times; on equal values the first one. -/
def min (a b : SimTime) : SimTime := if b < a then b else a

/-- The larger of two times; on equal values the first one. -/
def max (a b : SimTime) : SimTime := if a < b then b else a

/-- `-1`, `0` or `1` by the sign of the value. -/
def sign (a : SimTime) : Int := if a.coeff < 0 then -1 else if a.coeff = 0 then 0 else 1

/-- Whether the value is zero. -/
def isZero (a : SimTime) : Bool := a.coeff == 0

/-- The number of digits of the coefficient, trailing zeros included; zero has one. -/
def digits (a : SimTime) : Nat := digitCount a.coeff.natAbs

/-- The coefficient and exponent with trailing zeros of the coefficient removed.
Zero becomes `0 * 10 ^ 0`. -/
def stripped (a : SimTime) : SimTime :=
  let r := stripZeros a.coeff.natAbs
  if a.coeff = 0 then ⟨0, 0⟩
  else ⟨if a.coeff < 0 then -(r.1 : Int) else r.1, a.exp + r.2⟩

/-- The number of significant digits: `1.2000` and `0.0012` both have two.
Zero has one. -/
def precision (a : SimTime) : Nat := digitCount (stripZeros a.coeff.natAbs).1

/-- The least significant digit of the coefficient. -/
def lastDigit (a : SimTime) : Nat := a.coeff.natAbs % 10

/-- The last digit once trailing zeros are removed. -/
def strippedLastDigit (a : SimTime) : Nat := (stripZeros a.coeff.natAbs).1 % 10

/-- The same number written at exponent `e`; digits below `10 ^ e` are cut off
towards zero. -/
def rescale (a : SimTime) (e : Int) : SimTime :=
  if e ≤ a.exp then ⟨a.coeffAt e, e⟩
  else ⟨a.coeff.tdiv (Int.pow 10 (e - a.exp).toNat), e⟩

end SimTime

end EventChart
