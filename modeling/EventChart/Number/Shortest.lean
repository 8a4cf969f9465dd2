import EventChart.Time.Basic
/-!
# Shortest decimal form of a binary64 value

A finite, non-zero double `x = mant * 2 ^ exp2` is the only double in an
interval of reals around it: half-way to the next double on each side, with
the ends included when `mant` is even.  Its shortest decimal form is the
decimal with the fewest significant digits inside that interval; when two
such decimals exist, the one nearer to `x` is taken, and an exact tie goes to
the even last digit.

The search tries 1, 2, … 17 significant digits.  At `n` digits the grid is
`10 ^ k` with `k = E + 1 - n`, where `10 ^ E ≤ x < 10 ^ (E + 1)`; if a point
of the grid lies in the interval then so does one of the two grid points
next to `x`, so only those two are tested.  All comparisons are exact
natural-number arithmetic.
-/

namespace EventChart.Number

/-- The magnitude of a finite, non-zero double as `mant * 2 ^ exp2`, with
whether the gap to the next smaller double is half the gap above (the case of
a power of two above the subnormal range). -/
structure Binary where
  mant : Nat
  exp2 : Int
  narrowBelow : Bool
deriving Repr

/-- The class of a double: not a number, an infinity, a zero, or a finite
non-zero magnitude; the sign is apart. -/
inductive FloatClass where
  | nan
  | inf
  | zero
  | finite (b : Binary)

/-- Reads the sign and class of a double from its bits. -/
def classify (f : Float) : Bool × FloatClass :=
  let bits : Nat := f.toBits.toNat
  let neg := bits / Nat.pow 2 63 % 2 == 1
  let e : Nat := bits / Nat.pow 2 52 % 2048
  let frac : Nat := bits % Nat.pow 2 52
  let cls :=
    if e = 2047 then (if frac = 0 then FloatClass.inf else FloatClass.nan)
    else if e = 0 then
      (if frac = 0 then FloatClass.zero else .finite ⟨frac, -1074, false⟩)
    else .finite ⟨frac + Nat.pow 2 52, (e : Int) - 1075, frac = 0 && e > 1⟩
  (neg, cls)

/-- Compares `a * 10 ^ p * 2 ^ q` with `b * 10 ^ r * 2 ^ s` exactly. -/
def compareScaled (a : Nat) (p q : Int) (b : Nat) (r s : Int) : Ordering :=
  let p0 := min p r
  let q0 := min q s
  compare (a * Nat.pow 10 (p - p0).toNat * Nat.pow 2 (q - q0).toNat)
    (b * Nat.pow 10 (r - p0).toNat * Nat.pow 2 (s - q0).toNat)

/-- `⌊mant * 2 ^ exp2 / 10 ^ k⌋`. -/
def floorAtGrid (x : Binary) (k : Int) : Nat :=
  (x.mant * Nat.pow 2 x.exp2.toNat * Nat.pow 10 (-k).toNat) / (Nat.pow 2 (-x.exp2).toNat * Nat.pow 10 k.toNat)

/-- The decimal exponent `E` with `10 ^ E ≤ x < 10 ^ (E + 1)`, from an estimate
by `log10 2` corrected by exact comparisons. -/
def decimalExponent (x : Binary) : Int :=
  let est : Int := ((Nat.log2 x.mant : Int) + x.exp2) * 30103 / 100000
  let above (e : Int) := compareScaled 1 e 0 x.mant 0 x.exp2 != .gt
  -- `above e` says `10 ^ e ≤ x`
  if !above est then est - 1
  else if above (est + 1) then est + 1
  else est

/-- Whether `c * 10 ^ k` lies in the rounding interval of `x`. -/
def inInterval (x : Binary) (c : Nat) (k : Int) : Bool :=
  let lo := 4 * x.mant - (if x.narrowBelow then 1 else 2)
  let hi := 4 * x.mant + 2
  let inclusive := x.mant % 2 == 0
  let vsLo := compareScaled c k 0 lo 0 (x.exp2 - 2)
  let vsHi := compareScaled c k 0 hi 0 (x.exp2 - 2)
  (vsLo == .gt || (inclusive && vsLo == .eq)) && (vsHi == .lt || (inclusive && vsHi == .eq))

/-- The shortest decimal at `n` significant digits, if one lies in the
interval: the coefficient on the grid `10 ^ k`. -/
def candidateAt (x : Binary) (e : Int) (n : Nat) : Option (Nat × Int) :=
  let k := e + 1 - n
  let lo := floorAtGrid x k
  let okLo := inInterval x lo k
  let okHi := inInterval x (lo + 1) k
  if okLo && okHi then
    -- the nearer of the two; a tie goes to the even one
    match compareScaled (2 * lo + 1) k 0 (2 * x.mant) 0 x.exp2 with
    | .lt => some (lo + 1, k)
    | .gt => some (lo, k)
    | .eq => if lo % 2 == 0 then some (lo, k) else some (lo + 1, k)
  else if okLo then some (lo, k)
  else if okHi then some (lo + 1, k)
  else none

/-- The shortest decimal digits of `x`: a coefficient without trailing zeros
and its decimal exponent. -/
def shortest (x : Binary) : Nat × Int :=
  let e := decimalExponent x
  let found := ((List.range 17).map (· + 1)).findSome? (candidateAt x e)
  let (c, k) := found.getD (floorAtGrid x (e - 16), e - 16)
  let r := stripZeros c
  (r.1, k + r.2)

end EventChart.Number
