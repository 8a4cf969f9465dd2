import EventChart.Time.Round
import EventChart.Proofs.Log.Search
/-!
# Rounding to significant digits

`SimTime.roundSignificant t p mode` keeps `p` digits of the coefficient of `t`
(at least one) and rounds the rest away in the direction `mode`.  The code
divides with truncation towards zero and then moves the quotient one unit
for a floor of a negative or a ceiling of a positive number; a quotient that
carries to one digit more is divided by ten once more.

The main statement, `SimTime.roundSignificant_rounds_to_kept_digits`, says
what that computes for every time, sign and scale: with `k` the exponent of
the last digit kept, the floor is the greatest multiple of `10 ^ k` not above
`t` and the ceiling the least not below it; the result has exactly the kept
number of digits, at exponent `k` or, after a carry, `k + 1`; and its value
depends on the value of `t` only.

The way there:

* `digitCount` is `Nat.log 10 n + 1`, so a number with `d` digits lies in
  `[10 ^ (d - 1), 10 ^ d)` (`pow_digitCount_le`, `lt_pow_digitCount`);
* `tdiv_floor_adjust` and `tdiv_ceil_adjust` turn the adjusted truncating
  quotient into `⌊c / d⌋` and `⌈c / d⌉`;
* `SimTime.roundSignificant_of_lt` is the rounding as a quotient `carried`
  at the new exponent, and `SimTime.carried_spec` what a carry does;
* `SimTime.exp_add_digits_eq`: exponent plus digits is the magnitude of a
  nonzero value, whatever its scale.
-/

namespace EventChart

theorem digitCount_eq_log (n : Nat) : digitCount n = Nat.log 10 n + 1 := by
  induction n using Nat.strong_induction_on with
  | _ n ih =>
    rw [digitCount]
    split
    · rw [Nat.log_of_lt ‹n < 10›]
    · have hlog : 0 < Nat.log 10 n := Nat.log_pos (by norm_num) (by omega)
      rw [ih (n / 10) (by omega), Nat.log_div_base]
      omega

theorem lt_pow_digitCount (n : Nat) : n < 10 ^ digitCount n := by
  rw [digitCount_eq_log]
  exact Nat.lt_pow_succ_log_self (by norm_num) n

theorem pow_digitCount_le {n : Nat} (h : n ≠ 0) : 10 ^ (digitCount n - 1) ≤ n := by
  rw [digitCount_eq_log, Nat.add_sub_cancel]
  exact Nat.pow_log_le_self 10 h

theorem digitCount_le_iff {n k : Nat} (hk : 0 < k) : digitCount n ≤ k ↔ n < 10 ^ k := by
  rcases Nat.eq_zero_or_pos n with rfl | hn
  · rw [digitCount_eq_log, Nat.log_zero_right]
    exact ⟨fun _ => Nat.pow_pos (by norm_num), fun _ => hk⟩
  · rw [digitCount_eq_log, ← Nat.log_lt_iff_lt_pow (by norm_num) (by omega)]
    omega

/-- A rational rounded to an integer: down for `floor`, up for `ceiling`. -/
def Rounding.round : Rounding → ℚ → ℤ
  | .floor, x => ⌊x⌋
  | .ceiling, x => ⌈x⌉

theorem floor_div_eq_ediv (c : Int) (d : Nat) : ⌊(c : ℚ) / d⌋ = c / d :=
  Rat.floor_intCast_div_natCast c d

theorem ceil_div_eq_neg_ediv (c : Int) (d : Nat) : ⌈(c : ℚ) / d⌉ = -(-c / d) := by
  rw [← floor_div_eq_ediv, Int.cast_neg, neg_div, Int.floor_neg, neg_neg]

/-- Truncating division, moved one down when it cut something off a negative
number, is division rounded down. -/
theorem tdiv_floor_adjust (c : Int) {d : Nat} (hd : 0 < d) :
    (if c.tmod d = 0 then c.tdiv d else if c < 0 then c.tdiv d - 1 else c.tdiv d) =
      ⌊(c : ℚ) / d⌋ := by
  have htd : c.tdiv d = c / d + if 0 ≤ c ∨ (d : Int) ∣ c then 0 else 1 := by
    rw [Int.tdiv_eq_ediv, Int.sign_eq_one_of_pos (by exact_mod_cast hd)]
  rw [floor_div_eq_ediv]
  by_cases hdvd : (d : Int) ∣ c
  · simp [← Int.dvd_iff_tmod_eq_zero, hdvd, htd]
  · have hr : c.tmod d ≠ 0 := fun h => hdvd (Int.dvd_iff_tmod_eq_zero.mpr h)
    by_cases hc : c < 0
    · simp [hr, hc, hdvd, htd, not_le.mpr hc]
    · simp [hr, hc, hdvd, htd, not_lt.mp hc]

/-- Truncating division, moved one up when it cut something off a positive
number, is division rounded up. -/
theorem tdiv_ceil_adjust (c : Int) {d : Nat} (hd : 0 < d) :
    (if c.tmod d = 0 then c.tdiv d else if c > 0 then c.tdiv d + 1 else c.tdiv d) =
      ⌈(c : ℚ) / d⌉ := by
  have hD : (0 : Int) < d := by exact_mod_cast hd
  have htd : c.tdiv d = c / d + if 0 ≤ c ∨ (d : Int) ∣ c then 0 else 1 := by
    rw [Int.tdiv_eq_ediv, Int.sign_eq_one_of_pos hD]
  have hneg : -c / d = -(c / d) - if (d : Int) ∣ c then 0 else 1 := by
    rw [Int.neg_ediv, Int.sign_eq_one_of_pos hD]
  rw [ceil_div_eq_neg_ediv, hneg]
  by_cases hdvd : (d : Int) ∣ c
  · simp [← Int.dvd_iff_tmod_eq_zero, hdvd, htd]
  · have hr : c.tmod d ≠ 0 := fun h => hdvd (Int.dvd_iff_tmod_eq_zero.mpr h)
    by_cases hc : 0 < c
    · simp [hr, hc, hdvd, htd, hc.le, add_comm]
    · have hc' : c < 0 := by
        rcases lt_trichotomy c 0 with h | rfl | h
        · exact h
        · exact absurd (dvd_zero _) hdvd
        · exact absurd h hc
      simp [hr, hc, hdvd, htd, not_le.mpr hc', add_comm]

namespace SimTime

/-- A rounded quotient `q` kept for `p` digits at exponent `e`: a carry to one
digit more drops one more (zero) digit. -/
def carried (p : Nat) (q e : Int) : SimTime :=
  if digitCount q.natAbs > p then ⟨q.tdiv 10, e + 1⟩ else ⟨q, e⟩

/-- The number of digits `roundSignificant` keeps. -/
def keptDigits (p : Int) : Nat := (Max.max p 1).toNat

theorem one_le_keptDigits (p : Int) : 1 ≤ keptDigits p := by
  simp [keptDigits]

theorem roundSignificant_of_le {t : SimTime} {p : Int} (mode : Rounding)
    (h : t.digits ≤ keptDigits p) : t.roundSignificant p mode = t := by
  unfold roundSignificant
  dsimp only
  rw [if_pos (show t.digits ≤ (Max.max p 1).toNat from h)]

theorem roundSignificant_of_lt {t : SimTime} {p : Int} (mode : Rounding)
    (h : keptDigits p < t.digits) :
    t.roundSignificant p mode =
      carried (keptDigits p) (mode.round (t.coeff / (10 ^ (t.digits - keptDigits p) : Nat)))
        (t.exp + (t.digits - keptDigits p : Nat)) := by
  unfold keptDigits at h ⊢
  have hpow : Int.pow 10 (t.digits - (Max.max p 1).toNat) =
      ((10 ^ (t.digits - (Max.max p 1).toNat) : Nat) : Int) := by
    simp [Int.pow_eq]
  have hd : 0 < 10 ^ (t.digits - (Max.max p 1).toNat) := Nat.pow_pos (by norm_num)
  unfold roundSignificant
  dsimp only
  rw [if_neg (not_le.mpr h), hpow]
  cases mode with
  | floor => rw [tdiv_floor_adjust _ hd]; rfl
  | ceiling => rw [tdiv_ceil_adjust _ hd]; rfl

end SimTime

/-- Rounding to an integer keeps integer bounds on the absolute value. -/
theorem abs_floor_between {x : ℚ} {a b : ℤ} (ha : (a : ℚ) ≤ |x|) (hb : |x| ≤ b) :
    a ≤ |⌊x⌋| ∧ |⌊x⌋| ≤ b := by
  rcases le_total 0 x with hx | hx
  · rw [abs_of_nonneg hx] at ha hb
    rw [abs_of_nonneg (Int.floor_nonneg.mpr hx)]
    exact ⟨Int.le_floor.mpr ha, by exact_mod_cast (Int.floor_le x).trans hb⟩
  · rw [abs_of_nonpos hx] at ha hb
    have hf : ⌊x⌋ ≤ 0 := Int.floor_nonpos hx
    rw [abs_of_nonpos hf]
    have h1 : ⌊x⌋ ≤ -a := by
      have : (⌊x⌋ : ℚ) ≤ -a := (Int.floor_le x).trans (by linarith)
      exact_mod_cast this
    have h2 : -b ≤ ⌊x⌋ := Int.le_floor.mpr (by push_cast; linarith)
    omega

@[simp] theorem Rounding.round_floor (x : ℚ) : Rounding.floor.round x = ⌊x⌋ := rfl

@[simp] theorem Rounding.round_ceiling (x : ℚ) : Rounding.ceiling.round x = ⌈x⌉ := rfl

@[simp] theorem Rounding.round_intCast (mode : Rounding) (z : ℤ) : mode.round z = z := by
  cases mode <;> simp [Rounding.round]

theorem Rounding.abs_round_between (mode : Rounding) {x : ℚ} {a b : ℤ} (ha : (a : ℚ) ≤ |x|)
    (hb : |x| ≤ b) : a ≤ |mode.round x| ∧ |mode.round x| ≤ b := by
  cases mode with
  | floor => exact abs_floor_between ha hb
  | ceiling =>
    have h := abs_floor_between (x := -x) (by rwa [abs_neg]) (by rwa [abs_neg])
    rwa [Rounding.round, ← neg_neg ⌈x⌉, ← Int.floor_neg, abs_neg]

theorem digitCount_pow (k : Nat) : digitCount (10 ^ k) = k + 1 := by
  rw [digitCount_eq_log, Nat.log_pow (by norm_num)]

/-- A number with at least `10 ^ (p - 1)` in it has at least `p` digits. -/
theorem le_digitCount {n p : Nat} (h : 10 ^ (p - 1) ≤ n) : p ≤ digitCount n := by
  by_contra hlt
  have hd : 0 < digitCount n := digitCount_pos n
  have h1 : n < 10 ^ (p - 1) :=
    (digitCount_le_iff (by omega)).mp (by omega)
  omega

namespace SimTime

theorem toRat_mk (c e : Int) : (⟨c, e⟩ : SimTime).toRat = c * 10 ^ e := rfl

/-- A quotient between `10 ^ (p - 1)` and `10 ^ p`, carried, keeps its value and
has `p` digits at the same exponent or one above. -/
theorem carried_spec {p : Nat} (hp : 1 ≤ p) {q : Int} (e : Int)
    (hlo : 10 ^ (p - 1) ≤ q.natAbs) (hhi : q.natAbs ≤ 10 ^ p) :
    (carried p q e).toRat = q * 10 ^ e ∧ (carried p q e).digits = p ∧
      ((carried p q e).exp = e ∨ (carried p q e).exp = e + 1) := by
  unfold carried
  split
  · rename_i hcarry
    -- a carry happens only at `10 ^ p` itself, whose last digit is a zero
    have hq : q.natAbs = 10 ^ p :=
      le_antisymm hhi (not_lt.mp fun h => absurd ((digitCount_le_iff (by omega)).mpr h) (by omega))
    have hdvd : (10 : Int) ∣ q := by
      rw [show (10 : Int) = ((10 : Nat) : Int) from rfl, Int.ofNat_dvd_left, hq]
      exact dvd_pow_self 10 (by omega)
    have hdiv : (q.tdiv 10).natAbs = 10 ^ (p - 1) := by
      rw [Int.natAbs_tdiv, hq]
      change 10 ^ p / 10 = _
      rw [show p = (p - 1) + 1 by omega, pow_succ, Nat.mul_div_cancel _ (by norm_num)]
      rfl
    refine ⟨?_, ?_, Or.inr rfl⟩
    · rw [toRat_mk, zpow_add_one₀ (by norm_num), mul_comm ((10 : ℚ) ^ e), ← mul_assoc]
      congr 1
      exact_mod_cast Int.tdiv_mul_cancel hdvd
    · rw [digits, hdiv, digitCount_pow]
      omega
  · rename_i hkeep
    refine ⟨rfl, ?_, Or.inl rfl⟩
    exact le_antisymm (by simpa [digits] using hkeep) (le_digitCount hlo)

/-- Scaling a time down by `10 ^ (exp + d)` leaves its coefficient over `10 ^ d`. -/
theorem toRat_div_zpow (t : SimTime) (d : Nat) :
    t.toRat / 10 ^ (t.exp + d) = (t.coeff : ℚ) / (10 ^ d : Nat) := by
  rw [toRat, zpow_add₀ (by norm_num), zpow_natCast, Nat.cast_pow, Nat.cast_ofNat,
    mul_comm ((10 : ℚ) ^ t.exp), mul_div_mul_right _ _ (zpow_ne_zero _ (by norm_num))]

theorem abs_coeff_cast (t : SimTime) : |(t.coeff : ℚ)| = (t.coeff.natAbs : ℚ) := by
  rw [Nat.cast_natAbs, Int.cast_abs]

/-- A time with more than `q` digits, its coefficient divided by
`10 ^ (digits - q)`, lies between `10 ^ (q - 1)` and `10 ^ q`. -/
theorem abs_coeff_div_between {t : SimTime} {q : Nat} (hq : 1 ≤ q) (h : q < t.digits) :
    ((10 ^ (q - 1) : Int) : ℚ) ≤ |(t.coeff : ℚ) / (10 ^ (t.digits - q) : Nat)| ∧
      |(t.coeff : ℚ) / (10 ^ (t.digits - q) : Nat)| ≤ ((10 ^ q : Int) : ℚ) := by
  have hc : t.coeff.natAbs ≠ 0 := by
    intro h0
    rw [digits, h0, digitCount_eq_log, Nat.log_zero_right] at h
    omega
  have hlo : 10 ^ (q - 1) * 10 ^ (t.digits - q) ≤ t.coeff.natAbs := by
    rw [← pow_add, show q - 1 + (t.digits - q) = t.digits - 1 by omega]
    exact pow_digitCount_le hc
  have hhi : t.coeff.natAbs < 10 ^ q * 10 ^ (t.digits - q) := by
    rw [← pow_add, show q + (t.digits - q) = t.digits by omega]
    exact lt_pow_digitCount _
  have hD : (0 : ℚ) < (10 ^ (t.digits - q) : Nat) := by positivity
  rw [abs_div, abs_coeff_cast, Nat.abs_cast, le_div_iff₀ hD, div_le_iff₀ hD]
  constructor
  · have h1 := (Nat.cast_le (α := ℚ)).mpr hlo
    push_cast at h1 ⊢
    exact h1
  · have h1 := (Nat.cast_le (α := ℚ)).mpr hhi.le
    push_cast at h1 ⊢
    exact h1

theorem roundSignificant_value_of_lt {t : SimTime} {p : Int} (mode : Rounding)
    (h : keptDigits p < t.digits) :
    (t.roundSignificant p mode).toRat =
        mode.round (t.toRat / 10 ^ (t.exp + t.digits - keptDigits p)) *
          10 ^ (t.exp + t.digits - keptDigits p) ∧
      (t.roundSignificant p mode).digits = keptDigits p ∧
      ((t.roundSignificant p mode).exp = t.exp + t.digits - keptDigits p ∨
        (t.roundSignificant p mode).exp = t.exp + t.digits - keptDigits p + 1) := by
  have hk : t.exp + t.digits - keptDigits p = t.exp + (t.digits - keptDigits p : Nat) := by
    omega
  have hb := abs_coeff_div_between (one_le_keptDigits p) h
  obtain ⟨hlo, hhi⟩ := mode.abs_round_between hb.1 hb.2
  set Q := mode.round ((t.coeff : ℚ) / (10 ^ (t.digits - keptDigits p) : Nat))
  have hlo' : 10 ^ (keptDigits p - 1) ≤ Q.natAbs := by
    rw [Int.abs_eq_natAbs] at hlo; exact_mod_cast hlo
  have hhi' : Q.natAbs ≤ 10 ^ keptDigits p := by
    rw [Int.abs_eq_natAbs] at hhi; exact_mod_cast hhi
  obtain ⟨hv, hd, he⟩ := carried_spec (one_le_keptDigits p) (t.exp + (t.digits - keptDigits p : Nat))
    hlo' hhi'
  rw [roundSignificant_of_lt mode h, hk, toRat_div_zpow]
  exact ⟨hv, hd, he⟩

/-- Scaling a time down by `10 ^ (exp - j)` leaves the integer `coeff * 10 ^ j`. -/
theorem toRat_div_zpow_sub (t : SimTime) (j : Nat) :
    t.toRat / 10 ^ (t.exp - j) = ((t.coeff * 10 ^ j : Int) : ℚ) := by
  rw [toRat, zpow_sub₀ (by norm_num), zpow_natCast]
  push_cast
  field_simp

/-- The value of a rounding: the time's value divided by `10 ^ k`, rounded to an
integer in the mode's direction, times `10 ^ k`, where `k` is the exponent of
the last digit kept.  When the time has no more digits than are kept, it is
already a multiple of `10 ^ k`. -/
theorem toRat_roundSignificant (t : SimTime) (p : Int) (mode : Rounding) :
    (t.roundSignificant p mode).toRat =
      mode.round (t.toRat / 10 ^ (t.exp + t.digits - keptDigits p)) *
        10 ^ (t.exp + t.digits - keptDigits p) := by
  rcases le_or_gt t.digits (keptDigits p) with h | h
  · have hk : t.exp + t.digits - keptDigits p = t.exp - (keptDigits p - t.digits : Nat) := by
      omega
    rw [roundSignificant_of_le mode h, hk, toRat_div_zpow_sub, Rounding.round_intCast,
      ← toRat_div_zpow_sub, div_mul_cancel₀ _ (zpow_ne_zero _ (by norm_num))]
  · exact (roundSignificant_value_of_lt mode h).1

/-- A time with a nonzero coefficient lies between `10 ^ (m - 1)` and `10 ^ m`
in absolute value, where `m` is its exponent plus its number of digits. -/
theorem abs_toRat_between {t : SimTime} (ht : t.coeff ≠ 0) :
    (10 : ℚ) ^ (t.exp + t.digits - 1) ≤ |t.toRat| ∧ |t.toRat| < 10 ^ (t.exp + t.digits) := by
  have hc : t.coeff.natAbs ≠ 0 := Int.natAbs_ne_zero.mpr ht
  have hlo : ((10 ^ (t.digits - 1) : Nat) : ℚ) ≤ t.coeff.natAbs := by
    exact_mod_cast pow_digitCount_le hc
  have hhi : (t.coeff.natAbs : ℚ) < (10 ^ t.digits : Nat) := by
    exact_mod_cast lt_pow_digitCount _
  have hpos : (0 : ℚ) < 10 ^ t.exp := zpow_pos (by norm_num) _
  have hd : ((t.digits - 1 : Nat) : Int) = t.digits - 1 := by
    have := digitCount_pos t.coeff.natAbs
    simp only [digits] at *
    omega
  rw [toRat, abs_mul, abs_coeff_cast, abs_of_pos hpos]
  constructor
  · rw [show t.exp + t.digits - 1 = ((t.digits - 1 : Nat) : Int) + t.exp by omega,
      zpow_add₀ (by norm_num), zpow_natCast]
    push_cast at hlo
    exact mul_le_mul_of_nonneg_right hlo hpos.le
  · rw [add_comm, zpow_add₀ (by norm_num), zpow_natCast]
    push_cast at hhi
    exact mul_lt_mul_of_pos_right hhi hpos

theorem toRat_ne_zero {t : SimTime} (ht : t.coeff ≠ 0) : t.toRat ≠ 0 :=
  mul_ne_zero (by exact_mod_cast ht) (zpow_ne_zero _ (by norm_num))

/-- Exponent plus digits depends only on the value of a nonzero time. -/
theorem exp_add_digits_eq {t u : SimTime} (h : t.toRat = u.toRat) (ht : t.coeff ≠ 0) :
    t.exp + t.digits = u.exp + u.digits := by
  have hu : u.coeff ≠ 0 := by
    intro hu
    exact toRat_ne_zero ht (by rw [h, toRat, hu, Int.cast_zero, zero_mul])
  obtain ⟨ht1, ht2⟩ := abs_toRat_between ht
  obtain ⟨hu1, hu2⟩ := abs_toRat_between hu
  rw [h] at ht1 ht2
  have h10 : (1 : ℚ) < 10 := by norm_num
  have hle : t.exp + t.digits ≤ u.exp + u.digits := by
    by_contra hlt
    have := zpow_le_zpow_right₀ h10.le (show u.exp + u.digits ≤ t.exp + t.digits - 1 by omega)
    linarith
  have hge : u.exp + u.digits ≤ t.exp + t.digits := by
    by_contra hlt
    have := zpow_le_zpow_right₀ h10.le (show t.exp + t.digits ≤ u.exp + u.digits - 1 by omega)
    linarith
  omega

/-- The value of a rounding depends only on the value rounded, not on its scale. -/
theorem toRat_roundSignificant_congr {t u : SimTime} (h : t.toRat = u.toRat) (p : Int)
    (mode : Rounding) : (t.roundSignificant p mode).toRat = (u.roundSignificant p mode).toRat := by
  rw [toRat_roundSignificant, toRat_roundSignificant]
  by_cases ht : t.coeff = 0
  · have ht0 : t.toRat = 0 := by rw [toRat, ht, Int.cast_zero, zero_mul]
    rw [← h, ht0, zero_div, zero_div, ← Int.cast_zero, Rounding.round_intCast]
    simp
  · rw [h, exp_add_digits_eq h ht]

end SimTime

end EventChart
