import EventChart.Proofs.Time.Significant
/-!
# The shortest decimal in a range

`SimTime.shortestWithin t tMin tMax` looks for a value with few significant
digits in `[tMin, tMax]`, widened to contain `t`.  It estimates a starting
precision from the digit counts of the two ends and of the width, rounds `t`
down and up to lower and lower precisions while the result stays in the
range, moves the last digit of each result to a five or an even digit when
that stays in the range, and keeps the candidate with fewer digits.

The main statement, `SimTime.shortestWithin_fewest_digits`, says that the
result lies in the widened range and that no value of the range has fewer
significant digits.  It rests on four facts:

* `SigDigits p x` says that `x` is an integer below `10 ^ p` times a power of
  ten, and `SimTime.precision_le_iff` that the precision of a time is the
  least such `p` for its value;
* `SimTime.roundSignificant_extremal`: rounding to `p` digits gives the value
  with at most `p` significant digits nearest to the time on the rounding's
  side (`Rounding.Beyond`), so lowering the precision only moves it further;
* `exists_sigDigits_between`: the starting precision is never too low, some
  value of every range has that few digits (a range with no such value would
  sit between two neighbours of one power of ten, and its width would then
  need fewer digits than the estimate allows);
* `SimTime.precision_nudge_lowest_le`: the lowering stops only where one
  digit fewer leaves the range, so the value it stops at has no trailing
  zero, and the nudge of its last digit adds no digit.
-/

namespace EventChart

/-! ## Significant digits -/

theorem stripZeros_spec (n : Nat) : (stripZeros n).1 * 10 ^ (stripZeros n).2 = n := by
  induction n using Nat.strong_induction_on with
  | _ n ih =>
    rw [stripZeros]
    split
    · simp [*]
    · split
      · have := ih (n / 10) (by omega)
        simp only [pow_succ, ← mul_assoc, this]
        omega
      · simp

theorem stripZeros_not_dvd {n : Nat} (h : n ≠ 0) : ¬ 10 ∣ (stripZeros n).1 := by
  induction n using Nat.strong_induction_on with
  | _ n ih =>
    rw [stripZeros]
    split
    · contradiction
    · split
      · exact ih (n / 10) (by omega) (by omega)
      · simpa [Nat.dvd_iff_mod_eq_zero]

/-- `x` is written with at most `p` significant digits: an integer below
`10 ^ p` in absolute value times a power of ten. -/
def SigDigits (p : Nat) (x : ℚ) : Prop := ∃ m k : Int, m.natAbs < 10 ^ p ∧ x = m * 10 ^ k

theorem SigDigits.mono {p q : Nat} {x : ℚ} (hpq : p ≤ q) (h : SigDigits p x) : SigDigits q x := by
  obtain ⟨m, k, hm, rfl⟩ := h
  exact ⟨m, k, lt_of_lt_of_le hm (Nat.pow_le_pow_right (by norm_num : 0 < 10) hpq), rfl⟩

theorem sigDigits_zero (p : Nat) : SigDigits p 0 := ⟨0, 0, by simp, by simp⟩

theorem SigDigits.neg {p : Nat} {x : ℚ} (h : SigDigits p x) : SigDigits p (-x) := by
  obtain ⟨m, k, hm, rfl⟩ := h
  exact ⟨-m, k, by simpa using hm, by push_cast; ring⟩

theorem digitCount_mono {a b : Nat} (h : a ≤ b) : digitCount a ≤ digitCount b :=
  (digitCount_le_iff (digitCount_pos b)).mpr (lt_of_le_of_lt h (lt_pow_digitCount b))

theorem stripZeros_fst_le (n : Nat) : (stripZeros n).1 ≤ n := by
  conv_rhs => rw [← stripZeros_spec n]
  exact Nat.le_mul_of_pos_right _ (Nat.pow_pos (by norm_num))

theorem stripZeros_of_not_dvd {n : Nat} (h : ¬ 10 ∣ n) : stripZeros n = (n, 0) := by
  rw [stripZeros]
  have h0 : n ≠ 0 := by rintro rfl; exact h (dvd_zero 10)
  simp [h0, show n % 10 ≠ 0 from fun h' => h (Nat.dvd_of_mod_eq_zero h')]

/-- Two ways of writing one value as a natural times a power of ten: the one
whose natural has no trailing zero has the smaller natural. -/
theorem le_of_mul_zpow_eq {a b : Nat} {j k : Int} (ha : ¬ 10 ∣ a)
    (h : (a : ℚ) * 10 ^ j = (b : ℚ) * 10 ^ k) : a ≤ b := by
  rcases le_or_gt k j with hkj | hjk
  · obtain ⟨d, rfl⟩ : ∃ d : Nat, j = k + d := ⟨(j - k).toNat, by omega⟩
    have h' : ((a * 10 ^ d : Nat) : ℚ) * 10 ^ k = (b : ℚ) * 10 ^ k := by
      rw [← h, zpow_add₀ (by norm_num), zpow_natCast]
      push_cast
      ring
    have hb : a * 10 ^ d = b := by exact_mod_cast mul_right_cancel₀ (zpow_ne_zero k (by norm_num)) h'
    rw [← hb]
    exact Nat.le_mul_of_pos_right _ (Nat.pow_pos (by norm_num))
  · obtain ⟨d, rfl⟩ : ∃ d : Nat, k = j + (d + 1) := ⟨(k - j - 1).toNat, by omega⟩
    have h' : (a : ℚ) * 10 ^ j = ((b * 10 ^ (d + 1) : Nat) : ℚ) * 10 ^ j := by
      rw [h, zpow_add₀ (by norm_num), show (d : Int) + 1 = ((d + 1 : Nat) : Int) by push_cast; ring,
        zpow_natCast]
      push_cast
      ring
    have hb : a = b * 10 ^ (d + 1) := by
      exact_mod_cast mul_right_cancel₀ (zpow_ne_zero j (by norm_num)) h'
    exact absurd (hb ▸ Dvd.dvd.mul_left (dvd_pow_self 10 (by omega)) b) ha

namespace SimTime

theorem precision_le_digits (v : SimTime) : v.precision ≤ v.digits :=
  digitCount_mono (stripZeros_fst_le _)

/-- The value of a time is its stripped coefficient, with its sign, times a
power of ten. -/
theorem toRat_stripped (v : SimTime) :
    ∃ k : Int, v.toRat = (v.coeff.sign * (stripZeros v.coeff.natAbs).1 : Int) * 10 ^ k := by
  set s := (stripZeros v.coeff.natAbs).1
  set z := (stripZeros v.coeff.natAbs).2
  have hs : s * 10 ^ z = v.coeff.natAbs := stripZeros_spec v.coeff.natAbs
  refine ⟨v.exp + z, ?_⟩
  have h1 : (v.coeff : ℚ) = (v.coeff.sign : ℚ) * (v.coeff.natAbs : ℚ) := by
    rw [← Int.cast_natCast, ← Int.cast_mul, Int.sign_mul_natAbs]
  rw [toRat, h1, ← hs, zpow_add₀ (by norm_num), zpow_natCast]
  push_cast
  ring

/-- The absolute value of a time is its stripped coefficient times a power of ten. -/
theorem abs_toRat_stripped (v : SimTime) :
    ∃ k : Int, |v.toRat| = ((stripZeros v.coeff.natAbs).1 : ℚ) * 10 ^ k := by
  refine ⟨v.exp + (stripZeros v.coeff.natAbs).2, ?_⟩
  have hc : (v.coeff.natAbs : ℚ) =
      ((stripZeros v.coeff.natAbs).1 : ℚ) * 10 ^ (stripZeros v.coeff.natAbs).2 := by
    exact_mod_cast (stripZeros_spec v.coeff.natAbs).symm
  rw [toRat, abs_mul, abs_coeff_cast, abs_of_pos (zpow_pos (by norm_num) _),
    zpow_add₀ (by norm_num), zpow_natCast, hc]
  ring

/-- The precision of a time is the fewest significant digits its value can be
written with. -/
theorem precision_le_iff {v : SimTime} {p : Nat} (hp : 1 ≤ p) :
    v.precision ≤ p ↔ SigDigits p v.toRat := by
  constructor
  · intro h
    obtain ⟨k, hk⟩ := toRat_stripped v
    refine ⟨_, k, ?_, hk⟩
    have hlt : (stripZeros v.coeff.natAbs).1 < 10 ^ p :=
      Nat.lt_of_lt_of_le (lt_pow_digitCount (stripZeros v.coeff.natAbs).1)
        (Nat.pow_le_pow_right (by norm_num : 0 < 10)
          (show digitCount (stripZeros v.coeff.natAbs).1 ≤ p from h))
    rw [Int.natAbs_mul, Int.natAbs_natCast]
    by_cases hc : v.coeff = 0
    · simp [hc]
    · rw [Int.natAbs_sign_of_ne_zero hc, one_mul]
      exact hlt
  · rintro ⟨m, k, hm, hv⟩
    by_cases hc : v.coeff = 0
    · simp [precision, hc, stripZeros, digitCount_eq_log, hp]
    · obtain ⟨j, hj⟩ := abs_toRat_stripped v
      have hs := stripZeros_not_dvd (Int.natAbs_ne_zero.mpr hc)
      have heq : ((stripZeros v.coeff.natAbs).1 : ℚ) * 10 ^ j = (m.natAbs : ℚ) * 10 ^ k := by
        rw [← hj, hv, abs_mul, abs_of_pos (zpow_pos (by norm_num : (0 : ℚ) < 10) k),
          Nat.cast_natAbs, Int.cast_abs]
      exact (digitCount_le_iff hp).mpr (lt_of_le_of_lt (le_of_mul_zpow_eq hs heq) hm)

theorem keptDigits_natCast {p : Nat} (hp : 1 ≤ p) : keptDigits p = p := by
  simp [keptDigits]; omega

/-- A rounding has at most the kept number of digits. -/
theorem digits_roundSignificant_le (t : SimTime) (p : Int) (mode : Rounding) :
    (t.roundSignificant p mode).digits ≤ keptDigits p := by
  rcases le_or_gt t.digits (keptDigits p) with h | h
  · rw [roundSignificant_of_le mode h]; exact h
  · exact (roundSignificant_value_of_lt mode h).2.1.le

theorem sigDigits_roundSignificant (t : SimTime) {p : Nat} (hp : 1 ≤ p) (mode : Rounding) :
    SigDigits p (t.roundSignificant p mode).toRat :=
  (precision_le_iff hp).mp ((precision_le_digits _).trans
    ((digits_roundSignificant_le t p mode).trans (keptDigits_natCast hp).le))

end SimTime

/-- A multiple of `10 ^ k` not above `x` is not above `⌊x / 10 ^ k⌋ * 10 ^ k`. -/
theorem le_floor_mul_of_le {x : ℚ} {m k : Int} (h : (m : ℚ) * 10 ^ k ≤ x) :
    (m : ℚ) * 10 ^ k ≤ ⌊x / 10 ^ k⌋ * 10 ^ k := by
  have hpos : (0 : ℚ) < 10 ^ k := zpow_pos (by norm_num) k
  have hm : m ≤ ⌊x / 10 ^ k⌋ := Int.le_floor.mpr (by rw [le_div_iff₀ hpos]; exact h)
  exact mul_le_mul_of_nonneg_right (by exact_mod_cast hm) hpos.le

theorem floor_mul_le (x : ℚ) (k : Int) : (⌊x / 10 ^ k⌋ : ℚ) * 10 ^ k ≤ x := by
  have hpos : (0 : ℚ) < 10 ^ k := zpow_pos (by norm_num) k
  calc (⌊x / 10 ^ k⌋ : ℚ) * 10 ^ k ≤ x / 10 ^ k * 10 ^ k :=
        mul_le_mul_of_nonneg_right (Int.floor_le _) hpos.le
    _ = x := div_mul_cancel₀ x hpos.ne'

/-- A value with at most `p` significant digits lies below `10 ^ (j + p)` when
written at exponent `j`. -/
theorem abs_lt_of_digits {m j : Int} {p : Nat} (hm : m.natAbs < 10 ^ p) :
    |(m : ℚ) * 10 ^ j| < 10 ^ (j + p) := by
  have hm' : ((m.natAbs : Nat) : ℚ) < ((10 ^ p : Nat) : ℚ) := by exact_mod_cast hm
  rw [abs_mul, abs_of_pos (zpow_pos (by norm_num : (0 : ℚ) < 10) j), ← Int.cast_abs, ← Nat.cast_natAbs,
    zpow_add₀ (by norm_num), zpow_natCast, mul_comm ((10 : ℚ) ^ j)]
  push_cast at hm'
  exact mul_lt_mul_of_pos_right hm' (zpow_pos (by norm_num) j)

namespace SimTime

/-! ## Rounding as the nearest value with few digits -/

/-- Rounding down to `p` significant digits gives the greatest value with at
most `p` significant digits that is not above the time. -/
theorem roundSignificant_floor_greatest (t : SimTime) {p : Nat} (hp : 1 ≤ p) {x : ℚ}
    (hx : SigDigits p x) (hxt : x ≤ t.toRat) : x ≤ (t.roundSignificant p .floor).toRat := by
  obtain ⟨m, j, hm, rfl⟩ := hx
  rw [toRat_roundSignificant, keptDigits_natCast hp]
  set k := t.exp + t.digits - p
  rcases le_or_gt k j with hkj | hjk
  · -- a multiple of the last kept digit's unit
    obtain ⟨d, hd⟩ : ∃ d : Nat, j = k + d := ⟨(j - k).toNat, by omega⟩
    have hx : ((m * 10 ^ d : Int) : ℚ) * 10 ^ k = m * 10 ^ j := by
      rw [hd, zpow_add₀ (by norm_num), zpow_natCast]; push_cast; ring
    rw [← hx] at hxt ⊢
    exact le_floor_mul_of_le hxt
  · -- a value too small to reach the time's leading digit
    have hsmall : |(m : ℚ) * 10 ^ j| < 10 ^ (t.exp + t.digits - 1) :=
      (abs_lt_of_digits hm).trans_le (zpow_le_zpow_right₀ (by norm_num) (by omega))
    by_cases hc : t.coeff = 0
    · have ht0 : t.toRat = 0 := by rw [toRat, hc, Int.cast_zero, zero_mul]
      rw [ht0] at hxt ⊢
      simpa using hxt
    · obtain ⟨hlo, -⟩ := abs_toRat_between hc
      rcases le_or_gt 0 t.toRat with hpos | hneg
      · have hB : ((10 ^ (p - 1) : Nat) : Int) * (10 : ℚ) ^ k = 10 ^ (t.exp + t.digits - 1) := by
          rw [Int.cast_natCast, Nat.cast_pow, Nat.cast_ofNat, ← zpow_natCast, ← zpow_add₀ (by norm_num)]
          congr 1
          omega
        have hBle := le_floor_mul_of_le (x := t.toRat) (m := ((10 ^ (p - 1) : Nat) : Int)) (k := k)
          (by rw [hB]; rwa [abs_of_nonneg hpos] at hlo)
        rw [hB] at hBle
        exact ((le_abs_self _).trans hsmall.le).trans hBle
      · rw [abs_of_neg hneg] at hlo
        have := neg_abs_le ((m : ℚ) * 10 ^ j)
        linarith

@[simp] theorem toRat_neg (t : SimTime) : t.neg.toRat = -t.toRat := by
  simp [neg, toRat, neg_mul]

@[simp] theorem digits_neg (t : SimTime) : t.neg.digits = t.digits := by
  simp [neg, digits]

@[simp] theorem exp_neg (t : SimTime) : t.neg.exp = t.exp := rfl

/-- Rounding up is rounding the negation down, negated. -/
theorem toRat_roundSignificant_ceiling (t : SimTime) (p : Int) :
    (t.roundSignificant p .ceiling).toRat = -(t.neg.roundSignificant p .floor).toRat := by
  rw [toRat_roundSignificant, toRat_roundSignificant, toRat_neg, digits_neg, exp_neg,
    Rounding.round_ceiling, Rounding.round_floor, neg_div, Int.floor_neg]
  push_cast
  ring

end SimTime

/-- `a` lies beyond `b` in the direction of a rounding: at or below it for the
floor, at or above it for the ceiling. -/
def Rounding.Beyond : Rounding → ℚ → ℚ → Prop
  | .floor, a, b => a ≤ b
  | .ceiling, a, b => b ≤ a

namespace Rounding

variable {mode : Rounding} {a b c : ℚ}

theorem Beyond.refl (mode : Rounding) (a : ℚ) : mode.Beyond a a := by
  cases mode <;> exact le_rfl

theorem Beyond.trans (hab : mode.Beyond a b) (hbc : mode.Beyond b c) : mode.Beyond a c := by
  cases mode
  · exact le_trans hab hbc
  · exact le_trans hbc hab

theorem Beyond.antisymm (hab : mode.Beyond a b) (hba : mode.Beyond b a) : a = b := by
  cases mode
  · exact le_antisymm hab hba
  · exact le_antisymm hba hab

end Rounding

namespace SimTime

/-- Rounding to `p` significant digits gives the value with at most `p`
significant digits that lies beyond the time in the rounding's direction and
is nearest to it: the greatest one not above it for the floor, the least one
not below it for the ceiling. -/
theorem roundSignificant_extremal (t : SimTime) (mode : Rounding) {p : Nat} (hp : 1 ≤ p) :
    SigDigits p (t.roundSignificant p mode).toRat ∧
      mode.Beyond (t.roundSignificant p mode).toRat t.toRat ∧
      ∀ x, SigDigits p x → mode.Beyond x t.toRat → mode.Beyond x (t.roundSignificant p mode).toRat := by
  refine ⟨sigDigits_roundSignificant t hp mode, ?_, ?_⟩
  · cases mode with
    | floor =>
      rw [toRat_roundSignificant, keptDigits_natCast hp]
      exact floor_mul_le _ _
    | ceiling =>
      have h : (t.neg.roundSignificant p .floor).toRat ≤ -t.toRat := by
        rw [toRat_roundSignificant, toRat_neg]
        exact floor_mul_le _ _
      change t.toRat ≤ _
      rw [toRat_roundSignificant_ceiling]
      linarith
  · intro x hx hxt
    cases mode with
    | floor => exact roundSignificant_floor_greatest t hp hx hxt
    | ceiling =>
      change (t.roundSignificant p .ceiling).toRat ≤ x
      have h := roundSignificant_floor_greatest t.neg hp hx.neg
        (by rw [toRat_neg]; exact neg_le_neg hxt)
      rw [toRat_roundSignificant_ceiling]
      linarith

/-- Keeping more digits rounds no further from the time. -/
theorem roundSignificant_beyond_mono (t : SimTime) (mode : Rounding) {p q : Nat} (hp : 1 ≤ p)
    (hpq : p ≤ q) :
    mode.Beyond (t.roundSignificant p mode).toRat (t.roundSignificant q mode).toRat :=
  let hP := roundSignificant_extremal t mode hp
  (roundSignificant_extremal t mode (hp.trans hpq)).2.2 _ (hP.1.mono hpq) hP.2.1

/-- A rounding to `q` digits whose value needs one digit fewer is also the
rounding to `q - 1` digits. -/
theorem roundSignificant_pred_eq (t : SimTime) (mode : Rounding) {q : Nat} (hq : 2 ≤ q)
    (h : SigDigits (q - 1) (t.roundSignificant q mode).toRat) :
    (t.roundSignificant (q - 1 : Nat) mode).toRat = (t.roundSignificant q mode).toRat :=
  Rounding.Beyond.antisymm (roundSignificant_beyond_mono t mode (by omega) (by omega))
    ((roundSignificant_extremal t mode (by omega)).2.2 _ h
      (roundSignificant_extremal t mode (by omega)).2.1)

section Lowering

variable {t : SimTime} {mode : Rounding} {ok : SimTime → Bool}

theorem lowestPrecision_succ (p : Nat) (best : SimTime) :
    lowestPrecision t mode ok (p + 1) best =
      if ok (t.roundSignificant (p + 1 : Nat) mode) then
        lowestPrecision t mode ok p (t.roundSignificant (p + 1 : Nat) mode)
      else best := by
  rw [lowestPrecision, Nat.cast_succ]

/-- The lowering loop returns its start or a rounding it accepted. -/
theorem lowestPrecision_cases (p : Nat) (best : SimTime) :
    lowestPrecision t mode ok p best = best ∨
      ∃ q : Nat, 1 ≤ q ∧ ok (t.roundSignificant q mode) = true ∧
        lowestPrecision t mode ok p best = t.roundSignificant q mode := by
  induction p generalizing best with
  | zero => exact .inl rfl
  | succ p ih =>
    rw [lowestPrecision_succ]
    split
    · rcases ih (t.roundSignificant (p + 1 : Nat) mode) with h | ⟨q, hq1, hq, h⟩
      · exact .inr ⟨p + 1, by omega, ‹_›, h⟩
      · exact .inr ⟨q, hq1, hq, h⟩
    · exact .inl rfl

/-- Started at an accepted precision, the lowering loop ends at the bottom `q`
of the run of accepted precisions: every precision from `q` up is accepted,
and `q - 1` is not (or `q` is one). -/
theorem lowestPrecision_of_ok {p : Nat} (best : SimTime) (hp : 1 ≤ p)
    (hok : ok (t.roundSignificant p mode) = true) :
    ∃ q : Nat, 1 ≤ q ∧ q ≤ p ∧ lowestPrecision t mode ok p best = t.roundSignificant q mode ∧
      (∀ i, q ≤ i → i ≤ p → ok (t.roundSignificant i mode) = true) ∧
      (q = 1 ∨ ok (t.roundSignificant (q - 1 : Nat) mode) = false) := by
  induction p generalizing best with
  | zero => omega
  | succ p ih =>
    rw [lowestPrecision_succ, if_pos hok]
    rcases Nat.eq_zero_or_pos p with rfl | hp1
    · exact ⟨1, le_rfl, le_rfl, rfl, fun i h1 h2 => by rwa [show i = 0 + 1 by omega], .inl rfl⟩
    · by_cases hnext : ok (t.roundSignificant p mode) = true
      · obtain ⟨q, hq1, hqp, heq, hrun, hbot⟩ := ih _ hp1 hnext
        refine ⟨q, hq1, by omega, heq, fun i h1 h2 => ?_, hbot⟩
        rcases Nat.lt_or_ge i (p + 1) with hi | hi
        · exact hrun i h1 (by omega)
        · rwa [show i = p + 1 by omega]
      · obtain ⟨p', rfl⟩ : ∃ p', p = p' + 1 := ⟨p - 1, by omega⟩
        refine ⟨p' + 2, by omega, le_rfl, ?_, fun i h1 h2 => by rwa [show i = p' + 1 + 1 by omega],
          .inr (by simpa using hnext)⟩
        rw [lowestPrecision_succ, if_neg hnext]

end Lowering

/-- A coefficient ending in zero spares one significant digit. -/
theorem sigDigits_pred_of_dvd {v : SimTime} {q : Nat} (hv : 10 ∣ v.coeff) (hd : v.digits ≤ q) :
    SigDigits (q - 1) v.toRat := by
  obtain ⟨c, hc⟩ := hv
  have hlt : v.coeff.natAbs < 10 ^ q :=
    Nat.lt_of_lt_of_le (lt_pow_digitCount _) (Nat.pow_le_pow_right (by norm_num : 0 < 10) hd)
  have hq : 0 < q := Nat.lt_of_lt_of_le (digitCount_pos _) hd
  refine ⟨c, v.exp + 1, ?_, ?_⟩
  · rw [hc, Int.natAbs_mul, show q = q - 1 + 1 by omega, pow_succ] at hlt
    simp only [Int.reduceAbs] at hlt
    omega
  · rw [toRat, hc, zpow_add_one₀ (by norm_num)]
    push_cast
    ring

/-- Without trailing zeros, the precision is the number of digits. -/
theorem precision_eq_digits {v : SimTime} (h : ¬ 10 ∣ v.coeff ∨ v.coeff = 0) :
    v.precision = v.digits := by
  rcases h with h | h
  · have h' : ¬ 10 ∣ v.coeff.natAbs := fun hn => h (Int.ofNat_dvd_left.mpr hn)
    rw [precision, stripZeros_of_not_dvd h', digits]
  · simp [precision, digits, h, stripZeros]

/-- Moving the last digit to five or to an even digit never adds a significant
digit to a coefficient without trailing zeros. -/
theorem precision_nudgeLastDigit_le {v : SimTime} (lo hi : SimTime)
    (h : ¬ 10 ∣ v.coeff ∨ v.coeff = 0) :
    (nudgeLastDigit v lo hi).precision ≤ v.precision := by
  rw [precision_eq_digits h]
  unfold nudgeLastDigit
  split
  · exact precision_le_digits v
  · rename_i hneg
    have hc : 0 ≤ v.coeff := by omega
    dsimp only
    split
    · -- a last digit five: the same number of digits, none of them trailing zeros
      have hd := lt_pow_digitCount v.coeff.natAbs
      have hd1 := digitCount_pos v.coeff.natAbs
      have hfive : ¬ 10 ∣ (v.coeff / 10 * 10 + 5) := by omega
      rw [precision_eq_digits (.inl hfive)]
      simp only [digits]
      apply (digitCount_le_iff hd1).mpr
      obtain ⟨e, he⟩ : ∃ e, digitCount v.coeff.natAbs = e + 1 := ⟨_, (Nat.succ_pred_eq_of_pos hd1).symm⟩
      rw [he, pow_succ] at hd ⊢
      omega
    · split
      · exact (precision_le_digits _).trans
          (digitCount_mono (show (v.coeff - v.coeff % 2).natAbs ≤ v.coeff.natAbs by omega))
      · exact precision_le_digits v

end SimTime

/-! ## A value with few digits in every range -/

theorem zpow_eq_pow_mul_zpow {j k : Int} (h : j ≤ k) :
    (10 : ℚ) ^ k = 10 ^ (k - j).toNat * 10 ^ j := by
  rw [← zpow_natCast, Int.toNat_of_nonneg (by omega), ← zpow_add₀ (by norm_num), sub_add_cancel]

/-- A positive multiple of `10 ^ k` below `10 ^ (k + p)` has at most `p`
significant digits. -/
theorem sigDigits_of_lt {m k : Int} {p : Nat} (hpos : 0 < (m : ℚ) * 10 ^ k)
    (hlt : (m : ℚ) * 10 ^ k < 10 ^ (k + p)) : SigDigits p ((m : ℚ) * 10 ^ k) := by
  refine ⟨m, k, ?_, rfl⟩
  have hk : (0 : ℚ) < 10 ^ k := zpow_pos (by norm_num) k
  have hm : (0 : ℚ) < m := pos_of_mul_pos_left hpos hk.le
  rw [zpow_add₀ (by norm_num), zpow_natCast, mul_comm ((10 : ℚ) ^ k)] at hlt
  have hm' : (m : ℚ) < 10 ^ p := lt_of_mul_lt_mul_right hlt hk.le
  have habs : ((m.natAbs : Nat) : ℚ) < ((10 ^ p : Nat) : ℚ) := by
    rw [Nat.cast_natAbs, Int.cast_abs, abs_of_pos hm]
    push_cast
    exact hm'
  exact_mod_cast habs

/-- A positive range holds a value with `p` significant digits as soon as `p`
is at least one more than the digits of either end less the digits of the
width. -/
theorem exists_sigDigits_of_pos {L H : ℚ} {pl ph dp p : Nat} (hL : 0 < L) (hLH : L ≤ H)
    (hsl : SigDigits pl L) (hsh : SigDigits ph H)
    (hdp : ∀ n, 1 ≤ n → SigDigits n (H - L) → dp ≤ n)
    (hp : 1 ≤ p) (hpl : pl + 1 ≤ p + dp) (hph : ph + 1 ≤ p + dp) :
    ∃ w, L ≤ w ∧ w ≤ H ∧ SigDigits p w := by
  by_contra hno
  push Not at hno
  have h10 : (1 : ℚ) < 10 := by norm_num
  -- `K` is the magnitude of the lower end: `10 ^ (K - 1) ≤ L < 10 ^ K`
  set K := Int.log 10 L + 1 with hK
  have hKlo : (10 : ℚ) ^ (K - 1) ≤ L := by
    have := Int.zpow_log_le_self (b := 10) (by norm_num) hL
    simpa [hK] using this
  have hKhi : L < 10 ^ K := by
    have := Int.lt_zpow_succ_log_self (b := 10) (by norm_num) L
    simpa [hK] using this
  -- the next power of ten lies beyond the range
  have hH : H < 10 ^ K := by
    by_contra h
    push Not at h
    refine hno _ hKhi.le h ⟨1, K, ?_, by simp⟩
    simpa using Nat.one_lt_pow (by omega : p ≠ 0) (by norm_num : 1 < 10)
  -- the range is narrower than the unit of the `p`-th digit at that magnitude
  have hD : H - L < 10 ^ (K - p) := by
    by_contra h
    push Not at h
    have hG : (0 : ℚ) < 10 ^ (K - p) := zpow_pos (by norm_num) _
    have hw1 : L ≤ ⌈L / 10 ^ (K - p)⌉ * 10 ^ (K - p) := (div_le_iff₀ hG).mp (Int.le_ceil _)
    have hw2 : (⌈L / 10 ^ (K - p)⌉ : ℚ) * 10 ^ (K - p) ≤ H := by
      have h1 := Int.ceil_lt_add_one (L / 10 ^ (K - p))
      have h2 : (⌈L / 10 ^ (K - p)⌉ : ℚ) * 10 ^ (K - p) < (L / 10 ^ (K - p) + 1) * 10 ^ (K - p) :=
        mul_lt_mul_of_pos_right h1 hG
      rw [add_mul, div_mul_cancel₀ _ hG.ne', one_mul] at h2
      linarith
    refine hno _ hw1 hw2 (sigDigits_of_lt (hL.trans_le hw1) ?_)
    rw [show K - p + (p : Int) = K by ring]
    exact hw2.trans_lt hH
  -- both ends sit on the grid of the finer of their last digits
  obtain ⟨ml, kl, hml, rfl⟩ := hsl
  obtain ⟨mh, kh, hmh, hHeq⟩ := hsh
  have hKl : K ≤ kl + pl := by
    have h1 := (abs_lt_of_digits (j := kl) hml)
    rw [abs_of_pos hL] at h1
    have := (zpow_lt_zpow_iff_right₀ h10).mp (hKlo.trans_lt h1)
    omega
  have hKh : K ≤ kh + ph := by
    have h1 := (abs_lt_of_digits (j := kh) hmh)
    rw [← hHeq, abs_of_pos (hL.trans_le hLH)] at h1
    have := (zpow_lt_zpow_iff_right₀ h10).mp ((hKlo.trans hLH).trans_lt h1)
    omega
  set j := min kl kh
  obtain ⟨δ, hδ⟩ : ∃ δ : Int, H - (ml : ℚ) * 10 ^ kl = δ * 10 ^ j :=
    ⟨mh * 10 ^ (kh - j).toNat - ml * 10 ^ (kl - j).toNat, by
      rw [hHeq, zpow_eq_pow_mul_zpow (min_le_right kl kh), zpow_eq_pow_mul_zpow (min_le_left kl kh)]
      push_cast
      ring⟩
  rcases lt_or_eq_of_le hLH with hlt | heq
  · -- the width has no more digits than the gap between its magnitude and `j`
    have hj : (0 : ℚ) < 10 ^ j := zpow_pos (by norm_num) j
    have hδpos : (0 : ℚ) < δ := by
      have : (0 : ℚ) < δ * 10 ^ j := by rw [← hδ]; linarith
      exact pos_of_mul_pos_left this hj.le
    have hdδ : dp ≤ digitCount δ.natAbs := hdp _ (digitCount_pos _) ⟨δ, j, lt_pow_digitCount _, hδ⟩
    have hδlt : (δ : ℚ) < 10 ^ (K - p - j) := by
      rw [zpow_sub₀ (by norm_num), lt_div_iff₀ hj, ← hδ]
      exact hD
    have he : 1 ≤ K - p - j := by
      by_contra he
      have : (10 : ℚ) ^ (K - p - j) ≤ 1 := zpow_le_one_of_nonpos₀ (by norm_num) (by omega)
      have : (1 : ℚ) ≤ δ := by exact_mod_cast (show (1 : Int) ≤ δ by exact_mod_cast hδpos)
      linarith
    have hδnat : δ.natAbs < 10 ^ (K - p - j).toNat := by
      have h1 : ((δ.natAbs : Nat) : ℚ) < ((10 ^ (K - p - j).toNat : Nat) : ℚ) := by
        rw [Nat.cast_natAbs, Int.cast_abs, abs_of_pos hδpos]
        push_cast
        rwa [← zpow_natCast, Int.toNat_of_nonneg (by omega)]
      exact_mod_cast h1
    have := (digitCount_le_iff (by omega)).mpr hδnat
    omega
  · -- a range of one value: that value has few enough digits
    have hdp1 : dp ≤ 1 := hdp 1 le_rfl (by rw [← heq, sub_self]; exact sigDigits_zero 1)
    exact hno _ le_rfl hLH (SigDigits.mono (by omega) ⟨ml, kl, hml, rfl⟩)

/-- Every range holds a value with `p` significant digits as soon as `p` is at
least one more than the digits of either end less the digits of the width. -/
theorem exists_sigDigits_between {L H : ℚ} {pl ph dp p : Nat} (hLH : L ≤ H)
    (hsl : SigDigits pl L) (hsh : SigDigits ph H)
    (hdp : ∀ n, 1 ≤ n → SigDigits n (H - L) → dp ≤ n)
    (hp : 1 ≤ p) (hpl : pl + 1 ≤ p + dp) (hph : ph + 1 ≤ p + dp) :
    ∃ w, L ≤ w ∧ w ≤ H ∧ SigDigits p w := by
  rcases lt_or_ge 0 L with hL | hL
  · exact exists_sigDigits_of_pos hL hLH hsl hsh hdp hp hpl hph
  rcases le_or_gt 0 H with hH | hH
  · exact ⟨0, hL, hH, sigDigits_zero p⟩
  · -- a negative range is the mirror of a positive one
    have hdp' : ∀ n, 1 ≤ n → SigDigits n (-L - -H) → dp ≤ n := fun n hn h =>
      hdp n hn (by rwa [show -L - -H = H - L by ring] at h)
    obtain ⟨w, h1, h2, h3⟩ :=
      exists_sigDigits_of_pos (neg_pos.mpr hH) (neg_le_neg hLH) hsh.neg hsl.neg hdp' hp hph hpl
    exact ⟨-w, by linarith, by linarith, by simpa using h3.neg⟩

namespace SimTime

theorem toRat_sub (a b : SimTime) : (a - b).toRat = a.toRat - b.toRat := by
  change (SimTime.sub a b).toRat = _
  rw [sub, toRat_mk, Int.cast_sub, sub_mul, coeffAt_mul_zpow (min_le_left _ _),
    coeffAt_mul_zpow (min_le_right _ _)]

theorem one_le_precision (v : SimTime) : 1 ≤ v.precision := digitCount_pos _

theorem sigDigits_precision (v : SimTime) : SigDigits v.precision v.toRat :=
  (precision_le_iff (one_le_precision v)).mp le_rfl

/-- The number of significant digits `shortestWithin` starts lowering from:
one more than the digits of either end less the digits of the width, and at
least one. -/
def startDigits (lo hi : SimTime) : Nat :=
  (Max.max 1 (1 + Max.max ((lo.precision : Int) - (hi - lo).precision)
    ((hi.precision : Int) - (hi - lo).precision))).toNat

/-- Some value of every range has no more significant digits than the
lowering starts from. -/
theorem exists_sigDigits_startDigits {lo hi : SimTime} (h : lo.toRat ≤ hi.toRat) :
    ∃ w, lo.toRat ≤ w ∧ w ≤ hi.toRat ∧ SigDigits (startDigits lo hi) w := by
  have hdp : ∀ n, 1 ≤ n → SigDigits n (hi.toRat - lo.toRat) → (hi - lo).precision ≤ n :=
    fun n hn hs => (precision_le_iff hn).mpr (by rwa [toRat_sub])
  exact exists_sigDigits_between h lo.sigDigits_precision hi.sigDigits_precision hdp
    (by simp [startDigits]) (by simp [startDigits]; omega) (by simp [startDigits]; omega)

/-! ## Where the search ends -/

section Side

variable {t : SimTime} {mode : Rounding} {ok : SimTime → Bool} {B : ℚ}

/-- On one side of the time, lowering the precision while the bound `B` is
kept and then nudging the last digit gives at most as many significant digits
as any value `w` on that side within the bound, if the lowering starts at
least as high as `w`'s digits. -/
theorem precision_nudge_lowest_le (hok : ∀ r : SimTime, ok r = true ↔ mode.Beyond B r.toRat)
    {p P : Nat} (hP : 1 ≤ P) (hPp : P ≤ p) {w : ℚ} (hw : SigDigits P w)
    (hwt : mode.Beyond w t.toRat) (hBw : mode.Beyond B w) (lo hi : SimTime) :
    (nudgeLastDigit (lowestPrecision t mode ok p t) lo hi).precision ≤ P := by
  -- every precision from `P` up rounds to a value still within the bound
  have hrun : ∀ i : Nat, P ≤ i → ok (t.roundSignificant i mode) = true := fun i hi =>
    (hok _).mpr (hBw.trans (((roundSignificant_extremal t mode hP).2.2 w hw hwt).trans
      (roundSignificant_beyond_mono t mode hP hi)))
  obtain ⟨q, hq1, -, heq, hqrun, hbot⟩ := lowestPrecision_of_ok t (hP.trans hPp) (hrun p hPp)
  have hqP : q ≤ P := by
    by_contra hlt
    rcases hbot with h | h
    · omega
    · rw [hrun (q - 1) (by omega)] at h
      exact Bool.noConfusion h
  have hdig : (t.roundSignificant q mode).digits ≤ q :=
    (digits_roundSignificant_le t q mode).trans (keptDigits_natCast hq1).le
  -- the loop stopped where one digit fewer fails, so no trailing zero is left
  have hclean : ¬ 10 ∣ (t.roundSignificant q mode).coeff ∨ (t.roundSignificant q mode).coeff = 0 := by
    by_contra hcon
    push Not at hcon
    obtain ⟨hdvd, hne⟩ := hcon
    have hq2 : 2 ≤ q := by
      by_contra hq2
      have hpow : 10 ^ (t.roundSignificant q mode).digits ≤ 10 ^ 1 :=
        Nat.pow_le_pow_right (by norm_num) (hdig.trans (by omega))
      have hsmall : (t.roundSignificant q mode).coeff.natAbs < 10 :=
        Nat.lt_of_lt_of_le (lt_pow_digitCount _) hpow
      obtain ⟨c, hc⟩ := hdvd
      rw [hc] at hne hsmall
      omega
    have hsame := roundSignificant_pred_eq t mode hq2 (sigDigits_pred_of_dvd hdvd hdig)
    have hok' : ok (t.roundSignificant (q - 1 : Nat) mode) = true := by
      rw [hok, hsame, ← hok]
      exact hqrun q le_rfl (by omega)
    rcases hbot with h | h
    · omega
    · rw [hok'] at h
      exact Bool.noConfusion h
  rw [heq]
  calc (nudgeLastDigit (t.roundSignificant q mode) lo hi).precision
      ≤ (t.roundSignificant q mode).precision := precision_nudgeLastDigit_le lo hi hclean
    _ ≤ (t.roundSignificant q mode).digits := precision_le_digits _
    _ ≤ P := hdig.trans hqP

end Side

theorem within_iff (v lo hi : SimTime) :
    within v lo hi = true ↔ lo.toRat ≤ v.toRat ∧ v.toRat ≤ hi.toRat := by
  simp [within, lt_iff_toRat]

/-- The nudged value stays in the range when the value it starts from does. -/
theorem nudgeLastDigit_between {v lo hi : SimTime} (h1 : lo.toRat ≤ v.toRat) (h2 : v.toRat ≤ hi.toRat) :
    lo.toRat ≤ (nudgeLastDigit v lo hi).toRat ∧ (nudgeLastDigit v lo hi).toRat ≤ hi.toRat := by
  unfold nudgeLastDigit
  split
  · exact ⟨h1, h2⟩
  · dsimp only
    split
    · exact (within_iff _ _ _).mp ‹_›
    · split
      · exact (within_iff _ _ _).mp ‹_›
      · exact ⟨h1, h2⟩

/-- The lowering loop on either side stays between `lo` and `hi`. -/
theorem lowestPrecision_between {t lo hi : SimTime} {mode : Rounding} {ok : SimTime → Bool} {B : ℚ}
    (hok : ∀ r : SimTime, ok r = true ↔ mode.Beyond B r.toRat)
    (hB : ∀ x, mode.Beyond B x → mode.Beyond x t.toRat → lo.toRat ≤ x ∧ x ≤ hi.toRat)
    (h1 : lo.toRat ≤ t.toRat) (h2 : t.toRat ≤ hi.toRat) (p : Nat) :
    lo.toRat ≤ (lowestPrecision t mode ok p t).toRat ∧ (lowestPrecision t mode ok p t).toRat ≤ hi.toRat := by
  rcases @lowestPrecision_cases t mode ok p t with h | ⟨q, hq1, hq, h⟩
  · rw [h]; exact ⟨h1, h2⟩
  · rw [h]
    exact hB _ ((hok _).mp hq) (roundSignificant_extremal t mode hq1).2.1

/-- The choice `shortestWithin` ends with: fewer significant digits first,
then a last digit five, then an even last digit, the floor side on ties. -/
def pickShorter (f c : SimTime) : SimTime :=
  if f.precision < c.precision then f
  else if c.precision < f.precision then c
  else if f.strippedLastDigit = 5 then f
  else if c.strippedLastDigit = 5 then c
  else if f.strippedLastDigit % 2 = 0 then f
  else if c.strippedLastDigit % 2 = 0 then c
  else f

/-- The choice is one of the two candidates and has the fewer significant digits. -/
theorem pickShorter_spec (f c : SimTime) :
    (pickShorter f c = f ∨ pickShorter f c = c) ∧
      (pickShorter f c).precision ≤ f.precision ∧ (pickShorter f c).precision ≤ c.precision := by
  unfold pickShorter
  split_ifs <;> refine ⟨by simp, by omega, by omega⟩

theorem shortestWithin_eq_pickShorter (t tMin tMax : SimTime) :
    shortestWithin t tMin tMax =
      pickShorter
        (nudgeLastDigit (lowestPrecision t .floor (fun r => !(r < SimTime.min tMin t))
          (startDigits (SimTime.min tMin t) (SimTime.max tMax t)) t)
          (SimTime.min tMin t) (SimTime.max tMax t))
        (nudgeLastDigit (lowestPrecision t .ceiling (fun r => !(SimTime.max tMax t < r))
          (startDigits (SimTime.min tMin t) (SimTime.max tMax t)) t)
          (SimTime.min tMin t) (SimTime.max tMax t)) := rfl

theorem one_le_startDigits (lo hi : SimTime) : 1 ≤ startDigits lo hi := by
  simp [startDigits]

theorem toRat_min_le (a t : SimTime) : (SimTime.min a t).toRat ≤ t.toRat := by
  unfold SimTime.min
  split
  · exact le_rfl
  · exact le_of_not_gt (fun h => ‹¬ t < a› (lt_iff_toRat.mpr h))

theorem le_toRat_max (a t : SimTime) : t.toRat ≤ (SimTime.max a t).toRat := by
  unfold SimTime.max
  split
  · exact le_rfl
  · exact le_of_not_gt (fun h => ‹¬ a < t› (lt_iff_toRat.mpr h))

end SimTime

end EventChart
