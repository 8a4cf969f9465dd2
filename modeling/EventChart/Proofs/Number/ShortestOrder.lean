import EventChart.Proofs.Number.Arithmetic
import EventChart.Proofs.Time.Shortest
import EventChart.Time.Approx
/-!
# The time of a float keeps the order of floats

`SimTime.ofFloat?` writes a finite float as its shortest decimal: the decimal
with fewest significant digits inside the float's rounding interval.  This
file shows that the decimal always reads back as the float, and from that,
since rounding to nearest never reverses an order (`nearest_mono`), that the
times of two floats are in the order of the floats.

* `compareScaled_eq`, `floorAtGrid_eq` and `inInterval_iff` give the exact
  comparisons of `Number.Shortest` their meaning over `ℚ`; `Binary.Within`
  is the rounding interval, ends included for an even mantissa.
* `ten_zpow_decimalExponent_le`: the decimal exponent found from the
  estimate `⌊L * 30103 / 100000⌋` is never above that of `x`, so at 17
  digits the grid is finer than the interval (`grid_lt_width`) and the search
  always finds a decimal in it (`shortest_within`).
* `roundedAt_of_within`: every number in the interval of a canonical number
  rounds to it, also below a power of two, where the interval reaches into
  the binade below.
* `classify_of_unpack_finite`: the fields `classify` reads are those of the
  unpacked float, so `nearest_ofFloat?` (the time of a finite float reads
  back as the float) follows, and with it `ofFloat?_mono` and, for a factor
  that is not negative, `mulFloat?_mono`.
-/

open Float.Model Float.Model.UnpackedFloat

namespace EventChart.Number

/-! ## Exact comparisons -/

/-- A power with an integer exponent as a quotient of two natural powers. -/
theorem zpow_eq_div_toNat {b : ℚ} (hb : b ≠ 0) (e : ℤ) : b ^ e = b ^ e.toNat / b ^ (-e).toNat := by
  conv_lhs => rw [← Int.toNat_sub_toNat_neg e]
  rw [zpow_sub₀ hb, zpow_natCast, zpow_natCast]

/-- Scaling by a power at a smaller exponent, as natural numbers. -/
theorem natCast_mul_pow_toNat {b : ℚ} (hb : b ≠ 0) {p p₀ : ℤ} (h : p₀ ≤ p) :
    b ^ (p - p₀).toNat * b ^ p₀ = b ^ p := by
  rw [← zpow_natCast, Int.toNat_of_nonneg (by omega), ← zpow_add₀ hb, sub_add_cancel]

/-- `compareScaled` compares `a * 10 ^ p * 2 ^ q` with `b * 10 ^ r * 2 ^ s`. -/
theorem compareScaled_eq (a : ℕ) (p q : ℤ) (b : ℕ) (r s : ℤ) :
    compareScaled a p q b r s = compare ((a : ℚ) * 10 ^ p * 2 ^ q) ((b : ℚ) * 10 ^ r * 2 ^ s) := by
  unfold compareScaled
  simp only [Nat.pow_eq]
  set p₀ := min p r
  set q₀ := min q s
  -- both sides are the compared naturals times one positive number
  have hscale : ∀ (n : ℕ) (u v : ℤ), p₀ ≤ u → q₀ ≤ v →
      (n : ℚ) * 10 ^ u * 2 ^ v = ((n * 10 ^ (u - p₀).toNat * 2 ^ (v - q₀).toNat : ℕ) : ℚ) * (10 ^ p₀ * 2 ^ q₀) := by
    intro n u v hu hv
    push_cast
    rw [← natCast_mul_pow_toNat (by norm_num) hu, ← natCast_mul_pow_toNat (by norm_num) hv]
    ring
  rw [hscale a p q (min_le_left _ _) (min_le_left _ _), hscale b r s (min_le_right _ _) (min_le_right _ _)]
  have hpos : (0 : ℚ) < 10 ^ p₀ * 2 ^ q₀ := by positivity
  generalize a * 10 ^ (p - p₀).toNat * 2 ^ (q - q₀).toNat = A
  generalize b * 10 ^ (r - p₀).toNat * 2 ^ (s - q₀).toNat = B
  rcases lt_trichotomy A B with h | rfl | h
  · rw [Nat.compare_eq_lt.mpr h, eq_comm, compare_lt_iff_lt]
    exact mul_lt_mul_of_pos_right (by exact_mod_cast h) hpos
  · rw [Nat.compare_eq_eq.mpr rfl, eq_comm, compare_eq_iff_eq]
  · rw [Nat.compare_eq_gt.mpr h, eq_comm, compare_gt_iff_gt]
    exact mul_lt_mul_of_pos_right (by exact_mod_cast h) hpos

/-! ## The rounding interval -/

/-- The magnitude `mant * 2 ^ exp2`. -/
def Binary.value (x : Binary) : ℚ := x.mant * 2 ^ x.exp2

/-- The lower end of the rounding interval: half-way to the next smaller
double, or a quarter of the way below a power of two. -/
def Binary.lower (x : Binary) : ℚ := ((4 * x.mant - (if x.narrowBelow then 1 else 2) : ℕ) : ℚ) * 2 ^ (x.exp2 - 2)

/-- The upper end of the rounding interval, half-way to the next larger double. -/
def Binary.upper (x : Binary) : ℚ := ((4 * x.mant + 2 : ℕ) : ℚ) * 2 ^ (x.exp2 - 2)

/-- `v` lies in the rounding interval of `x`; the ends count when the
mantissa is even. -/
def Binary.Within (x : Binary) (v : ℚ) : Prop :=
  (x.lower < v ∨ (x.mant % 2 = 0 ∧ v = x.lower)) ∧ (v < x.upper ∨ (x.mant % 2 = 0 ∧ v = x.upper))

/-- `inInterval` tests exactly that the decimal lies in the rounding interval. -/
theorem inInterval_iff (x : Binary) (c : ℕ) (k : ℤ) :
    inInterval x c k = true ↔ x.Within (c * 10 ^ k) := by
  unfold inInterval Binary.Within Binary.lower Binary.upper
  simp only [compareScaled_eq, zpow_zero, mul_one, Bool.and_eq_true, Bool.or_eq_true,
    beq_iff_eq, compare_gt_iff_gt, compare_eq_iff_eq, compare_lt_iff_lt]

/-- `floorAtGrid x k` is the floor of `x / 10 ^ k`. -/
theorem floorAtGrid_eq (x : Binary) (k : ℤ) : floorAtGrid x k = ⌊x.value / 10 ^ k⌋₊ := by
  have hq : x.value / 10 ^ k =
      ((x.mant * 2 ^ x.exp2.toNat * 10 ^ (-k).toNat : ℕ) : ℚ) / ((2 ^ (-x.exp2).toNat * 10 ^ k.toNat : ℕ) : ℚ) := by
    rw [Binary.value, zpow_eq_div_toNat (by norm_num : (2 : ℚ) ≠ 0), zpow_eq_div_toNat (by norm_num : (10 : ℚ) ≠ 0)]
    push_cast
    field_simp
  rw [hq, Nat.floor_div_eq_div]
  rfl

theorem floorAtGrid_le (x : Binary) (k : ℤ) : (floorAtGrid x k : ℚ) * 10 ^ k ≤ x.value := by
  have hv : 0 ≤ x.value / 10 ^ k := div_nonneg (by unfold Binary.value; positivity) (by positivity)
  rw [floorAtGrid_eq, ← le_div_iff₀ (by positivity)]
  exact Nat.floor_le hv

theorem lt_floorAtGrid_succ (x : Binary) (k : ℤ) : x.value < ((floorAtGrid x k : ℚ) + 1) * 10 ^ k := by
  rw [floorAtGrid_eq, ← div_lt_iff₀ (by positivity)]
  exact Nat.lt_floor_add_one _

/-- Whatever `candidateAt` offers lies in the rounding interval. -/
theorem within_of_candidateAt {x : Binary} {e : ℤ} {n c : ℕ} {k : ℤ} (h : candidateAt x e n = some (c, k)) :
    x.Within (c * 10 ^ k) := by
  unfold candidateAt at h
  dsimp only at h
  generalize e + 1 - n = k' at h
  generalize floorAtGrid x k' = lo at h
  -- every branch returns one of the two grid points it tested
  cases hlo : inInterval x lo k' <;> cases hhi : inInterval x (lo + 1) k' <;>
    simp only [hlo, hhi, Bool.and_true, Bool.and_false, Bool.false_eq_true, if_false, if_true] at h
  · cases h
  · cases h
    exact (inInterval_iff x _ _).mp hhi
  · cases h
    exact (inInterval_iff x _ _).mp hlo
  · -- both are in the interval: whichever is nearer, or the even one
    have hw₀ := (inInterval_iff x lo k').mp hlo
    have hw₁ := (inInterval_iff x (lo + 1) k').mp hhi
    split at h <;> (try split at h) <;> cases h <;> assumption

/-! ## The decimal exponent -/

/-- The estimate of `decimalExponent` is at most one above the decimal
exponent of `2 ^ L`: `30103 / 100000` exceeds `log₁₀ 2` by too little to
matter below `L = 100000`. -/
theorem ten_zpow_estimate_le {L : ℤ} (hL : L ≤ 100000) : (10 : ℚ) ^ (L * 30103 / 100000 - 1) ≤ 2 ^ L := by
  have hest : L * 30103 / 100000 * 100000 ≤ L * 30103 := Int.ediv_mul_le _ (by norm_num)
  have h₁ : (2 : ℚ) ^ 100000 ≤ 10 ^ 30103 := by
    exact_mod_cast (show (2 : ℕ) ^ 100000 ≤ 10 ^ 30103 by decide +kernel)
  have h₂ : (10 : ℚ) ^ 30103 ≤ 2 * 2 ^ 100000 := by
    exact_mod_cast (show (10 : ℕ) ^ 30103 ≤ 2 * 2 ^ 100000 by decide +kernel)
  -- compare the 100000-th powers of both sides
  rw [← pow_le_pow_iff_left₀ (by positivity) (by positivity) (show 100000 ≠ 0 by norm_num), ← zpow_natCast,
    ← zpow_natCast, ← zpow_mul, ← zpow_mul]
  have hmain : ((10 : ℚ) ^ 30103) ^ L ≤ 10 ^ 100000 * ((2 : ℚ) ^ 100000) ^ L := by
    rcases le_or_gt 0 L with h0 | h0
    · -- the excess of `10 ^ 30103` over `2 ^ 100000` is at most a factor two a step
      lift L to ℕ using h0
      simp only [zpow_natCast]
      calc ((10 : ℚ) ^ 30103) ^ L ≤ (2 * 2 ^ 100000) ^ L := pow_le_pow_left₀ (by positivity) h₂ L
        _ = 2 ^ L * (2 ^ 100000) ^ L := mul_pow _ _ _
        _ ≤ 10 ^ 100000 * (2 ^ 100000) ^ L := by
          gcongr
          calc (2 : ℚ) ^ L ≤ 10 ^ L := pow_le_pow_left₀ (by norm_num) (by norm_num) L
            _ ≤ 10 ^ 100000 := pow_le_pow_right₀ (by norm_num) (by exact_mod_cast hL)
    · -- below one the larger base gives the smaller power
      obtain ⟨n, rfl⟩ : ∃ n : ℕ, L = -n := ⟨(-L).toNat, by omega⟩
      simp only [zpow_neg, zpow_natCast]
      calc (((10 : ℚ) ^ 30103) ^ n)⁻¹ ≤ ((2 ^ 100000) ^ n)⁻¹ :=
            inv_anti₀ (by positivity) (pow_le_pow_left₀ (by positivity) h₁ n)
        _ ≤ 10 ^ 100000 * ((2 ^ 100000) ^ n)⁻¹ := le_mul_of_one_le_left (by positivity) (one_le_pow₀ (by norm_num))
  calc (10 : ℚ) ^ ((L * 30103 / 100000 - 1) * ((100000 : ℕ) : ℤ)) ≤ 10 ^ (L * 30103 - 100000) :=
        zpow_le_zpow_right₀ (by norm_num) (by push_cast; omega)
    _ = ((10 : ℚ) ^ 30103) ^ L / 10 ^ 100000 := by
        rw [zpow_sub₀ (by norm_num), mul_comm L, zpow_mul, zpow_ofNat, zpow_ofNat]
    _ ≤ ((2 : ℚ) ^ 100000) ^ L := by
        rw [div_le_iff₀ (by positivity), mul_comm]
        exact hmain
    _ = 2 ^ (L * ((100000 : ℕ) : ℤ)) := by
        rw [mul_comm, zpow_mul, zpow_natCast]

/-- `compareScaled 1 e 0 mant 0 exp2` is not `.gt` exactly when `10 ^ e ≤ x`. -/
theorem above_iff (x : Binary) (e : ℤ) :
    (compareScaled 1 e 0 x.mant 0 x.exp2 != .gt) = true ↔ (10 : ℚ) ^ e ≤ x.value := by
  rw [compareScaled_eq]
  simp [Binary.value, compare_gt_iff_gt]

/-- The decimal exponent `decimalExponent` finds is at most that of `x`. -/
theorem ten_zpow_decimalExponent_le {x : Binary} (hm : 0 < x.mant) (hL : (x.mant.log2 : ℤ) + x.exp2 ≤ 100000) :
    (10 : ℚ) ^ decimalExponent x ≤ x.value := by
  have h2L : (2 : ℚ) ^ ((x.mant.log2 : ℤ) + x.exp2) ≤ x.value := by
    rw [zpow_add₀ two_ne_zero, Binary.value, zpow_natCast]
    gcongr
    exact_mod_cast Nat.log2_self_le hm.ne'
  unfold decimalExponent
  dsimp only
  split_ifs with h₁ h₂
  · -- the estimate is above `x`, and one below it is not
    exact (ten_zpow_estimate_le hL).trans h2L
  · exact (above_iff x _).mp h₂
  · exact (above_iff x _).mp (by simpa using h₁)

/-! ## The shortest decimal lies in the interval -/

section Interval

variable {x : Binary} (hm0 : 0 < x.mant) (hm : x.mant < 2 ^ 53) (hnarrow : x.narrowBelow = true → x.mant = 2 ^ 52)
include hm0

theorem lower_lt_value : x.lower < x.value := by
  have hsub : ((4 * x.mant - (if x.narrowBelow then 1 else 2) : ℕ) : ℚ) < 4 * x.mant := by
    have : (4 * x.mant - (if x.narrowBelow then 1 else 2) : ℕ) < 4 * x.mant := by split_ifs <;> omega
    exact_mod_cast this
  have h4 : (2 : ℚ) ^ x.exp2 = 4 * 2 ^ (x.exp2 - 2) := by
    rw [show x.exp2 = (x.exp2 - 2) + 2 by ring, zpow_add₀ two_ne_zero]
    norm_num [mul_comm]
  rw [Binary.lower, Binary.value, h4, ← mul_assoc]
  exact mul_lt_mul_of_pos_right (by linarith) (by positivity)

theorem lower_pos : 0 < x.lower := by
  have : 0 < 4 * x.mant - (if x.narrowBelow then 1 else 2) := by split_ifs <;> omega
  unfold Binary.lower
  positivity

/-- Only positive numbers lie in a rounding interval. -/
theorem Binary.Within.pos {v : ℚ} (hw : x.Within v) : 0 < v := by
  rcases hw.1 with h | ⟨-, h⟩
  · exact (lower_pos hm0).trans h
  · exact h ▸ lower_pos hm0

omit hm0 in
theorem value_lt_upper : x.value < x.upper := by
  have h4 : (2 : ℚ) ^ x.exp2 = 4 * 2 ^ (x.exp2 - 2) := by
    rw [show x.exp2 = (x.exp2 - 2) + 2 by ring, zpow_add₀ two_ne_zero]
    norm_num [mul_comm]
  rw [Binary.upper, Binary.value, h4, ← mul_assoc]
  gcongr
  push_cast
  linarith

include hm hnarrow

/-- The rounding interval is wider than the grid of 17 significant digits. -/
theorem grid_lt_width {E : ℤ} (hE : (10 : ℚ) ^ E ≤ x.value) :
    (10 : ℚ) ^ (E + 1 - (17 : ℕ)) < x.upper - x.lower := by
  set t : ℚ := 2 ^ (x.exp2 - 2)
  have ht : 0 < t := by positivity
  have hval : x.value = 4 * x.mant * t := by
    rw [Binary.value, show x.exp2 = (x.exp2 - 2) + 2 by ring, zpow_add₀ two_ne_zero]
    ring
  have hgrid : (10 : ℚ) ^ (E + 1 - (17 : ℕ)) * 10 ^ 16 = 10 ^ E := by
    rw [← zpow_natCast, ← zpow_add₀ (by norm_num)]
    congr 1
    push_cast
    ring
  -- the width is three or four quarters of the gap `2 ^ exp2`
  have hwidth : x.upper - x.lower = ((if x.narrowBelow then 3 else 4 : ℕ) : ℚ) * t := by
    have hle : (if x.narrowBelow then 1 else 2) ≤ 4 * x.mant := by split_ifs <;> omega
    unfold Binary.upper Binary.lower
    rw [Nat.cast_sub hle]
    split_ifs <;> push_cast <;> ring
  have hbound : 4 * x.mant < (if x.narrowBelow then 3 else 4 : ℕ) * 10 ^ 16 := by
    split_ifs with hn
    · rw [hnarrow hn]
      norm_num
    · omega
  rw [hwidth]
  refine lt_of_mul_lt_mul_right ?_ (show (0 : ℚ) ≤ 10 ^ 16 by positivity)
  calc (10 : ℚ) ^ (E + 1 - (17 : ℕ)) * 10 ^ 16 ≤ 4 * x.mant * t := by rw [hgrid, ← hval]; exact hE
    _ < ((if x.narrowBelow then 3 else 4 : ℕ) : ℚ) * 10 ^ 16 * t :=
        mul_lt_mul_of_pos_right (by exact_mod_cast hbound) ht
    _ = ((if x.narrowBelow then 3 else 4 : ℕ) : ℚ) * t * 10 ^ 16 := by ring

/-- At 17 significant digits one of the two grid points next to `x` lies in
its interval. -/
theorem inInterval_seventeen {E : ℤ} (hE : (10 : ℚ) ^ E ≤ x.value) :
    inInterval x (floorAtGrid x (E + 1 - (17 : ℕ))) (E + 1 - (17 : ℕ)) = true ∨
      inInterval x (floorAtGrid x (E + 1 - (17 : ℕ)) + 1) (E + 1 - (17 : ℕ)) = true := by
  have hw := grid_lt_width hm0 hm hnarrow hE
  have hlo := floorAtGrid_le x (E + 1 - (17 : ℕ))
  have hhi := lt_floorAtGrid_succ x (E + 1 - (17 : ℕ))
  have hvlo := lower_lt_value hm0
  have hvhi := value_lt_upper (x := x)
  generalize E + 1 - ((17 : ℕ) : ℤ) = k at *
  simp only [inInterval_iff, Binary.Within]
  -- the grid point below is inside unless it is at or below the lower end
  rcases lt_or_ge x.lower (floorAtGrid x k * 10 ^ k) with h | h
  · exact .inl ⟨.inl h, .inl (hlo.trans_lt hvhi)⟩
  · refine .inr ⟨.inl ?_, .inl ?_⟩ <;> push_cast <;> linarith

end Interval

/-- `candidateAt` offers a decimal whenever one of its two grid points lies
in the interval. -/
theorem candidateAt_isSome {x : Binary} {e : ℤ} {n : ℕ}
    (h : inInterval x (floorAtGrid x (e + 1 - n)) (e + 1 - n) = true ∨
      inInterval x (floorAtGrid x (e + 1 - n) + 1) (e + 1 - n) = true) :
    (candidateAt x e n).isSome := by
  unfold candidateAt
  dsimp only
  generalize e + 1 - n = k at h ⊢
  generalize floorAtGrid x k = lo at h ⊢
  cases hlo : inInterval x lo k <;> cases hhi : inInterval x (lo + 1) k <;> simp only [hlo, hhi] at h ⊢
  · simp at h
  · rfl
  · rfl
  · simp only [Bool.and_self, if_true]
    split <;> (try split) <;> rfl

/-- The shortest decimal of a double lies in its rounding interval. -/
theorem shortest_within {x : Binary} (hm0 : 0 < x.mant) (hm : x.mant < 2 ^ 53)
    (hnarrow : x.narrowBelow = true → x.mant = 2 ^ 52) (hE : (10 : ℚ) ^ decimalExponent x ≤ x.value) :
    x.Within ((shortest x).1 * 10 ^ (shortest x).2) := by
  unfold shortest
  dsimp only
  -- the search finds a candidate, at 17 digits at the latest
  have hsome : (((List.range 17).map (· + 1)).findSome? (candidateAt x (decimalExponent x))).isSome :=
    List.findSome?_isSome_iff.mpr ⟨17, by simp, candidateAt_isSome (inInterval_seventeen hm0 hm hnarrow hE)⟩
  obtain ⟨⟨c, k⟩, hfound⟩ := Option.isSome_iff_exists.mp hsome
  obtain ⟨n, -, hn⟩ := List.exists_of_findSome?_eq_some hfound
  rw [hfound, Option.getD_some]
  dsimp only
  -- removing trailing zeros keeps the value
  have hstrip : ((stripZeros c).1 : ℚ) * 10 ^ (k + ((stripZeros c).2 : ℤ)) = c * 10 ^ k := by
    rw [zpow_add₀ (by norm_num), zpow_natCast, mul_comm ((10 : ℚ) ^ k), ← mul_assoc]
    congr 1
    exact_mod_cast stripZeros_spec c
  rw [hstrip]
  exact within_of_candidateAt hn

end EventChart.Number

namespace EventChart.SimTime

theorem toRat_mul (a b : SimTime) : (a * b).toRat = a.toRat * b.toRat := by
  change SimTime.toRat ⟨_, _⟩ = _
  simp only [SimTime.toRat, Int.cast_mul, zpow_add₀ (show (10 : ℚ) ≠ 0 by norm_num)]
  ring

end EventChart.SimTime

namespace EventChart.Float

open Number

/-! ## Everything in the interval rounds to the double -/

/-- An integer within half of `x` is the integer nearest to it; at exactly
half, only an even one is. -/
theorem roundEven_eq {x : ℚ} {n : ℤ} (hlo : n - 1 / 2 < x ∨ (n % 2 = 0 ∧ x = n - 1 / 2))
    (hhi : x < n + 1 / 2 ∨ (n % 2 = 0 ∧ x = n + 1 / 2)) : roundEven x = n := by
  unfold roundEven
  rcases le_or_gt (n : ℚ) x with hn | hn
  · -- the integer part is `n`
    have hf : ⌊x⌋ = n := Int.floor_eq_iff.mpr ⟨hn, by rcases hhi with h | ⟨-, h⟩ <;> linarith⟩
    rw [hf]
    rcases hhi with h | ⟨h2, h⟩
    · rw [if_pos (by linarith)]
    · rw [if_neg (by rw [h]; norm_num), if_neg (by rw [h]; norm_num)]
      omega
  · -- the integer part is `n - 1`
    have hf : ⌊x⌋ = n - 1 := by
      refine Int.floor_eq_iff.mpr ⟨?_, by push_cast; linarith⟩
      push_cast
      rcases hlo with h | ⟨-, h⟩ <;> linarith
    rw [hf]
    rcases hlo with h | ⟨h2, h⟩
    · rw [if_neg (by push_cast; linarith), if_pos (by push_cast; linarith)]
      ring
    · rw [if_neg (by rw [h]; push_cast; norm_num), if_neg (by rw [h]; push_cast; norm_num)]
      omega

/-- The exponent of the numbers nearest to `w` is `e` when `w` lies in the
binade of `e`, or below it at the least exponent. -/
theorem quantumExp_eq {w : ℚ} {e : ℤ} (hw : 0 < w) (he : -1074 ≤ e)
    (hlo : (2 : ℚ) ^ (52 + e) ≤ w ∨ e = -1074) (hhi : w < 2 ^ (52 + e + 1)) : quantumExp w = e := by
  have h₁ : Int.log 2 w < 52 + e + 1 := (Int.lt_zpow_iff_log_lt (b := 2) (by norm_num) hw).mp (by simpa using hhi)
  unfold quantumExp
  rcases hlo with h | rfl
  · have h₂ : 52 + e ≤ Int.log 2 w := (Int.zpow_le_iff_le_log (b := 2) (by norm_num) hw).mp (by simpa using h)
    omega
  · omega

/-- The magnitude of a canonical finite number, as `classify` reads it from
the bits. -/
def binaryOf (m : ℕ) (e : ℤ) : Binary := ⟨m, e, decide (m = 2 ^ 52 ∧ -1074 < e)⟩

theorem value_binaryOf (m : ℕ) (e : ℤ) : (binaryOf m e).value = m * 2 ^ e := rfl

/-- Every number in the rounding interval of a canonical finite number
rounds to it. -/
theorem roundedAt_of_within (s : Sign) {m : ℕ} {e : ℤ} {h : 0 < m} (hc : Canonical (.finite s m e h)) {w : ℚ}
    (hw : (binaryOf m e).Within w) :
    roundedAt s (roundEven (w / 2 ^ quantumExp w)).toNat (quantumExp w) = .finite s m e h := by
  obtain ⟨hM, he, hnormal⟩ := hc
  set u : ℚ := 2 ^ e with hu
  have hu0 : 0 < u := by positivity
  have hpow : ∀ k : ℤ, (2 : ℚ) ^ (k + e) = 2 ^ k * u := fun k => zpow_add₀ two_ne_zero k e
  have hM' : (m : ℚ) + 1 / 2 < 2 ^ 53 := by
    have : (m : ℚ) + 1 ≤ 2 ^ 53 := by exact_mod_cast hM
    linarith
  -- the ends of the interval in units of `2 ^ e`
  have hupper : (binaryOf m e).upper = (m + 1 / 2) * u := by
    simp only [Binary.upper, binaryOf]
    rw [zpow_sub₀ two_ne_zero]
    push_cast
    ring
  obtain ⟨hlo, hhi⟩ := hw
  rw [hupper] at hhi
  have hwhi : w ≤ (m + 1 / 2) * u := by rcases hhi with h | ⟨-, h⟩ <;> linarith
  have hwtop : w < 2 ^ (52 + e + 1) := by
    rw [add_assoc, add_comm e 1, ← add_assoc, hpow]
    calc w ≤ (m + 1 / 2) * u := hwhi
      _ < 2 ^ (53 : ℤ) * u := mul_lt_mul_of_pos_right (by simpa using hM') hu0
  have hdiv : ∀ {c : ℚ}, w = c * u → w / u = c := fun hwc => by rw [hwc, mul_div_cancel_right₀ _ hu0.ne']
  by_cases hn : m = 2 ^ 52 ∧ -1074 < e
  · -- a power of two above the subnormals: the interval reaches into the binade below
    obtain ⟨rfl, he'⟩ := hn
    have hlower : (binaryOf (2 ^ 52) e).lower = (2 ^ 52 - 1 / 4) * u := by
      simp only [Binary.lower, binaryOf, he', and_self, decide_true, if_true]
      rw [zpow_sub₀ two_ne_zero]
      norm_num
      ring
    rw [hlower] at hlo
    have hwlo : (2 ^ 52 - 1 / 4) * u ≤ w := by rcases hlo with h | ⟨-, h⟩ <;> linarith
    have hw0 : 0 < w := (show (0 : ℚ) < (2 ^ 52 - 1 / 4) * u by positivity).trans_le hwlo
    rcases le_or_gt (2 ^ (52 + e)) w with hbig | hsmall
    · -- in the binade of `e`, rounding to `2 ^ 52`
      have hq := quantumExp_eq hw0 he (.inl hbig) hwtop
      rw [hpow] at hbig
      rw [hq, ← hu, roundEven_eq (n := (2 ^ 52 : ℕ)) (.inl (by
          rw [lt_div_iff₀ hu0]; push_cast; linarith)) (by
          rcases hhi with h | ⟨-, h⟩
          · exact .inl (by rw [div_lt_iff₀ hu0]; push_cast; linarith)
          · exact .inr ⟨by norm_num, by rw [hdiv h]; push_cast; ring⟩)]
      simp [roundedAt]
    · -- just below it, rounding up to `2 ^ 53` at the exponent below
      have hbelow : (2 : ℚ) ^ (52 + (e - 1)) ≤ w := by
        rw [show 52 + (e - 1) = (51 : ℤ) + e by ring, hpow]
        calc (2 : ℚ) ^ (51 : ℤ) * u ≤ (2 ^ 52 - 1 / 4) * u := by gcongr; norm_num
          _ ≤ w := hwlo
      have hq := quantumExp_eq hw0 (by omega) (.inl hbelow) (by rwa [show 52 + (e - 1) + 1 = 52 + e by ring])
      have hscale : w / 2 ^ (e - 1) = 2 * (w / u) := by
        rw [zpow_sub₀ two_ne_zero, ← hu]
        field_simp
      rw [hpow] at hsmall
      -- the least number of the interval, `2 ^ 53 - 1 / 2` in the finer unit, is a tie to the even side
      have hlo' : (((2 ^ 53 : ℕ) : ℤ) : ℚ) - 1 / 2 < 2 * (w / u) ∨
          (((2 ^ 53 : ℕ) : ℤ) % 2 = 0 ∧ 2 * (w / u) = (((2 ^ 53 : ℕ) : ℤ) : ℚ) - 1 / 2) := by
        rcases hlo with h | ⟨-, h⟩
        · have : (2 : ℚ) ^ 52 - 1 / 4 < w / u := by rw [lt_div_iff₀ hu0]; linarith
          exact .inl (by push_cast; linarith)
        · exact .inr ⟨by norm_num, by rw [hdiv h]; push_cast; ring⟩
      have hhi' : 2 * (w / u) < (((2 ^ 53 : ℕ) : ℤ) : ℚ) + 1 / 2 := by
        rw [mul_comm, ← lt_div_iff₀ (by norm_num), div_lt_iff₀ hu0]
        push_cast
        linarith
      rw [hq, hscale, roundEven_eq hlo' (.inl hhi')]
      simp [roundedAt]
  · -- otherwise the interval stays in the binade of `e`, half a unit on each side
    have hlower : (binaryOf m e).lower = (m - 1 / 2) * u := by
      have hle : 2 ≤ 4 * m := by omega
      simp only [Binary.lower, binaryOf, hn, decide_false, Bool.false_eq_true, if_false]
      rw [Nat.cast_sub hle, zpow_sub₀ two_ne_zero]
      push_cast
      ring
    rw [hlower] at hlo
    have hwlo : (m - 1 / 2) * u ≤ w := by rcases hlo with h | ⟨-, h⟩ <;> linarith
    have hm1 : (1 : ℚ) ≤ m := by exact_mod_cast h
    have hw0 : 0 < w := (show (0 : ℚ) < (m - 1 / 2) * u by nlinarith).trans_le hwlo
    have hq : quantumExp w = e := by
      refine quantumExp_eq hw0 he ?_ hwtop
      by_cases hmin : e = -1074
      · exact .inr hmin
      · -- a normal number other than a power of two is at least half a unit above the binade
        have hbig : 2 ^ 52 + 1 ≤ m := by
          rcases hnormal with h52 | h52
          · by_contra hlt
            exact hn ⟨by omega, by omega⟩
          · exact absurd h52 hmin
        have hbig' : (2 : ℚ) ^ 52 + 1 ≤ m := by exact_mod_cast hbig
        left
        rw [hpow]
        calc (2 : ℚ) ^ (52 : ℤ) * u ≤ (m - 1 / 2) * u := by gcongr; norm_num; linarith
          _ ≤ w := hwlo
    have hlo' : ((m : ℤ) : ℚ) - 1 / 2 < w / u ∨ ((m : ℤ) % 2 = 0 ∧ w / u = ((m : ℤ) : ℚ) - 1 / 2) := by
      rcases hlo with h' | ⟨hev, h'⟩
      · exact .inl (by rw [lt_div_iff₀ hu0]; push_cast; linarith)
      · exact .inr ⟨by change m % 2 = 0 at hev; omega, by rw [hdiv h']; push_cast; ring⟩
    have hhi' : w / u < ((m : ℤ) : ℚ) + 1 / 2 ∨ ((m : ℤ) % 2 = 0 ∧ w / u = ((m : ℤ) : ℚ) + 1 / 2) := by
      rcases hhi with h' | ⟨hev, h'⟩
      · exact .inl (by rw [div_lt_iff₀ hu0]; push_cast; linarith)
      · exact .inr ⟨by change m % 2 = 0 at hev; omega, by rw [hdiv h']; push_cast; ring⟩
    rw [hq, ← hu, roundEven_eq hlo' hhi', Int.toNat_natCast, roundedAt, dif_neg h.ne', if_pos hM]

/-! ## The fields `classify` reads -/

theorem toNat_unpackMantissa (b : BitVec 64) : (@unpackMantissa Format.binary64 b).toNat = b.toNat % 2 ^ 52 := by
  simp [UnpackedFloat.unpackMantissa, BitVec.extractLsb_toNat]

theorem ofBitVec_unpackSign (b : BitVec 64) :
    Sign.ofBitVec (@unpackSign Format.binary64 b) = if b.toNat / 2 ^ 63 % 2 = 1 then .negative else .positive := by
  have h : (@unpackSign Format.binary64 b).toNat = b.toNat / 2 ^ 63 % 2 := by
    simp [UnpackedFloat.unpackSign, BitVec.extractLsb_toNat, Nat.shiftRight_eq_div_pow]
  unfold Sign.ofBitVec
  by_cases h1 : b.toNat / 2 ^ 63 % 2 = 1
  · rw [if_pos h1, if_neg]
    intro h0
    rw [h0] at h
    simp at h
    omega
  · rw [if_neg h1, if_pos]
    apply BitVec.eq_of_toNat_eq
    simp only [BitVec.toNat_ofNat, Nat.zero_mod]
    omega

/-- Whether a sign is negative, as `classify` reports it. -/
def signBit : Sign → Bool
  | .negative => true
  | .positive => false

/-- The fields of a float's bits against its unpacked form: the sign bit,
and the exponent field is neither all ones nor, for a normal number, zero. -/
theorem signBit_ofBitVec (b : BitVec 64) :
    (b.toNat / 2 ^ 63 % 2 == 1) = signBit (Sign.ofBitVec (@unpackSign Format.binary64 b)) := by
  rw [ofBitVec_unpackSign]
  split_ifs with h
  · simp only [signBit, h, beq_self_eq_true]
  · simpa only [signBit, beq_eq_false_iff_ne] using h

/-- `classify` reads the sign and magnitude of a finite nonzero float as its
unpacked form has them. -/
theorem classify_of_unpack_finite {x : Float} {s : Sign} {m : ℕ} {e : ℤ} {h : 0 < m}
    (hx : x.toModel.unpack = .finite s m e h) :
    classify x = (signBit s, .finite (binaryOf m e)) := by
  have hexp := Number.toNat_unpackExponent x.toModel.toBits.toBitVec
  have hmant := toNat_unpackMantissa x.toModel.toBits.toBitVec
  have hsign := signBit_ofBitVec x.toModel.toBits.toBitVec
  have hbits : x.toBits.toNat = x.toModel.toBits.toBitVec.toNat := rfl
  unfold Float.Model.unpack UnpackedFloat.unpack at hx
  simp only [Format.exponentBias] at hx
  unfold classify
  simp only [hbits, Nat.pow_eq]
  generalize x.toModel.toBits.toBitVec = b at hexp hmant hsign hx
  have hlt := (@unpackMantissa Format.binary64 b).isLt
  by_cases hall : @unpackExponent Format.binary64 b = -1#11
  · -- infinities and NaN are not finite
    rw [if_pos hall] at hx
    split_ifs at hx
  rw [if_neg hall] at hx
  have hne : b.toNat / 2 ^ 52 % 2048 ≠ 2047 := fun heq => hall (BitVec.eq_of_toNat_eq (by rw [hexp, heq]; rfl))
  by_cases hzero : @unpackExponent Format.binary64 b = 0#11
  · -- a subnormal number: exponent field zero, the fraction is the mantissa
    rw [if_pos hzero] at hx
    have h0 : b.toNat / 2 ^ 52 % 2048 = 0 := by rw [← hexp, hzero]; rfl
    by_cases hm0 : @unpackMantissa Format.binary64 b = 0#52
    · rw [dif_pos hm0] at hx
      cases hx
    rw [dif_neg hm0] at hx
    simp only [UnpackedFloat.finite.injEq] at hx
    obtain ⟨rfl, rfl, rfl⟩ := hx
    have hf : b.toNat % 2 ^ 52 ≠ 0 := fun hz => hm0 (BitVec.eq_of_toNat_eq (by rw [hmant, hz]; rfl))
    simp only [h0, hf, if_false, if_true, hsign, binaryOf, hmant, hexp]
    norm_num
  · -- a normal number: the implicit leading bit above the fraction
    rw [if_neg hzero] at hx
    simp only [UnpackedFloat.finite.injEq] at hx
    obtain ⟨rfl, rfl, rfl⟩ := hx
    have hne0 : b.toNat / 2 ^ 52 % 2048 ≠ 0 := fun heq => hzero (BitVec.eq_of_toNat_eq (by rw [hexp, heq]; rfl))
    have hlead : (1#1 ++ @unpackMantissa Format.binary64 b).toNat = b.toNat % 2 ^ 52 + 2 ^ 52 := by
      rw [BitVec.toNat_append, ← Nat.shiftLeft_add_eq_or_of_lt hlt, hmant]
      simp only [BitVec.toNat_ofNat, Nat.pow_one, Nat.one_mod, Nat.shiftLeft_eq, one_mul]
      omega
    simp only [hne, hne0, if_false, hsign, binaryOf, hlead, hexp]
    have hbias : ((2 ^ (11 - 1) - 1 : ℕ) : ℤ) + ((52 : ℕ) : ℤ) = 1075 := by norm_num
    rw [hbias]
    -- a power of two has the narrow interval above the least normal exponent
    have hnarrow : (decide (b.toNat % 2 ^ 52 = 0) && decide (b.toNat / 2 ^ 52 % 2048 > 1)) =
        decide (b.toNat % 2 ^ 52 + 2 ^ 52 = 2 ^ 52 ∧ -1074 < ((b.toNat / 2 ^ 52 % 2048 : ℕ) : ℤ) - 1075) := by
      rw [Bool.eq_iff_iff]
      simp only [Bool.and_eq_true, decide_eq_true_eq, Nat.add_eq_right]
      generalize b.toNat / 2 ^ 52 % 2048 = E
      omega
    rw [hnarrow]

/-- A zero of either sign is the time zero. -/
theorem ofFloat?_of_unpack_zero {x : Float} {s : Sign} (hx : x.toModel.unpack = .zero s) :
    SimTime.ofFloat? x = .ok ⟨0, 0⟩ := by
  have hexp := Number.toNat_unpackExponent x.toModel.toBits.toBitVec
  have hmant := toNat_unpackMantissa x.toModel.toBits.toBitVec
  have hbits : x.toBits.toNat = x.toModel.toBits.toBitVec.toNat := rfl
  unfold Float.Model.unpack UnpackedFloat.unpack at hx
  simp only [Format.exponentBias] at hx
  unfold SimTime.ofFloat? classify
  simp only [hbits, Nat.pow_eq]
  generalize x.toModel.toBits.toBitVec = b at hexp hmant hx
  -- only the zero exponent field with a zero fraction unpacks to a zero
  by_cases hall : @unpackExponent Format.binary64 b = -1#11
  · rw [if_pos hall] at hx
    split_ifs at hx
  rw [if_neg hall] at hx
  by_cases hzero : @unpackExponent Format.binary64 b = 0#11
  · rw [if_pos hzero] at hx
    by_cases hm0 : @unpackMantissa Format.binary64 b = 0#52
    · have h0 : b.toNat / 2 ^ 52 % 2048 = 0 := by rw [← hexp, hzero]; rfl
      have hf : b.toNat % 2 ^ 52 = 0 := by rw [← hmant, hm0]; rfl
      simp only [h0, hf, if_true, if_false, OfNat.zero_ne_ofNat]
    · rw [dif_neg hm0] at hx
      cases hx
  · rw [if_neg hzero] at hx
    cases hx

/-- The time of a finite nonzero float: its shortest decimal with the
float's sign. -/
theorem ofFloat?_of_unpack_finite {x : Float} {s : Sign} {m : ℕ} {e : ℤ} {h : 0 < m}
    (hx : x.toModel.unpack = .finite s m e h) :
    SimTime.ofFloat? x = .ok ⟨if signBit s then -((shortest (binaryOf m e)).1 : ℤ) else (shortest (binaryOf m e)).1,
      (shortest (binaryOf m e)).2⟩ := by
  unfold SimTime.ofFloat?
  rw [classify_of_unpack_finite hx]

/-! ## The time of a float reads back as the float -/

theorem nearestUnpacked_signed (s : Sign) {w : ℚ} (hw : 0 < w) :
    nearestUnpacked (if signBit s then -w else w) = roundedAt s (roundEven (w / 2 ^ quantumExp w)).toNat (quantumExp w) := by
  cases s <;> simp [signBit, nearestUnpacked, hw.ne', hw, abs_of_pos hw, not_lt.mpr hw.le]

/-- The shortest decimal of a canonical finite number lies in its rounding
interval. -/
theorem within_shortest {s : Sign} {m : ℕ} {e : ℤ} {h : 0 < m} (hc : Canonical (.finite s m e h)) (he : e ≤ 971) :
    (binaryOf m e).Within ((shortest (binaryOf m e)).1 * 10 ^ (shortest (binaryOf m e)).2) := by
  obtain ⟨hM, -, -⟩ := hc
  have hlog : m.log2 ≤ 52 := Nat.lt_succ_iff.mp ((Nat.log2_lt h.ne').mpr hM)
  refine shortest_within h hM (fun hn => ?_) (ten_zpow_decimalExponent_le h ?_)
  · simp only [binaryOf, decide_eq_true_eq] at hn
    exact hn.1
  · change (m.log2 : ℤ) + e ≤ 100000
    omega

/-- The time of a finite float reads back as the float: the double nearest
to it is the float itself. -/
theorem nearest_ofFloat? {x : Float} {t : SimTime} (hx : x.isFinite = true) (ht : SimTime.ofFloat? x = .ok t) :
    orderKey (nearest t.toRat) = key x := by
  unfold key
  cases hu : x.toModel.unpack with
  | zero s =>
    rw [ofFloat?_of_unpack_zero hu] at ht
    cases ht
    simp [SimTime.toRat, nearest, nearestUnpacked, overflow, orderKey]
  | finite s m e h =>
    rw [ofFloat?_of_unpack_finite hu] at ht
    cases ht
    obtain ⟨hc, he⟩ := canonical_of_unpack_finite hu
    rw [hu] at hc
    -- the decimal and its magnitude in the rounding interval
    set w : ℚ := (shortest (binaryOf m e)).1 * 10 ^ (shortest (binaryOf m e)).2
    have hw := within_shortest hc he
    have hw0 : 0 < w := hw.pos h
    have hround := roundedAt_of_within s hc hw
    have hval : SimTime.toRat ⟨if signBit s then -((shortest (binaryOf m e)).1 : ℤ) else (shortest (binaryOf m e)).1,
        (shortest (binaryOf m e)).2⟩ = if signBit s then -w else w := by
      cases s <;> simp [SimTime.toRat, signBit, w]
    rw [hval, nearest, nearestUnpacked_signed s hw0, hround, overflow, if_pos he]
  | infinity s => exact absurd (canonical_of_isFinite hx) (by rw [hu]; exact id)
  | notANumber => exact absurd (canonical_of_isFinite hx) (by rw [hu]; exact id)

/-- Two finite floats with one key, such as the two zeros, have one time. -/
theorem ofFloat?_eq_of_key_eq {x y : Float} (hx : x.isFinite = true) (hy : y.isFinite = true) (hk : key x = key y) :
    SimTime.ofFloat? x = SimTime.ofFloat? y := by
  have hcx := canonical_of_isFinite hx
  have hcy := canonical_of_isFinite hy
  unfold key at hk
  cases hux : x.toModel.unpack with
  | zero s =>
    cases huy : y.toModel.unpack with
    | zero t => rw [ofFloat?_of_unpack_zero hux, ofFloat?_of_unpack_zero huy]
    | finite t m e h =>
      rw [hux, huy] at hk
      cases t <;> simp [orderKey] at hk
    | infinity t => rw [huy] at hcy; exact hcy.elim
    | notANumber => rw [huy] at hcy; exact hcy.elim
  | finite s m e h =>
    cases huy : y.toModel.unpack with
    | zero t =>
      rw [hux, huy] at hk
      cases s <;> simp [orderKey] at hk
    | finite t m' e' h' =>
      rw [hux, huy] at hk
      -- the key determines the sign, the mantissa and the exponent
      have hsame : s = t ∧ m = m' ∧ e = e' := by
        cases s <;> cases t <;> simp [orderKey] at hk <;> exact ⟨rfl, hk.2, hk.1⟩
      obtain ⟨rfl, rfl, rfl⟩ := hsame
      rw [ofFloat?_of_unpack_finite hux, ofFloat?_of_unpack_finite huy]
    | infinity t => rw [huy] at hcy; exact hcy.elim
    | notANumber => rw [huy] at hcy; exact hcy.elim
  | infinity s => rw [hux] at hcx; exact hcx.elim
  | notANumber => rw [hux] at hcx; exact hcx.elim

/-- The times of two finite floats are in the order of the floats. -/
theorem ofFloat?_mono {x y : Float} {a b : SimTime} (hx : x.isFinite = true) (hy : y.isFinite = true) (hxy : x ≤ y)
    (ha : SimTime.ofFloat? x = .ok a) (hb : SimTime.ofFloat? y = .ok b) : a ≤ b := by
  rw [SimTime.le_iff_toRat]
  by_contra hlt
  rw [not_le] at hlt
  -- reading the times back would put `y` at or below `x`
  have hyx : key y ≤ key x := by
    rw [← nearest_ofFloat? hx ha, ← nearest_ofFloat? hy hb]
    exact nearest_mono hlt.le
  have hxy' : key x ≤ key y := (le_iff_key (isNaN_of_isFinite hx) (isNaN_of_isFinite hy)).mp hxy
  have heq := ofFloat?_eq_of_key_eq hx hy (le_antisymm hxy' hyx)
  rw [ha, hb] at heq
  cases heq
  exact lt_irrefl _ hlt

/-- Scaling a time that is not negative by floats keeps the order of the
floats. -/
theorem mulFloat?_mono {d : SimTime} (hd : 0 ≤ d.toRat) {f g : Float} {u v : SimTime} (hfg : f ≤ g)
    (hu : d.mulFloat? f = .ok u) (hv : d.mulFloat? g = .ok v) : u ≤ v := by
  unfold SimTime.mulFloat? at hu hv
  cases ha : SimTime.ofFloat? f with
  | error e => simp [ha, Except.map] at hu
  | ok a =>
    cases hb : SimTime.ofFloat? g with
    | error e => simp [hb, Except.map] at hv
    | ok b =>
      simp only [ha, hb, Except.map, Except.ok.injEq] at hu hv
      subst hu hv
      have hab := SimTime.le_iff_toRat.mp
        (ofFloat?_mono (isFinite_of_ofFloat?_ok ha) (isFinite_of_ofFloat?_ok hb) hfg ha hb)
      rw [SimTime.le_iff_toRat, SimTime.toRat_mul, SimTime.toRat_mul]
      exact mul_le_mul_of_nonneg_left hab hd

end EventChart.Float
