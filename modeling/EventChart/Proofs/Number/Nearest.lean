import Mathlib
import EventChart.Proofs.Number.Rounding
/-!
# Rounding to the nearest binary64 number

Every float operation computes a mantissa and an exponent for its exact
result, with round and sticky bits that say where the exact value lies past
the last bit, and `roundWithAccuracy` rounds them to nearest, ties to even.
This module says what that rounding returns as a function of the exact value
alone, so that operations can be compared through their exact results.

* `roundEven x` is the integer nearest to `x`, the even one at a tie;
  `roundEven_mono`: it does not decrease.
* `Locates em x`: the mantissa of `em` is `⌊x⌋`, its round bit says that `x`
  is at least half a unit above it, and its sticky bit that `x` is neither
  the mantissa nor the half-way point.  `Locates.shiftRight` keeps it through
  every shift and `Locates.roundedMantissa` reads off `roundEven x`.
* `quantumExp v` is the exponent of the last place of the number nearest to
  a positive `v`, and `roundedAt` the unpacked float a rounded mantissa at an
  exponent gives.  `roundWithAccuracy_eq_nearest` and `round_eq_nearest`:
  rounding returns `roundedAt` of `roundEven (v / 2 ^ quantumExp v)`.
-/

open Float.Model Float.Model.UnpackedFloat

namespace EventChart.Float

/-! ## The integer nearest to a rational -/

/-- The integer nearest to `x`; of two at the same distance, the even one. -/
def roundEven (x : ℚ) : ℤ :=
  if x - ⌊x⌋ < 1 / 2 then ⌊x⌋
  else if 1 / 2 < x - ⌊x⌋ then ⌊x⌋ + 1
  else ⌊x⌋ + ⌊x⌋ % 2

theorem roundEven_bounds (x : ℚ) : ⌊x⌋ ≤ roundEven x ∧ roundEven x ≤ ⌊x⌋ + 1 := by
  have h0 := Int.emod_nonneg ⌊x⌋ (show (2 : ℤ) ≠ 0 by norm_num)
  have h1 := Int.emod_lt_of_pos ⌊x⌋ (show (0 : ℤ) < 2 by norm_num)
  unfold roundEven
  split_ifs <;> omega

@[simp] theorem roundEven_intCast (k : ℤ) : roundEven k = k := by
  simp [roundEven]

@[simp] theorem roundEven_natCast (n : ℕ) : roundEven n = n := by
  simpa using roundEven_intCast n

@[simp] theorem roundEven_zero : roundEven 0 = 0 := by
  simpa using roundEven_intCast 0

/-- Rounding to the nearest integer never reverses an order. -/
theorem roundEven_mono {x y : ℚ} (h : x ≤ y) : roundEven x ≤ roundEven y := by
  have hfloor := Int.floor_mono h
  rcases hfloor.lt_or_eq with hlt | heq
  · -- an integer lies between them
    have := (roundEven_bounds x).2
    have := (roundEven_bounds y).1
    omega
  · -- the same integer part: the fractional parts decide
    have hfrac : x - ⌊y⌋ ≤ y - ⌊y⌋ := by linarith
    have h0 := Int.emod_nonneg ⌊y⌋ (show (2 : ℤ) ≠ 0 by norm_num)
    have h1 := Int.emod_lt_of_pos ⌊y⌋ (show (0 : ℤ) < 2 by norm_num)
    unfold roundEven
    rw [heq]
    split_ifs <;> first | omega | linarith

theorem roundEven_nonneg {x : ℚ} (hx : 0 ≤ x) : 0 ≤ roundEven x := by
  have := roundEven_mono hx
  rwa [show (0 : ℚ) = ((0 : ℤ) : ℚ) by simp, roundEven_intCast] at this

/-! ## What a mantissa and its round and sticky bits say -/

/-- What an extended mantissa says about the exact value `x`, counted in
units of its last place: the mantissa is the integer part of `x`, the round
bit is set when `x` is at least half a unit above it, and the sticky bit is
clear only when `x` is the mantissa itself or exactly half a unit above. -/
def Locates (em : ExtendedMantissa) (x : ℚ) : Prop :=
  if em.roundBit then
    if em.stickyBit then (em.mantissa : ℚ) + 1 / 2 < x ∧ x < em.mantissa + 1 else x = em.mantissa + 1 / 2
  else if em.stickyBit then (em.mantissa : ℚ) < x ∧ x < em.mantissa + 1 / 2 else x = em.mantissa

/-- An exact mantissa locates itself. -/
theorem locates_exact (m : ℕ) : Locates (ExtendedMantissa.ofMantissaAndAccuracy m .exact) m := by
  simp [Locates, ExtendedMantissa.ofMantissaAndAccuracy]

theorem Locates.bounds {em : ExtendedMantissa} {x : ℚ} (h : Locates em x) :
    (em.mantissa : ℚ) ≤ x ∧ x < em.mantissa + 1 := by
  rcases em with ⟨m, _ | _, _ | _⟩ <;> simp only [Locates, Bool.false_eq_true, ↓reduceIte] at h ⊢
  · exact ⟨h.ge, by linarith⟩
  · exact ⟨h.1.le, by linarith⟩
  · exact ⟨by linarith, by linarith⟩
  · exact ⟨by linarith, h.2⟩

theorem Locates.floor {em : ExtendedMantissa} {x : ℚ} (h : Locates em x) : ⌊x⌋ = em.mantissa :=
  Int.floor_eq_iff.mpr ⟨by exact_mod_cast h.bounds.1, by exact_mod_cast h.bounds.2⟩

/-- Shifting out one bit halves the unit: the bit shifted out becomes the
round bit, and the old round and sticky bits the sticky bit. -/
theorem Locates.shiftRightOne {em : ExtendedMantissa} {x : ℚ} (h : Locates em x) :
    Locates em.shiftRightOne (x / 2) := by
  rcases em with ⟨m, r, s⟩
  have hm := Nat.div_add_mod m 2
  have hone : ((1 : ℕ) != 0) = true := rfl
  rcases Nat.mod_two_eq_zero_or_one m with hbit | hbit
  · -- an even mantissa: half the exact value stays below the next half unit
    have hc : (m : ℚ) = 2 * (m / 2 : ℕ) := by
      rw [hbit] at hm
      exact_mod_cast hm.symm
    cases r <;> cases s <;>
      simp only [Locates, ExtendedMantissa.shiftRightOne, hbit, Bool.false_eq_true, ↓reduceIte,
        Bool.or_false, Bool.or_true, bne_self_eq_false] at h ⊢
    · linarith
    · exact ⟨by linarith, by linarith⟩
    · exact ⟨by linarith, by linarith⟩
    · exact ⟨by linarith, by linarith⟩
  · -- an odd mantissa: half the exact value is at least half a unit up
    have hc : (m : ℚ) = 2 * (m / 2 : ℕ) + 1 := by
      rw [hbit] at hm
      exact_mod_cast hm.symm
    cases r <;> cases s <;>
      simp only [Locates, ExtendedMantissa.shiftRightOne, hbit, hone, Bool.false_eq_true, ↓reduceIte,
        Bool.or_false, Bool.or_true] at h ⊢
    · linarith
    · exact ⟨by linarith, by linarith⟩
    · exact ⟨by linarith, by linarith⟩
    · exact ⟨by linarith, by linarith⟩

theorem Locates.shiftRight {em : ExtendedMantissa} {x : ℚ} (h : Locates em x) (k : ℕ) :
    Locates (em >>> k) (x / 2 ^ k) := by
  induction k with
  | zero => simpa [shiftRight_zero] using h
  | succ k ih =>
    rw [shiftRight_succ, pow_succ, ← div_div]
    exact ih.shiftRightOne

/-- Rounding the mantissa by its round and sticky bits rounds the exact value
to the nearest integer, ties to even. -/
theorem Locates.roundedMantissa {em : ExtendedMantissa} {x : ℚ} (h : Locates em x) :
    (em.roundedMantissa : ℤ) = roundEven x := by
  have hfloor := h.floor
  unfold roundEven
  rw [hfloor, Int.cast_natCast]
  rcases em with ⟨m, _ | _, _ | _⟩ <;>
    simp only [Locates, Bool.false_eq_true, ↓reduceIte] at h <;>
    simp only [ExtendedMantissa.roundedMantissa, ExtendedMantissa.accuracy, Accuracy.roundToNearestEven]
  · -- exact
    rw [if_pos (by rw [h]; norm_num)]
  · -- below the half-way point
    rw [if_pos (by linarith)]
  · -- exactly half-way
    rw [if_neg (by rw [h]; norm_num), if_neg (by rw [h]; norm_num)]
    push_cast
    omega
  · -- above the half-way point
    rw [if_neg (by linarith), if_pos (by linarith)]
    push_cast
    rfl

/-! ## The exponent of the nearest number -/

/-- The exponent of the last place of the binary64 number nearest to a
positive `v`: 52 places below its leading bit, and never below the least
subnormal exponent. -/
def quantumExp (v : ℚ) : ℤ := max (Int.log 2 v - 52) (-1074)

theorem zpow_log_le {v : ℚ} (hv : 0 < v) : (2 : ℚ) ^ Int.log 2 v ≤ v := by
  simpa using Int.zpow_log_le_self (b := 2) (by norm_num) hv

theorem lt_zpow_log_add_one (v : ℚ) : v < (2 : ℚ) ^ (Int.log 2 v + 1) := by
  simpa using Int.lt_zpow_succ_log_self (b := 2) (by norm_num) v

/-- A positive number between two consecutive powers of two has the lower
one's exponent as its logarithm. -/
theorem log_eq_of_bounds {v : ℚ} {k : ℤ} (hlo : (2 : ℚ) ^ k ≤ v) (hhi : v < (2 : ℚ) ^ (k + 1)) :
    Int.log 2 v = k := by
  have hv : 0 < v := lt_of_lt_of_le (by positivity) hlo
  have h₁ : k ≤ Int.log 2 v := (Int.zpow_le_iff_le_log (b := 2) (by norm_num) hv).mp (by simpa using hlo)
  have h₂ : Int.log 2 v < k + 1 := (Int.lt_zpow_iff_log_lt (b := 2) (by norm_num) hv).mp (by simpa using hhi)
  omega

theorem quantumExp_mono {v w : ℚ} (hv : 0 < v) (h : v ≤ w) : quantumExp v ≤ quantumExp w := by
  have := Int.log_mono_right (b := 2) hv h
  simp only [quantumExp]
  omega

/-- The leading bit of a mantissa that locates `v / 2 ^ e` is the leading
bit of `v`. -/
theorem log_eq_of_locates {em : ExtendedMantissa} {e : ℤ} {v : ℚ} (hloc : Locates em (v / 2 ^ e))
    (hm : 0 < em.mantissa) : Int.log 2 v = em.mantissa.log2 + e := by
  obtain ⟨hlo, hhi⟩ := hloc.bounds
  have hpow : (2 : ℚ) ^ (em.mantissa.log2 : ℤ) ≤ em.mantissa := by
    rw [zpow_natCast]
    exact_mod_cast Nat.log2_self_le hm.ne'
  have hpow' : (em.mantissa : ℚ) + 1 ≤ 2 ^ ((em.mantissa.log2 : ℤ) + 1) := by
    rw [← Nat.cast_one, ← Nat.cast_add, show ((em.mantissa.log2 : ℤ) + 1) = ((em.mantissa.log2 + 1 : ℕ) : ℤ) by
      push_cast; ring, zpow_natCast]
    exact_mod_cast Nat.lt_log2_self
  have h2e : (0 : ℚ) < 2 ^ e := by positivity
  refine log_eq_of_bounds ?_ ?_
  · rw [zpow_add₀ two_ne_zero]
    calc (2 : ℚ) ^ (em.mantissa.log2 : ℤ) * 2 ^ e ≤ v / 2 ^ e * 2 ^ e := by gcongr; linarith
      _ = v := div_mul_cancel₀ v h2e.ne'
  · rw [show (em.mantissa.log2 : ℤ) + e + 1 = (em.mantissa.log2 + 1) + e by ring, zpow_add₀ two_ne_zero]
    calc v = v / 2 ^ e * 2 ^ e := (div_mul_cancel₀ v h2e.ne').symm
      _ < 2 ^ ((em.mantissa.log2 : ℤ) + 1) * 2 ^ e := by gcongr; linarith

/-- The leading bit of `m * 2 ^ e` is that of `m`, moved by `e`. -/
theorem log_natCast_mul_zpow {m : ℕ} (hm : 0 < m) (e : ℤ) : Int.log 2 ((m : ℚ) * 2 ^ e) = m.log2 + e := by
  have hloc : Locates (.ofMantissaAndAccuracy m .exact) ((m : ℚ) * 2 ^ e / 2 ^ e) := by
    rw [mul_div_cancel_right₀ _ (by positivity)]
    exact locates_exact m
  simpa [mantissa_ofMantissaAndAccuracy] using log_eq_of_locates hloc hm

/-- The first shift of the rounding step lands on the exponent of the
nearest number, provided the computation did not start above it. -/
theorem exponent_firstShift {m : ℕ} {e : ℤ} {acc : Accuracy} {v : ℚ} (hv : 0 < v)
    (hloc : Locates (.ofMantissaAndAccuracy m acc) (v / 2 ^ e)) (he : e ≤ quantumExp v) :
    e + firstShift m e = quantumExp v := by
  rcases Nat.eq_zero_or_pos m with rfl | hm
  · -- no integer bits: `v` lies below `2 ^ e`
    have hlt : v < 2 ^ e := by
      have := hloc.bounds.2
      rw [mantissa_ofMantissaAndAccuracy, Nat.cast_zero, zero_add, div_lt_one (by positivity)] at this
      exact this
    have hlog : Int.log 2 v < e := (Int.lt_zpow_iff_log_lt (b := 2) (by norm_num) hv).mp (by simpa using hlt)
    simp only [firstShift, targetExponent_binary64, totalExponent, Nat.log2_zero, quantumExp] at he ⊢
    omega
  · have hlog := log_eq_of_locates hloc (by rwa [mantissa_ofMantissaAndAccuracy])
    rw [mantissa_ofMantissaAndAccuracy] at hlog
    simp only [firstShift, targetExponent_binary64, totalExponent, quantumExp, hlog] at he ⊢
    omega

/-! ## What the rounding step returns -/

/-- The unpacked float that a rounded mantissa `M` at exponent `T` gives: a
zero, `M` itself, or `2 ^ 52` one exponent up when rounding carried into a
54th bit. -/
def roundedAt (s : Sign) (M : ℕ) (T : ℤ) : UnpackedFloat :=
  if h : M = 0 then .zero s
  else if M < 2 ^ 53 then .finite s M T (Nat.pos_of_ne_zero h)
  else .finite s (2 ^ 52) (T + 1) (by positivity)

/-- Rounding a mantissa and exponent whose round and sticky bits locate the
exact value `v` gives the number nearest to `v`, as long as the computation
did not start above its exponent. -/
theorem roundWithAccuracy_eq_nearest (s : Sign) {m : ℕ} {e : ℤ} {acc : Accuracy} {v : ℚ} (hv : 0 < v)
    (hloc : Locates (.ofMantissaAndAccuracy m acc) (v / 2 ^ e)) (he : e ≤ quantumExp v) :
    roundWithAccuracy .binary64 s m e acc =
      roundedAt s (roundEven (v / 2 ^ quantumExp v)).toNat (quantumExp v) := by
  have hexp := exponent_firstShift hv hloc he
  have hshift := hloc.shiftRight (firstShift m e)
  rw [div_div, ← zpow_natCast, ← zpow_add₀ two_ne_zero, hexp] at hshift
  rw [roundWithAccuracy_eq, ← hshift.roundedMantissa, Int.toNat_natCast, ← hexp]
  rfl

/-- Rounding an exact mantissa `m` at exponent `e` gives the number nearest
to `m * 2 ^ e`. -/
theorem round_eq_nearest (s : Sign) {m : ℕ} (hm : 0 < m) (e : ℤ) :
    UnpackedFloat.round .binary64 s m e =
      roundedAt s (roundEven (m * 2 ^ e / 2 ^ quantumExp (m * 2 ^ e))).toNat (quantumExp (m * 2 ^ e)) := by
  set k := (e - Format.binary64.targetExponent (totalExponent m e)).toNat with hk
  have hv : (0 : ℚ) < m * 2 ^ e := by positivity
  have hlog := log_natCast_mul_zpow hm e
  -- the exponent is first lowered to the target, which is the nearest number's
  have hloc : Locates (.ofMantissaAndAccuracy (m <<< k) .exact) ((m : ℚ) * 2 ^ e / 2 ^ (e - k)) := by
    rw [mul_div_assoc, ← zpow_sub₀ two_ne_zero, sub_sub_cancel, zpow_natCast, Nat.shiftLeft_eq]
    exact_mod_cast locates_exact (m * 2 ^ k)
  have he : e - (k : ℤ) ≤ quantumExp (m * 2 ^ e) := by
    simp only [hk, quantumExp, hlog, targetExponent_binary64, totalExponent]
    omega
  exact roundWithAccuracy_eq_nearest s hv hloc he

/-! ## The rounded value does not decrease -/

theorem div_zpow_quantumExp_lt (v : ℚ) : v / 2 ^ quantumExp v < 2 ^ 53 := by
  rw [div_lt_iff₀ (by positivity), ← zpow_natCast, ← zpow_add₀ two_ne_zero]
  calc v < 2 ^ (Int.log 2 v + 1) := lt_zpow_log_add_one v
    _ ≤ 2 ^ (((53 : ℕ) : ℤ) + quantumExp v) := by
      apply zpow_le_zpow_right₀ (by norm_num)
      simp only [quantumExp]
      omega

theorem le_div_zpow_quantumExp {v : ℚ} (hv : 0 < v) (hT : -1074 < quantumExp v) :
    2 ^ 52 ≤ v / 2 ^ quantumExp v := by
  rw [le_div_iff₀ (by positivity), ← zpow_natCast, ← zpow_add₀ two_ne_zero]
  calc (2 : ℚ) ^ (((52 : ℕ) : ℤ) + quantumExp v) = 2 ^ Int.log 2 v := by
        congr 1
        simp only [quantumExp] at hT ⊢
        omega
    _ ≤ v := zpow_log_le hv

/-- The mantissa of the nearest number is at most `2 ^ 53`, which is reached
only when rounding carries into a new bit. -/
theorem roundEven_quantum_le (v : ℚ) : roundEven (v / 2 ^ quantumExp v) ≤ 2 ^ 53 := by
  have := roundEven_mono (div_zpow_quantumExp_lt v).le
  rwa [show ((2 : ℚ) ^ 53) = ((2 ^ 53 : ℤ) : ℚ) by norm_num, roundEven_intCast] at this

/-- Above the subnormal range the mantissa of the nearest number is normal. -/
theorem le_roundEven_quantum {v : ℚ} (hv : 0 < v) (hT : -1074 < quantumExp v) :
    2 ^ 52 ≤ roundEven (v / 2 ^ quantumExp v) := by
  have := roundEven_mono (le_div_zpow_quantumExp hv hT)
  rwa [show ((2 : ℚ) ^ 52) = ((2 ^ 52 : ℤ) : ℚ) by norm_num, roundEven_intCast] at this

/-- The value of the number nearest to a positive `v` does not decrease
with `v`: at one exponent rounding keeps the order, and a larger exponent
starts above every number of a smaller one. -/
theorem roundEven_quantum_mono {v w : ℚ} (hv : 0 < v) (h : v ≤ w) :
    (roundEven (v / 2 ^ quantumExp v) : ℚ) * 2 ^ quantumExp v ≤
      roundEven (w / 2 ^ quantumExp w) * 2 ^ quantumExp w := by
  have hw : 0 < w := lt_of_lt_of_le hv h
  rcases (quantumExp_mono hv h).lt_or_eq with hlt | heq
  · have hv53 : (roundEven (v / 2 ^ quantumExp v) : ℚ) ≤ 2 ^ 53 := by
      exact_mod_cast roundEven_quantum_le v
    have hw52 : (2 : ℚ) ^ 52 ≤ roundEven (w / 2 ^ quantumExp w) := by
      exact_mod_cast le_roundEven_quantum hw (by simp only [quantumExp] at hlt ⊢; omega)
    calc (roundEven (v / 2 ^ quantumExp v) : ℚ) * 2 ^ quantumExp v ≤ 2 ^ 53 * 2 ^ quantumExp v := by
          gcongr
      _ = 2 ^ 52 * 2 ^ (quantumExp v + 1) := by rw [zpow_add_one₀ two_ne_zero]; ring
      _ ≤ 2 ^ 52 * 2 ^ quantumExp w := by
          gcongr 2 ^ 52 * ?_
          exact zpow_le_zpow_right₀ (by norm_num) (by omega)
      _ ≤ roundEven (w / 2 ^ quantumExp w) * 2 ^ quantumExp w := by gcongr
  · rw [← heq]
    gcongr
    exact_mod_cast roundEven_mono (div_le_div_of_nonneg_right h (by positivity))

/-! ## Canonical floats: their order is the order of their values -/

/-- The number a zero or a finite unpacked float stands for. -/
def value : UnpackedFloat → ℚ
  | .finite s m e _ => (s.apply m : ℚ) * 2 ^ e
  | _ => 0

/-- An unpacked float in the form unpacking gives: a zero, or a finite number
with a mantissa below `2 ^ 53` at an exponent no less than the least one,
normal (at least `2 ^ 52`) unless at the least exponent. -/
def Canonical : UnpackedFloat → Prop
  | .zero _ => True
  | .finite _ m e _ => m < 2 ^ 53 ∧ -1074 ≤ e ∧ (2 ^ 52 ≤ m ∨ e = -1074)
  | _ => False

/-- A number at a larger exponent is larger, when the larger exponent is
normal and the smaller one's mantissa has at most 53 bits. -/
theorem mul_zpow_lt_of_exponent_lt {m₁ m₂ : ℕ} {e₁ e₂ : ℤ} (h₁ : m₁ < 2 ^ 53) (h₂ : 2 ^ 52 ≤ m₂)
    (he : e₁ < e₂) : (m₁ : ℚ) * 2 ^ e₁ < m₂ * 2 ^ e₂ := by
  calc (m₁ : ℚ) * 2 ^ e₁ < 2 ^ 53 * 2 ^ e₁ := by gcongr; exact_mod_cast h₁
    _ = 2 ^ 52 * 2 ^ (e₁ + 1) := by rw [zpow_add_one₀ two_ne_zero]; ring
    _ ≤ 2 ^ 52 * 2 ^ e₂ := by
      gcongr 2 ^ 52 * ?_
      exact zpow_le_zpow_right₀ (by norm_num) (by omega)
    _ ≤ m₂ * 2 ^ e₂ := by gcongr; exact_mod_cast h₂

/-- Two canonical magnitudes compare by exponent, then by mantissa. -/
theorem mul_zpow_le_iff {m₁ m₂ : ℕ} {e₁ e₂ : ℤ}
    (h₁ : m₁ < 2 ^ 53 ∧ -1074 ≤ e₁ ∧ (2 ^ 52 ≤ m₁ ∨ e₁ = -1074))
    (h₂ : m₂ < 2 ^ 53 ∧ -1074 ≤ e₂ ∧ (2 ^ 52 ≤ m₂ ∨ e₂ = -1074)) :
    (m₁ : ℚ) * 2 ^ e₁ ≤ m₂ * 2 ^ e₂ ↔ e₁ < e₂ ∨ e₁ = e₂ ∧ m₁ ≤ m₂ := by
  constructor
  · intro hle
    by_contra hne
    -- otherwise the first one is strictly the larger
    rcases lt_or_eq_of_le (not_lt.mp fun h => hne (.inl h)) with hlt | heq
    · exact absurd hle (not_le.mpr (mul_zpow_lt_of_exponent_lt h₂.1 (h₁.2.2.resolve_right (by omega)) hlt))
    · subst heq
      have hm : m₂ < m₁ := by
        by_contra hm
        exact hne (.inr ⟨rfl, not_lt.mp hm⟩)
      have : (m₂ : ℚ) * 2 ^ e₂ < m₁ * 2 ^ e₂ := by gcongr
      linarith
  · rintro (hlt | ⟨rfl, hle⟩)
    · exact (mul_zpow_lt_of_exponent_lt h₁.1 (h₂.2.2.resolve_right (by omega)) hlt).le
    · gcongr

/-- On canonical floats the order of the keys is the order of the values. -/
theorem orderKey_le_iff {a b : UnpackedFloat} (ha : Canonical a) (hb : Canonical b) :
    orderKey a ≤ orderKey b ↔ value a ≤ value b := by
  -- the class decides unless both are negative or both positive
  rcases a with _ | _ | s₁ | ⟨_ | _, m₁, e₁, hm₁⟩ <;> simp only [Canonical] at ha <;>
    rcases b with _ | _ | s₂ | ⟨_ | _, m₂, e₂, hm₂⟩ <;> simp only [Canonical] at hb <;>
    simp [orderKey, value, Sign.apply, Prod.Lex.toLex_le_toLex]
  · positivity
  · positivity
  · positivity
  · -- two negative numbers: the order of their magnitudes reversed
    rw [mul_zpow_le_iff hb ha, eq_comm]
  · have : (0 : ℚ) < m₁ * 2 ^ e₁ := by positivity
    have : (0 : ℚ) < m₂ * 2 ^ e₂ := by positivity
    linarith
  · positivity
  · have : (0 : ℚ) < m₁ * 2 ^ e₁ := by positivity
    have : (0 : ℚ) < m₂ * 2 ^ e₂ := by positivity
    linarith
  · rw [mul_zpow_le_iff ha hb]

/-! ## The nearest number -/

/-- What packing makes of a canonical number: past the largest exponent of
the format, an infinity of its sign. -/
def overflow : UnpackedFloat → UnpackedFloat
  | .finite s m e h => if e ≤ 971 then .finite s m e h else .infinity s
  | f => f

/-- The number nearest to `v`, ties to even, as rounding leaves it before
packing: a zero for zero, otherwise the rounded magnitude with the sign of
`v`. -/
def nearestUnpacked (v : ℚ) : UnpackedFloat :=
  if v = 0 then .zero .positive
  else roundedAt (if v < 0 then .negative else .positive) (roundEven (|v| / 2 ^ quantumExp |v|)).toNat
    (quantumExp |v|)

/-- The binary64 number nearest to `v`, ties to even; past the largest
finite numbers an infinity. -/
def nearest (v : ℚ) : UnpackedFloat := overflow (nearestUnpacked v)

theorem canonical_roundedAt (s : Sign) {v : ℚ} (hv : 0 < v) :
    Canonical (roundedAt s (roundEven (v / 2 ^ quantumExp v)).toNat (quantumExp v)) := by
  have hle := roundEven_quantum_le v
  have hT : -1074 ≤ quantumExp v := le_max_right _ _
  unfold roundedAt
  split_ifs with hzero hsmall
  · trivial
  · -- below the carry: normal unless at the least exponent
    refine ⟨hsmall, hT, ?_⟩
    rcases hT.lt_or_eq with hlt | heq
    · have := le_roundEven_quantum hv hlt
      left
      omega
    · exact .inr heq.symm
  · exact ⟨by norm_num, by omega, .inl le_rfl⟩

theorem canonical_nearestUnpacked (v : ℚ) : Canonical (nearestUnpacked v) := by
  unfold nearestUnpacked
  by_cases hv : v = 0
  · rw [if_pos hv]
    trivial
  · rw [if_neg hv]
    exact canonical_roundedAt _ (abs_pos.mpr hv)

/-- A rounded mantissa of at most `2 ^ 53` keeps its value, a carry included. -/
theorem value_roundedAt (s : Sign) {M : ℕ} (hM : M ≤ 2 ^ 53) (T : ℤ) :
    value (roundedAt s M T) = (s.apply M : ℚ) * 2 ^ T := by
  unfold roundedAt
  split_ifs with hzero hsmall
  · cases s <;> simp [value, hzero, Sign.apply]
  · rfl
  · have : M = 2 ^ 53 := by omega
    subst this
    cases s <;> simp [value, Sign.apply, zpow_add_one₀] <;> ring

/-- The magnitude of the number nearest to a positive `v`. -/
def nearestMagnitude (v : ℚ) : ℚ := roundEven (v / 2 ^ quantumExp v) * 2 ^ quantumExp v

theorem nearestMagnitude_nonneg {v : ℚ} (hv : 0 ≤ v) : 0 ≤ nearestMagnitude v := by
  have := roundEven_nonneg (div_nonneg hv (zpow_nonneg (show (0 : ℚ) ≤ 2 by norm_num) (quantumExp v)))
  unfold nearestMagnitude
  positivity

theorem value_nearestUnpacked (v : ℚ) :
    value (nearestUnpacked v) = if v < 0 then -nearestMagnitude (-v) else nearestMagnitude v := by
  unfold nearestUnpacked
  have hcast (w : ℚ) (hw : 0 ≤ w) : ((roundEven (w / 2 ^ quantumExp w)).toNat : ℚ) = roundEven (w / 2 ^ quantumExp w) := by
    have := roundEven_nonneg (div_nonneg hw (zpow_nonneg (show (0 : ℚ) ≤ 2 by norm_num) (quantumExp w)))
    exact_mod_cast Int.toNat_of_nonneg this
  have hle (w : ℚ) : (roundEven (w / 2 ^ quantumExp w)).toNat ≤ 2 ^ 53 := by
    have := roundEven_quantum_le w
    omega
  split_ifs with hzero hneg hneg
  · exact absurd (hzero ▸ hneg) (lt_irrefl 0)
  · simp [hzero, value, nearestMagnitude]
  · rw [value_roundedAt _ (hle _), abs_of_neg hneg]
    simp only [Sign.apply, Int.cast_neg, Int.cast_natCast, hcast (-v) (by linarith), nearestMagnitude, neg_mul]
  · rw [value_roundedAt _ (hle _), abs_of_nonneg (not_lt.mp hneg)]
    simp only [Sign.apply, Int.cast_natCast, hcast v (not_lt.mp hneg), nearestMagnitude]

/-- The magnitude of the number nearest to a positive `v` does not decrease
with `v`. -/
theorem nearestMagnitude_mono {v w : ℚ} (hv : 0 < v) (h : v ≤ w) :
    nearestMagnitude v ≤ nearestMagnitude w :=
  roundEven_quantum_mono hv h

/-- The value of the nearest number does not decrease. -/
theorem value_nearestUnpacked_mono {v w : ℚ} (h : v ≤ w) :
    value (nearestUnpacked v) ≤ value (nearestUnpacked w) := by
  rw [value_nearestUnpacked, value_nearestUnpacked]
  by_cases hw : w < 0
  · -- both negative: the magnitudes compare the other way
    rw [if_pos (h.trans_lt hw), if_pos hw, neg_le_neg_iff]
    exact nearestMagnitude_mono (by linarith) (by linarith)
  · rw [if_neg hw]
    by_cases hv : v < 0
    · rw [if_pos hv]
      have := nearestMagnitude_nonneg (show 0 ≤ -v by linarith)
      have := nearestMagnitude_nonneg (not_lt.mp hw)
      linarith
    · rw [if_neg hv]
      rcases (not_lt.mp hv).lt_or_eq with hpos | hzero
      · exact nearestMagnitude_mono hpos h
      · subst hzero
        simpa [nearestMagnitude] using nearestMagnitude_nonneg (not_lt.mp hw)

/-- Packing keeps the order of canonical numbers: an overflow goes to the
end of the order its sign points to. -/
theorem orderKey_overflow_le {a b : UnpackedFloat} (ha : Canonical a) (hb : Canonical b)
    (h : orderKey a ≤ orderKey b) : orderKey (overflow a) ≤ orderKey (overflow b) := by
  rcases a with _ | _ | s₁ | ⟨_ | _, m₁, e₁, hm₁⟩ <;> simp only [Canonical] at ha <;>
    rcases b with _ | _ | s₂ | ⟨_ | _, m₂, e₂, hm₂⟩ <;> simp only [Canonical] at hb
  case zero.zero => exact h
  -- an overflow goes to the end its sign points to
  all_goals
    simp only [overflow]
    split_ifs <;> simp_all [orderKey, Prod.Lex.toLex_le_toLex]
  all_goals omega

/-- Rounding to the nearest binary64 number never reverses an order. -/
theorem nearest_mono {v w : ℚ} (h : v ≤ w) : orderKey (nearest v) ≤ orderKey (nearest w) :=
  orderKey_overflow_le (canonical_nearestUnpacked v) (canonical_nearestUnpacked w)
    ((orderKey_le_iff (canonical_nearestUnpacked v) (canonical_nearestUnpacked w)).mpr
      (value_nearestUnpacked_mono h))

end EventChart.Float
