import EventChart.Proofs.Number.Nearest
import EventChart.Proofs.Number.Exponents
/-!
# Subtraction and division keep the order

The timeline interpolates between two events with a difference and a
quotient of floats.  Each of them rounds its exact result to the nearest
binary64 number, and rounding to nearest never reverses an order
(`nearest_mono`), so the results of these operations keep the order of their
arguments wherever they are defined.

* `canonical_of_isFinite` and `overflow_unpack`: the unpacked form of a
  finite float is canonical, and packing leaves it as it is;
  `unpack_pack_canonical` reads any canonical number back through packing, an
  overflow as an infinity.
* `val x` is the number a finite float stands for, and `le_iff_val_le` says
  that floats compare as their numbers.
* `key_sub` and `key_div`: a difference and a quotient of finite floats are
  the numbers nearest to the exact difference and quotient; `divCore` finds
  the quotient's bits with the accuracy of its remainder (`locates_fraction`).
* `sub_le_sub_of_le`, `div_le_div_of_le` and `zero_lt_sub_of_lt`: the
  monotonicity facts the interpolation needs, infinities included.
-/

open Float.Model Float.Model.UnpackedFloat

namespace EventChart.Float

/-! ## Unpacked floats are canonical -/

/-- Every finite float unpacks to a canonical number whose exponent fits
the format. -/
theorem canonical_of_unpack_finite {f : Float.Model} {s : Sign} {M : ℕ} {E : ℤ} {h : 0 < M}
    (hf : f.unpack = .finite s M E h) : Canonical f.unpack ∧ E ≤ 971 := by
  obtain ⟨hM, hE, hE'⟩ := unpack_finite_bounds hf
  refine ⟨?_, hE'⟩
  rw [hf]
  refine ⟨hM, hE, ?_⟩
  unfold Float.Model.unpack UnpackedFloat.unpack at hf
  simp only [Format.exponentBias] at hf
  split_ifs at hf with h1 h2 h3 h4
  · -- a subnormal number sits at the least exponent
    simp only [UnpackedFloat.finite.injEq] at hf
    obtain ⟨-, -, rfl⟩ := hf
    have h0 : (@unpackExponent Format.binary64 f.toBits.toBitVec).toNat = 0 := by simp [h3]
    right
    simp [h0]
  · -- a normal number has its implicit leading bit
    simp only [UnpackedFloat.finite.injEq] at hf
    obtain ⟨-, rfl, -⟩ := hf
    left
    rw [BitVec.toNat_append]
    simp only [BitVec.toNat_ofNat, Nat.pow_one, Nat.one_mod, Nat.shiftLeft_eq, one_mul]
    exact Nat.left_le_or

theorem canonical_of_isFinite {x : Float} (hx : x.isFinite = true) : Canonical x.toModel.unpack := by
  change x.toModel.unpack.isFinite = true at hx
  cases hf : x.toModel.unpack with
  | zero s => trivial
  | finite s M E h => rw [← hf]; exact (canonical_of_unpack_finite hf).1
  | infinity s => rw [hf] at hx; cases hx
  | notANumber => rw [hf] at hx; cases hx

/-- Packing leaves the unpacked form of a float as it is. -/
theorem overflow_unpack (f : Float.Model) : overflow f.unpack = f.unpack := by
  cases hf : f.unpack with
  | finite s M E h => simp [overflow, (canonical_of_unpack_finite hf).2]
  | zero s => rfl
  | infinity s => rfl
  | notANumber => rfl

/-! ## Packing a canonical number -/

theorem unpack_pack_infinity (s : Sign) : (Float.Model.pack (.infinity s)).unpack = .infinity s := by
  cases s <;> rfl

/-- A subnormal number packs and unpacks to itself. -/
theorem unpack_pack_subnormal (s : Sign) {M : ℕ} (hpos : 0 < M) (hM : M < 2 ^ 52) :
    (Float.Model.pack (.finite s M (-1074) hpos)).unpack = .finite s M (-1074) hpos := by
  have hlog : M.log2 < 52 := (Nat.log2_lt hpos.ne').mpr hM
  have hfield : BitVec.ofNat 52 M ≠ 0#52 := fun h0 => by
    have := congrArg BitVec.toNat h0
    rw [BitVec.toNat_ofNat, Nat.mod_eq_of_lt hM] at this
    simp at this
    omega
  have hne : (0#11 : BitVec 11) ≠ -1#11 := by decide
  unfold Float.Model.unpack Float.Model.pack
  simp only [UnpackedFloat.pack]
  rw [if_neg (by decide), if_neg (by simp [Format.mantissaBits]; omega)]
  unfold UnpackedFloat.unpack
  simp only [unpackMantissa_packComponents, unpackExponent_packComponents, unpackSign_packComponents,
    ofBitVec_toBitVec, hne, hfield, if_false, if_true]
  simp [BitVec.toNat_ofNat, Format.exponentBias]
  exact hM

/-- An exponent past the format's largest packs to an infinity. -/
theorem unpack_pack_overflow (s : Sign) {M : ℕ} {E : ℤ} (hpos : 0 < M) (hE : 971 < E) :
    (Float.Model.pack (.finite s M E hpos)).unpack = .infinity s := by
  have hbias : Format.binary64.exponentBias = 1023 := rfl
  unfold Float.Model.unpack Float.Model.pack
  simp only [UnpackedFloat.pack, hbias, Nat.cast_ofNat]
  rw [if_pos (by omega)]
  exact unpack_pack_infinity s

/-- Packing a canonical number and unpacking it gives the number, or an
infinity of its sign past the largest exponent. -/
theorem unpack_pack_canonical {f : UnpackedFloat} (hf : Canonical f) :
    (Float.Model.pack f).unpack = overflow f := by
  cases f with
  | zero s => exact unpack_pack_zero s
  | finite s M E hpos =>
    obtain ⟨hM, hE, hnormal⟩ := hf
    by_cases hfit : E ≤ 971
    · rw [overflow, if_pos hfit]
      rcases hnormal with hn | rfl
      · exact unpack_pack_normal s hpos hn hM hE hfit
      · by_cases hn : 2 ^ 52 ≤ M
        · exact unpack_pack_normal s hpos hn hM hE hfit
        · exact unpack_pack_subnormal s hpos (by omega)
    · rw [overflow, if_neg hfit]
      exact unpack_pack_overflow s hpos (by omega)
  | infinity s => exact hf.elim
  | notANumber => exact hf.elim

/-! ## Canonical numbers are their own nearest numbers -/

theorem quantumExp_of_canonical {s : Sign} {M : ℕ} {E : ℤ} {h : 0 < M} (hf : Canonical (.finite s M E h)) :
    quantumExp (M * 2 ^ E) = E := by
  obtain ⟨hM, hE, hnormal⟩ := hf
  have hlog := log_natCast_mul_zpow h E
  have hlt : M.log2 < 53 := (Nat.log2_lt h.ne').mpr hM
  simp only [quantumExp, hlog]
  rcases hnormal with hn | rfl
  · have : 52 ≤ M.log2 := (Nat.le_log2 h.ne').mpr hn
    omega
  · omega

/-- A canonical number that fits the format is the number nearest to its
own value. -/
theorem nearest_value {f : UnpackedFloat} (hf : Canonical f) (ho : overflow f = f) :
    orderKey (nearest (value f)) = orderKey f := by
  cases f with
  | zero s => rfl
  | finite s M E h =>
    have hq := quantumExp_of_canonical hf
    have hv : (M : ℚ) * 2 ^ E ≠ 0 := by positivity
    have hround : (roundEven ((M : ℚ) * 2 ^ E / 2 ^ E)).toNat = M := by
      rw [mul_div_cancel_right₀ _ (by positivity), roundEven_natCast, Int.toNat_natCast]
    have hat : roundedAt s M E = .finite s M E h := by
      rw [roundedAt, dif_neg h.ne', if_pos hf.1]
    have hpos : (0 : ℚ) < M * 2 ^ E := by positivity
    cases s with
    | negative =>
      have hval : value (.finite .negative M E h) = -(M * 2 ^ E) := by simp [value, Sign.apply]
      rw [hval, nearest, nearestUnpacked, if_neg (neg_ne_zero.mpr hv), if_pos (neg_neg_of_pos hpos), abs_neg,
        abs_of_pos hpos, hq, hround, hat, ho]
    | positive =>
      have hval : value (.finite .positive M E h) = M * 2 ^ E := by simp [value, Sign.apply]
      rw [hval, nearest, nearestUnpacked, if_neg hv, if_neg (not_lt.mpr hpos.le), abs_of_pos hpos, hq, hround,
        hat, ho]
  | infinity s => exact hf.elim
  | notANumber => exact hf.elim

/-! ## Differences -/

/-- Normalizing an exact signed mantissa at an exponent gives the number
nearest to it. -/
theorem normalize_eq_nearestUnpacked (S E : ℤ) :
    normalize .binary64 S E .positive = nearestUnpacked (S * 2 ^ E) := by
  unfold UnpackedFloat.normalize
  rcases lt_trichotomy S 0 with hneg | rfl | hpos
  · -- a negative mantissa: its magnitude rounded, with a negative sign
    have hm : 0 < (-S).toNat := by omega
    have hcast : (((-S).toNat : ℕ) : ℚ) = -S := by exact_mod_cast Int.toNat_of_nonneg (show 0 ≤ -S by omega)
    have habs : |(S : ℚ) * 2 ^ E| = ((-S).toNat : ℚ) * 2 ^ E := by
      rw [abs_mul, abs_of_neg (by exact_mod_cast hneg), abs_of_pos (by positivity), hcast]
    have hlt : (S : ℚ) * 2 ^ E < 0 := mul_neg_of_neg_of_pos (by exact_mod_cast hneg) (by positivity)
    rw [show compare S 0 = .lt from Int.compare_eq_lt.mpr hneg, round_eq_nearest .negative hm, nearestUnpacked,
      if_neg hlt.ne, if_pos hlt, habs]
  · simp [nearestUnpacked]
  · have hm : 0 < S.toNat := by omega
    have hcast : ((S.toNat : ℕ) : ℚ) = S := by exact_mod_cast Int.toNat_of_nonneg hpos.le
    have hgt : (0 : ℚ) < S * 2 ^ E := mul_pos (by exact_mod_cast hpos) (by positivity)
    rw [show compare S 0 = .gt from Int.compare_eq_gt.mpr hpos, round_eq_nearest .positive hm, nearestUnpacked,
      if_neg hgt.ne', if_neg (not_lt.mpr hgt.le), abs_of_pos hgt, hcast]

/-- Lowering the exponent of a signed mantissa keeps its value. -/
theorem value_decreaseExponent (s : Sign) (m : ℕ) {e t : ℤ} (ht : t ≤ e) :
    ((s.apply (decreaseExponent m e t).1 : ℤ) : ℚ) * 2 ^ t = (s.apply m : ℚ) * 2 ^ e := by
  have hk : ((e - t).toNat : ℤ) = e - t := Int.toNat_of_nonneg (by omega)
  have hpow : (2 : ℚ) ^ ((e - t).toNat : ℕ) * 2 ^ t = 2 ^ e := by
    rw [← zpow_natCast, ← zpow_add₀ two_ne_zero, hk, sub_add_cancel]
  cases s <;> simp only [decreaseExponent, Nat.shiftLeft_eq, Sign.apply, Int.cast_neg, Int.cast_natCast,
    Nat.cast_mul, Nat.cast_pow, Nat.cast_ofNat] <;> push_cast <;> rw [← hpow] <;> ring

/-- The difference of two canonical numbers that fit the format reads back,
through packing, as the number nearest to their exact difference. -/
theorem orderKey_pack_sub {a b : UnpackedFloat} (ha : Canonical a) (hb : Canonical b) (hoa : overflow a = a)
    (hob : overflow b = b) :
    orderKey (Float.Model.pack (UnpackedFloat.sub .binary64 a b)).unpack = orderKey (nearest (value a - value b)) := by
  cases a with
  | zero s₁ =>
    cases b with
    | zero s₂ =>
      simp only [UnpackedFloat.sub]
      split_ifs <;> simp [unpack_pack_zero, nearest, nearestUnpacked, overflow, value, orderKey]
    | finite s₂ m₂ e₂ h₂ =>
      -- the negation of `b`, exactly
      have hneg : Canonical (.finite (-s₂) m₂ e₂ h₂) := hb
      have ho : overflow (.finite (-s₂) m₂ e₂ h₂) = .finite (-s₂) m₂ e₂ h₂ := by
        simpa [overflow] using hob
      have hval : value (.zero s₁) - value (.finite s₂ m₂ e₂ h₂) = value (.finite (-s₂) m₂ e₂ h₂) := by
        cases s₂ <;> simp [value, Sign.apply]
      simp only [UnpackedFloat.sub]
      rw [unpack_pack_canonical hneg, ho, hval, nearest_value hneg ho]
    | infinity s => exact hb.elim
    | notANumber => exact hb.elim
  | finite s₁ m₁ e₁ h₁ =>
    cases b with
    | zero s₂ =>
      simp only [UnpackedFloat.sub]
      rw [unpack_pack_canonical ha, hoa, show value (.zero s₂) = 0 from rfl, sub_zero, nearest_value ha hoa]
    | finite s₂ m₂ e₂ h₂ =>
      -- both at the smaller exponent, then normalized
      simp only [UnpackedFloat.sub]
      rw [normalize_eq_nearestUnpacked, unpack_pack_canonical (canonical_nearestUnpacked _)]
      congr 3
      push_cast
      rw [sub_mul, value_decreaseExponent s₁ m₁ (min_le_left e₁ e₂),
        value_decreaseExponent s₂ m₂ (min_le_right e₁ e₂)]
      rfl
    | infinity s => exact hb.elim
    | notANumber => exact hb.elim
  | infinity s => exact ha.elim
  | notANumber => exact ha.elim

/-- The number a finite float stands for. -/
def val (x : Float) : ℚ := value x.toModel.unpack

/-- Finite floats compare as the numbers they stand for. -/
theorem le_iff_val_le {x y : Float} (hx : x.isFinite = true) (hy : y.isFinite = true) :
    x ≤ y ↔ val x ≤ val y := by
  rw [le_iff_key (isNaN_of_isFinite hx) (isNaN_of_isFinite hy)]
  exact orderKey_le_iff (canonical_of_isFinite hx) (canonical_of_isFinite hy)

/-- The difference of two finite floats is the number nearest to their
exact difference. -/
theorem key_sub {x y : Float} (hx : x.isFinite = true) (hy : y.isFinite = true) :
    key (x - y) = orderKey (nearest (val x - val y)) :=
  orderKey_pack_sub (canonical_of_isFinite hx) (canonical_of_isFinite hy) (overflow_unpack _) (overflow_unpack _)

/-! ## Quotients -/

/-- The integer part of a quotient, with the accuracy of its remainder,
locates the quotient. -/
theorem locates_fraction (A D : ℕ) (hD : 0 < D) :
    Locates (.ofMantissaAndAccuracy (A / D) (accuracyOfFraction (A % D) D)) ((A : ℚ) / D) := by
  have hDq : (0 : ℚ) < D := by exact_mod_cast hD
  have hsplit : (A : ℚ) / D = (A / D : ℕ) + ((A % D : ℕ) : ℚ) / D := by
    have hcast : (D : ℚ) * (A / D : ℕ) + (A % D : ℕ) = A := by exact_mod_cast Nat.div_add_mod A D
    field_simp
    linarith
  have hrem : ((A % D : ℕ) : ℚ) < D := by exact_mod_cast Nat.mod_lt A hD
  have hfrac : (0 : ℚ) < ((A % D : ℕ) : ℚ) / D ∨ A % D = 0 := by
    rcases Nat.eq_zero_or_pos (A % D) with h0 | hpos
    · exact .inr h0
    · exact .inl (by positivity)
  unfold accuracyOfFraction
  by_cases hr : A % D = 0
  · rw [if_pos hr]
    simp [Locates, ExtendedMantissa.ofMantissaAndAccuracy, hsplit, hr]
  · rw [if_neg hr]
    have hpos : (0 : ℚ) < ((A % D : ℕ) : ℚ) / D := hfrac.resolve_right hr
    have hlt1 : ((A % D : ℕ) : ℚ) / D < 1 := (div_lt_one hDq).mpr hrem
    -- the remainder against half the divisor decides the round and sticky bits
    rcases lt_trichotomy (2 * (A % D)) D with hlt | heq | hgt
    · rw [show compare (2 * (A % D)) D = .lt from Nat.compare_eq_lt.mpr hlt]
      have : ((A % D : ℕ) : ℚ) / D < 1 / 2 := by
        rw [div_lt_div_iff₀ hDq (by norm_num)]
        exact_mod_cast (show A % D * 2 < 1 * D by omega)
      simp only [Locates, ExtendedMantissa.ofMantissaAndAccuracy, Bool.false_eq_true, ↓reduceIte, hsplit]
      constructor <;> linarith
    · rw [show compare (2 * (A % D)) D = .eq from Nat.compare_eq_eq.mpr heq]
      have : ((A % D : ℕ) : ℚ) / D = 1 / 2 := by
        rw [div_eq_div_iff hDq.ne' (by norm_num)]
        exact_mod_cast (show A % D * 2 = 1 * D by omega)
      simp only [Locates, ExtendedMantissa.ofMantissaAndAccuracy, Bool.false_eq_true, ↓reduceIte, hsplit, this]
    · rw [show compare (2 * (A % D)) D = .gt from Nat.compare_eq_gt.mpr hgt]
      have : 1 / 2 < ((A % D : ℕ) : ℚ) / D := by
        rw [div_lt_div_iff₀ (by norm_num) hDq]
        exact_mod_cast (show 1 * D < A % D * 2 by omega)
      simp only [Locates, ExtendedMantissa.ofMantissaAndAccuracy, ↓reduceIte, hsplit]
      constructor <;> linarith

/-- The exponent `divCore` starts at is no larger than that of the nearest
number to the quotient. -/
theorem divCore_exponent_le {m₁ m₂ : ℕ} (h₁ : 0 < m₁) (h₂ : 0 < m₂) (e₁ e₂ : ℤ) :
    min (e₁ - e₂) (Format.binary64.targetExponent (totalExponent m₁ e₁ - totalExponent m₂ e₂)) ≤
      quantumExp ((m₁ * 2 ^ e₁) / (m₂ * 2 ^ e₂)) := by
  have hn : (0 : ℚ) < m₁ * 2 ^ e₁ := by positivity
  have hd : (0 : ℚ) < m₂ * 2 ^ e₂ := by positivity
  have hlo := zpow_log_le hn
  have hhi := lt_zpow_log_add_one ((m₂ : ℚ) * 2 ^ e₂)
  rw [log_natCast_mul_zpow h₁] at hlo
  rw [log_natCast_mul_zpow h₂] at hhi
  -- the quotient is at least `2 ^ (log₂ m₁ + e₁ - log₂ m₂ - e₂ - 1)`
  have hq : (2 : ℚ) ^ ((m₁.log2 + e₁) - (m₂.log2 + e₂ + 1)) ≤ (m₁ * 2 ^ e₁) / (m₂ * 2 ^ e₂) := by
    rw [zpow_sub₀ two_ne_zero]
    exact div_le_div₀ hn.le hlo hd hhi.le
  have hlog : (m₁.log2 + e₁) - (m₂.log2 + e₂ + 1) ≤ Int.log 2 ((m₁ * 2 ^ e₁) / (m₂ * 2 ^ e₂) : ℚ) :=
    (Int.zpow_le_iff_le_log (b := 2) (by norm_num) (div_pos hn hd)).mp (by simpa using hq)
  simp only [targetExponent_binary64, totalExponent, quantumExp]
  omega

/-- The quotient of two finite nonzero numbers is the number nearest to
their exact quotient. -/
theorem div_finite_eq {s₁ s₂ : Sign} {m₁ m₂ : ℕ} {e₁ e₂ : ℤ} (h₁ : 0 < m₁) (h₂ : 0 < m₂) :
    UnpackedFloat.div .binary64 (.finite s₁ m₁ e₁ h₁) (.finite s₂ m₂ e₂ h₂) =
      nearestUnpacked (value (.finite s₁ m₁ e₁ h₁) / value (.finite s₂ m₂ e₂ h₂)) := by
  set v : ℚ := (m₁ * 2 ^ e₁) / (m₂ * 2 ^ e₂) with hvdef
  have hv : 0 < v := by positivity
  set T := min (e₁ - e₂) (Format.binary64.targetExponent (totalExponent m₁ e₁ - totalExponent m₂ e₂)) with hT
  set k := (e₁ - e₂ - T).toNat with hkdef
  have hk : (k : ℤ) = e₁ - e₂ - T := Int.toNat_of_nonneg (by omega)
  -- the quotient is computed `k` bits wide, where `v / 2 ^ T = m₁ * 2 ^ k / m₂`
  have hscaled : v / 2 ^ T = ((m₁ <<< k : ℕ) : ℚ) / m₂ := by
    rw [Nat.shiftLeft_eq, Nat.cast_mul, Nat.cast_pow, Nat.cast_ofNat, ← zpow_natCast, hk, hvdef,
      zpow_sub₀ two_ne_zero, zpow_sub₀ two_ne_zero]
    field_simp
  have hloc := locates_fraction (m₁ <<< k) m₂ h₂
  rw [← hscaled] at hloc
  have hround := roundWithAccuracy_eq_nearest (s₁ / s₂) hv hloc (divCore_exponent_le h₁ h₂ e₁ e₂)
  simp only [UnpackedFloat.div, divCore]
  rw [← hT, ← hkdef, hround]
  -- the sign of the quotient is the quotient of the signs
  have hpos : (0 : ℚ) < m₁ * 2 ^ e₁ / (m₂ * 2 ^ e₂) := hv
  cases s₁ <;> cases s₂ <;> simp only [value, Sign.apply, Int.cast_neg, Int.cast_natCast, neg_mul, neg_div,
    div_neg, neg_neg] <;> simp only [nearestUnpacked, neg_eq_zero, abs_neg, abs_of_pos hpos, hpos.ne', if_false,
    neg_lt_zero, hpos, if_true, not_lt.mpr hpos.le] <;> rfl

/-- The quotient of a canonical number by a nonzero one reads back, through
packing, as the number nearest to their exact quotient. -/
theorem orderKey_pack_div {a b : UnpackedFloat} (ha : Canonical a) (hb : Canonical b) (hb0 : value b ≠ 0) :
    orderKey (Float.Model.pack (UnpackedFloat.div .binary64 a b)).unpack = orderKey (nearest (value a / value b)) := by
  cases b with
  | zero s₂ => exact absurd rfl hb0
  | finite s₂ m₂ e₂ h₂ =>
    cases a with
    | zero s₁ =>
      simp only [UnpackedFloat.div]
      rw [unpack_pack_zero]
      simp [value, nearest, nearestUnpacked, overflow, orderKey]
    | finite s₁ m₁ e₁ h₁ =>
      rw [div_finite_eq h₁ h₂, unpack_pack_canonical (canonical_nearestUnpacked _)]
      rfl
    | infinity s => exact ha.elim
    | notANumber => exact ha.elim
  | infinity s => exact hb.elim
  | notANumber => exact hb.elim

/-- The quotient of two finite floats, the divisor not zero, is the number
nearest to their exact quotient. -/
theorem key_div {x y : Float} (hx : x.isFinite = true) (hy : y.isFinite = true) (hy0 : val y ≠ 0) :
    key (x / y) = orderKey (nearest (val x / val y)) :=
  orderKey_pack_div (canonical_of_isFinite hx) (canonical_of_isFinite hy) hy0

/-! ## Special values -/

theorem unpack_pack_nan : (Float.Model.pack .notANumber).unpack = .notANumber := rfl

/-- Packing a canonical number never gives NaN. -/
theorem unpack_pack_ne_nan {f : UnpackedFloat} (hf : Canonical f) : (Float.Model.pack f).unpack ≠ .notANumber := by
  rw [unpack_pack_canonical hf]
  cases f with
  | finite s m e h =>
    simp only [overflow]
    split_ifs <;> simp
  | zero s => simp [overflow]
  | infinity s => exact hf.elim
  | notANumber => exact hf.elim

/-- A float that is neither NaN nor finite is an infinity. -/
theorem exists_infinity {x : Float} (hn : x.isNaN = false) (hf : x.isFinite = false) :
    ∃ s, x.toModel.unpack = .infinity s := by
  change x.toModel.unpack.isFinite = false at hf
  cases hx : x.toModel.unpack with
  | infinity s => exact ⟨s, rfl⟩
  | notANumber => exact absurd hx (isNaN_eq_false_iff.mp hn)
  | zero s => rw [hx] at hf; cases hf
  | finite s m e h => rw [hx] at hf; cases hf

theorem isFinite_of_unpack {x : Float} (hx : Canonical x.toModel.unpack) : x.isFinite = true := by
  change x.toModel.unpack.isFinite = true
  cases h : x.toModel.unpack with
  | zero s => rfl
  | finite s m e hm => rfl
  | infinity s => rw [h] at hx; exact hx.elim
  | notANumber => rw [h] at hx; exact hx.elim

/-- Negative infinity is the least float and positive infinity the largest. -/
theorem orderKey_ge_bot (f : UnpackedFloat) : orderKey (.infinity .negative) ≤ orderKey f := by
  rcases f with ⟨_ | _⟩ | _ | ⟨_ | _⟩ | ⟨_ | _, m, e, hm⟩ <;>
    simp [orderKey, Prod.Lex.toLex_le_toLex]

theorem orderKey_le_top (f : UnpackedFloat) : orderKey f ≤ orderKey (.infinity .positive) := by
  rcases f with ⟨_ | _⟩ | _ | ⟨_ | _⟩ | ⟨_ | _, m, e, hm⟩ <;>
    simp [orderKey, Prod.Lex.toLex_le_toLex]

theorem sub_infinity {f : UnpackedFloat} (hf : Canonical f) (s : Sign) :
    UnpackedFloat.sub .binary64 f (.infinity s) = .infinity (-s) := by
  cases f with
  | zero z => rfl
  | finite z m e h => rfl
  | infinity z => exact hf.elim
  | notANumber => exact hf.elim

theorem infinity_sub {f : UnpackedFloat} (hf : Canonical f) (s : Sign) :
    UnpackedFloat.sub .binary64 (.infinity s) f = .infinity s := by
  cases f with
  | zero z => rfl
  | finite z m e h => rfl
  | infinity z => exact hf.elim
  | notANumber => exact hf.elim

/-- The difference of two canonical numbers is canonical before packing. -/
theorem canonical_sub {a b : UnpackedFloat} (ha : Canonical a) (hb : Canonical b) :
    Canonical (UnpackedFloat.sub .binary64 a b) := by
  cases a with
  | zero s₁ =>
    cases b with
    | zero s₂ =>
      simp only [UnpackedFloat.sub]
      split_ifs <;> trivial
    | finite s₂ m₂ e₂ h₂ => exact hb
    | infinity s => exact hb.elim
    | notANumber => exact hb.elim
  | finite s₁ m₁ e₁ h₁ =>
    cases b with
    | zero s₂ => exact ha
    | finite s₂ m₂ e₂ h₂ =>
      simp only [UnpackedFloat.sub]
      rw [normalize_eq_nearestUnpacked]
      exact canonical_nearestUnpacked _
    | infinity s => exact hb.elim
    | notANumber => exact hb.elim
  | infinity s => exact ha.elim
  | notANumber => exact ha.elim

theorem isNaN_sub {x y : Float} (hx : x.isFinite = true) (hy : y.isFinite = true) : (x - y).isNaN = false :=
  isNaN_eq_false_iff.mpr (unpack_pack_ne_nan (canonical_sub (canonical_of_isFinite hx) (canonical_of_isFinite hy)))

/-- Only a finite dividend has a finite quotient. -/
theorem isFinite_of_isFinite_div {n d : Float} (h : (n / d).isFinite = true) : n.isFinite = true := by
  change (Float.Model.pack (UnpackedFloat.div .binary64 n.toModel.unpack d.toModel.unpack)).unpack.isFinite = true at h
  change n.toModel.unpack.isFinite = true
  -- an infinite or NaN dividend gives an infinite or NaN quotient
  cases hn : n.toModel.unpack with
  | zero s => rfl
  | finite s m e hm => rfl
  | infinity s =>
    rw [hn] at h
    cases hd : d.toModel.unpack <;> rw [hd] at h <;>
      simp [UnpackedFloat.div, unpack_pack_infinity, unpack_pack_nan, UnpackedFloat.isFinite] at h
  | notANumber =>
    rw [hn] at h
    simp [UnpackedFloat.div, unpack_pack_nan, UnpackedFloat.isFinite] at h

/-! ## Monotonicity -/

/-- Every finite float is a whole multiple of the least subnormal `2⁻¹⁰⁷⁴`. -/
theorem value_mem_grid {f : UnpackedFloat} (hf : Canonical f) : ∃ n : ℤ, value f = n * 2 ^ (-1074 : ℤ) := by
  cases f with
  | zero s => exact ⟨0, by simp [value]⟩
  | finite s m e h =>
    obtain ⟨-, he, -⟩ := hf
    refine ⟨s.apply m * 2 ^ (e + 1074).toNat, ?_⟩
    have hpow : (2 : ℚ) ^ (e + 1074).toNat * 2 ^ (-1074 : ℤ) = 2 ^ e := by
      rw [← zpow_natCast, ← zpow_add₀ two_ne_zero, Int.toNat_of_nonneg (by omega), add_neg_cancel_right]
    simp only [value, Int.cast_mul, Int.cast_pow, Int.cast_ofNat]
    rw [mul_assoc, hpow]
  | infinity s => exact hf.elim
  | notANumber => exact hf.elim

/-- Two distinct finite floats are at least the least subnormal apart. -/
theorem le_value_sub_of_lt {a b : UnpackedFloat} (ha : Canonical a) (hb : Canonical b) (h : value a < value b) :
    2 ^ (-1074 : ℤ) ≤ value b - value a := by
  obtain ⟨na, hna⟩ := value_mem_grid ha
  obtain ⟨nb, hnb⟩ := value_mem_grid hb
  rw [hna, hnb] at h ⊢
  have hlt : na < nb := by exact_mod_cast lt_of_mul_lt_mul_right h (by positivity)
  have hone : (1 : ℚ) ≤ nb - na := by exact_mod_cast (show 1 ≤ nb - na by omega)
  calc (2 : ℚ) ^ (-1074 : ℤ) = 1 * 2 ^ (-1074 : ℤ) := (one_mul _).symm
    _ ≤ (nb - na) * 2 ^ (-1074 : ℤ) := by gcongr
    _ = nb * 2 ^ (-1074 : ℤ) - na * 2 ^ (-1074 : ℤ) := sub_mul _ _ _

/-- The least positive float, `2⁻¹⁰⁷⁴`, is its own nearest number. -/
theorem nearest_least_subnormal :
    orderKey (nearest (2 ^ (-1074 : ℤ))) = orderKey (.finite .positive 1 (-1074) Nat.one_pos) := by
  have hc : Canonical (.finite .positive 1 (-1074) Nat.one_pos) := ⟨by norm_num, le_rfl, .inr rfl⟩
  have h := nearest_value hc (by simp [overflow])
  simpa [value, Sign.apply] using h

theorem lt_of_lt_of_le {a b c : Float} (hab : a < b) (hbc : b ≤ c) : a < c := by
  obtain ⟨ha, hb⟩ := isNaN_of_lt hab
  have hc := (isNaN_of_le hbc).2
  rw [lt_iff_key ha hb] at hab
  rw [le_iff_key hb hc] at hbc
  exact (lt_iff_key ha hc).mpr (hab.trans_le hbc)

/-- Subtracting a float that is not NaN keeps the order of finite floats. -/
theorem sub_le_sub_of_le {x₁ x₂ a : Float} (hx₁ : x₁.isFinite = true) (hx₂ : x₂.isFinite = true)
    (ha : a.isNaN = false) (h : x₁ ≤ x₂) : x₁ - a ≤ x₂ - a := by
  cases hfa : a.isFinite with
  | true =>
    rw [le_iff_key (isNaN_sub hx₁ hfa) (isNaN_sub hx₂ hfa), key_sub hx₁ hfa, key_sub hx₂ hfa]
    have hle := (le_iff_val_le hx₁ hx₂).mp h
    exact nearest_mono (by linarith)
  | false =>
    -- subtracting an infinity gives the opposite infinity, whatever is subtracted from
    obtain ⟨s, hs⟩ := exists_infinity ha hfa
    have hinf : ∀ {x : Float}, x.isFinite = true → (x - a).toModel.unpack = .infinity (-s) := fun hx => by
      change (Float.Model.pack (UnpackedFloat.sub .binary64 _ a.toModel.unpack)).unpack = _
      rw [hs, sub_infinity (canonical_of_isFinite hx), unpack_pack_infinity]
    have hnan : ∀ {x : Float}, x.isFinite = true → (x - a).isNaN = false := fun hx =>
      isNaN_eq_false_iff.mpr (by rw [hinf hx]; simp)
    rw [le_iff_key (hnan hx₁) (hnan hx₂), key, key, hinf hx₁, hinf hx₂]

/-- Dividing by a positive float keeps the order of floats wherever both
quotients are finite. -/
theorem div_le_div_of_le {n₁ n₂ d : Float} (hn : n₁ ≤ n₂) (hd : 0 < d) (h₁ : (n₁ / d).isFinite = true)
    (h₂ : (n₂ / d).isFinite = true) : n₁ / d ≤ n₂ / d := by
  have hf₁ := isFinite_of_isFinite_div h₁
  have hf₂ := isFinite_of_isFinite_div h₂
  have hdn := (isNaN_of_lt hd).2
  rw [lt_iff_key (isNaN_of_isFinite (by rfl)) hdn] at hd
  simp only [key, unpack_zero_float] at hd
  rw [le_iff_key (isNaN_of_isFinite h₁) (isNaN_of_isFinite h₂)]
  -- a positive divisor is a positive finite number or positive infinity
  cases hdu : d.toModel.unpack with
  | finite s m e hm =>
    cases s with
    | negative => rw [hdu] at hd; simp [orderKey, Prod.Lex.toLex_lt_toLex] at hd
    | positive =>
      have hpos : 0 < val d := by
        rw [val, hdu]
        simp only [value, Sign.apply, Int.cast_natCast]
        exact mul_pos (by exact_mod_cast hm) (by positivity)
      have hdf : d.isFinite = true := by
        change d.toModel.unpack.isFinite = true
        rw [hdu]
        rfl
      rw [key_div hf₁ hdf hpos.ne', key_div hf₂ hdf hpos.ne']
      exact nearest_mono (div_le_div_of_nonneg_right ((le_iff_val_le hf₁ hf₂).mp hn) hpos.le)
  | infinity s =>
    cases s with
    | negative => rw [hdu] at hd; exact absurd hd (not_lt.mpr (orderKey_ge_bot _))
    | positive =>
      -- a finite number over positive infinity is a zero
      have hzero : ∀ {n : Float}, n.isFinite = true → key (n / d) = orderKey (.zero .positive) := fun {n} hn => by
        change orderKey (Float.Model.pack (UnpackedFloat.div .binary64 _ d.toModel.unpack)).unpack = _
        have hc := canonical_of_isFinite hn
        rw [hdu]
        cases hnu : n.toModel.unpack with
        | zero z => simp [UnpackedFloat.div, unpack_pack_zero, orderKey]
        | finite z m e hm => simp [UnpackedFloat.div, unpack_pack_zero, orderKey]
        | infinity z => rw [hnu] at hc; exact hc.elim
        | notANumber => rw [hnu] at hc; exact hc.elim
      rw [hzero hf₁, hzero hf₂]
  | zero s => rw [hdu] at hd; simp [orderKey] at hd
  | notANumber => exact absurd hdu (isNaN_eq_false_iff.mp hdn)

theorem zero_lt_of_unpack_infinity {x : Float} (hx : x.toModel.unpack = .infinity .positive) : 0 < x := by
  rw [lt_iff_key (isNaN_of_isFinite (by rfl)) (isNaN_eq_false_iff.mpr (by rw [hx]; simp))]
  simp [key, hx, unpack_zero_float, orderKey, Prod.Lex.toLex_lt_toLex]

/-- The difference of two floats in order is positive. -/
theorem zero_lt_sub_of_lt {a b : Float} (h : a < b) : 0 < b - a := by
  obtain ⟨ha, hb⟩ := isNaN_of_lt h
  rw [lt_iff_key ha hb] at h
  -- neither is the infinity at the wrong end
  have hnot_top : a.toModel.unpack ≠ .infinity .positive := fun hs =>
    absurd h (not_lt.mpr (by simpa only [key, hs] using orderKey_le_top b.toModel.unpack))
  have hnot_bot : b.toModel.unpack ≠ .infinity .negative := fun ht =>
    absurd h (not_lt.mpr (by simpa only [key, ht] using orderKey_ge_bot a.toModel.unpack))
  -- the difference of `b` and `a` as packed
  have hdiff : (b - a).toModel.unpack =
      (Float.Model.pack (UnpackedFloat.sub .binary64 b.toModel.unpack a.toModel.unpack)).unpack := rfl
  cases hfa : a.isFinite <;> cases hfb : b.isFinite
  · -- negative infinity, then positive infinity
    obtain ⟨s, hs⟩ := exists_infinity ha hfa
    obtain ⟨t, ht⟩ := exists_infinity hb hfb
    cases s with
    | positive => exact absurd hs hnot_top
    | negative =>
      cases t with
      | negative => exact absurd ht hnot_bot
      | positive =>
        refine zero_lt_of_unpack_infinity ?_
        rw [hdiff, hs, ht]
        rfl
  · -- a finite float minus negative infinity
    obtain ⟨s, hs⟩ := exists_infinity ha hfa
    cases s with
    | positive => exact absurd hs hnot_top
    | negative =>
      refine zero_lt_of_unpack_infinity ?_
      rw [hdiff, hs, sub_infinity (canonical_of_isFinite hfb)]
      exact unpack_pack_infinity _
  · -- positive infinity minus a finite float
    obtain ⟨t, ht⟩ := exists_infinity hb hfb
    cases t with
    | negative => exact absurd ht hnot_bot
    | positive =>
      refine zero_lt_of_unpack_infinity ?_
      rw [hdiff, ht, infinity_sub (canonical_of_isFinite hfa)]
      exact unpack_pack_infinity _
  · -- two finite floats are at least the least subnormal apart
    have hlt : val a < val b := by
      rw [← not_le, ← le_iff_val_le hfb hfa, ← not_lt_iff_le ha hb, not_not, lt_iff_key ha hb]
      exact h
    have hgap := le_value_sub_of_lt (canonical_of_isFinite hfa) (canonical_of_isFinite hfb) hlt
    rw [lt_iff_key (isNaN_of_isFinite (by rfl)) (isNaN_sub hfb hfa), key_sub hfb hfa]
    calc key 0 < orderKey (.finite .positive 1 (-1074) Nat.one_pos) := by
          simp [key, unpack_zero_float, orderKey, Prod.Lex.toLex_lt_toLex]
      _ = orderKey (nearest (2 ^ (-1074 : ℤ))) := nearest_least_subnormal.symm
      _ ≤ orderKey (nearest (val b - val a)) := nearest_mono hgap

end EventChart.Float
