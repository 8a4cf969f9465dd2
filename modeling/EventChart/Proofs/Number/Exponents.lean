import EventChart.Proofs.Number.Rounding
/-!
# Exponents of float results

The timeline interpolates between the coordinates of two events with a
difference and a quotient of floats, and a float that is not finite stops the
conversion to a time.  This module bounds the exponents that subtraction and
division give, and shows that small integers add and subtract exactly.

* `ExpAtMost B f` says that `f` is a zero, or a finite number at an exponent
  from the least one up to `B`.  `round_expAtMost`, `normalize_expAtMost`,
  `sub_expAtMost` and `div_expAtMost` give such bounds for each step an
  operation takes, and `expAtMost_pack` carries them through packing, so
  that `isFinite_of_expAtMost` reads off a finite float.
* `IsInt x n` says that the float `x` is exactly the integer `n`.
  `IsInt.add` and `IsInt.sub` keep it for integers of at most 53 bits.
* `isFinite_interpolation`: between two consecutive integers, the fraction
  `(x - a) / (b - a)` of a finite `x` is finite.
-/

open Float.Model Float.Model.UnpackedFloat

namespace EventChart.Float

/-! ## Bits of unpacked floats -/

/-- Every finite float unpacks to a mantissa below `2^53` at an exponent of
the format. -/
theorem unpack_finite_bounds {f : Float.Model} {s : Sign} {M : ℕ} {E : ℤ} {h : 0 < M}
    (hf : f.unpack = .finite s M E h) : M < 2 ^ 53 ∧ -1074 ≤ E ∧ E ≤ 971 := by
  unfold Float.Model.unpack UnpackedFloat.unpack at hf
  have hexp : (@unpackExponent Format.binary64 f.toBits.toBitVec).toNat < 2048 :=
    (@unpackExponent Format.binary64 f.toBits.toBitVec).isLt
  have hmant : (@unpackMantissa Format.binary64 f.toBits.toBitVec).toNat < 2 ^ 52 :=
    (@unpackMantissa Format.binary64 f.toBits.toBitVec).isLt
  simp only [Format.exponentBias] at hf
  split_ifs at hf with h1 h2 h3 h4
  · -- a subnormal number
    simp only [UnpackedFloat.finite.injEq] at hf
    obtain ⟨-, rfl, rfl⟩ := hf
    have h0 : (@unpackExponent Format.binary64 f.toBits.toBitVec).toNat = 0 := by simp [h3]
    refine ⟨by omega, by simp [h0], by simp [h0]⟩
  · -- a normal number: the exponent field is neither all zeros nor all ones
    simp only [UnpackedFloat.finite.injEq] at hf
    obtain ⟨-, rfl, rfl⟩ := hf
    have hne : (@unpackExponent Format.binary64 f.toBits.toBitVec).toNat ≠ 2047 := fun heq =>
      h1 (BitVec.eq_of_toNat_eq (by simpa using heq))
    have hne0 : (@unpackExponent Format.binary64 f.toBits.toBitVec).toNat ≠ 0 := fun heq =>
      h3 (BitVec.eq_of_toNat_eq (by simpa using heq))
    have hlt := (1#1 ++ @unpackMantissa Format.binary64 f.toBits.toBitVec).isLt
    refine ⟨by simpa using hlt, by simp; omega, by simp; omega⟩

/-- Packing a finite number at an exponent of the format and unpacking it
gives a zero or a finite number at no larger exponent. -/
theorem unpack_pack_finite (s : Sign) {M : ℕ} {E : ℤ} (h : 0 < M) (hE : -1074 ≤ E) (hE' : E ≤ 971) :
    (Float.Model.pack (.finite s M E h)).unpack = .zero s ∨
      ∃ M' E' h', (Float.Model.pack (.finite s M E h)).unpack = .finite s M' E' h' ∧ E' ≤ E := by
  have hbias : Format.binary64.exponentBias = 1023 := rfl
  have hbits : Format.binary64.mantissaBits = 53 := rfl
  have hfield : (BitVec.ofNat 11 (E + 1023 + 52).toNat).toNat = (E + 1023 + 52).toNat := by
    rw [BitVec.toNat_ofNat, Nat.mod_eq_of_lt (by omega)]
  unfold Float.Model.unpack Float.Model.pack
  simp only [UnpackedFloat.pack, hbias, hbits, Nat.cast_ofNat]
  rw [if_neg (by omega)]
  split
  · -- a normal number keeps its exponent
    right
    have hne1 : BitVec.ofNat 11 (E + 1023 + 52).toNat ≠ -1#11 := fun h => by
      have := congrArg BitVec.toNat h
      rw [hfield] at this
      simp at this
      omega
    have hne0 : BitVec.ofNat 11 (E + 1023 + 52).toNat ≠ 0#11 := fun h => by
      have := congrArg BitVec.toNat h
      rw [hfield] at this
      simp at this
      omega
    unfold UnpackedFloat.unpack
    simp only [unpackMantissa_packComponents, unpackExponent_packComponents, unpackSign_packComponents,
      ofBitVec_toBitVec, hne1, hne0, if_false, hfield, hbias]
    refine ⟨_, _, ?_, rfl, by omega⟩
    rw [BitVec.toNat_append]
    simp
  · -- a subnormal number is read at the least exponent
    have hne : (0#11 : BitVec 11) ≠ -1#11 := by decide
    unfold UnpackedFloat.unpack
    by_cases hz : BitVec.ofNat 52 M = 0#52
    · left
      simp [hz]
    · right
      simp only [unpackMantissa_packComponents, unpackExponent_packComponents, unpackSign_packComponents,
        ofBitVec_toBitVec, hne, hz, if_false, if_true]
      have hpos : 0 < M % 2 ^ 52 := Nat.pos_of_ne_zero fun h0 => hz (BitVec.eq_of_toNat_eq (by simpa using h0))
      exact ⟨_, _, by simpa using hpos, rfl, by simp [hbias]; omega⟩

/-! ## Exponents of results -/

theorem log2_mul_two_pow {M : ℕ} (hM : 0 < M) (a : ℕ) : (M * 2 ^ a).log2 = M.log2 + a := by
  refine (Nat.log2_eq_iff (by positivity)).mpr ⟨?_, ?_⟩
  · rw [pow_add]
    exact Nat.mul_le_mul_right _ (Nat.log2_self_le hM.ne')
  · rw [show M.log2 + a + 1 = (M.log2 + 1) + a by omega, pow_add]
    exact Nat.mul_lt_mul_of_pos_right Nat.lt_log2_self (Nat.two_pow_pos a)

/-- An unpacked float that is a zero, or a finite number at an exponent
between the least one and `B`. -/
def ExpAtMost (B : ℤ) : UnpackedFloat → Prop
  | .zero _ => True
  | .finite _ _ E _ => -1074 ≤ E ∧ E ≤ B
  | _ => False

theorem ExpAtMost.mono {B B' : ℤ} {f : UnpackedFloat} (h : ExpAtMost B f) (hB : B ≤ B') : ExpAtMost B' f := by
  cases f with
  | finite s m e hm => exact ⟨h.1, h.2.trans hB⟩
  | zero s => trivial
  | _ => exact h.elim

theorem round_expAtMost (s : Sign) {M : ℕ} (hM : 0 < M) (E : ℤ) :
    ExpAtMost (max (totalExponent M E - 53) (-1074) + 1) (UnpackedFloat.round Format.binary64 s M E) := by
  set T := Format.binary64.targetExponent (totalExponent M E) with hT
  have hT' : T = max (totalExponent M E - 53) (-1074) := targetExponent_binary64 _
  -- shifting the mantissa left to the target exponent keeps the total exponent
  have htotal : totalExponent (M <<< (E - T).toNat) (E - (E - T).toNat) = totalExponent M E := by
    simp only [totalExponent, Nat.shiftLeft_eq, log2_mul_two_pow hM]
    omega
  have hshift : E - (E - T).toNat + firstShift (M <<< (E - T).toNat) (E - (E - T).toNat) = T := by
    simp only [firstShift, htotal, ← hT]
    omega
  unfold UnpackedFloat.round decreaseExponent
  simp only [← hT]
  rw [roundWithAccuracy_eq, hshift]
  split
  · trivial
  · split
    · exact ⟨by omega, by omega⟩
    · exact ⟨by omega, by omega⟩

theorem normalize_expAtMost (S E : ℤ) (z : Sign) :
    ExpAtMost (max (totalExponent S.natAbs E - 53) (-1074) + 1) (normalize Format.binary64 S E z) := by
  unfold UnpackedFloat.normalize
  split
  · next hlt =>
    have hS : S < 0 := Int.compare_eq_lt.mp hlt
    rw [show (-S).toNat = S.natAbs by omega]
    exact round_expAtMost _ (by omega) E
  · trivial
  · next hgt =>
    have hS : 0 < S := Int.compare_eq_gt.mp hgt
    rw [show S.toNat = S.natAbs by omega]
    exact round_expAtMost _ (by omega) E

theorem natAbs_apply (s : Sign) (n : ℤ) : (s.apply n).natAbs = n.natAbs := by
  cases s <;> simp [Sign.apply]

/-- The difference of two floats of at most 53 bits is a zero or a number at
most two exponents above the larger one. -/
theorem sub_expAtMost {s₁ s₂ : Sign} {m₁ m₂ : ℕ} {e₁ e₂ : ℤ} (h₁ : 0 < m₁) (h₂ : 0 < m₂)
    (hm₁ : m₁ < 2 ^ 53) (hm₂ : m₂ < 2 ^ 53) :
    ExpAtMost (max (max e₁ e₂ + 2) (-1073)) (sub Format.binary64 (.finite s₁ m₁ e₁ h₁) (.finite s₂ m₂ e₂ h₂)) := by
  set a₁ := (e₁ - min e₁ e₂).toNat
  set a₂ := (e₂ - min e₁ e₂).toNat
  set S : ℤ := s₁.apply ((m₁ <<< a₁ : ℕ) : ℤ) - s₂.apply ((m₂ <<< a₂ : ℕ) : ℤ) with hS
  -- the exact difference has at most `54 + max a₁ a₂` bits
  have hbound : S.natAbs < 2 ^ (54 + max a₁ a₂) := by
    have habs : S.natAbs ≤ m₁ * 2 ^ a₁ + m₂ * 2 ^ a₂ := by
      refine (Int.natAbs_sub_le _ _).trans ?_
      simp [natAbs_apply, Nat.shiftLeft_eq, Int.natAbs_mul, Int.natAbs_pow]
    have hp₁ : m₁ * 2 ^ a₁ < 2 ^ 53 * 2 ^ max a₁ a₂ :=
      Nat.mul_lt_mul_of_lt_of_le hm₁ (Nat.pow_le_pow_right (by norm_num) (le_max_left _ _)) (by positivity)
    have hp₂ : m₂ * 2 ^ a₂ < 2 ^ 53 * 2 ^ max a₁ a₂ :=
      Nat.mul_lt_mul_of_lt_of_le hm₂ (Nat.pow_le_pow_right (by norm_num) (le_max_right _ _)) (by positivity)
    calc S.natAbs ≤ m₁ * 2 ^ a₁ + m₂ * 2 ^ a₂ := habs
      _ < 2 ^ 53 * 2 ^ max a₁ a₂ + 2 ^ 53 * 2 ^ max a₁ a₂ := Nat.add_lt_add hp₁ hp₂
      _ = 2 ^ (54 + max a₁ a₂) := by rw [pow_add]; ring
  have htotal : totalExponent S.natAbs (min e₁ e₂) ≤ 54 + max e₁ e₂ := by
    unfold totalExponent
    rcases Nat.eq_zero_or_pos S.natAbs with h0 | hpos
    · rw [h0]
      simp
      omega
    · have := (Nat.log2_lt hpos.ne').mpr hbound
      omega
  unfold UnpackedFloat.sub
  dsimp only [decreaseExponent]
  exact (normalize_expAtMost S (min e₁ e₂) .positive).mono (by omega)

/-- A quotient has at most one bit more than the difference of the total
exponents says. -/
theorem totalExponent_div_le {m₁ m₂ : ℕ} (h₂ : 0 < m₂) (sh : ℕ) (e : ℤ) (hq : 0 < m₁ * 2 ^ sh / m₂) :
    totalExponent (m₁ * 2 ^ sh / m₂) e ≤ m₁.log2 + 1 + sh - m₂.log2 + e := by
  set q := m₁ * 2 ^ sh / m₂
  have hm₁ : 0 < m₁ := by
    rcases Nat.eq_zero_or_pos m₁ with rfl | h
    · simp [q] at hq
    · exact h
  have hlt : q * 2 ^ m₂.log2 < 2 ^ (m₁.log2 + 1 + sh) :=
    calc q * 2 ^ m₂.log2 ≤ q * m₂ := Nat.mul_le_mul_left _ (Nat.log2_self_le h₂.ne')
      _ ≤ m₁ * 2 ^ sh := Nat.div_mul_le_self _ _
      _ < 2 ^ (m₁.log2 + 1) * 2 ^ sh := Nat.mul_lt_mul_of_pos_right Nat.lt_log2_self (Nat.two_pow_pos _)
      _ = 2 ^ (m₁.log2 + 1 + sh) := (pow_add _ _ _).symm
  have hle : 2 ^ (q.log2 + m₂.log2) ≤ q * 2 ^ m₂.log2 := by
    rw [pow_add]
    exact Nat.mul_le_mul_right _ (Nat.log2_self_le hq.ne')
  have hexp : q.log2 + m₂.log2 < m₁.log2 + 1 + sh :=
    (Nat.pow_lt_pow_iff_right (show 1 < 2 by norm_num)).mp (Nat.lt_of_le_of_lt hle hlt)
  unfold totalExponent
  omega

/-- A quotient of finite numbers is a zero or a number one exponent above the
difference of their total exponents, less the width of a mantissa. -/
theorem div_expAtMost {s₁ s₂ : Sign} {m₁ m₂ : ℕ} {e₁ e₂ : ℤ} (h₁ : 0 < m₁) (h₂ : 0 < m₂) :
    ExpAtMost (max (totalExponent m₁ e₁ - totalExponent m₂ e₂ - 52) (-1074) + 1)
      (UnpackedFloat.div Format.binary64 (.finite s₁ m₁ e₁ h₁) (.finite s₂ m₂ e₂ h₂)) := by
  unfold UnpackedFloat.div divCore
  dsimp only
  -- the exponent `divCore` picks is at most both candidates
  have heq₁ := min_le_left (e₁ - e₂)
    (Format.binary64.targetExponent (totalExponent m₁ e₁ - totalExponent m₂ e₂))
  have heq₂ := min_le_right (e₁ - e₂)
    (Format.binary64.targetExponent (totalExponent m₁ e₁ - totalExponent m₂ e₂))
  generalize min (e₁ - e₂) (Format.binary64.targetExponent (totalExponent m₁ e₁ - totalExponent m₂ e₂))
    = eq at heq₁ heq₂ ⊢
  rw [targetExponent_binary64] at heq₂
  set q := m₁ <<< (e₁ - e₂ - eq).toNat / m₂
  have hfirst : eq + firstShift q eq ≤ max (totalExponent m₁ e₁ - totalExponent m₂ e₂ - 52) (-1074) := by
    simp only [firstShift, targetExponent_binary64]
    rcases Nat.eq_zero_or_pos q with h0 | hpos
    · simp only [h0, totalExponent, Nat.log2_zero] at heq₂ ⊢
      omega
    · have h := totalExponent_div_le h₂ (e₁ - e₂ - eq).toNat eq (by simpa [q, Nat.shiftLeft_eq] using hpos)
      simp only [q, Nat.shiftLeft_eq] at h ⊢
      simp only [totalExponent] at h heq₂ ⊢
      omega
  have hlow := (le_firstShift q eq).2
  rw [roundWithAccuracy_eq]
  split
  · trivial
  · split
    · exact ⟨hlow, by omega⟩
    · exact ⟨by omega, by omega⟩

/-! ## Finite floats -/

theorem expAtMost_pack {B : ℤ} {f : UnpackedFloat} (h : ExpAtMost B f) (hB : B ≤ 971) :
    ExpAtMost B (Float.Model.pack f).unpack := by
  cases f with
  | zero s => rw [unpack_pack_zero]; trivial
  | finite s M E hM =>
    obtain ⟨hlo, hhi⟩ := h
    rcases unpack_pack_finite s hM hlo (by omega) with hz | ⟨M', E', hM', heq, hle⟩
    · rw [hz]; trivial
    · rw [heq]
      obtain ⟨-, hlo', -⟩ := unpack_finite_bounds heq
      exact ⟨hlo', by omega⟩
  | _ => exact h.elim

theorem isFinite_of_expAtMost {B : ℤ} {x : Float} (h : ExpAtMost B x.toModel.unpack) : x.isFinite = true := by
  change x.toModel.unpack.isFinite = true
  cases hx : x.toModel.unpack with
  | zero s => rfl
  | finite s M E hM => rfl
  | _ => rw [hx] at h; exact h.elim

/-- Every finite float is a zero or a number at an exponent of the format. -/
theorem expAtMost_of_isFinite {x : Float} (hx : x.isFinite = true) : ExpAtMost 971 x.toModel.unpack := by
  change x.toModel.unpack.isFinite = true at hx
  cases h : x.toModel.unpack with
  | zero s => trivial
  | finite s M E hM =>
    obtain ⟨-, hlo, hhi⟩ := unpack_finite_bounds h
    exact ⟨hlo, hhi⟩
  | _ => rw [h] at hx; cases hx

/-- The difference of two floats at exponents up to `B` is a zero or a
number at most two exponents higher. -/
theorem expAtMost_sub {B : ℤ} {x y : Float} (hx : ExpAtMost B x.toModel.unpack) (hy : ExpAtMost B y.toModel.unpack)
    (hB : B ≤ 969) : ExpAtMost (max (B + 2) (-1073)) (x - y).toModel.unpack := by
  change ExpAtMost _ (Float.Model.pack (UnpackedFloat.sub Format.binary64 x.toModel.unpack y.toModel.unpack)).unpack
  refine expAtMost_pack ?_ (by omega)
  cases hxu : x.toModel.unpack with
  | zero s₁ =>
    cases hyu : y.toModel.unpack with
    | zero s₂ => simp only [UnpackedFloat.sub]; split <;> trivial
    | finite s₂ m₂ e₂ h₂ =>
      rw [hyu] at hy
      obtain ⟨hlo, hhi⟩ := hy
      exact ⟨hlo, by omega⟩
    | _ => rw [hyu] at hy; exact hy.elim
  | finite s₁ m₁ e₁ h₁ =>
    rw [hxu] at hx
    obtain ⟨hlo, hhi⟩ := hx
    cases hyu : y.toModel.unpack with
    | zero s₂ => exact ⟨hlo, by omega⟩
    | finite s₂ m₂ e₂ h₂ =>
      rw [hyu] at hy
      obtain ⟨hlo', hhi'⟩ := hy
      exact (sub_expAtMost h₁ h₂ (unpack_finite_bounds hxu).1 (unpack_finite_bounds hyu).1).mono (by omega)
    | _ => rw [hyu] at hy; exact hy.elim
  | _ => rw [hxu] at hx; exact hx.elim

/-! ## Integers -/

/-- The sign of an integer. -/
def signOf (n : ℤ) : Sign := if n < 0 then .negative else .positive

/-- The unpacked form of an integer of at most 53 bits. -/
def intUnpacked (n : ℤ) : UnpackedFloat :=
  if h : n = 0 then .zero .positive
  else .finite (signOf n) (natMantissa n.natAbs) (natExponent n.natAbs) (natMantissa_pos (Int.natAbs_pos.mpr h))

theorem log2_lt_of_lt {N : ℕ} (hN : 0 < N) (hb : N < 2 ^ 53) : N.log2 ≤ 52 := by
  have := (Nat.log2_lt hN.ne').mpr hb
  omega

/-- A natural number of at most 53 bits, written `j` bits wide at exponent
`-j`, rounds to itself. -/
theorem round_scaled (s : Sign) {N : ℕ} (hN : 0 < N) (hb : N < 2 ^ 53) (j : ℕ) :
    UnpackedFloat.round Format.binary64 s (N * 2 ^ j) (-j) =
      .finite s (natMantissa N) (natExponent N) (natMantissa_pos hN) := by
  obtain ⟨hM, hM'⟩ := natMantissa_bounds hN hb
  have hlog := log2_lt_of_lt hN hb
  have htarget : Format.binary64.targetExponent (totalExponent (N * 2 ^ j) (-j)) = natExponent N := by
    simp only [targetExponent_binary64, totalExponent, log2_mul_two_pow hN, natExponent]
    omega
  unfold UnpackedFloat.round decreaseExponent
  simp only [htarget, Nat.shiftLeft_eq]
  by_cases hj : j ≤ 52 - N.log2
  · -- the mantissa is widened to 53 bits
    have hshift : (-(j : ℤ) - natExponent N).toNat = 52 - N.log2 - j := by
      simp only [natExponent]
      omega
    have hwide : N * 2 ^ j * 2 ^ (52 - N.log2 - j) = natMantissa N := by
      rw [mul_assoc, ← pow_add, natMantissa]
      congr 2
      omega
    rw [hshift, hwide]
    have h := roundWithAccuracy_exact s (natMantissa_pos hN) hM hM' (show -1074 ≤ natExponent N by
      simp only [natExponent]; omega) 0
    simp only [pow_zero, mul_one, Nat.cast_zero, sub_zero] at h
    rw [← h]
    congr 1
    simp only [natExponent]
    omega
  · -- the mantissa is already wider than 53 bits
    have hshift : (-(j : ℤ) - natExponent N).toNat = 0 := by
      simp only [natExponent]
      omega
    have hwide : N * 2 ^ j = natMantissa N * 2 ^ (j + N.log2 - 52) := by
      rw [natMantissa, mul_assoc, ← pow_add]
      congr 2
      omega
    rw [hshift, pow_zero, mul_one, hwide, Nat.cast_zero, sub_zero]
    have h := roundWithAccuracy_exact s (natMantissa_pos hN) hM hM' (show -1074 ≤ natExponent N by
      simp only [natExponent]; omega) (j + N.log2 - 52)
    rw [← h]
    congr 1
    simp only [natExponent]
    omega

theorem apply_signOf (n : ℤ) (k : ℕ) : (signOf n).apply ((n.natAbs * k : ℕ) : ℤ) = n * k := by
  rw [Nat.cast_mul]
  by_cases hn : n < 0
  · simp only [signOf, if_pos hn, Sign.apply, Int.ofNat_natAbs_of_nonpos hn.le]
    ring
  · simp only [signOf, if_neg hn, Sign.apply, Int.natAbs_of_nonneg (Int.not_lt.mp hn)]

/-- The magnitude of an integer scaled by a power of two. -/
theorem natAbs_mul_two_pow (n : ℤ) (j : ℕ) : (n * 2 ^ j).natAbs = n.natAbs * 2 ^ j := by
  rw [Int.natAbs_mul, Int.natAbs_pow]
  rfl

/-- An integer of at most 53 bits, written `j` bits wide at exponent `-j`,
normalizes to itself. -/
theorem normalize_int {n : ℤ} (hb : n.natAbs < 2 ^ 53) (j : ℕ) :
    normalize Format.binary64 (n * 2 ^ j) (-j) .positive = intUnpacked n := by
  unfold UnpackedFloat.normalize intUnpacked
  rcases lt_trichotomy n 0 with hn | rfl | hn
  · have hlt : compare (n * 2 ^ j) 0 = .lt := Int.compare_eq_lt.mpr (by
      have : (0 : ℤ) < 2 ^ j := by positivity
      nlinarith)
    have hneg : n * 2 ^ j < 0 := Int.compare_eq_lt.mp hlt
    rw [hlt, dif_neg (by omega)]
    simp only
    rw [show (-(n * 2 ^ j)).toNat = n.natAbs * 2 ^ j by
      rw [← natAbs_mul_two_pow]; omega]
    rw [round_scaled _ (by omega) hb j]
    simp [signOf, hn]
  · simp
  · have hgt : compare (n * 2 ^ j) 0 = .gt := Int.compare_eq_gt.mpr (by positivity)
    have hpos : 0 < n * 2 ^ j := Int.compare_eq_gt.mp hgt
    rw [hgt, dif_neg (by omega)]
    simp only
    rw [show (n * 2 ^ j).toNat = n.natAbs * 2 ^ j by
      rw [← natAbs_mul_two_pow]; omega]
    rw [round_scaled _ (by omega) hb j]
    simp [signOf, show ¬ n < 0 by omega]

/-- Moving an integer's mantissa down to a lower exponent `e` writes the
integer `-e` bits wide. -/
theorem natMantissa_shiftLeft {N : ℕ} (hN : 0 < N) (hb : N < 2 ^ 53) {e : ℤ} (he : e ≤ natExponent N) :
    natMantissa N <<< (natExponent N - e).toNat = N * 2 ^ (-e).toNat := by
  have hlog := log2_lt_of_lt hN hb
  rw [Nat.shiftLeft_eq, natMantissa, mul_assoc, ← pow_add]
  congr 2
  simp only [natExponent] at he ⊢
  omega

/-- Two nonzero integers of at most 53 bits, moved to the smaller of their
exponents `-j`, are the integers scaled by `2 ^ j`. -/
theorem aligned_intUnpacked {n m : ℤ} (hn0 : n ≠ 0) (hm0 : m ≠ 0) (hn : n.natAbs < 2 ^ 53)
    (hm : m.natAbs < 2 ^ 53) :
    ∃ j : ℕ, min (natExponent n.natAbs) (natExponent m.natAbs) = -(j : ℤ) ∧
      (signOf n).apply ((natMantissa n.natAbs <<< (natExponent n.natAbs - -(j : ℤ)).toNat : ℕ) : ℤ) =
        n * 2 ^ j ∧
      (signOf m).apply ((natMantissa m.natAbs <<< (natExponent m.natAbs - -(j : ℤ)).toNat : ℕ) : ℤ) =
        m * 2 ^ j := by
  have hen := natExponent_bounds (Int.natAbs_pos.mpr hn0) hn
  have hem := natExponent_bounds (Int.natAbs_pos.mpr hm0) hm
  have hn' := natMantissa_shiftLeft (Int.natAbs_pos.mpr hn0) hn
    (min_le_left (natExponent n.natAbs) (natExponent m.natAbs))
  have hm' := natMantissa_shiftLeft (Int.natAbs_pos.mpr hm0) hm
    (min_le_right (natExponent n.natAbs) (natExponent m.natAbs))
  obtain ⟨j, hj⟩ : ∃ j : ℕ, min (natExponent n.natAbs) (natExponent m.natAbs) = -(j : ℤ) :=
    ⟨(-min (natExponent n.natAbs) (natExponent m.natAbs)).toNat, by omega⟩
  rw [hj, neg_neg, Int.toNat_natCast] at hn' hm'
  exact ⟨j, hj, by rw [hn', apply_signOf, Nat.cast_pow, Nat.cast_ofNat],
    by rw [hm', apply_signOf, Nat.cast_pow, Nat.cast_ofNat]⟩

/-- Two integers of at most 53 bits whose sum has at most 53 bits add exactly. -/
theorem add_intUnpacked {n m : ℤ} (hn : n.natAbs < 2 ^ 53) (hm : m.natAbs < 2 ^ 53)
    (hnm : (n + m).natAbs < 2 ^ 53) :
    UnpackedFloat.add Format.binary64 (intUnpacked n) (intUnpacked m) = intUnpacked (n + m) := by
  rcases eq_or_ne n 0 with rfl | hn0
  · rcases eq_or_ne m 0 with rfl | hm0
    · rfl
    · simp [intUnpacked, hm0, UnpackedFloat.add]
  rcases eq_or_ne m 0 with rfl | hm0
  · simp [intUnpacked, hn0, UnpackedFloat.add]
  obtain ⟨j, hj, hn', hm'⟩ := aligned_intUnpacked hn0 hm0 hn hm
  simp only [intUnpacked, dif_neg hn0, dif_neg hm0, UnpackedFloat.add, decreaseExponent, hj]
  rw [hn', hm', ← add_mul]
  exact normalize_int hnm j

theorem neg_signOf {m : ℤ} (hm : m ≠ 0) : -signOf m = signOf (-m) := by
  unfold signOf
  by_cases h : m < 0
  · rw [if_pos h, if_neg (by omega)]
    rfl
  · rw [if_neg h, if_pos (by omega)]
    rfl

/-- Two integers of at most 53 bits whose difference has at most 53 bits
subtract exactly. -/
theorem sub_intUnpacked {n m : ℤ} (hn : n.natAbs < 2 ^ 53) (hm : m.natAbs < 2 ^ 53)
    (hnm : (n - m).natAbs < 2 ^ 53) :
    UnpackedFloat.sub Format.binary64 (intUnpacked n) (intUnpacked m) = intUnpacked (n - m) := by
  rcases eq_or_ne n 0 with rfl | hn0
  · rcases eq_or_ne m 0 with rfl | hm0
    · rfl
    · simp [intUnpacked, hm0, UnpackedFloat.sub, neg_signOf hm0]
  rcases eq_or_ne m 0 with rfl | hm0
  · simp [intUnpacked, hn0, UnpackedFloat.sub]
  obtain ⟨j, hj, hn', hm'⟩ := aligned_intUnpacked hn0 hm0 hn hm
  simp only [intUnpacked, dif_neg hn0, dif_neg hm0, UnpackedFloat.sub, decreaseExponent, hj]
  rw [hn', hm', ← sub_mul]
  exact normalize_int hnm j

/-- An integer of at most 53 bits packs and unpacks to itself. -/
theorem unpack_pack_int {n : ℤ} (hn : n.natAbs < 2 ^ 53) :
    (Float.Model.pack (intUnpacked n)).unpack = intUnpacked n := by
  unfold intUnpacked
  split
  · exact unpack_pack_zero _
  · next hn0 =>
    have hpos : 0 < n.natAbs := Int.natAbs_pos.mpr hn0
    obtain ⟨hM, hM'⟩ := natMantissa_bounds hpos hn
    obtain ⟨hE, hE'⟩ := natExponent_bounds hpos hn
    exact unpack_pack_normal _ _ hM hM' (by omega) (by omega)

/-- A float that is exactly the integer `n`. -/
def IsInt (x : Float) (n : ℤ) : Prop := x.toModel.unpack = intUnpacked n

theorem isInt_zero : IsInt 0 0 := unpack_zero_float

theorem isInt_one : IsInt 1 1 := by
  rw [IsInt, unpack_one_float]
  rfl

theorem IsInt.add {a b : Float} {n m : ℤ} (ha : IsInt a n) (hb : IsInt b m) (hn : n.natAbs < 2 ^ 53)
    (hm : m.natAbs < 2 ^ 53) (hnm : (n + m).natAbs < 2 ^ 53) : IsInt (a + b) (n + m) := by
  change (Float.Model.pack (UnpackedFloat.add Format.binary64 a.toModel.unpack b.toModel.unpack)).unpack = _
  rw [ha, hb, add_intUnpacked hn hm hnm, unpack_pack_int hnm]

theorem IsInt.sub {a b : Float} {n m : ℤ} (ha : IsInt a n) (hb : IsInt b m) (hn : n.natAbs < 2 ^ 53)
    (hm : m.natAbs < 2 ^ 53) (hnm : (n - m).natAbs < 2 ^ 53) : IsInt (a - b) (n - m) := by
  change (Float.Model.pack (UnpackedFloat.sub Format.binary64 a.toModel.unpack b.toModel.unpack)).unpack = _
  rw [ha, hb, sub_intUnpacked hn hm hnm, unpack_pack_int hnm]

theorem expAtMost_intUnpacked {n : ℤ} (hn : n.natAbs < 2 ^ 53) : ExpAtMost 0 (intUnpacked n) := by
  unfold intUnpacked
  split
  · trivial
  · next hn0 =>
    obtain ⟨hlo, hhi⟩ := natExponent_bounds (Int.natAbs_pos.mpr hn0) hn
    exact ⟨by omega, hhi⟩

/-! ## Between two integers -/

/-- A positive float below an integer of at most 53 bits has an exponent of
at most zero. -/
theorem exponent_le_of_lt_int {x y : Float} {n : ℤ} (hy : IsInt y n) (hn : n.natAbs < 2 ^ 53) (h : x < y)
    {M : ℕ} {E : ℤ} {hM : 0 < M} (hx : x.toModel.unpack = .finite .positive M E hM) : E ≤ 0 := by
  have hkey := (lt_iff_key (isNaN_of_lt h).1 (isNaN_of_lt h).2).mp h
  unfold IsInt at hy
  simp only [key, hx, hy, intUnpacked] at hkey
  split at hkey
  · simp [orderKey, Prod.Lex.toLex_lt_toLex] at hkey
  · next hn0 =>
    have hbounds := natExponent_bounds (Int.natAbs_pos.mpr hn0) hn
    unfold signOf at hkey
    split at hkey
    · simp [orderKey, Prod.Lex.toLex_lt_toLex] at hkey
    · simp only [orderKey, Prod.Lex.toLex_lt_toLex] at hkey
      omega

/-- A negative float above an integer of at most 53 bits has an exponent of
at most zero. -/
theorem exponent_le_of_int_lt {x y : Float} {n : ℤ} (hy : IsInt y n) (hn : n.natAbs < 2 ^ 53) (h : y < x)
    {M : ℕ} {E : ℤ} {hM : 0 < M} (hx : x.toModel.unpack = .finite .negative M E hM) : E ≤ 0 := by
  have hkey := (lt_iff_key (isNaN_of_lt h).1 (isNaN_of_lt h).2).mp h
  unfold IsInt at hy
  simp only [key, hx, hy, intUnpacked] at hkey
  split at hkey
  · simp [orderKey, Prod.Lex.toLex_lt_toLex] at hkey
  · next hn0 =>
    have hbounds := natExponent_bounds (Int.natAbs_pos.mpr hn0) hn
    unfold signOf at hkey
    split at hkey
    · simp only [orderKey, Prod.Lex.toLex_lt_toLex] at hkey
      omega
    · simp [orderKey, Prod.Lex.toLex_lt_toLex] at hkey

/-- A finite float strictly between two integers of at most 53 bits has an
exponent of at most zero. -/
theorem expAtMost_between {x a b : Float} {n m : ℤ} (ha : IsInt a n) (hb : IsInt b m) (hn : n.natAbs < 2 ^ 53)
    (hm : m.natAbs < 2 ^ 53) (hx : x.isFinite = true) (hax : a < x) (hxb : x < b) :
    ExpAtMost 0 x.toModel.unpack := by
  have hfin := expAtMost_of_isFinite hx
  cases hxu : x.toModel.unpack with
  | zero s => trivial
  | finite s M E hM =>
    rw [hxu] at hfin
    obtain ⟨hlo, -⟩ := hfin
    cases s with
    | positive => exact ⟨hlo, exponent_le_of_lt_int hb hm hxb hxu⟩
    | negative => exact ⟨hlo, exponent_le_of_int_lt ha hn hax hxu⟩
  | _ => rw [hxu] at hfin; exact hfin.elim

/-- Between two consecutive integers of at most 53 bits, the fraction
`(x - a) / (b - a)` of a finite float `x` is finite. -/
theorem isFinite_interpolation {x a b : Float} {n : ℤ} (ha : IsInt a n) (hb : IsInt b (n + 1))
    (hn' : n.natAbs < 2 ^ 53) (hn1 : (n + 1).natAbs < 2 ^ 53) (hx : x.isFinite = true) (hax : a < x)
    (hxb : x < b) : ((x - a) / (b - a)).isFinite = true := by
  -- the gap between consecutive integers is exactly one
  have hgap : IsInt (b - a) 1 := by
    have h := hb.sub ha hn1 hn' (by simp)
    rwa [show n + 1 - n = 1 by ring] at h
  -- `x` and `a` are at exponents up to zero, so their difference is small
  have hdiff := expAtMost_sub (expAtMost_between ha hb hn' hn1 hx hax hxb) (by rw [ha]; exact expAtMost_intUnpacked hn')
    (by norm_num)
  refine isFinite_of_expAtMost (B := 4) ?_
  change ExpAtMost 4 (Float.Model.pack (UnpackedFloat.div Format.binary64 (x - a).toModel.unpack
    (b - a).toModel.unpack)).unpack
  refine expAtMost_pack ?_ (by norm_num)
  rw [hgap]
  have hone : intUnpacked 1 = .finite .positive (2 ^ 52) (-52) (by positivity) := rfl
  rw [hone]
  cases hy : (x - a).toModel.unpack with
  | zero s => trivial
  | finite s M E hM =>
    rw [hy] at hdiff
    obtain ⟨-, hE⟩ := hdiff
    have hM' := (unpack_finite_bounds hy).1
    have hlog := log2_lt_of_lt hM hM'
    refine (div_expAtMost hM (by positivity)).mono ?_
    simp only [totalExponent, Nat.log2_two_pow]
    omega
  | _ => rw [hy] at hdiff; exact hdiff.elim

/-! ## Times of floats -/

/-- Only a finite float is a number of seconds. -/
theorem isFinite_of_ofFloat?_ok {x : Float} {t : SimTime} (h : SimTime.ofFloat? x = .ok t) :
    x.isFinite = true := by
  by_contra hx
  -- a float that is not finite has the exponent field of infinities and NaN
  have hall : x.toBits.toNat / 2 ^ 52 % 2048 = 2047 := by
    change x.toModel.toBits.toBitVec.toNat / 2 ^ 52 % 2048 = 2047
    rw [← Number.toNat_unpackExponent]
    simp only [Float.isFinite, Float.Model.isFinite, Float.Model.unpack, UnpackedFloat.unpack] at hx
    by_contra hne
    have hne' : @UnpackedFloat.unpackExponent Format.binary64 x.toModel.toBits.toBitVec ≠ -1#11 := fun heq =>
      hne (by rw [heq]; rfl)
    simp only [hne', if_false] at hx
    split_ifs at hx <;> simp [UnpackedFloat.isFinite] at hx
  unfold SimTime.ofFloat? Number.classify at h
  dsimp only at h
  rw [if_pos (show x.toBits.toNat / Nat.pow 2 52 % 2048 = 2047 from hall)] at h
  split_ifs at h

/-- A time is scaled by a float exactly when the float is finite. -/
theorem mulFloat?_ok_iff (d : SimTime) (f : Float) : (∃ v, d.mulFloat? f = .ok v) ↔ f.isFinite = true := by
  unfold SimTime.mulFloat?
  constructor
  · rintro ⟨v, hv⟩
    cases ht : SimTime.ofFloat? f with
    | ok t => exact isFinite_of_ofFloat?_ok ht
    | error e => rw [ht] at hv; cases hv
  · intro hf
    obtain ⟨t, ht⟩ := SimTime.ofFloat?_ok hf
    exact ⟨d * t, by rw [ht]; rfl⟩

end EventChart.Float
