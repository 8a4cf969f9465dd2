import Mathlib
import EventChart.Proofs.Number.FloatOrder
/-!
# Rounding to binary64

Every arithmetic operation on floats computes a mantissa and an exponent for
the exact result, with an `Accuracy` saying where the exact result lies
beyond the last bit, and then rounds: `roundWithAccuracy` shifts the
mantissa right to the exponent the format allows, rounds to nearest, and
shifts once more if rounding carried into a new bit.  This module follows a
number through that pipeline as far as the log's queries need.

* `Brackets em x` is what an extended mantissa says about the exact value
  `x`, counted in units of its last place: the mantissa is the integer part,
  and a set round bit means at least one half more.  `brackets_shiftRight`
  keeps this through every shift, and `roundedMantissa_le` and
  `roundedMantissa_of_exact` read off the rounded mantissa: never above an
  integer at least `x`, and `x` itself when `x` is an integer.
* `roundWithAccuracy_eq` says what the rounding step returns: a zero, the
  rounded mantissa at the first exponent, or `2^52` one exponent up after a
  carry.
* `unpack_pack_normal` and `unpack_pack_zero`: packing a normal number or a
  zero and unpacking it gives it back.
* `unpack_ofNat`: a natural number below `2^53` is a float exactly, with its
  bits moved to the top of the mantissa.
* `inUnit_div_ofNat`: the quotient of two such numbers, the first at most
  the second, is a float between `0` and `1`.
-/

open Float.Model Float.Model.UnpackedFloat

namespace EventChart.Float

/-! ## Extended mantissas -/

/-- What an extended mantissa says about the exact value `x` it stands for,
counted in units of its last place: `x` lies in `[m, m + 1)`, and at or
above `m + 1/2` when the round bit is set. -/
def Brackets (em : ExtendedMantissa) (x : ℚ) : Prop :=
  (em.mantissa : ℚ) ≤ x ∧ x < em.mantissa + 1 ∧ (em.roundBit = true → (em.mantissa : ℚ) + 1 / 2 ≤ x)

/-- Shifting out one bit halves the unit, and the bit shifted out becomes
the round bit. -/
theorem brackets_shiftRightOne {em : ExtendedMantissa} {x : ℚ} (h : Brackets em x) :
    Brackets em.shiftRightOne (x / 2) := by
  obtain ⟨hlo, hhi, -⟩ := h
  have hm := Nat.div_add_mod em.mantissa 2
  have hb := Nat.mod_lt em.mantissa (show 2 > 0 by norm_num)
  have hcast : (em.mantissa : ℚ) = 2 * (em.mantissa / 2 : ℕ) + (em.mantissa % 2 : ℕ) := by
    exact_mod_cast hm.symm
  have hbit : ((em.mantissa % 2 : ℕ) : ℚ) < 2 := by exact_mod_cast hb
  have hbit0 : (0 : ℚ) ≤ (em.mantissa % 2 : ℕ) := Nat.cast_nonneg _
  refine ⟨?_, ?_, fun hr => ?_⟩
  · change ((em.mantissa / 2 : ℕ) : ℚ) ≤ x / 2
    linarith
  · -- the shifted-out bit is at most one
    change x / 2 < ((em.mantissa / 2 : ℕ) : ℚ) + 1
    have : ((em.mantissa % 2 : ℕ) : ℚ) ≤ 1 := by exact_mod_cast Nat.lt_succ_iff.mp hb
    linarith
  · have hodd : em.mantissa % 2 = 1 := by
      simp only [ExtendedMantissa.shiftRightOne, bne_iff_ne, ne_eq] at hr
      omega
    rw [hodd, Nat.cast_one] at hcast
    show ((em.mantissa / 2 : ℕ) : ℚ) + 1 / 2 ≤ x / 2
    linarith

theorem shiftRight_succ (em : ExtendedMantissa) (k : ℕ) :
    em >>> (k + 1) = (em >>> k).shiftRightOne := rfl

theorem shiftRight_zero (em : ExtendedMantissa) : em >>> 0 = em := rfl

theorem brackets_shiftRight {em : ExtendedMantissa} {x : ℚ} (h : Brackets em x) (k : ℕ) :
    Brackets (em >>> k) (x / 2 ^ k) := by
  induction k with
  | zero => simpa [shiftRight_zero] using h
  | succ k ih =>
    rw [shiftRight_succ, pow_succ, ← div_div]
    exact brackets_shiftRightOne ih

theorem shiftRight_mantissa (em : ExtendedMantissa) (k : ℕ) :
    (em >>> k).mantissa = em.mantissa / 2 ^ k := by
  induction k with
  | zero => simp [shiftRight_zero]
  | succ k ih =>
    rw [shiftRight_succ]
    simp only [ExtendedMantissa.shiftRightOne, ih, Nat.div_div_eq_div_mul, Nat.pow_succ]

theorem mantissa_ofMantissaAndAccuracy (m : ℕ) (acc : Accuracy) :
    (ExtendedMantissa.ofMantissaAndAccuracy m acc).mantissa = m := by
  rcases acc with _ | _ | _ | _ <;> rfl

theorem roundedMantissa_bounds (em : ExtendedMantissa) :
    em.mantissa ≤ em.roundedMantissa ∧ em.roundedMantissa ≤ em.mantissa + 1 := by
  rcases em with ⟨m, _ | _, _ | _⟩ <;>
    simp [ExtendedMantissa.roundedMantissa, ExtendedMantissa.accuracy,
      Accuracy.roundToNearestEven]
  omega

/-- Rounding never passes an integer at or above the exact value: it rounds
up only from half a unit or more, and then to the next integer. -/
theorem roundedMantissa_le {em : ExtendedMantissa} {x : ℚ} {N : ℕ} (h : Brackets em x)
    (hN : x ≤ N) : em.roundedMantissa ≤ N := by
  obtain ⟨hlo, -, hr⟩ := h
  have hm : em.mantissa ≤ N := by exact_mod_cast hlo.trans hN
  rcases em with ⟨m, _ | _, _ | _⟩
  · exact hm
  · exact hm
  · -- a set round bit puts the exact value above the mantissa
    have hlt : m < N := by
      have : (m : ℚ) < N := by linarith [hr rfl]
      exact_mod_cast this
    simp only [ExtendedMantissa.roundedMantissa, ExtendedMantissa.accuracy,
      Accuracy.roundToNearestEven]
    omega
  · have hlt : m < N := by
      have : (m : ℚ) < N := by linarith [hr rfl]
      exact_mod_cast this
    exact hlt

/-- An exact integer value is its own mantissa and its own rounding. -/
theorem roundedMantissa_of_exact {em : ExtendedMantissa} {n : ℕ} (h : Brackets em n) :
    em.mantissa = n ∧ em.roundedMantissa = n := by
  obtain ⟨hlo, hhi, hr⟩ := h
  have hle : em.mantissa ≤ n := by exact_mod_cast hlo
  have hlt : n < em.mantissa + 1 := by exact_mod_cast hhi
  have hm : em.mantissa = n := by omega
  refine ⟨hm, ?_⟩
  rcases em with ⟨m, _ | _, _ | _⟩
  · exact hm
  · exact hm
  · have := hr rfl
    simp only at hm
    rw [hm] at this
    linarith
  · have := hr rfl
    simp only at hm
    rw [hm] at this
    linarith

/-! ## The rounding step -/

theorem targetExponent_binary64 (t : ℤ) :
    Format.binary64.targetExponent t = max (t - 53) (-1074) := by
  simp only [Format.targetExponent, Format.mantissaBits, Format.minExponent]
  omega

/-- How far the rounding step shifts a mantissa `m` at exponent `e`. -/
def firstShift (m : ℕ) (e : ℤ) : ℕ :=
  (Format.binary64.targetExponent (totalExponent m e) - e).toNat

theorem le_firstShift (m : ℕ) (e : ℤ) :
    (m.log2 : ℤ) - 52 ≤ firstShift m e ∧ -1074 ≤ e + firstShift m e := by
  simp only [firstShift, targetExponent_binary64, totalExponent]
  omega

/-- After the first shift the mantissa has at most 53 bits. -/
theorem div_firstShift_lt (m : ℕ) (e : ℤ) : m / 2 ^ firstShift m e < 2 ^ 53 := by
  rcases Nat.eq_zero_or_pos m with rfl | hm
  · simp
  rw [Nat.div_lt_iff_lt_mul (Nat.two_pow_pos _), ← Nat.pow_add]
  have hk := (le_firstShift m e).1
  calc m < 2 ^ (m.log2 + 1) := Nat.lt_log2_self
    _ ≤ 2 ^ (53 + firstShift m e) := Nat.pow_le_pow_right (by norm_num) (by omega)

theorem shiftToTargetExponent_eq (m : ℕ) (e : ℤ) (acc : Accuracy) :
    shiftToTargetExponent Format.binary64 m e acc =
      (ExtendedMantissa.ofMantissaAndAccuracy m acc >>> firstShift m e, e + firstShift m e) := rfl

/-- A mantissa of at most 53 bits at an exponent the format allows is not
shifted again. -/
theorem shiftToTargetExponent_small {m : ℕ} {e : ℤ} (hm : m < 2 ^ 53) (he : -1074 ≤ e) :
    shiftToTargetExponent Format.binary64 m e .exact = (⟨m, false, false⟩, e) := by
  have hlog : m.log2 ≤ 52 := by
    rcases Nat.eq_zero_or_pos m with rfl | hpos
    · simp
    · have := (Nat.log2_lt hpos.ne').mpr hm
      omega
  have hk : (Format.binary64.targetExponent (totalExponent m e) - e).toNat = 0 := by
    simp only [targetExponent_binary64, totalExponent]
    omega
  simp only [shiftToTargetExponent, shiftToExponent, hk, shiftRight_zero,
    ExtendedMantissa.ofMantissaAndAccuracy, Nat.cast_zero, add_zero]

/-- A carry into the 54th bit is shifted back out exactly. -/
theorem shiftToTargetExponent_carry {e : ℤ} (he : -1074 ≤ e) :
    shiftToTargetExponent Format.binary64 (2 ^ 53) e .exact = (⟨2 ^ 52, false, false⟩, e + 1) := by
  have hk : (Format.binary64.targetExponent (totalExponent (2 ^ 53) e) - e).toNat = 1 := by
    simp only [targetExponent_binary64, totalExponent, Nat.log2_two_pow]
    omega
  simp only [shiftToTargetExponent, shiftToExponent, hk, ExtendedMantissa.ofMantissaAndAccuracy,
    Nat.cast_one]
  rfl

/-- What the rounding step returns: a zero when the rounded mantissa is
zero, the rounded mantissa at the first exponent, or `2^52` one exponent up
when rounding carried into a 54th bit. -/
theorem roundWithAccuracy_eq (s : Sign) (m : ℕ) (e : ℤ) (acc : Accuracy) :
    roundWithAccuracy Format.binary64 s m e acc =
      if h : (ExtendedMantissa.ofMantissaAndAccuracy m acc >>> firstShift m e).roundedMantissa = 0
      then .zero s
      else if (ExtendedMantissa.ofMantissaAndAccuracy m acc >>> firstShift m e).roundedMantissa < 2 ^ 53
      then .finite s _ (e + firstShift m e) (Nat.pos_of_ne_zero h)
      else .finite s (2 ^ 52) (e + firstShift m e + 1) (by positivity) := by
  have hbound := roundedMantissa_bounds (ExtendedMantissa.ofMantissaAndAccuracy m acc >>> firstShift m e)
  rw [shiftRight_mantissa, mantissa_ofMantissaAndAccuracy] at hbound
  have hlt := div_firstShift_lt m e
  have he := (le_firstShift m e).2
  generalize hr : (ExtendedMantissa.ofMantissaAndAccuracy m acc >>> firstShift m e).roundedMantissa = r
    at hbound ⊢
  unfold roundWithAccuracy
  rw [shiftToTargetExponent_eq]
  dsimp only
  rw [hr]
  -- either the rounded mantissa still fits, or it is exactly `2^53`
  by_cases hsmall : r < 2 ^ 53
  · rw [shiftToTargetExponent_small hsmall he]
    by_cases hz : r = 0
    · subst hz
      rfl
    · dsimp only
      rw [dif_neg hz, dif_neg hz, if_pos hsmall]
  · have hcarry : r = 2 ^ 53 := by omega
    subst hcarry
    rw [shiftToTargetExponent_carry he]
    simp

/-- A normal mantissa written `k` bits wider at an exponent `k` lower rounds
back to itself. -/
theorem roundWithAccuracy_exact (s : Sign) {M : ℕ} {E : ℤ} (hpos : 0 < M) (hM : 2 ^ 52 ≤ M)
    (hM' : M < 2 ^ 53) (hE : -1074 ≤ E) (k : ℕ) :
    roundWithAccuracy Format.binary64 s (M * 2 ^ k) (E - k) .exact = .finite s M E hpos := by
  have hlog : (M * 2 ^ k).log2 = 52 + k := by
    refine (Nat.log2_eq_iff (by positivity)).mpr ⟨?_, ?_⟩
    · rw [pow_add]
      exact Nat.mul_le_mul_right _ hM
    · rw [show 52 + k + 1 = 53 + k by omega, pow_add]
      exact Nat.mul_lt_mul_of_pos_right hM' (Nat.two_pow_pos k)
  have hshift : firstShift (M * 2 ^ k) (E - k) = k := by
    simp only [firstShift, targetExponent_binary64, totalExponent, hlog]
    omega
  -- the exact value, `k` bits wide, comes out of the shift as `M` with no bits lost
  have hbr : Brackets (ExtendedMantissa.ofMantissaAndAccuracy (M * 2 ^ k) .exact) ((M * 2 ^ k : ℕ) : ℚ) :=
    ⟨le_rfl, by simp [ExtendedMantissa.ofMantissaAndAccuracy],
      fun h => absurd h (by simp [ExtendedMantissa.ofMantissaAndAccuracy])⟩
  have hshifted := brackets_shiftRight hbr k
  rw [show (((M * 2 ^ k : ℕ) : ℚ) / 2 ^ k) = (M : ℕ) by push_cast; field_simp] at hshifted
  have hround := (roundedMantissa_of_exact hshifted).2
  rw [roundWithAccuracy_eq, hshift, hround, dif_neg hpos.ne', if_pos hM']
  congr 1
  omega

/-- The mantissa of a natural number below `2^53`: its bits moved to the
top of 53. -/
def natMantissa (n : ℕ) : ℕ := n * 2 ^ (52 - n.log2)

theorem natMantissa_pos {n : ℕ} (hn : 0 < n) : 0 < natMantissa n := by
  unfold natMantissa
  positivity

/-- The exponent of a natural number below `2^53`. -/
def natExponent (n : ℕ) : ℤ := n.log2 - 52

theorem natMantissa_bounds {n : ℕ} (hn : 0 < n) (hb : n < 2 ^ 53) :
    2 ^ 52 ≤ natMantissa n ∧ natMantissa n < 2 ^ 53 := by
  have hlog : n.log2 ≤ 52 := by
    have := (Nat.log2_lt hn.ne').mpr hb
    omega
  constructor
  · calc 2 ^ 52 = 2 ^ n.log2 * 2 ^ (52 - n.log2) := by rw [← pow_add]; congr 1; omega
      _ ≤ natMantissa n := Nat.mul_le_mul_right _ (Nat.log2_self_le hn.ne')
  · calc natMantissa n < 2 ^ (n.log2 + 1) * 2 ^ (52 - n.log2) :=
          Nat.mul_lt_mul_of_pos_right Nat.lt_log2_self (Nat.two_pow_pos _)
      _ = 2 ^ 53 := by rw [← pow_add]; congr 1; omega

theorem natExponent_bounds {n : ℕ} (hn : 0 < n) (hb : n < 2 ^ 53) :
    -52 ≤ natExponent n ∧ natExponent n ≤ 0 := by
  have := (Nat.log2_lt hn.ne').mpr hb
  simp only [natExponent]
  omega

/-- A natural number below `2^53` rounds to itself, its bits moved to the top
of a 53-bit mantissa. -/
theorem round_nat (s : Sign) {n : ℕ} (hn : 0 < n) (hb : n < 2 ^ 53) :
    UnpackedFloat.round Format.binary64 s n 0 =
      .finite s (natMantissa n) (natExponent n) (natMantissa_pos hn) := by
  obtain ⟨hM, hM'⟩ := natMantissa_bounds hn hb
  obtain ⟨hE, -⟩ := natExponent_bounds hn hb
  have hlog : n.log2 ≤ 52 := by
    have := (Nat.log2_lt hn.ne').mpr hb
    omega
  have htarget : Format.binary64.targetExponent (totalExponent n 0) = natExponent n := by
    simp only [targetExponent_binary64, totalExponent, natExponent]
    omega
  have hshift : (0 - natExponent n).toNat = 52 - n.log2 := by
    simp only [natExponent]
    omega
  unfold UnpackedFloat.round decreaseExponent
  simp only [htarget, hshift, Nat.shiftLeft_eq]
  have h := roundWithAccuracy_exact s (by positivity) hM hM' (show -1074 ≤ natExponent n by omega) 0
  simp only [pow_zero, mul_one, Nat.cast_zero, sub_zero] at h
  rw [← h]
  congr 1
  simp only [natExponent]
  omega

/-! ## Packing -/

theorem unpackSign_packComponents (s : Sign) (e : BitVec 11) (m : BitVec 52) :
    @unpackSign Format.binary64 (packComponents Format.binary64 s e m) = s.toBitVec := by
  ext i hi
  obtain rfl : i = 0 := by omega
  simp only [unpackSign, packComponents, BitVec.getElem_cast]
  simp
  rw [BitVec.getLsbD_append, if_neg (by decide), BitVec.getLsbD_append, if_neg (by decide)]
  simp [BitVec.getLsbD_eq_getElem]

theorem ofBitVec_toBitVec (s : Sign) : Sign.ofBitVec s.toBitVec = s := by
  cases s <;> rfl

theorem unpack_pack_zero (s : Sign) : (Float.Model.pack (.zero s)).unpack = .zero s := by
  cases s <;> rfl

/-- A normal number (a 53-bit mantissa, an exponent in range) packs and
unpacks to itself. -/
theorem unpack_pack_normal (s : Sign) {M : ℕ} {E : ℤ} (hpos : 0 < M) (hM : 2 ^ 52 ≤ M)
    (hM' : M < 2 ^ 53) (hE : -1074 ≤ E) (hE' : E ≤ 971) :
    (Float.Model.pack (.finite s M E hpos)).unpack = .finite s M E hpos := by
  have hlog : M.log2 = 52 := (Nat.log2_eq_iff hpos.ne').mpr ⟨hM, hM'⟩
  have hbias : Format.binary64.exponentBias = 1023 := rfl
  have hbits : Format.binary64.mantissaBits = 53 := rfl
  -- the biased exponent field is neither all zeros nor all ones
  have hb : ((E + 1023 + 52).toNat : ℤ) = E + 1075 := by omega
  have hfield : (BitVec.ofNat 11 (E + 1023 + 52).toNat).toNat = (E + 1023 + 52).toNat := by
    rw [BitVec.toNat_ofNat, Nat.mod_eq_of_lt (by omega)]
  have hne1 : BitVec.ofNat 11 (E + 1023 + 52).toNat ≠ -1#11 := fun h => by
    have := congrArg BitVec.toNat h
    rw [hfield] at this
    simp at this
    omega
  have hne0 : BitVec.ofNat 11 (E + 1023 + 52).toNat ≠ 0#11 := fun h => by
    have := congrArg BitVec.toNat h
    rw [hfield] at this
    simp at this
    omega
  -- the implicit bit put back in front of the stored 52 bits gives the mantissa
  have hmant : (1#1 ++ BitVec.ofNat 52 M).toNat = M := by
    have hlow : M % 2 ^ 52 < 2 ^ 52 := Nat.mod_lt _ (Nat.two_pow_pos _)
    rw [BitVec.toNat_append, BitVec.toNat_ofNat, BitVec.toNat_ofNat, ← Nat.shiftLeft_add_eq_or_of_lt hlow]
    have hdiv : M / 2 ^ 52 = 1 := Nat.div_eq_of_lt_le (by omega) (by omega)
    have := Nat.div_add_mod M (2 ^ 52)
    rw [hdiv] at this
    simp only [Nat.shiftLeft_eq]
    omega
  unfold Float.Model.unpack Float.Model.pack
  simp only [UnpackedFloat.pack, hlog, hbias, hbits, Nat.cast_ofNat]
  rw [if_neg (by omega), if_true]
  unfold UnpackedFloat.unpack
  simp only [unpackMantissa_packComponents, unpackExponent_packComponents, unpackSign_packComponents,
    ofBitVec_toBitVec, hne1, hne0, if_false, hmant, hfield, hbias]
  congr 1
  omega

/-! ## Natural numbers -/

/-- The value of the mantissa and exponent of a natural number is the number. -/
theorem natMantissa_mul_zpow {n : ℕ} (hn : 0 < n) (hb : n < 2 ^ 53) :
    (natMantissa n : ℚ) * 2 ^ natExponent n = n := by
  have hlog : n.log2 ≤ 52 := by
    have := (Nat.log2_lt hn.ne').mpr hb
    omega
  have he : natExponent n = -((52 - n.log2 : ℕ) : ℤ) := by
    simp only [natExponent]
    omega
  rw [natMantissa, he, zpow_neg, zpow_natCast]
  push_cast
  field_simp

/-- `Float.ofNat` is exact below `2^53`. -/
theorem unpack_ofNat {n : ℕ} (hn : 0 < n) (hb : n < 2 ^ 53) :
    (Float.ofNat n).toModel.unpack =
      .finite .positive (natMantissa n) (natExponent n) (natMantissa_pos hn) := by
  obtain ⟨hM, hM'⟩ := natMantissa_bounds hn hb
  obtain ⟨hE, hE'⟩ := natExponent_bounds hn hb
  have hpos := natMantissa_pos hn
  -- below `2^53` the conversion multiplies the integer by the float `1`
  have hone : (Float.ofBits 0x3FF0000000000000).toModel.unpack =
      .finite .positive (2 ^ 52) (-52) (by positivity) := rfl
  have hint : (n.toUInt64.toFloat).toModel.unpack = .finite .positive (natMantissa n) (natExponent n) hpos := by
    change (Float.Model.pack (UnpackedFloat.ofNat Format.binary64 n.toUInt64.toNat)).unpack = _
    rw [UInt64.toNat_ofNat_of_lt' (lt_trans hb (by decide))]
    unfold UnpackedFloat.ofNat UnpackedFloat.ofInt UnpackedFloat.normalize
    rw [show compare (n : ℤ) 0 = .gt from Int.compare_eq_gt.mpr (by omega)]
    simp only [Int.toNat_natCast]
    rw [round_nat .positive hn hb]
    exact unpack_pack_normal _ hpos hM hM' (by omega) (by omega)
  unfold Float.ofNat
  change (Float.ofScientific n false 0).toModel.unpack = _
  rw [Float.ofScientific, dif_pos ⟨hb, by norm_num⟩]
  change (Float.Model.pack (UnpackedFloat.mul Format.binary64 (n.toUInt64.toFloat).toModel.unpack
    (Float.ofBits 0x3FF0000000000000).toModel.unpack)).unpack = _
  rw [hint, hone]
  simp only [UnpackedFloat.mul, show Sign.positive * Sign.positive = Sign.positive from rfl]
  have h := @roundWithAccuracy_exact .positive (natMantissa n) (natExponent n) hpos hM hM' (by omega) 52
  rw [show natExponent n + -52 = natExponent n - ((52 : ℕ) : ℤ) by omega, h]
  exact unpack_pack_normal _ hpos hM hM' (by omega) (by omega)

/-! ## Quotients -/

/-- The mantissa `divCore` computes is the integer part of a quotient, with
the accuracy of its remainder. -/
theorem brackets_fraction (A D : ℕ) (hD : 0 < D) :
    Brackets (ExtendedMantissa.ofMantissaAndAccuracy (A / D) (accuracyOfFraction (A % D) D))
      ((A : ℚ) / D) := by
  have hDq : (0 : ℚ) < D := by exact_mod_cast hD
  have hsplit : (A : ℚ) / D = (A / D : ℕ) + ((A % D : ℕ) : ℚ) / D := by
    have hcast : (D : ℚ) * (A / D : ℕ) + (A % D : ℕ) = A := by exact_mod_cast Nat.div_add_mod A D
    field_simp
    linarith
  have hrem : ((A % D : ℕ) : ℚ) < D := by exact_mod_cast Nat.mod_lt A hD
  have hfrac0 : (0 : ℚ) ≤ ((A % D : ℕ) : ℚ) / D := by positivity
  have hfrac1 : ((A % D : ℕ) : ℚ) / D < 1 := (div_lt_one hDq).mpr hrem
  -- the round bit is set exactly when twice the remainder reaches the divisor
  have hhalf : D ≤ 2 * (A % D) → (1 : ℚ) / 2 ≤ ((A % D : ℕ) : ℚ) / D := by
    intro h
    rw [div_le_div_iff₀ (by norm_num) hDq]
    have : (D : ℚ) ≤ 2 * ((A % D : ℕ) : ℚ) := by exact_mod_cast h
    linarith
  unfold accuracyOfFraction
  split_ifs with hz
  · refine ⟨?_, ?_, ?_⟩ <;> simp [ExtendedMantissa.ofMantissaAndAccuracy, hsplit, hz]
  · rcases hc : compare (2 * (A % D)) D with _ | _ | _
    · refine ⟨?_, ?_, ?_⟩ <;> simp [ExtendedMantissa.ofMantissaAndAccuracy] <;> linarith
    · have := hhalf (Nat.le_of_eq (compare_eq_iff_eq.mp hc).symm)
      refine ⟨?_, ?_, fun _ => ?_⟩ <;> simp [ExtendedMantissa.ofMantissaAndAccuracy] <;> linarith
    · have := hhalf (Nat.le_of_lt (compare_gt_iff_gt.mp hc))
      refine ⟨?_, ?_, fun _ => ?_⟩ <;> simp [ExtendedMantissa.ofMantissaAndAccuracy] <;> linarith

/-- A 53-bit mantissa (or wider) is shifted to exactly 53 bits. -/
theorem firstShift_of_wide {p : ℕ} {e : ℤ} (hp : 2 ^ 52 ≤ p) (he : -1074 ≤ e) :
    (firstShift p e : ℤ) = p.log2 - 52 := by
  have hlog : 52 ≤ p.log2 := (Nat.le_log2 (by positivity)).mpr hp
  simp only [firstShift, targetExponent_binary64, totalExponent]
  omega

/-- Rounding a wide mantissa whose exact value is at most `1` gives a normal
number at most `1`: rounding up never passes `1`, which is on the grid. -/
theorem roundWithAccuracy_le_one {p : ℕ} {e : ℤ} {acc : Accuracy} {x : ℚ}
    (hbr : Brackets (ExtendedMantissa.ofMantissaAndAccuracy p acc) x) (hp : 2 ^ 52 ≤ p)
    (he : -1074 ≤ e) (hx : x * 2 ^ e ≤ 1) :
    ∃ r E, ∃ h : 0 < r, roundWithAccuracy Format.binary64 .positive p e acc = .finite .positive r E h ∧
      2 ^ 52 ≤ r ∧ r < 2 ^ 53 ∧ -1074 ≤ E ∧ (E < -52 ∨ (E = -52 ∧ r ≤ 2 ^ 52)) := by
  have hk := firstShift_of_wide hp he
  have hlog : 52 ≤ p.log2 := (Nat.le_log2 (by positivity)).mpr hp
  have hbr' := brackets_shiftRight hbr (firstShift p e)
  -- after the shift the mantissa still has its 53 leading bits
  have hfirst : 2 ^ 52 ≤ p / 2 ^ firstShift p e := by
    rw [Nat.le_div_iff_mul_le (Nat.two_pow_pos _), ← pow_add]
    calc 2 ^ (52 + firstShift p e) = 2 ^ p.log2 := by congr 1; omega
      _ ≤ p := Nat.log2_self_le (by positivity)
  have hbounds := roundedMantissa_bounds (ExtendedMantissa.ofMantissaAndAccuracy p acc >>> firstShift p e)
  rw [shiftRight_mantissa, mantissa_ofMantissaAndAccuracy] at hbounds
  -- the exact value is at most `1`, so the first exponent is at most `-52`
  have hxp : (p : ℚ) ≤ x := by simpa [mantissa_ofMantissaAndAccuracy] using hbr.1
  have hpow : (2 : ℚ) ^ ((p.log2 : ℤ) + e) ≤ 1 := by
    have h2 : ((2 ^ p.log2 : ℕ) : ℚ) ≤ p := by exact_mod_cast Nat.log2_self_le (by positivity)
    rw [zpow_add₀ (by norm_num), zpow_natCast]
    push_cast at h2
    calc (2 : ℚ) ^ p.log2 * 2 ^ e ≤ x * 2 ^ e := by gcongr; linarith
      _ ≤ 1 := hx
  have hE : e + firstShift p e ≤ -52 := by
    have := (zpow_le_one_iff_right₀ (by norm_num : (1 : ℚ) < 2)).mp hpow
    omega
  -- so rounding stays at or below `1`, a whole number of units at that exponent
  have hN : (ExtendedMantissa.ofMantissaAndAccuracy p acc >>> firstShift p e).roundedMantissa ≤
      2 ^ (-(e + firstShift p e)).toNat := by
    refine roundedMantissa_le hbr' ?_
    have hinv : x ≤ 2 ^ (-e) := by
      calc x = x * 2 ^ e * 2 ^ (-e) := by
            rw [mul_assoc, ← zpow_add₀ (by norm_num), add_neg_cancel, zpow_zero, mul_one]
        _ ≤ 1 * 2 ^ (-e) := by gcongr
        _ = 2 ^ (-e) := one_mul _
    have hcast : (((2 ^ (-(e + firstShift p e)).toNat : ℕ)) : ℚ) = 2 ^ (-e) / 2 ^ firstShift p e := by
      rw [Nat.cast_pow, Nat.cast_ofNat, ← zpow_natCast, ← zpow_natCast, ← zpow_sub₀ (by norm_num)]
      congr 1
      omega
    rw [hcast]
    gcongr
  rw [roundWithAccuracy_eq]
  generalize (ExtendedMantissa.ofMantissaAndAccuracy p acc >>> firstShift p e).roundedMantissa = r
    at hbounds hN ⊢
  have hr0 : r ≠ 0 := by omega
  rw [dif_neg hr0]
  -- the rounded mantissa either fits, or carried into a 54th bit
  by_cases hsmall : r < 2 ^ 53
  · rw [if_pos hsmall]
    refine ⟨r, _, Nat.pos_of_ne_zero hr0, rfl, by omega, hsmall, by omega, ?_⟩
    rcases lt_or_eq_of_le hE with hlt | heq
    · exact .inl hlt
    · refine .inr ⟨heq, ?_⟩
      rw [heq] at hN
      simpa using hN
  · rw [if_neg hsmall]
    refine ⟨2 ^ 52, _, by positivity, rfl, le_rfl, by norm_num, by omega, ?_⟩
    -- a carry needs `2^53` units below `1`, so the exponent was at most `-53`
    have hr53 : 2 ^ 53 ≤ r := by omega
    have h53 : 2 ^ 53 ≤ 2 ^ (-(e + firstShift p e)).toNat := Nat.le_trans hr53 hN
    have := (Nat.pow_le_pow_iff_right (by norm_num)).mp h53
    rcases lt_or_eq_of_le (show e + firstShift p e + 1 ≤ -52 by omega) with hlt | heq
    · exact .inl hlt
    · exact .inr ⟨heq, le_rfl⟩

/-- Dividing two natural numbers below `2^53`: both are 53-bit mantissas, so
the quotient is computed with 53 extra bits. -/
theorem divCore_nat {i d : ℕ} (hi : 0 < i) (hib : i < 2 ^ 53) (hd : 0 < d) (hdb : d < 2 ^ 53) :
    divCore Format.binary64 (natMantissa i) (natExponent i) (natMantissa d) (natExponent d) =
      (natMantissa i * 2 ^ 53 / natMantissa d, natExponent i - natExponent d - 53,
        accuracyOfFraction (natMantissa i * 2 ^ 53 % natMantissa d) (natMantissa d)) := by
  have hli : (natMantissa i).log2 = 52 :=
    (Nat.log2_eq_iff (natMantissa_pos hi).ne').mpr (natMantissa_bounds hi hib)
  have hld : (natMantissa d).log2 = 52 :=
    (Nat.log2_eq_iff (natMantissa_pos hd).ne').mpr (natMantissa_bounds hd hdb)
  have hei := natExponent_bounds hi hib
  have hed := natExponent_bounds hd hdb
  have htarget : min (natExponent i - natExponent d)
      (Format.binary64.targetExponent (totalExponent (natMantissa i) (natExponent i) -
        totalExponent (natMantissa d) (natExponent d))) = natExponent i - natExponent d - 53 := by
    simp only [targetExponent_binary64, totalExponent, hli, hld]
    omega
  have hshift : (natExponent i - natExponent d - (natExponent i - natExponent d - 53)).toNat = 53 := by
    omega
  simp only [divCore, htarget, hshift, Nat.shiftLeft_eq]

theorem zero_le_finite (r : ℕ) (E : ℤ) (h : 0 < r) :
    (UnpackedFloat.zero .positive).le (.finite .positive r E h) = true := rfl

theorem zero_le_zero : (UnpackedFloat.zero .positive).le (.zero .positive) = true := rfl

/-- A positive normal number compares at most `1` by its exponent, then its
mantissa. -/
theorem finite_le_one {r : ℕ} {E : ℤ} (h : 0 < r) (hE : E < -52 ∨ (E = -52 ∧ r ≤ 2 ^ 52)) :
    (UnpackedFloat.finite .positive r E h).le (.finite .positive (2 ^ 52) (-52) (by positivity)) =
      true := by
  simp only [UnpackedFloat.le, UnpackedFloat.compare, Option.any_some]
  rcases hE with hlt | ⟨rfl, hr⟩
  · rw [compare_lt_iff_lt.mpr hlt]
    rfl
  · rw [compare_eq_iff_eq.mpr rfl, Ordering.eq_then]
    exact Ordering.isLE_iff_ne_gt.mpr (compare_gt_iff_gt.not.mpr (not_lt.mpr hr))

theorem unpack_zero_float : (0 : Float).toModel.unpack = .zero .positive := rfl

theorem unpack_one_float : (1 : Float).toModel.unpack = .finite .positive (2 ^ 52) (-52) (by positivity) := rfl

/-- A float from `0` to `1`. -/
def InUnit (x : Float) : Prop := 0 ≤ x ∧ x ≤ 1

theorem inUnit_zero : InUnit 0 := by
  rw [InUnit, le_def, le_def, unpack_zero_float, unpack_one_float]
  exact ⟨zero_le_zero, zero_le_finite _ _ _⟩

theorem inUnit_one : InUnit 1 := by
  rw [InUnit, le_def, le_def, unpack_zero_float, unpack_one_float]
  exact ⟨zero_le_finite _ _ _, finite_le_one _ (.inr ⟨rfl, le_rfl⟩)⟩

/-- The quotient of a natural number by one at least as large, both below
`2^53`, is a float from `0` to `1`. -/
theorem inUnit_div_ofNat {i d : ℕ} (hid : i ≤ d) (hd : 0 < d) (hdb : d < 2 ^ 53) :
    InUnit (Float.ofNat i / Float.ofNat d) := by
  have hquot : (Float.ofNat i / Float.ofNat d).toModel.unpack =
      (Float.Model.pack (UnpackedFloat.div Format.binary64 (Float.ofNat i).toModel.unpack
        (Float.ofNat d).toModel.unpack)).unpack := rfl
  have hsign : Sign.positive / Sign.positive = Sign.positive := rfl
  rw [InUnit, le_def, le_def, unpack_zero_float, unpack_one_float, hquot, unpack_ofNat hd hdb]
  rcases Nat.eq_zero_or_pos i with rfl | hi
  · -- zero over a positive number is zero
    have h0 : (Float.ofNat 0).toModel.unpack = .zero .positive := rfl
    rw [h0]
    simp only [UnpackedFloat.div, hsign, unpack_pack_zero]
    exact ⟨zero_le_zero, rfl⟩
  have hib := Nat.lt_of_le_of_lt hid hdb
  obtain ⟨hMi, -⟩ := natMantissa_bounds hi hib
  obtain ⟨-, hMd⟩ := natMantissa_bounds hd hdb
  have hei := natExponent_bounds hi hib
  have hed := natExponent_bounds hd hdb
  -- the exact quotient, in units of the quotient's last place, is at most `1`
  have hval : ((natMantissa i * 2 ^ 53 : ℕ) : ℚ) / natMantissa d *
      2 ^ (natExponent i - natExponent d - 53) = (i : ℚ) / d := by
    rw [← natMantissa_mul_zpow hi hib, ← natMantissa_mul_zpow hd hdb, zpow_sub₀ (by norm_num),
      zpow_sub₀ (by norm_num)]
    have : (natMantissa d : ℚ) ≠ 0 := by exact_mod_cast (natMantissa_pos hd).ne'
    push_cast
    field_simp
  have hle : (i : ℚ) / d ≤ 1 := (div_le_one (by exact_mod_cast hd)).mpr (by exact_mod_cast hid)
  -- the integer quotient keeps 53 bits
  have hp : 2 ^ 52 ≤ natMantissa i * 2 ^ 53 / natMantissa d := by
    rw [Nat.le_div_iff_mul_le (natMantissa_pos hd)]
    calc 2 ^ 52 * natMantissa d ≤ 2 ^ 52 * 2 ^ 53 := Nat.mul_le_mul_left _ hMd.le
      _ ≤ natMantissa i * 2 ^ 53 := Nat.mul_le_mul_right _ hMi
  rw [unpack_ofNat hi hib]
  simp only [UnpackedFloat.div, divCore_nat hi hib hd hdb, hsign]
  obtain ⟨r, E, hr, heq, hr52, hr53, hE, hkey⟩ :=
    roundWithAccuracy_le_one (brackets_fraction _ _ (natMantissa_pos hd)) hp (by omega)
      (hval.trans_le hle)
  rw [heq, unpack_pack_normal _ hr hr52 hr53 hE (by omega)]
  exact ⟨zero_le_finite r E hr, finite_le_one hr hkey⟩

end EventChart.Float
