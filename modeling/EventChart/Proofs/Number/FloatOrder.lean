import Mathlib
import EventChart.Time.Approx
/-!
# The order of floats

Timeline coordinates are floats, and the mapper's searches compare them with
`<`, `≤` and `==`.  These comparisons follow IEEE 754: NaN is unordered, and
the two zeros are equal.  This module shows that away from NaN they are the
order of a key (`Float.key`): the class of the number (negative infinity,
negative, zero, positive, positive infinity), then for a finite number its
exponent and mantissa, both negated when the number is negative.  So on
floats that are not NaN, `≤` is a total preorder, `<` is its strict part and
`==` its equivalence.  The searches need nothing more.

* `Float.compare_eq_orderKey` reads the comparison of two unpacked floats
  as the comparison of their keys.
* `Float.le_iff_key`, `Float.lt_iff_key` and `Float.beq_iff_key` carry
  this to `Float`; the order lemmas after them follow.
* `SimTime.ofFloat?_ok`: a finite float has a time.
-/

open Float.Model

namespace EventChart

namespace Float

/-! ## The key of a float -/

/-- Where an unpacked float stands among the floats that are not NaN: its
class, then its exponent and mantissa, negated for a negative number. -/
def orderKey : UnpackedFloat → ℤ ×ₗ ℤ ×ₗ ℤ
  | .infinity .negative => toLex (0, toLex (0, 0))
  | .finite .negative m e _ => toLex (1, toLex (-e, -(m : ℤ)))
  | .zero _ => toLex (2, toLex (0, 0))
  | .finite .positive m e _ => toLex (3, toLex (e, (m : ℤ)))
  | .infinity .positive => toLex (4, toLex (0, 0))
  | .notANumber => toLex (0, toLex (0, 0))

theorem compare_toLex {α β : Type} [Ord α] [Ord β] (a a' : α) (b b' : β) :
    compare (toLex (a, b)) (toLex (a', b')) = (compare a a').then (compare b b') := rfl

/-- Two unpacked floats that are not NaN compare as their keys. -/
theorem compare_eq_orderKey {a b : UnpackedFloat} (ha : a ≠ .notANumber) (hb : b ≠ .notANumber) :
    a.compare b = some (compare (orderKey a) (orderKey b)) := by
  -- one case for each pair of classes and signs: across classes the class
  -- decides; within one, the exponents and then the mantissas, reversed for
  -- negative numbers
  rcases a with ⟨_ | _⟩ | _ | ⟨_ | _⟩ | ⟨_ | _, m₁, e₁, hm₁⟩ <;>
    rcases b with ⟨_ | _⟩ | _ | ⟨_ | _⟩ | ⟨_ | _, m₂, e₂, hm₂⟩ <;>
    simp_all [UnpackedFloat.compare, orderKey, compare_toLex]
  all_goals first
    | rfl
    | (simp only [compare, compareOfLessAndEq]; split_ifs <;> simp_all <;> omega)

/-- Only floats that are not NaN compare. -/
theorem ne_of_compare_ne_none {a b : UnpackedFloat} (h : a.compare b ≠ none) :
    a ≠ .notANumber ∧ b ≠ .notANumber := by
  constructor
  · rintro rfl
    exact h rfl
  · rintro rfl
    cases a <;> exact h rfl

/-- The key of a float. -/
def key (x : Float) : ℤ ×ₗ ℤ ×ₗ ℤ := orderKey x.toModel.unpack

theorem isNaN_eq_false_iff {x : Float} : x.isNaN = false ↔ x.toModel.unpack ≠ .notANumber := by
  change x.toModel.unpack.isNaN = false ↔ _
  cases x.toModel.unpack <;> simp [UnpackedFloat.isNaN]

/-- A finite float is a number. -/
theorem isNaN_of_isFinite {x : Float} (hx : x.isFinite = true) : x.isNaN = false := by
  change x.toModel.unpack.isFinite = true at hx
  refine isNaN_eq_false_iff.mpr fun h => ?_
  rw [h] at hx
  cases hx

theorem le_def {a b : Float} : a ≤ b ↔ a.toModel.unpack.le b.toModel.unpack = true :=
  decide_eq_true_iff

theorem lt_def {a b : Float} : a < b ↔ a.toModel.unpack.lt b.toModel.unpack = true :=
  decide_eq_true_iff

theorem beq_def {a b : Float} : (a == b) = true ↔ a.toModel.unpack.beq b.toModel.unpack = true :=
  Iff.rfl

section
variable {a b c : Float}

theorem le_iff_key (ha : a.isNaN = false) (hb : b.isNaN = false) : a ≤ b ↔ key a ≤ key b := by
  rw [le_def, UnpackedFloat.le, compare_eq_orderKey (isNaN_eq_false_iff.mp ha) (isNaN_eq_false_iff.mp hb)]
  simp [Option.any, key, Ordering.isLE_iff_ne_gt, compare_le_iff_le]

theorem lt_iff_key (ha : a.isNaN = false) (hb : b.isNaN = false) : a < b ↔ key a < key b := by
  rw [lt_def, UnpackedFloat.lt, compare_eq_orderKey (isNaN_eq_false_iff.mp ha) (isNaN_eq_false_iff.mp hb)]
  simp [key, compare_lt_iff_lt]

theorem beq_iff_key (ha : a.isNaN = false) (hb : b.isNaN = false) : (a == b) = true ↔ key a = key b := by
  rw [beq_def, UnpackedFloat.beq, compare_eq_orderKey (isNaN_eq_false_iff.mp ha) (isNaN_eq_false_iff.mp hb)]
  simp [key, compare_eq_iff_eq]

/-- Comparable floats are not NaN. -/
theorem isNaN_of_compare (h : a.toModel.unpack.compare b.toModel.unpack ≠ none) :
    a.isNaN = false ∧ b.isNaN = false :=
  (ne_of_compare_ne_none h).imp isNaN_eq_false_iff.mpr isNaN_eq_false_iff.mpr

theorem isNaN_of_le (h : a ≤ b) : a.isNaN = false ∧ b.isNaN = false := by
  rw [le_def, UnpackedFloat.le] at h
  refine isNaN_of_compare fun hn => ?_
  rw [hn] at h
  cases h

theorem isNaN_of_lt (h : a < b) : a.isNaN = false ∧ b.isNaN = false := by
  rw [lt_def, UnpackedFloat.lt] at h
  refine isNaN_of_compare fun hn => ?_
  rw [hn] at h
  cases h

theorem isNaN_of_beq (h : (a == b) = true) : a.isNaN = false ∧ b.isNaN = false := by
  rw [beq_def, UnpackedFloat.beq] at h
  refine isNaN_of_compare fun hn => ?_
  rw [hn] at h
  cases h

/-! ## The order away from NaN -/

theorem le_refl (ha : a.isNaN = false) : a ≤ a := (le_iff_key ha ha).mpr le_rfl

theorem le_trans (hab : a ≤ b) (hbc : b ≤ c) : a ≤ c := by
  obtain ⟨ha, hb⟩ := isNaN_of_le hab
  obtain ⟨-, hc⟩ := isNaN_of_le hbc
  rw [le_iff_key ha hc]
  exact ((le_iff_key ha hb).mp hab).trans ((le_iff_key hb hc).mp hbc)

theorem not_lt_iff_le (ha : a.isNaN = false) (hb : b.isNaN = false) : ¬a < b ↔ b ≤ a := by
  rw [lt_iff_key ha hb, le_iff_key hb ha, not_lt]

theorem le_of_lt (h : a < b) : a ≤ b := by
  obtain ⟨ha, hb⟩ := isNaN_of_lt h
  exact (le_iff_key ha hb).mpr ((lt_iff_key ha hb).mp h).le

theorem not_le_of_lt (h : a < b) : ¬b ≤ a := by
  obtain ⟨ha, hb⟩ := isNaN_of_lt h
  rw [le_iff_key hb ha, not_le]
  exact (lt_iff_key ha hb).mp h

theorem lt_of_le_of_lt (hab : a ≤ b) (hbc : b < c) : a < c := by
  obtain ⟨ha, hb⟩ := isNaN_of_le hab
  obtain ⟨-, hc⟩ := isNaN_of_lt hbc
  rw [lt_iff_key ha hc]
  exact ((le_iff_key ha hb).mp hab).trans_lt ((lt_iff_key hb hc).mp hbc)

/-- Two equal floats are each at most the other. -/
theorem le_of_beq (h : (a == b) = true) : a ≤ b ∧ b ≤ a := by
  obtain ⟨ha, hb⟩ := isNaN_of_beq h
  have hk := (beq_iff_key ha hb).mp h
  exact ⟨(le_iff_key ha hb).mpr hk.le, (le_iff_key hb ha).mpr hk.ge⟩

/-- Two floats each at most the other are equal. -/
theorem beq_of_le_of_le (hab : a ≤ b) (hba : b ≤ a) : (a == b) = true := by
  obtain ⟨ha, hb⟩ := isNaN_of_le hab
  exact (beq_iff_key ha hb).mpr (le_antisymm ((le_iff_key ha hb).mp hab) ((le_iff_key hb ha).mp hba))

/-- A float at most another and not equal to it is below it. -/
theorem lt_of_le_of_beq_false (hab : a ≤ b) (hne : (a == b) = false) : a < b := by
  obtain ⟨ha, hb⟩ := isNaN_of_le hab
  have hk : key a ≠ key b := fun hk => by
    rw [← beq_iff_key ha hb] at hk
    rw [hk] at hne
    cases hne
  rw [lt_iff_key ha hb]
  exact lt_of_le_of_ne ((le_iff_key ha hb).mp hab) hk

end

end Float

/-! ## Finite floats have times -/

theorem Number.toNat_unpackExponent (b : BitVec 64) :
    (@UnpackedFloat.unpackExponent Format.binary64 b).toNat = b.toNat / 2 ^ 52 % 2048 := by
  simp [UnpackedFloat.unpackExponent, BitVec.extractLsb_toNat, Nat.shiftRight_eq_div_pow]

/-- A finite float does not have the exponent field of infinities and NaN. -/
theorem Number.exponent_ne_of_isFinite {x : Float} (hx : x.isFinite = true) :
    x.toBits.toNat / 2 ^ 52 % 2048 ≠ 2047 := by
  intro h
  have hall : @UnpackedFloat.unpackExponent Format.binary64 x.toModel.toBits.toBitVec = -1#11 := by
    apply BitVec.eq_of_toNat_eq
    rw [toNat_unpackExponent]
    exact h
  simp only [Float.isFinite, Float.Model.isFinite, Float.Model.unpack, UnpackedFloat.unpack, hall,
    if_true] at hx
  split_ifs at hx <;> simp [UnpackedFloat.isFinite] at hx

/-- A finite float is a number of seconds. -/
theorem SimTime.ofFloat?_ok {x : Float} (hx : x.isFinite = true) : ∃ t, SimTime.ofFloat? x = .ok t := by
  have h := Number.exponent_ne_of_isFinite hx
  unfold SimTime.ofFloat? Number.classify
  dsimp only
  rw [if_neg (show ¬x.toBits.toNat / Nat.pow 2 52 % 2048 = 2047 from h)]
  split_ifs <;> simp

end EventChart
