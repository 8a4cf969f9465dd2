import EventChart.Time.Round
/-!
# Common prefixes of times, aligned at the point

`SimTime.commonPrefix a b` is the leading text that the plain forms of two
times share once their fractions are padded to the same length; tick labels
leave it out.  A shared prefix keeps its place value only when the points of
both padded forms stand at the same place.  The function compares where the
points stand, but two integers have no point to compare, so the prefix of
two integers is taken whatever their lengths.

* `point_not_mem_toPlain`, `toPlain_pointForm`: a plain form has a point
  exactly when the exponent is negative, with as many digits after it as the
  exponent says.
* `idxOf?_alignedPlain`: where the point of a padded plain form stands.
* `commonPrefixOf_longest`: `commonPrefixOf` is the longest common prefix.
* `commonPrefix_aligned`: the padded forms have fractions of the same length,
  and the result is their longest common prefix when the integer parts have
  the same length or both times are integers, and the empty text otherwise.
* `commonPrefix_unaligned_integers`: `1` and `15` share the prefix `1`,
  although the `1` of `15` is its tens digit.
-/

namespace EventChart

/-- What stands before the point of a plain text; the whole text when it has
no point. -/
def integerPart (s : List Char) : List Char := s.takeWhile (· != '.')

/-- `p` is a longest common prefix of `xs` and `ys`. -/
def IsLongestCommonPrefix (p xs ys : List Char) : Prop :=
  p <+: xs ∧ p <+: ys ∧ ∀ q, q <+: xs → q <+: ys → q.length ≤ p.length

namespace SimTime

/-! ## Texts with a point -/

section text

variable {s ip fp : List Char} {n : Nat}

theorem idxOf?_pointForm (h : '.' ∉ ip) : (ip ++ '.' :: fp).idxOf? '.' = some ip.length := by
  induction ip with
  | nil => simp [List.idxOf?_cons]
  | cons c ip ih =>
    have hc : c ≠ '.' := fun hc => h (hc ▸ List.mem_cons_self)
    simp [List.idxOf?_cons, hc, ih (fun hm => h (List.mem_cons_of_mem c hm))]

theorem integerPart_pointForm (h : '.' ∉ ip) : integerPart (ip ++ '.' :: fp) = ip := by
  have hip : ∀ c ∈ ip, (c != '.') = true := fun c hc => by
    simpa using fun he : c = '.' => h (he ▸ hc)
  simp [integerPart, List.takeWhile_append_of_pos hip]

theorem integerPart_of_not_mem (h : '.' ∉ s) : integerPart s = s := by
  have hs : ∀ c ∈ s, (c != '.') = true := fun c hc => by
    simpa using fun he : c = '.' => h (he ▸ hc)
  unfold integerPart
  simpa using @List.takeWhile_append_of_pos _ _ s [] hs

/-- A text with a point splits at its first one. -/
theorem pointForm_of_mem (h : '.' ∈ s) : ∃ fp, s = integerPart s ++ '.' :: fp ∧ '.' ∉ integerPart s := by
  induction s with
  | nil => simp at h
  | cons c s ih =>
    by_cases hc : c = '.'
    · subst hc
      exact ⟨s, by simp [integerPart], by simp [integerPart]⟩
    · have hs : '.' ∈ s := by simpa [Ne.symm hc] using h
      obtain ⟨fp, hfp, hnot⟩ := ih hs
      have hpart : integerPart (c :: s) = c :: integerPart s := by simp [integerPart, hc]
      refine ⟨fp, ?_, ?_⟩
      · rw [hpart, List.cons_append, ← hfp]
      · rw [hpart]
        simp [Ne.symm hc, hnot]

theorem fractionLength_pointForm (h : '.' ∉ ip) : fractionLength (ip ++ '.' :: fp) = fp.length := by
  simp only [fractionLength, idxOf?_pointForm h, List.length_append, List.length_cons]
  omega

theorem fractionLength_of_not_mem (h : '.' ∉ s) : fractionLength s = 0 := by
  simp [fractionLength, List.idxOf?_eq_none_iff.2 h]

theorem padFraction_pointForm :
    padFraction (ip ++ '.' :: fp) n = ip ++ '.' :: (fp ++ List.replicate n '0') := by
  simp [padFraction]

theorem padFraction_of_not_mem (h : '.' ∉ s) : padFraction s n = s ++ '.' :: List.replicate n '0' := by
  simp [padFraction, h]

/-- Padding puts the point after the integer part, adding one if needed. -/
theorem idxOf?_padFraction : (padFraction s n).idxOf? '.' = some (integerPart s).length := by
  by_cases h : '.' ∈ s
  · obtain ⟨fp, hs, hnot⟩ := pointForm_of_mem h
    rw [hs, padFraction_pointForm, idxOf?_pointForm hnot, integerPart_pointForm hnot]
  · rw [padFraction_of_not_mem h, idxOf?_pointForm h, integerPart_of_not_mem h]

/-- Padding lengthens the fraction by the number of zeros. -/
theorem fractionLength_padFraction : fractionLength (padFraction s n) = fractionLength s + n := by
  by_cases h : '.' ∈ s
  · obtain ⟨fp, hs, hnot⟩ := pointForm_of_mem h
    rw [hs, padFraction_pointForm, fractionLength_pointForm hnot, fractionLength_pointForm hnot]
    simp
  · rw [padFraction_of_not_mem h, fractionLength_pointForm h, fractionLength_of_not_mem h]
    simp

end text

/-! ## The longest common prefix -/

theorem commonPrefixOf_starts (xs ys : List Char) :
    commonPrefixOf xs ys <+: xs ∧ commonPrefixOf xs ys <+: ys := by
  induction xs generalizing ys with
  | nil => simp [commonPrefixOf]
  | cons a as ih =>
    cases ys with
    | nil => simp [commonPrefixOf]
    | cons b bs =>
      by_cases hab : a = b
      · subst hab
        obtain ⟨hxs, hys⟩ := ih bs
        simp [commonPrefixOf, hxs, hys]
      · simp [commonPrefixOf, hab]

/-- A prefix of both lists is a prefix of what `commonPrefixOf` keeps. -/
theorem length_le_commonPrefixOf {q : List Char} :
    ∀ {xs ys : List Char}, q <+: xs → q <+: ys → q.length ≤ (commonPrefixOf xs ys).length := by
  induction q with
  | nil => simp
  | cons c q ih =>
    intro xs ys hx hy
    obtain ⟨xs, rfl, hx'⟩ : ∃ xs', xs = c :: xs' ∧ q <+: xs' := by
      cases xs with
      | nil => simp at hx
      | cons a xs => exact ⟨xs, by rw [(List.cons_prefix_cons.1 hx).1], (List.cons_prefix_cons.1 hx).2⟩
    obtain ⟨ys, rfl, hy'⟩ : ∃ ys', ys = c :: ys' ∧ q <+: ys' := by
      cases ys with
      | nil => simp at hy
      | cons b ys => exact ⟨ys, by rw [(List.cons_prefix_cons.1 hy).1], (List.cons_prefix_cons.1 hy).2⟩
    simpa [commonPrefixOf] using ih hx' hy'

theorem commonPrefixOf_longest (xs ys : List Char) : IsLongestCommonPrefix (commonPrefixOf xs ys) xs ys :=
  ⟨(commonPrefixOf_starts xs ys).1, (commonPrefixOf_starts xs ys).2, fun _ => length_le_commonPrefixOf⟩

/-! ## Plain forms -/

/-- The plain form of `a` with its fraction padded with zeros to as many
digits as the plain form of `b` has, when that is more. -/
def alignedPlain (a b : SimTime) : List Char :=
  let sa := a.toPlain.toList
  let fa := fractionLength sa
  let fb := fractionLength b.toPlain.toList
  if fa < fb then padFraction sa (fb - fa) else sa

theorem point_not_mem_toString_nat (n : Nat) : '.' ∉ (toString n).toList := by
  rw [Nat.toString_eq_ofList_toDigits, String.toList_ofList]
  intro h
  exact absurd (Nat.isDigit_of_mem_toDigits (by decide) (by decide) h) (by decide)

theorem point_not_mem_toString_int (i : Int) : '.' ∉ (toString i).toList := by
  cases i with
  | ofNat n => exact point_not_mem_toString_nat n
  | negSucc n =>
    have hsign : (toString (Int.negSucc n)).toList = '-' :: (toString (n + 1)).toList := by
      show ("-" ++ toString (n + 1)).toList = _
      simp
    rw [hsign, List.mem_cons, not_or]
    exact ⟨by decide, point_not_mem_toString_nat (n + 1)⟩

/-- Splitting the digits leaves the point out and gives the fraction `f`
digits. -/
theorem splitDigits_spec {ds : List Char} (hds : '.' ∉ ds) (f : Nat) :
    '.' ∉ (splitDigits ds f).1 ∧ (splitDigits ds f).2.length = f := by
  unfold splitDigits
  split
  · exact ⟨fun h => hds (List.mem_of_mem_take h), by simp; omega⟩
  · exact ⟨by simp, by simp; omega⟩

/-- A time with an exponent of zero or more is written without a point. -/
theorem point_not_mem_toPlain {t : SimTime} (h : 0 ≤ t.exp) : '.' ∉ t.toPlain.toList := by
  simp only [toPlain, render, ge_iff_le, h, if_true]
  exact point_not_mem_toString_int _

/-- A time with a negative exponent is written with a point and as many
digits after it as the exponent says. -/
theorem toPlain_pointForm {t : SimTime} (h : t.exp < 0) :
    ∃ ip fp, t.toPlain.toList = ip ++ '.' :: fp ∧ '.' ∉ ip ∧ fp.length = (-t.exp).toNat := by
  obtain ⟨hip, hfp⟩ := splitDigits_spec (point_not_mem_toString_nat t.coeff.natAbs) (-t.exp).toNat
  have hne : (splitDigits (toString t.coeff.natAbs).toList (-t.exp).toNat).2.isEmpty = false := by
    rw [List.isEmpty_eq_false_iff, ← List.length_pos_iff, hfp]
    omega
  have hrender : t.toPlain.toList =
      (if t.coeff < 0 then '-' :: (splitDigits (toString t.coeff.natAbs).toList (-t.exp).toNat).1
        else (splitDigits (toString t.coeff.natAbs).toList (-t.exp).toNat).1) ++
        '.' :: (splitDigits (toString t.coeff.natAbs).toList (-t.exp).toNat).2 := by
    simp only [toPlain, render, ge_iff_le, Int.not_le.2 h, if_false, Bool.false_eq_true, hne]
    split <;> simp
  refine ⟨_, _, hrender, ?_, hfp⟩
  split
  · simpa using hip
  · exact hip

theorem fractionLength_toPlain (t : SimTime) : fractionLength t.toPlain.toList = (-t.exp).toNat := by
  by_cases h : t.exp < 0
  · obtain ⟨ip, fp, hs, hip, hfp⟩ := toPlain_pointForm h
    rw [hs, fractionLength_pointForm hip, hfp]
  · rw [fractionLength_of_not_mem (point_not_mem_toPlain (by omega))]
    omega

/-- The padded plain form has a point, right after the integer part, as soon
as one of the two times has a fraction. -/
theorem idxOf?_alignedPlain (a b : SimTime) :
    (a.alignedPlain b).idxOf? '.' =
      if a.exp < 0 ∨ b.exp < 0 then some (integerPart a.toPlain.toList).length else none := by
  simp only [alignedPlain, fractionLength_toPlain]
  by_cases hlt : (-a.exp).toNat < (-b.exp).toNat
  · rw [if_pos hlt, idxOf?_padFraction, if_pos (Or.inr (by omega))]
  · rw [if_neg hlt]
    by_cases ha : a.exp < 0
    · obtain ⟨ip, fp, hs, hip, _⟩ := toPlain_pointForm ha
      rw [hs, idxOf?_pointForm hip, integerPart_pointForm hip, if_pos (Or.inl ha)]
    · rw [List.idxOf?_eq_none_iff.2 (point_not_mem_toPlain (by omega)), if_neg (by omega)]

/-- Both padded plain forms have the longer of the two fractions. -/
theorem fractionLength_alignedPlain (a b : SimTime) :
    fractionLength (a.alignedPlain b) = Max.max (-a.exp).toNat (-b.exp).toNat := by
  simp only [alignedPlain, fractionLength_toPlain]
  split
  · rw [fractionLength_padFraction, fractionLength_toPlain]
    omega
  · rw [fractionLength_toPlain]
    omega

/-- The common prefix compares where the padded points stand. -/
theorem commonPrefix_eq (a b : SimTime) :
    commonPrefix a b =
      if (a.alignedPlain b).idxOf? '.' ≠ (b.alignedPlain a).idxOf? '.' then ""
      else String.ofList (commonPrefixOf (a.alignedPlain b) (b.alignedPlain a)) := rfl

/-- The common prefix of two times is the longest common prefix of their
plain forms padded to fractions of one length, when the integer parts have
the same length or both times are integers, and the empty text otherwise. -/
theorem commonPrefix_aligned (a b : SimTime) :
    fractionLength (a.alignedPlain b) = fractionLength (b.alignedPlain a) ∧
    ((integerPart a.toPlain.toList).length = (integerPart b.toPlain.toList).length ∨ (0 ≤ a.exp ∧ 0 ≤ b.exp) →
      IsLongestCommonPrefix (commonPrefix a b).toList (a.alignedPlain b) (b.alignedPlain a)) ∧
    ((integerPart a.toPlain.toList).length ≠ (integerPart b.toPlain.toList).length → a.exp < 0 ∨ b.exp < 0 →
      commonPrefix a b = "") := by
  have hpoints := idxOf?_alignedPlain a b
  have hpoints' := idxOf?_alignedPlain b a
  refine ⟨by rw [fractionLength_alignedPlain, fractionLength_alignedPlain, Nat.max_comm], ?aligned, ?apart⟩
  case aligned =>
    intro h
    have hsame : (a.alignedPlain b).idxOf? '.' = (b.alignedPlain a).idxOf? '.' := by
      rw [hpoints, hpoints']
      by_cases hfrac : a.exp < 0 ∨ b.exp < 0
      · have hlen : (integerPart a.toPlain.toList).length = (integerPart b.toPlain.toList).length := by omega
        rw [if_pos hfrac, if_pos (Or.comm.1 hfrac), hlen]
      · rw [if_neg hfrac, if_neg (by omega)]
    rw [commonPrefix_eq, if_neg (fun h => h hsame), String.toList_ofList]
    exact commonPrefixOf_longest _ _
  case apart =>
    intro hlen hfrac
    rw [commonPrefix_eq, if_pos]
    rw [hpoints, hpoints', if_pos hfrac, if_pos (Or.comm.1 hfrac)]
    simpa using hlen

/-- The integers `1` and `15` have integer parts of different lengths, yet
their common prefix is `1`. -/
theorem commonPrefix_unaligned_integers :
    (integerPart (ofInt 1).toPlain.toList).length ≠ (integerPart (ofInt 15).toPlain.toList).length ∧
      commonPrefix (ofInt 1) (ofInt 15) = "1" := by
  decide +kernel

end SimTime

end EventChart
