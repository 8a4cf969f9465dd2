import EventChart.Log.Basic
import Mathlib
/-!
# Searching an ordered index

The index answers its searches by bisection (`lowerBound`): the first event
numbered `n` or higher, the last event no later than a time, the first event
no earlier than one.  A bisection finds the first position where its test
holds only if the test is monotone: once true, true at every later
position.  This module proves that, and from it that each search gives what
a linear scan over the events gives, as soon as the events are in order.

There are three groups.

* The order of times.  `SimTime.toRat` is the number a time denotes, and
  `SimTime.lt_iff_toRat` and `SimTime.le_iff_toRat` say that the order of
  times is the order of those numbers, whatever the scales.  So the order is
  total and transitive, which is all the searches need.
* Bisection.  `lowerBound_spec` is the contract of `lowerBound` on a
  monotone test, and `lowerBound_eq_findIdx` restates it over an array.
* The searches.  `Event.Precedes a b` says that `b` may follow `a` in an
  index: a larger number and no earlier time.  Under `Ordered` (every event
  precedes the later ones) `Index.searchNumber_eq_findIdx` and
  `Index.find?_eq_find?` give the number searches as scans, and
  `Index.lastNotAfter_eq_scan` and `Index.firstNotBefore_eq_scan` the time
  searches.
-/

namespace EventChart

/-! ## The order of times -/

namespace SimTime

/-- The rational number a time denotes. -/
def toRat (t : SimTime) : ℚ := t.coeff * (10 : ℚ) ^ t.exp

/-- Written at a smaller exponent, a time keeps its value. -/
theorem coeffAt_mul_zpow {t : SimTime} {e : Int} (h : e ≤ t.exp) :
    (t.coeffAt e : ℚ) * (10 : ℚ) ^ e = t.toRat := by
  have hk : (((t.exp - e).toNat : Nat) : Int) = t.exp - e := Int.toNat_of_nonneg (by omega)
  have hpow : ((10 : ℚ) ^ (t.exp - e).toNat) * (10 : ℚ) ^ e = (10 : ℚ) ^ t.exp := by
    rw [← zpow_natCast, hk, ← zpow_add₀ (by norm_num)]
    congr 1
    omega
  have hcast : ((Int.pow 10 (t.exp - e).toNat : Int) : ℚ) = (10 : ℚ) ^ (t.exp - e).toNat := by
    change ((10 ^ (t.exp - e).toNat : Int) : ℚ) = _
    push_cast
    rfl
  rw [coeffAt, toRat, Int.cast_mul, hcast, mul_assoc, hpow]

/-- Both times written at the smaller of their exponents. -/
private theorem cmp_scaled (a b : SimTime) :
    (a.coeffAt (Min.min a.exp b.exp) : ℚ) * (10 : ℚ) ^ (Min.min a.exp b.exp) = a.toRat ∧
      (b.coeffAt (Min.min a.exp b.exp) : ℚ) * (10 : ℚ) ^ (Min.min a.exp b.exp) = b.toRat :=
  ⟨coeffAt_mul_zpow (Int.min_le_left _ _), coeffAt_mul_zpow (Int.min_le_right _ _)⟩

theorem lt_iff_toRat {a b : SimTime} : a < b ↔ a.toRat < b.toRat := by
  obtain ⟨ha, hb⟩ := cmp_scaled a b
  have hpos : (0 : ℚ) < (10 : ℚ) ^ (Min.min a.exp b.exp) := zpow_pos (by norm_num) _
  change compare _ _ = Ordering.lt ↔ _
  rw [compare_lt_iff_lt, ← ha, ← hb, mul_lt_mul_iff_left₀ hpos, Int.cast_lt]

theorem le_iff_toRat {a b : SimTime} : a ≤ b ↔ a.toRat ≤ b.toRat := by
  obtain ⟨ha, hb⟩ := cmp_scaled a b
  have hpos : (0 : ℚ) < (10 : ℚ) ^ (Min.min a.exp b.exp) := zpow_pos (by norm_num) _
  change compare _ _ ≠ Ordering.gt ↔ _
  rw [ne_eq, compare_gt_iff_gt, not_lt, ← ha, ← hb, mul_le_mul_iff_left₀ hpos, Int.cast_le]

theorem not_lt_iff_le {a b : SimTime} : ¬ a < b ↔ b ≤ a := by
  rw [lt_iff_toRat, le_iff_toRat, not_lt]

theorem le_refl (a : SimTime) : a ≤ a := le_iff_toRat.mpr le_rfl

theorem le_trans {a b c : SimTime} (hab : a ≤ b) (hbc : b ≤ c) : a ≤ c :=
  le_iff_toRat.mpr ((le_iff_toRat.mp hab).trans (le_iff_toRat.mp hbc))

theorem lt_of_lt_of_le {a b c : SimTime} (hab : a < b) (hbc : b ≤ c) : a < c :=
  lt_iff_toRat.mpr ((lt_iff_toRat.mp hab).trans_le (le_iff_toRat.mp hbc))

end SimTime

/-! ## Bisection -/

/-- A test on the positions below `n` that stays true once it holds. -/
def MonotoneBelow (n : Nat) (p : Nat → Bool) : Prop :=
  ∀ i j, i ≤ j → j < n → p i = true → p j = true

/-- The loop of the bisection keeps the test false below `lo` and true from
`hi` up; it stops when the two meet. -/
theorem lowerBound_go_spec {n : Nat} {p : Nat → Bool} (hp : MonotoneBelow n p) (lo hi : Nat)
    (hle : lo ≤ hi) (hhi : hi ≤ n) (hlo : ∀ i, i < lo → p i = false)
    (hup : ∀ i, hi ≤ i → i < n → p i = true) :
    lowerBound.go p lo hi ≤ hi ∧ (∀ i, i < lowerBound.go p lo hi → p i = false) ∧
      ∀ i, lowerBound.go p lo hi ≤ i → i < n → p i = true := by
  fun_induction lowerBound.go p lo hi with
  | case1 lo hi hlt mid hmid ih =>
    -- the test holds at the middle, so from the middle up
    have hup' : ∀ i, mid ≤ i → i < n → p i = true :=
      fun i h1 h2 => hp _ i h1 h2 hmid
    obtain ⟨h1, h2, h3⟩ := ih (by omega) (by omega) hlo hup'
    exact ⟨by omega, h2, h3⟩
  | case2 lo hi hlt mid hmid ih =>
    -- the test fails at the middle, so below it too
    have hlo' : ∀ i, i < mid + 1 → p i = false := by
      intro i hi
      cases h : p i with
      | false => rfl
      | true => exact absurd (hp i _ (by omega) (by omega) h) hmid
    exact ih (by omega) hhi hlo' hup
  | case3 lo hi hge =>
    exact ⟨hle, hlo, fun i h1 h2 => hup i (by omega) h2⟩

/-- On a monotone test, the bisection returns the first position below `n`
where the test holds, or `n` if there is none. -/
theorem lowerBound_spec {n : Nat} {p : Nat → Bool} (hp : MonotoneBelow n p) :
    lowerBound n p ≤ n ∧ (∀ i, i < lowerBound n p → p i = false) ∧
      ∀ i, lowerBound n p ≤ i → i < n → p i = true :=
  lowerBound_go_spec hp 0 n (Nat.zero_le n) le_rfl (fun _ h => absurd h (Nat.not_lt_zero _))
    (fun _ h1 h2 => absurd h2 (by omega))

/-- Over an array whose elements pass a test from some point on, the
bisection is the first index of an element that passes. -/
theorem lowerBound_eq_findIdx {α : Type} [Inhabited α] {xs : Array α} {q : α → Bool}
    (hq : xs.toList.Pairwise fun a b => q a = true → q b = true) :
    lowerBound xs.size (fun i => q xs[i]!) = xs.toList.findIdx q := by
  have hmono : MonotoneBelow xs.size (fun i => q xs[i]!) := by
    intro i j hij hj hi
    rcases Nat.eq_or_lt_of_le hij with rfl | hlt
    · exact hi
    · have hpair := List.pairwise_iff_getElem.mp hq i j (by simp; omega) (by simpa using hj) hlt
      simp only [getElem!_pos xs i (by omega), getElem!_pos xs j hj] at hi ⊢
      exact hpair hi
  obtain ⟨hle, hbelow, habove⟩ := lowerBound_spec hmono
  have hat : ∀ i (h : i < xs.size), q xs.toList[i] = q xs[i]! := by
    intro i h
    simp [getElem!_pos xs i h]
  rcases Nat.lt_or_ge (lowerBound xs.size fun i => q xs[i]!) xs.size with hlt | hge
  · symm
    rw [List.findIdx_eq (by simpa using hlt)]
    refine ⟨?_, fun j hj => ?_⟩
    · rw [hat _ hlt]
      exact habove _ le_rfl hlt
    · rw [hat _ (by omega)]
      exact hbelow j hj
  · have heq : lowerBound xs.size (fun i => q xs[i]!) = xs.size := le_antisymm hle hge
    rw [heq]
    symm
    rw [Array.length_toList.symm, List.findIdx_eq_length]
    intro x hx
    obtain ⟨i, hi, rfl⟩ := List.getElem_of_mem hx
    simp only [Array.length_toList] at hi
    rw [hat i hi]
    exact hbelow i (by omega)

/-! ## The searches of an ordered index -/

namespace Event

/-- Event `b` may follow event `a` in an index: a larger number and no
earlier time. -/
def Precedes (a b : Event) : Prop := a.number < b.number ∧ a.time ≤ b.time

theorem Precedes.trans {a b c : Event} (hab : a.Precedes b) (hbc : b.Precedes c) : a.Precedes c :=
  ⟨Int.lt_trans hab.1 hbc.1, SimTime.le_trans hab.2 hbc.2⟩

end Event

/-- Events in index order: each one precedes every later one. -/
def InOrder (es : List Event) : Prop := es.Pairwise Event.Precedes

/-- An event may be appended to events in order when it follows the last of
them. -/
theorem InOrder.append_of_last {es : List Event} {e : Event} (h : InOrder es)
    (hlast : ∀ a ∈ es.getLast?, a.Precedes e) : InOrder (es ++ [e]) := by
  unfold InOrder at h ⊢
  rw [List.pairwise_append]
  refine ⟨h, List.pairwise_singleton _ _, fun a ha b hb => ?_⟩
  rw [List.mem_singleton] at hb
  subst hb
  have hl : es.getLast? = some (es.getLast (List.ne_nil_of_mem ha)) := List.getLast?_eq_some_getLast _
  have hle := hlast _ (by rw [hl]; rfl)
  rcases List.mem_iff_append.mp ha with ⟨s, t, rfl⟩
  cases t with
  | nil => simpa using hle
  | cons c t =>
    have hac : a.Precedes ((s ++ a :: c :: t).getLast (List.ne_nil_of_mem ha)) := by
      apply List.rel_of_pairwise_cons (List.pairwise_append.mp h).2.1
      simp [List.getLast_append_of_ne_nil, List.getLast_mem]
    exact hac.trans hle

namespace Index

variable {x : Index}

/-- The first event numbered `n` or higher is found by the scan for it. -/
theorem searchNumber_eq_findIdx (h : InOrder x.events.toList) (n : Int) :
    x.searchNumber n = x.events.toList.findIdx fun e => decide (e.number ≥ n) := by
  unfold searchNumber
  refine @lowerBound_eq_findIdx _ _ x.events (fun e => decide (e.number ≥ n))
    (h.imp fun hab ha => ?_)
  simp only [decide_eq_true_eq] at ha ⊢
  exact Int.le_of_lt (Int.lt_of_le_of_lt ha hab.1)

/-- The event numbered `n` is found by the scan for it. -/
theorem find?_eq_find? (h : InOrder x.events.toList) (n : Int) :
    x.find? n = x.events.toList.find? fun e => e.number == n := by
  unfold find?
  rw [searchNumber_eq_findIdx h, ← Array.getElem?_toList, ← List.find?_eq_getElem?_findIdx]
  cases hf : x.events.toList.find? (fun e => decide (e.number ≥ n)) with
  | none =>
    -- every number is below `n`
    symm
    rw [List.find?_eq_none] at hf ⊢
    intro e he heq
    have := hf e he
    simp only [beq_iff_eq] at heq
    simp [heq] at this
  | some e =>
    obtain ⟨hge, i, hi, rfl, hbefore⟩ := List.find?_eq_some_iff_getElem.mp hf
    simp only [decide_eq_true_eq] at hge
    by_cases heq : x.events.toList[i].number = n
    · -- the first event numbered `n` or higher is numbered `n`
      dsimp only
      rw [if_pos heq]
      symm
      refine List.find?_eq_some_iff_getElem.mpr ⟨by simpa using heq, i, hi, rfl, fun j hj => ?_⟩
      have := hbefore j hj
      simp only [Bool.not_eq_true', decide_eq_false_iff_not] at this
      simp only [Bool.not_eq_true', beq_eq_false_iff_ne]
      omega
    · -- it is numbered higher, and so is every later one
      dsimp only
      rw [if_neg heq]
      symm
      rw [List.find?_eq_none]
      intro e he hen
      simp only [beq_iff_eq] at hen
      obtain ⟨j, hj, rfl⟩ := List.getElem_of_mem he
      rcases Nat.lt_trichotomy j i with hji | rfl | hij
      · have := hbefore j hji
        simp only [Bool.not_eq_true', decide_eq_false_iff_not] at this
        omega
      · exact heq hen
      · have := (List.pairwise_iff_getElem.mp h i j hi hj hij).1
        omega

end Index

/-- A test that holds below `k` and fails from `k` on is first met, in a
backward scan, at `k - 1`. -/
private theorem find?_reverse_of_split {α : Type} {l : List α} {p : α → Bool} {k : Nat}
    (hk : k ≤ l.length) (hbelow : ∀ j (hj : j < k), p (l.get ⟨j, by omega⟩) = true)
    (habove : ∀ j (hj : j < l.length), k ≤ j → p l[j] = false) :
    l.reverse.find? p = if k = 0 then none else l[k - 1]? := by
  have hsplit : l.reverse = (l.drop k).reverse ++ (l.take k).reverse := by
    rw [← List.reverse_append, List.take_append_drop]
  have hdrop : (l.drop k).reverse.find? p = none := by
    rw [List.find?_eq_none]
    intro a ha
    rw [List.mem_reverse] at ha
    obtain ⟨j, hj, rfl⟩ := List.getElem_of_mem ha
    rw [List.getElem_drop]
    simp [habove (k + j) (by simp at hj; omega) (by omega)]
  rw [hsplit, List.find?_append, hdrop, Option.none_or]
  rcases k with _ | k
  · simp
  · have hkl : k < l.length := by omega
    have htake : (l.take (k + 1)).reverse = l[k] :: (l.take k).reverse := by
      rw [List.take_succ_eq_append_getElem hkl, List.reverse_append]
      rfl
    have hpk : p l[k] = true := hbelow k (by omega)
    rw [htake, List.find?_cons_of_pos hpk]
    simp [List.getElem?_eq_getElem hkl]

namespace EventLog

variable {l : EventLog}

/-- The last event no later than `t` is the one a backward scan meets first. -/
theorem lastNotAfter_eq_scan (h : InOrder l.index.events.toList) (t : SimTime) :
    l.lastNotAfter t =
      (l.index.events.toList.reverse.find? fun e => decide (e.time ≤ t)).map l.refOf := by
  set es := l.index.events with hes
  let p : Nat → Bool := fun i => decide (t < es[i]!.time)
  have hmono : MonotoneBelow es.size p := by
    intro i j hij hj hi
    have hpi : t < es[i].time := by
      have := hi
      simp only [p, getElem!_pos es i (by omega), decide_eq_true_eq] at this
      exact this
    simp only [p, getElem!_pos es j hj, decide_eq_true_eq]
    rcases Nat.eq_or_lt_of_le hij with rfl | hlt
    · exact hpi
    · have hpre := List.pairwise_iff_getElem.mp h i j (by simp; omega) (by simpa using hj) hlt
      simp only [Array.getElem_toList] at hpre
      exact SimTime.lt_of_lt_of_le hpi hpre.2
  obtain ⟨hle, hbelow, habove⟩ := lowerBound_spec hmono
  have hscan := find?_reverse_of_split (l := es.toList) (p := fun e => decide (e.time ≤ t))
    (k := lowerBound es.size p) (by simpa using hle)
    (fun j hj => by
      have := hbelow j hj
      simp only [p, getElem!_pos es j (by omega)] at this
      simpa [SimTime.not_lt_iff_le] using this)
    (fun j hj hkj => by
      have := habove j hkj (by simpa using hj)
      simp only [p, getElem!_pos es j (by simpa using hj)] at this
      simpa [← SimTime.not_lt_iff_le] using this)
  change l.eventAt ((lowerBound es.size p : Nat) - 1 : Int) = _
  rw [hscan]
  split
  · rename_i hk
    simp [eventAt, hk]
  · rename_i hk
    have hpos : ¬ ((lowerBound es.size p : Nat) : Int) - 1 < 0 := by omega
    have hidx : (((lowerBound es.size p : Nat) : Int) - 1).toNat = lowerBound es.size p - 1 := by
      omega
    simp only [eventAt, if_neg hpos]
    rw [← hes, hidx, Array.getElem?_toList]

/-- The first event no earlier than `t` is the one a forward scan meets first. -/
theorem firstNotBefore_eq_scan (h : InOrder l.index.events.toList) (t : SimTime) :
    l.firstNotBefore t =
      (l.index.events.toList.find? fun e => decide (t ≤ e.time)).map l.refOf := by
  have hq : ∀ e : Event, (!decide (e.time < t)) = decide (t ≤ e.time) := by
    intro e
    rw [← decide_not]
    exact decide_eq_decide.mpr SimTime.not_lt_iff_le
  have hi : lowerBound l.index.events.size (fun i => !decide (l.index.events[i]!.time < t)) =
      l.index.events.toList.findIdx fun e => decide (t ≤ e.time) := by
    simp only [hq]
    refine @lowerBound_eq_findIdx _ _ l.index.events (fun e => decide (t ≤ e.time))
      (h.imp fun hab ha => ?_)
    simp only [decide_eq_true_eq] at ha ⊢
    exact SimTime.le_trans ha hab.2
  change l.eventAt (lowerBound l.index.events.size
    (fun i => !decide (l.index.events[i]!.time < t)) : Nat) = _
  rw [hi, List.find?_eq_getElem?_findIdx]
  simp [eventAt, Array.getElem?_toList]

end EventLog

end EventChart
