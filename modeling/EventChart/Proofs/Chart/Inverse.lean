import EventChart.Proofs.Chart.Search
/-!
# The inverse mappings

`timeAt c x upper` is the simulation time at coordinate `x` and
`coordinateAt c t upper` the coordinate at simulation time `t`; `upper`
picks between the events that share `x` (or `t`).  At the coordinate of an
event, the lower and upper times are those of the first and the last event
of its run of equal coordinates; at the time of an event, the lower and upper
coordinates are those of the first and the last event of its run of equal
times.  As soon as coordinates and times do not decrease along the log, each
pair brackets the event.

The coordinates need not increase: in event-number mode the difference of
two numbers wraps to 64 bits, and then the time at the coordinate of the
first event of a log can be the time of a later one.

* `RunAround v n j f l`: positions `f ≤ j ≤ l` are the ends of the run of
  values equal to `v j`.
* `Mapper.timeAt_run` and `Mapper.coordinateAt_run` read the two inverse
  mappings at an event off those runs; `EventLog.lastNotAfter_run` and
  `EventLog.firstNotBefore_run` are the runs of equal times.
-/

namespace EventChart

/-- Positions `f ≤ j ≤ l` below `n` are the ends of the run of `v` around
position `j`: the values at `f` and `l` are those at `j`, every earlier
value is below it and every later one above it. -/
structure RunAround {α : Type} [LE α] [LT α] (v : Nat → α) (n j f l : Nat) : Prop where
  first_le : f ≤ j
  le_last : j ≤ l
  last_lt : l < n
  at_first : v j ≤ v f
  at_last : v l ≤ v j
  below : ∀ i, i < f → v i < v j
  above : ∀ i, l < i → i < n → v j < v i

namespace SimTime

/-- Two times each at most the other have the same value. -/
theorem sameValue_of_le_of_le {a b : SimTime} (hab : a ≤ b) (hba : b ≤ a) : a.sameValue b = true := by
  have hlt : ¬a < b := not_lt_iff_le.mpr hba
  change a.cmp b ≠ .gt at hab
  change ¬a.cmp b = .lt at hlt
  unfold sameValue
  cases h : a.cmp b <;> simp_all

theorem lt_of_not_le {a b : SimTime} (h : ¬a ≤ b) : b < a :=
  Classical.byContradiction fun hlt => h (not_lt_iff_le.mp hlt)

end SimTime

/-! ## Runs of equal times -/

namespace ChartEnv

variable {c : ChartEnv} {j : Nat}

/-- Times do not decrease along the base. -/
theorem timeOf_refAt_le (hl : c.base.Inv) {i : Nat} (hij : i ≤ j) (hj : j < c.base.length) :
    c.timeOf (c.refAt i) ≤ c.timeOf (c.refAt j) := by
  have hj' : j < c.base.index.events.size := hj
  rw [timeOf_refAt (by omega), timeOf_refAt hj]
  rcases Nat.eq_or_lt_of_le hij with rfl | hlt
  · exact SimTime.le_refl _
  · have hpair := List.pairwise_iff_getElem.mp (Index.Placed.inOrder hl) i j (by simp; omega) (by simpa using hj') hlt
    simp only [Array.getElem_toList] at hpair
    exact hpair.2

/-- The last event of the base not after the time of position `j` is at a
position `l ≥ j`, and every later event is later. -/
theorem lastNotAfter_timeOf_refAt (hl : c.base.Inv) (hj : j < c.base.length) :
    ∃ l, j ≤ l ∧ l < c.base.length ∧ c.timeOf (c.refAt l) ≤ c.timeOf (c.refAt j) ∧
      (∀ i, l < i → i < c.base.length → c.timeOf (c.refAt j) < c.timeOf (c.refAt i)) ∧
      c.base.lastNotAfter (c.timeOf (c.refAt j)) = some (c.refAt l) := by
  have hn : c.base.index.events.toList.length = c.base.length := by simp [EventLog.length]
  rw [EventLog.lastNotAfter_eq_scan (Index.Placed.inOrder hl)]
  cases hfind : c.base.index.events.toList.reverse.find? (fun e => decide (e.time ≤ c.timeOf (c.refAt j))) with
  | none =>
    -- the event at `j` itself is not after its time
    rw [List.find?_eq_none] at hfind
    refine absurd (hfind c.base.index.events[j] (List.mem_reverse.mpr (Array.getElem_mem_toList _))) ?_
    simpa [timeOf_refAt hj] using SimTime.le_refl _
  | some a =>
    obtain ⟨hta, i, hi, hai, hlater⟩ := List.find?_eq_some_iff_getElem.mp hfind
    -- the `i`-th event from the end is at position `n - 1 - i`
    rw [List.getElem_reverse, Array.getElem_toList] at hai
    rw [List.length_reverse, hn] at hi
    simp only [hn] at hai
    -- every event after position `n - 1 - i` is later than the time
    have hgt : ∀ i', c.base.length - 1 - i < i' → i' < c.base.length →
        c.timeOf (c.refAt j) < c.timeOf (c.refAt i') := by
      intro i' h1 h2
      have h := hlater (c.base.length - 1 - i') (by omega)
      have e : c.base.index.events.toList.length - 1 - (c.base.length - 1 - i') = i' := by omega
      simp only [List.getElem_reverse, Array.getElem_toList, e, Bool.not_eq_true', decide_eq_false_iff_not] at h
      rw [timeOf_refAt h2]
      exact SimTime.lt_of_not_le h
    have hat : c.timeOf (c.refAt (c.base.length - 1 - i)) = a.time := by
      rw [timeOf_refAt (by omega), ← hai]
      rfl
    refine ⟨c.base.length - 1 - i, ?_, by omega, hat ▸ of_decide_eq_true hta, hgt, ?_⟩
    · by_contra hlt
      exact SimTime.not_lt_iff_le.mpr (SimTime.le_refl _) (hgt j (by omega) hj)
    · rw [Option.map_some, ← hai]
      exact congrArg some (refOf_getElem hl (by omega))

/-- The first event of the base not before the time of position `j` is at a
position `f ≤ j`, and every earlier event is earlier. -/
theorem firstNotBefore_timeOf_refAt (hl : c.base.Inv) (hj : j < c.base.length) :
    ∃ f, f ≤ j ∧ c.timeOf (c.refAt j) ≤ c.timeOf (c.refAt f) ∧
      (∀ i, i < f → c.timeOf (c.refAt i) < c.timeOf (c.refAt j)) ∧
      c.base.firstNotBefore (c.timeOf (c.refAt j)) = some (c.refAt f) := by
  rw [EventLog.firstNotBefore_eq_scan (Index.Placed.inOrder hl)]
  cases hfind : c.base.index.events.toList.find? (fun e => decide (c.timeOf (c.refAt j) ≤ e.time)) with
  | none =>
    -- the event at `j` itself is not before its time
    rw [List.find?_eq_none] at hfind
    refine absurd (hfind c.base.index.events[j] (Array.getElem_mem_toList _)) ?_
    simpa [timeOf_refAt hj] using SimTime.le_refl _
  | some a =>
    obtain ⟨hta, f, hf, hai, hearlier⟩ := List.find?_eq_some_iff_getElem.mp hfind
    rw [Array.getElem_toList] at hai
    have hf' : f < c.base.length := by simpa [EventLog.length] using hf
    -- every event before position `f` is earlier than the time
    have hlt : ∀ i, i < f → c.timeOf (c.refAt i) < c.timeOf (c.refAt j) := by
      intro i hi
      have h := hearlier i hi
      simp only [Array.getElem_toList, Bool.not_eq_true', decide_eq_false_iff_not] at h
      rw [timeOf_refAt (by omega)]
      exact SimTime.lt_of_not_le h
    have hat : c.timeOf (c.refAt f) = a.time := by
      rw [timeOf_refAt hf', ← hai]
      rfl
    refine ⟨f, ?_, hat ▸ of_decide_eq_true hta, hlt, ?_⟩
    · by_contra hgt
      exact SimTime.not_lt_iff_le.mpr (SimTime.le_refl _) (hlt j (by omega))
    · rw [Option.map_some, ← hai]
      exact congrArg some (refOf_getElem hl hf')

/-- The searches of the base at the time of position `j` answer the ends of
the run of that time. -/
theorem time_searches_run (hl : c.base.Inv) (hj : j < c.base.length) :
    ∃ f l, RunAround (fun i => c.timeOf (c.refAt i)) c.base.length j f l ∧
      c.base.firstNotBefore (c.timeOf (c.refAt j)) = some (c.refAt f) ∧
      c.base.lastNotAfter (c.timeOf (c.refAt j)) = some (c.refAt l) := by
  obtain ⟨f, hfj, hatf, hbelow, hfirst⟩ := firstNotBefore_timeOf_refAt hl hj
  obtain ⟨l, hjl, hln, hatl, habove, hlast⟩ := lastNotAfter_timeOf_refAt hl hj
  exact ⟨f, l, ⟨hfj, hjl, hln, hatf, hatl, hbelow, habove⟩, hfirst, hlast⟩

end ChartEnv

namespace Mapper

variable {c : ChartEnv} {m : Mapper}

/-! ## The time at a coordinate -/

/-- When the last event at most `x` sits at `x`, the latest time at `x` is
its time and the earliest one the time of the first event of its run. -/
theorem exec_timeAt_at {b k f : Nat} (hs : Stretch c m b k f) {x cl : Float} {e e' : EventRef}
    {m₁ m₂ m₃ : Mapper} (hlast : exec (lastAtMost c (c.refAt k) x) m = (.ok (some e), m₁))
    (hcl : exec (coordinateOf c (c.refAt k) e) m₁ = (.ok cl, m₂)) (heq : (cl == x) = true)
    (hrun : exec (firstOfRun c (c.refAt k) e x) m₂ = (.ok e', m₃)) (upper : Bool) :
    exec (timeAt c x upper) m = if upper then (.ok (c.timeOf e), m₂) else (.ok (c.timeOf e'), m₃) := by
  unfold timeAt
  rw [exec_bind_ok (exec_sync hs), exec_bind_ok hlast]
  dsimp only
  rw [exec_bind_ok hcl, if_pos heq]
  cases upper with
  | true => rfl
  | false => rw [if_neg Bool.false_ne_true, exec_bind_ok hrun]; rfl

section
variable (hl : c.base.Inv) (hc : c.canceled = false) {k : Nat} {r : Nat → Float}
  (hmono : ∀ i j, i ≤ j → j < c.base.length → r i ≤ r j) {j : Nat} (hj : j < c.base.length)
include hmono hj

omit hj in
/-- The last position whose coordinate is at most that of position `j` ends
the run of that coordinate. -/
theorem lastAtMostScan_self (hx : (r j).isNaN = false) (hj : j < c.base.length) :
    ∃ l, lastAtMostScan r (r j) c.base.length = some l ∧ j ≤ l ∧ l < c.base.length ∧ r l ≤ r j ∧
      ∀ i, l < i → i < c.base.length → r j < r i := by
  have hspec := lastAtMostScan_spec r (r j) c.base.length
  revert hspec
  cases lastAtMostScan r (r j) c.base.length with
  | none => exact fun hgt => absurd (hmono j j le_rfl hj) (hgt j hj)
  | some l =>
    rintro ⟨hln, hle, hgt⟩
    have hjl : j ≤ l := by
      by_contra hlt
      exact hgt j (by omega) hj (hmono j j le_rfl hj)
    exact ⟨l, rfl, hjl, hln, hle, fun i h1 h2 => lt_of_not_le_coord hmono hx h2 (hgt i h1 h2)⟩

include hl hc

/-- From a state of the search, the times at the coordinate of position
`j` are those of the first and the last event of its run of equal
coordinates. -/
theorem timeAt_run (h : Measures c k r m) (hx : (r j).isFinite = true) :
    ∃ f l, RunAround r c.base.length j f l ∧
      (exec (timeAt c (r j) false) m).1 = .ok (c.timeOf (c.refAt f)) ∧
      (exec (timeAt c (r j) true) m).1 = .ok (c.timeOf (c.refAt l)) := by
  have hnan := Float.isNaN_of_isFinite hx
  obtain ⟨b, f', hs⟩ := h.1
  obtain ⟨l, hscan, hjl, hln, hlj, habove⟩ := lastAtMostScan_self hmono hnan hj
  obtain ⟨m₁, hlast, h₁⟩ := exec_lastAtMost hl hc hmono hx h
  rw [hscan, Option.map_some] at hlast
  obtain ⟨m₂, hcl, h₂⟩ := coordinateOf_measures hl hc h₁ hln
  -- the last event at most the coordinate is at it: walk back to the first of the run
  have heq : (r l == r j) = true := Float.beq_of_le_of_le hlj (hmono j l hjl hln)
  obtain ⟨f, -, m₃, hrun, -, hfx, hbelow⟩ :=
    firstOfRun_go_first hl hc hmono (c.base.length + 2) l m₂ h₂ hln heq (by omega)
  have hfj : f ≤ j := by
    by_contra hlt
    exact Float.not_le_of_lt (hbelow j (by omega)) (hmono j j le_rfl hj)
  have htime := exec_timeAt_at hs hlast hcl heq (by rw [firstOfRun]; exact hrun)
  refine ⟨f, l, ⟨hfj, hjl, hln, (Float.le_of_beq hfx).2, hlj, hbelow, habove⟩, ?_, ?_⟩
  · rw [htime false]
    rfl
  · rw [htime true]
    rfl

/-! ## The coordinate at a time -/

omit hmono in
/-- From a state of the search, the coordinates at the time of position `j`
are its own coordinate in simulation-time mode, and otherwise those of the
first and the last event of its run of equal times. -/
theorem coordinateAt_run (h : Measures c k r m) :
    ∃ f l, RunAround (fun i => c.timeOf (c.refAt i)) c.base.length j f l ∧ ∀ upper : Bool,
      (exec (coordinateAt c (c.timeOf (c.refAt j)) upper) m).1 =
        .ok (if m.mode = .simulationTime then r j else if upper then r l else r f) := by
  obtain ⟨f, l, hrun, hfirst, hlast⟩ := ChartEnv.time_searches_run hl hj
  obtain ⟨b, f', hs⟩ := h.1
  refine ⟨f, l, hrun, fun upper => ?_⟩
  unfold coordinateAt
  rw [exec_bind_ok (exec_sync hs), exec_bind_ok exec_get]
  dsimp only
  by_cases hsim : m.mode = .simulationTime
  · -- the coordinate of a time is its distance from the origin's time
    rw [if_pos hsim, if_pos hsim, ← h.2]
    simp [reference, hsim]
  · rw [if_neg hsim, if_neg hsim, LogView.lastNotAfter, exec_bind_ok (exec_onView_through hs.full _ _),
      hlast, LogView.firstNotBefore, exec_bind_ok (exec_onView_through hs.full _ _), hfirst]
    dsimp only
    -- the first event at the time has that time
    rw [if_pos (SimTime.sameValue_of_le_of_le (ChartEnv.timeOf_refAt_le hl hrun.first_le hj) hrun.at_first)]
    obtain ⟨mf, hcf, -⟩ := coordinateOf_measures hl hc h (hrun.first_le.trans_lt hj)
    obtain ⟨ml, hcl, -⟩ := coordinateOf_measures hl hc h hrun.last_lt
    cases upper with
    | true => rw [if_pos rfl, if_pos rfl, hcl]
    | false => rw [if_neg Bool.false_ne_true, if_neg Bool.false_ne_true, hcf]

end

/-- In event-number mode reading a coordinate leaves the state as it is. -/
theorem exec_coordinateOf_eventNumber {k : Nat} {r : Nat → Float} (h : Measures c k r m)
    (hm : m.mode = .eventNumber) (j : Nat) :
    exec (coordinateOf c (c.refAt k) (c.refAt j)) m = (.ok (r j), m) := by
  rw [← h.2]
  unfold coordinateOf
  rw [exec_bind_ok exec_get]
  simp [reference, hm, ChartEnv.numberAt, Int64.toInt_sub, Int64.toInt_ofInt]

/-! ## The inverse mappings bracket every event -/

end Mapper

end EventChart
