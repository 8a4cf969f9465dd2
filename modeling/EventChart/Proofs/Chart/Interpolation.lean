import EventChart.Proofs.Chart.Inverse
import EventChart.Chart.Axis
import EventChart.Proofs.Number.Exponents
/-!
# When the time at a coordinate is found

The searches of a chart turn a coordinate back into a time by interpolating
between the two events around it, and a float that has no decimal time (a NaN
or an infinity) makes that conversion fail.  This file says when it does, in
the frame of `Proofs.Chart.Search`: the full view of a log, a state the chart
reaches with its origin at position `k`, and coordinates that do not decrease
along the log.

* The mode is kept by every search (`lastAtMost_keeps_mode` and the lemmas
  before it), so the time at `x` reads the mode it started in.
* `exec_timeAt_between`: inside a bracket `r p < x < r (p + 1)` the time is
  the linear time in simulation-time mode, otherwise the interpolation by
  the fraction `(x - r p) / (r (p + 1) - r p)`; away from every bracket it
  is always found (`timeAt_ok_of_not_between`).
* `timeAt_ok_iff`: the time at a finite `x` is found exactly in
  simulation-time mode or when every bracket that holds `x` gives a finite
  fraction (`FiniteFractions`); `timeAt_error_panic`: a failure is a panic.
* `finiteFractions_step`: in step mode the coordinates are the integers
  `j - k`, so on a log of at most 2⁵³ events every fraction is finite.
* `exec_timeAt_simulationTime_error`: in simulation-time mode a coordinate
  with no time fails before the search starts.

`timeline_queries_return` collects these with the searches of
`Proofs.Chart.Search` and `coordinateAt_ok`, and reads them for the time
drawn at a pixel.  `tiny_scale_time_panics` shows a positive finite scale
whose pixel coordinate overflows.  The ticks of an axis are not covered.
-/

namespace EventChart

namespace Mapper

variable {c : ChartEnv}

/-- A coordinate that has a time converts to it, and the mapper stays. -/
theorem exec_timeOfFloat {m : Mapper} {x : Float} {t : SimTime} (ht : SimTime.ofFloat? x = .ok t) :
    exec (liftExcept (timeOfFloat x)) m = (.ok t, m) := by
  simp [liftExcept, timeOfFloat, ht]

/-- A coordinate with no time fails to convert, and the mapper stays. -/
theorem exec_timeOfFloat_error {m : Mapper} {x : Float} {e : NonFinite}
    (he : SimTime.ofFloat? x = .error e) :
    exec (liftExcept (timeOfFloat x)) m = (.error (.nonFinite e), m) := by
  simp [liftExcept, timeOfFloat, he]

section Mode

variable {md : Mode}

theorem onView_keeps_mode {α : Type} (q : ViewM α) : Keeps (fun m => m.mode = md) (onView q) := by
  unfold onView
  refine keeps_get_bind fun m hm => ?_
  split
  · exact hm
  · exact hm

theorem walk_go_keeps_mode (target dir : Int) :
    ∀ (fuel steps : Nat) (cur : EventRef), Keeps (fun m => m.mode = md) (walk.go c target dir fuel steps cur)
  | 0, _, _ => by
    rw [walk.go]
    exact keeps_pure _
  | fuel + 1, steps, cur => by
    rw [walk.go]
    dsimp only
    split_ifs
    all_goals first
      | exact keeps_pure _
      | exact keeps_throw _
      | refine Keeps.bind (onView_keeps_mode _) fun r => ?_
        split
        · exact keeps_pure _
        · refine keeps_get_bind fun m hm => ?_
          rw [exec_bind_ok (exec_set _)]
          exact walk_go_keeps_mode target dir fuel (steps + 1) _ _ hm

theorem walk_keeps_mode (target dir : Int) : Keeps (fun m => m.mode = md) (walk c target dir) := by
  unfold walk
  refine keeps_get_bind fun m hm => ?_
  split
  · exact hm
  · exact walk_go_keeps_mode target dir _ _ _ m hm

theorem coordinateOf_keeps_mode (o e : EventRef) : Keeps (fun m => m.mode = md) (coordinateOf c o e) := by
  unfold coordinateOf
  refine keeps_get_bind fun m hm => ?_
  dsimp only
  split
  · exact hm
  · exact hm
  · split
    · exact hm
    · split_ifs
      · exact (Keeps.bind (walk_keeps_mode _ _) fun _ => keeps_get_bind fun m' hm' => by
          split <;> exact hm') m hm
      · exact (Keeps.bind (walk_keeps_mode _ _) fun _ => keeps_get_bind fun m' hm' => by
          split <;> exact hm') m hm
      · refine keeps_get_bind (P := fun m => m.mode = md) (fun m' hm' => ?_) m hm
        split <;> exact hm'

theorem start_keeps_mode (o : EventRef) (x : Float) : Keeps (fun m => m.mode = md) (start c o x) := by
  unfold start
  refine keeps_get_bind fun m hm => ?_
  dsimp only
  split
  · refine (Keeps.bind (keeps_liftExcept _) fun d => Keeps.bind (onView_keeps_mode _) fun r => ?_) m hm
    split
    · exact keeps_pure _
    · exact onView_keeps_mode _
  · split
    · split_ifs <;> exact hm
    · exact hm
  · split_ifs <;> exact hm

theorem lastAtMost_go_keeps_mode (o : EventRef) (x : Float) :
    ∀ (fuel steps : Nat) (e : EventRef) (ce : Float),
      Keeps (fun m => m.mode = md) (lastAtMost.go c o x fuel steps e ce)
  | 0, _, _, _ => by
    rw [lastAtMost.go]
    exact keeps_pure _
  | fuel + 1, steps, e, ce => by
    rw [lastAtMost.go]
    dsimp only
    generalize (if ce > x then (-1 : Int) else 1) = dir
    by_cases hcancel : steps % mapperCancelInterval = 0 ∧ c.canceled = true
    · rw [if_pos hcancel]
      exact keeps_throw_bind _ _
    · rw [if_neg hcancel]
      refine Keeps.bind (onView_keeps_mode _) fun r => ?_
      split
      · exact keeps_pure _
      · refine Keeps.bind (coordinateOf_keeps_mode _ _) fun cn => ?_
        split_ifs
        · exact keeps_pure _
        · exact keeps_pure _
        · exact lastAtMost_go_keeps_mode o x fuel (steps + 1) _ cn

theorem lastAtMost_keeps_mode (o : EventRef) (x : Float) : Keeps (fun m => m.mode = md) (lastAtMost c o x) := by
  unfold lastAtMost
  refine Keeps.bind (start_keeps_mode o x) fun r => ?_
  split
  · exact keeps_pure _
  · exact Keeps.bind (coordinateOf_keeps_mode _ _) fun ce => lastAtMost_go_keeps_mode o x _ _ _ ce

end Mode

/-- Every bracket between the coordinates `r p < r (p + 1)` of consecutive
events that holds `x` strictly inside gives a finite interpolation fraction. -/
def FiniteFractions (r : Nat → Float) (n : Nat) (x : Float) : Prop :=
  ∀ p, p + 1 < n → r p < x → x < r (p + 1) → ((x - r p) / (r (p + 1) - r p)).isFinite = true

section Between

variable (hl : c.base.Inv) (hc : c.canceled = false) {k : Nat} {r : Nat → Float}
  (hmono : ∀ i j, i ≤ j → j < c.base.length → r i ≤ r j) {x : Float} (hx : x.isFinite = true)
include hl hc hmono hx

theorem exec_timeAt_between {m : Mapper} (h : Measures c k r m) {p : Nat} (hp : p + 1 < c.base.length)
    (hlo : r p < x) (hhi : x < r (p + 1)) {t : SimTime} (ht : SimTime.ofFloat? x = .ok t) (upper : Bool) :
    (exec (timeAt c x upper) m).1 =
      if m.mode = .simulationTime then
        .ok (SimTime.max (c.timeOf (c.refAt p)) (SimTime.min (c.timeOf (c.refAt k) + t) (c.timeOf (c.refAt (p + 1)))))
      else
        match (c.timeOf (c.refAt (p + 1)) - c.timeOf (c.refAt p)).mulFloat? ((x - r p) / (r (p + 1) - r p)) with
        | .ok d => .ok (SimTime.max (c.timeOf (c.refAt p))
            (SimTime.min (c.timeOf (c.refAt p) + d) (c.timeOf (c.refAt (p + 1)))))
        | .error e => .error (.nonFinite e) := by
  have hnan := Float.isNaN_of_isFinite hx
  obtain ⟨b, f, hs⟩ := h.1
  have hscan : lastAtMostScan r x c.base.length = some p :=
    lastAtMostScan_eq_some (by omega) (Float.le_of_lt hlo) fun i hpi hi hle =>
      Float.not_le_of_lt hhi (Float.le_trans (hmono (p + 1) i hpi hi) hle)
  obtain ⟨m₁, hlast, h₁⟩ := exec_lastAtMost hl hc hmono hx h
  rw [hscan, Option.map_some] at hlast
  obtain ⟨m₂, hcl, h₂⟩ := coordinateOf_measures hl hc h₁ (show p < c.base.length by omega)
  unfold timeAt
  rw [exec_bind_ok (exec_sync hs), exec_bind_ok hlast]
  dsimp only
  -- the searches leave the mode as it is
  have hmode₁ : m₁.mode = m.mode := by
    have := @lastAtMost_keeps_mode c m.mode (c.refAt k) x m rfl
    rwa [hlast] at this
  have hmode₂ : m₂.mode = m.mode := by
    have := @coordinateOf_keeps_mode c m.mode (c.refAt k) (c.refAt p) m₁ hmode₁
    rwa [hcl] at this
  have hne : (r p == x) ≠ true := fun heq => Float.not_le_of_lt hlo (Float.le_of_beq heq).2
  rw [exec_bind_ok hcl, if_neg hne, exec_bind_ok (exec_neighbour hl h₂.full (show p < c.base.length by omega) 1),
    ChartEnv.eventAt_eq hl, if_pos ⟨by omega, by omega⟩, exec_bind_ok (exec_timeOfFloat ht), exec_bind_ok exec_get]
  dsimp only
  rw [hmode₂, show ((p : Int) + 1).toNat = p + 1 by omega]
  split
  · rfl
  · obtain ⟨m₃, hch, -⟩ := coordinateOf_measures hl hc h₂ hp
    rw [exec_bind_ok hch]
    cases (c.timeOf (c.refAt (p + 1)) - c.timeOf (c.refAt p)).mulFloat? ((x - r p) / (r (p + 1) - r p)) with
    | ok d => rfl
    | error e => rfl

/-- Away from a bracket between two consecutive events, the time at `x`
is found: below every event, at an event's coordinate, or past the last. -/
theorem timeAt_ok_of_not_between {m : Mapper} (h : Measures c k r m)
    (hno : ∀ p, p + 1 < c.base.length → r p < x → ¬x < r (p + 1)) (upper : Bool) :
    ∃ s, (exec (timeAt c x upper) m).1 = .ok s := by
  have hnan := Float.isNaN_of_isFinite hx
  have hk := h.origin_lt
  obtain ⟨b, f, hs⟩ := h.1
  obtain ⟨t, ht⟩ := SimTime.ofFloat?_ok hx
  obtain ⟨m₁, hlast, h₁⟩ := exec_lastAtMost hl hc hmono hx h
  have hspec := lastAtMostScan_spec r x c.base.length
  unfold timeAt
  rw [exec_bind_ok (exec_sync hs), exec_bind_ok hlast]
  revert hspec
  cases lastAtMostScan r x c.base.length with
  | none =>
    -- every coordinate is above `x`: the time is clamped to the first event's
    intro _
    dsimp only
    rw [Option.map_none, LogView.first, exec_bind_ok (exec_onView_through h₁.full _ _), EventLog.first,
      ChartEnv.eventAt_eq hl, if_pos ⟨le_rfl, by omega⟩, exec_bind_ok (exec_timeOfFloat ht), exec_bind_ok exec_get]
    dsimp only
    split <;> exact ⟨_, rfl⟩
  | some p =>
    rintro ⟨hp, hle, hgt⟩
    obtain ⟨m₂, hcl, h₂⟩ := coordinateOf_measures hl hc h₁ hp
    dsimp only
    rw [Option.map_some, exec_bind_ok hcl]
    by_cases heq : (r p == x) = true
    · -- at an event's coordinate: the time of the last or the first event there
      rw [if_pos heq]
      cases upper with
      | true => exact ⟨_, rfl⟩
      | false =>
        obtain ⟨j, -, m₃, hrun, -⟩ :=
          firstOfRun_go_first hl hc hmono (c.base.length + 2) p m₂ h₂ hp heq (by omega)
        rw [if_neg Bool.false_ne_true, firstOfRun, exec_bind_ok hrun]
        exact ⟨_, rfl⟩
    · -- past the last event: no event follows
      have hlo : r p < x := Float.lt_of_le_of_beq_false hle (by simpa using heq)
      have hend : ¬p + 1 < c.base.length := fun hp' =>
        hno p hp' hlo (lt_of_not_le_coord hmono hnan hp' (hgt (p + 1) (by omega) hp'))
      rw [if_neg heq, exec_bind_ok (exec_neighbour hl h₂.full hp 1), ChartEnv.eventAt_eq hl,
        if_neg (by omega), exec_bind_ok (exec_timeOfFloat ht), exec_bind_ok exec_get]
      dsimp only
      split <;> exact ⟨_, rfl⟩

omit hl hc hx in
/-- Of two brackets that hold `x`, neither lies past the other. -/
theorem bracket_le {p q : Nat} (hp : p + 1 < c.base.length) (hplo : r p < x) (hqhi : x < r (q + 1)) :
    p ≤ q := by
  by_contra hqp
  have hle : r (q + 1) ≤ r p := hmono (q + 1) p (by omega) (by omega)
  exact Float.not_le_of_lt (Float.lt_of_le_of_lt hle hplo) (Float.le_of_lt hqhi)

/-- Inside a bracket, the time at `x` is found exactly in simulation-time
mode or when the interpolation fraction is finite. -/
theorem timeAt_between_ok_iff {m : Mapper} (h : Measures c k r m) {p : Nat} (hp : p + 1 < c.base.length)
    (hlo : r p < x) (hhi : x < r (p + 1)) (upper : Bool) :
    (∃ s, (exec (timeAt c x upper) m).1 = .ok s) ↔
      m.mode = .simulationTime ∨ ((x - r p) / (r (p + 1) - r p)).isFinite = true := by
  obtain ⟨t, ht⟩ := SimTime.ofFloat?_ok hx
  rw [exec_timeAt_between hl hc hmono hx h hp hlo hhi ht upper]
  by_cases hmode : m.mode = .simulationTime
  · simp [hmode]
  · rw [if_neg hmode, ← Float.mulFloat?_ok_iff (c.timeOf (c.refAt (p + 1)) - c.timeOf (c.refAt p))]
    cases (c.timeOf (c.refAt (p + 1)) - c.timeOf (c.refAt p)).mulFloat? ((x - r p) / (r (p + 1) - r p)) with
    | ok d => simp [hmode]
    | error e => simp [hmode]

/-- The time at `x` is found exactly in simulation-time mode or when every
bracket that holds `x` gives a finite interpolation fraction. -/
theorem timeAt_ok_iff {m : Mapper} (h : Measures c k r m) (upper : Bool) :
    (∃ s, (exec (timeAt c x upper) m).1 = .ok s) ↔
      m.mode = .simulationTime ∨ FiniteFractions r c.base.length x := by
  by_cases hb : ∃ p, p + 1 < c.base.length ∧ r p < x ∧ x < r (p + 1)
  · obtain ⟨p, hp, hlo, hhi⟩ := hb
    -- only the bracket that holds `x` has a fraction to check
    have honly : FiniteFractions r c.base.length x ↔ ((x - r p) / (r (p + 1) - r p)).isFinite = true := by
      refine ⟨fun hf => hf p hp hlo hhi, fun hfin q hq hqlo hqhi => ?_⟩
      obtain rfl : q = p := Nat.le_antisymm (bracket_le hmono hq hqlo hhi) (bracket_le hmono hp hlo hqhi)
      exact hfin
    rw [timeAt_between_ok_iff hl hc hmono hx h hp hlo hhi upper, honly]
  · have hno : ∀ p, p + 1 < c.base.length → r p < x → ¬x < r (p + 1) :=
      fun p hp hlo hhi => hb ⟨p, hp, hlo, hhi⟩
    exact iff_of_true (timeAt_ok_of_not_between hl hc hmono hx h hno upper)
      (.inr fun p hp hlo hhi => absurd hhi (hno p hp hlo))

/-- A failure of the time at `x` is a panic: a fraction that is not finite. -/
theorem timeAt_error_panic {m : Mapper} (h : Measures c k r m) (upper : Bool) {f : Fault}
    (hf : (exec (timeAt c x upper) m).1 = .error f) : f.kind = .panic := by
  by_cases hb : ∃ p, p + 1 < c.base.length ∧ r p < x ∧ x < r (p + 1)
  · obtain ⟨p, hp, hlo, hhi⟩ := hb
    obtain ⟨t, ht⟩ := SimTime.ofFloat?_ok hx
    rw [exec_timeAt_between hl hc hmono hx h hp hlo hhi ht upper] at hf
    split at hf
    · cases hf
    · split at hf
      · cases hf
      · cases hf
        rfl
  · obtain ⟨s, hs⟩ := timeAt_ok_of_not_between hl hc hmono hx h
      (fun p hp hlo hhi => hb ⟨p, hp, hlo, hhi⟩) upper
    rw [hs] at hf
    cases hf

omit hmono hx in
/-- The coordinate of any time is found. -/
theorem coordinateAt_ok {m : Mapper} (h : Measures c k r m) (t : SimTime) (upper : Bool) :
    ∃ y, (exec (coordinateAt c t upper) m).1 = .ok y := by
  obtain ⟨b, f, hs⟩ := h.1
  unfold coordinateAt
  rw [exec_bind_ok (exec_sync hs), exec_bind_ok exec_get]
  dsimp only
  split
  · exact ⟨_, rfl⟩
  · rw [LogView.lastNotAfter, exec_bind_ok (exec_onView_through hs.full _ _), LogView.firstNotBefore,
      exec_bind_ok (exec_onView_through hs.full _ _)]
    -- both events found are events of the base, whose coordinates are read
    have hlo := onBase_lastNotAfter hl t
    have hhi : OnBase c (c.base.firstNotBefore t) := onBase_eventAt hl _
    generalize c.base.lastNotAfter t = lo at hlo ⊢
    generalize c.base.firstNotBefore t = hi at hhi ⊢
    rcases lo with _ | l <;> rcases hi with _ | e
    · exact ⟨0, rfl⟩
    · obtain ⟨j, hj, rfl⟩ := hhi _ rfl
      obtain ⟨m', hcj, -⟩ := coordinateOf_measures hl hc h hj
      exact ⟨_, by dsimp only; rw [hcj]⟩
    · obtain ⟨i, hi, rfl⟩ := hlo _ rfl
      obtain ⟨m', hci, -⟩ := coordinateOf_measures hl hc h hi
      exact ⟨_, by dsimp only; rw [hci]⟩
    · obtain ⟨i, hi, rfl⟩ := hlo _ rfl
      obtain ⟨j, hj, rfl⟩ := hhi _ rfl
      obtain ⟨m₁, hci, h₁⟩ := coordinateOf_measures hl hc h hi
      obtain ⟨m₂, hcj, -⟩ := coordinateOf_measures hl hc h hj
      obtain ⟨m₃, hcj', -⟩ := coordinateOf_measures hl hc h₁ hj
      dsimp only
      split
      · split
        · exact ⟨_, by rw [hci]⟩
        · exact ⟨_, by rw [hcj]⟩
      · exact ⟨_, by rw [exec_bind_ok hci, exec_bind_ok hcj']; rfl⟩

end Between

section Step

/-- Summing ones forward from the origin counts the positions. -/
theorem isInt_above (k : Nat) : ∀ n : Nat, n < 2 ^ 53 → Float.IsInt (above (fun _ => 1) k n) n
  | 0, _ => Float.isInt_zero
  | n + 1, hn => by
    rw [above]
    have h := (isInt_above k n (by omega)).add Float.isInt_one (by simp; omega) (by simp) (by omega)
    simpa using h

/-- Subtracting ones backward from the origin counts the positions down. -/
theorem isInt_below (k : Nat) : ∀ n : Nat, n < 2 ^ 53 → Float.IsInt (below (fun _ => 1) k n) (-n)
  | 0, _ => Float.isInt_zero
  | n + 1, hn => by
    rw [below]
    have h := (isInt_below k n (by omega)).sub Float.isInt_one (by omega) (by simp) (by omega)
    rwa [show -(n : ℤ) - 1 = -((n + 1 : ℕ) : ℤ) by push_cast; ring] at h

/-- In step mode the coordinate of position `j` is the integer `j - k`. -/
theorem isInt_outward {k j : Nat} (hk : k < 2 ^ 53) (hj : j < 2 ^ 53) :
    Float.IsInt (outward (fun _ => 1) k j) ((j : ℤ) - k) := by
  unfold outward
  split
  · next hkj =>
    have h := isInt_above k (j - k) (by omega)
    rwa [show ((j - k : ℕ) : ℤ) = j - k by omega] at h
  · next hkj =>
    have h := isInt_below k (k - j) (by omega)
    rwa [show -((k - j : ℕ) : ℤ) = j - k by omega] at h

end Step

/-- In step mode, on a log of at most 2⁵³ events, every bracket gives a
finite interpolation fraction: the coordinates are the integers `j - k`. -/
theorem finiteFractions_step {k n : Nat} (hk : k < n) (hn : n ≤ 2 ^ 53) {x : Float}
    (hx : x.isFinite = true) : FiniteFractions (outward (fun _ => 1) k) n x := by
  intro p hp hlo hhi
  have ha := isInt_outward (k := k) (j := p) (by omega) (by omega)
  have hb := isInt_outward (k := k) (j := p + 1) (by omega) (by omega)
  rw [show ((p + 1 : ℕ) : ℤ) - k = ((p : ℤ) - k) + 1 by push_cast; ring] at hb
  exact Float.isFinite_interpolation ha hb (by omega) (by omega) hx hlo hhi

/-- In simulation-time mode, a coordinate that has no time makes the search
fail before it starts. -/
theorem exec_timeAt_simulationTime_error {m : Mapper} {b k f : Nat} (hs : Stretch c m b k f)
    (hmode : m.mode = .simulationTime) {x : Float} {e : NonFinite} (hx : SimTime.ofFloat? x = .error e)
    (upper : Bool) : (exec (timeAt c x upper) m).1 = .error (.nonFinite e) := by
  have hstart : exec (start c (c.refAt k) x) m = (.error (.nonFinite e), m) := by
    unfold start
    rw [exec_bind_ok exec_get]
    dsimp only
    rw [hmode]
    exact exec_bind_error (exec_timeOfFloat_error hx)
  have hlast : exec (lastAtMost c (c.refAt k) x) m = (.error (.nonFinite e), m) := by
    unfold lastAtMost
    exact exec_bind_error hstart
  unfold timeAt
  rw [exec_bind_ok (exec_sync hs), exec_bind_error hlast]

end Mapper

end EventChart
