import EventChart.Proofs.Chart.Interpolation
import EventChart.Proofs.Time.Shortest
/-!
# The ticks of a time axis

`Mapper.ticks` lists the ticks of a viewport.  In simulation-time mode they
are decimal: the multiples of one step (one, two or five times a power of
ten) from the left edge rounded down to the right edge rounded up, with the
negative ones left out and at most `maxTicks` of them.  In the other modes
one tick is placed every `spacing` pixels, at the shortest time drawn near
that pixel, and kept when it is neither negative nor past the last event.

* `TickRun` is the invariant of the loop of `decimalTicks`: the ticks so far
  are the consecutive multiples of the step just below the next candidate.
* `decimalTicks_spec`: the decimal ticks are consecutive multiples of a step
  in `{1, 2, 5} · 10 ^ k`, none negative, at most `maxTicks` of them.
* `pixelTicks_spec`: a pixel tick is neither negative nor past the bound.
* `tickAt_within`: the tick near a pixel lies between the times drawn at
  both ends of its range, widened to the time drawn at the pixel itself.
* `ticks_ordered` puts them together for the ticks of a viewport.

That pixel ticks are ordered needs in addition that the time drawn at a
pixel does not decrease from left to right, which the wrapped coordinates
of the event-number mode break (`Mapper.wrapEnv`).
-/

namespace EventChart

namespace SimTime

theorem toRat_add (a b : SimTime) : (a + b).toRat = a.toRat + b.toRat := by
  change (SimTime.add a b).toRat = _
  rw [add, toRat_mk, Int.cast_add, add_mul, coeffAt_mul_zpow (min_le_left _ _),
    coeffAt_mul_zpow (min_le_right _ _)]

/-- A time is not negative exactly when its sign is not. -/
theorem sign_nonneg_iff (t : SimTime) : 0 ≤ t.sign ↔ 0 ≤ t.toRat := by
  have hpos : (0 : ℚ) < (10 : ℚ) ^ t.exp := zpow_pos (by norm_num) _
  rw [toRat, mul_nonneg_iff_of_pos_right hpos, Int.cast_nonneg_iff]
  unfold sign
  split_ifs <;> omega

/-- Times that compare equal have one value. -/
theorem toRat_eq_of_cmp {a b : SimTime} (h : a.cmp b = .eq) : a.toRat = b.toRat := by
  have hle : a ≤ b := by
    change a.cmp b ≠ .gt
    rw [h]
    decide
  have hge : ¬ a < b := by
    change ¬ a.cmp b = .lt
    rw [h]
    decide
  exact le_antisymm (le_iff_toRat.mp hle) (le_of_not_gt (fun h' => hge (lt_iff_toRat.mpr h')))

/-- Quantizing to `10 ^ e` gives a multiple of `10 ^ e`. -/
theorem quantize_multiple (t : SimTime) (e : Int) (mode : Rounding) :
    ∃ n : Int, (t.quantize e mode).toRat = n * 10 ^ e := by
  unfold quantize
  split
  · exact ⟨t.coeffAt e, (coeffAt_mul_zpow (by omega)).symm⟩
  · rename_i hlt
    have hr : (t.rescale e).exp = e := by
      unfold rescale
      split <;> rfl
    dsimp only
    split
    · rename_i heq
      exact ⟨(t.rescale e).coeff, by rw [← toRat_eq_of_cmp heq, toRat, hr]⟩
    · split
      · split
        · exact ⟨(t.rescale e).coeff, by rw [toRat, hr]⟩
        · exact ⟨(t.rescale e).coeff - 1, rfl⟩
      · split
        · exact ⟨(t.rescale e).coeff + 1, rfl⟩
        · exact ⟨(t.rescale e).coeff, by rw [toRat, hr]⟩

/-- The value `shortestWithin` picks lies in the range widened to contain the
time. -/
theorem shortestWithin_between (t tMin tMax : SimTime) :
    SimTime.min tMin t ≤ shortestWithin t tMin tMax ∧ shortestWithin t tMin tMax ≤ SimTime.max tMax t := by
  rw [shortestWithin_eq_pickShorter]
  set lo := SimTime.min tMin t
  set hi := SimTime.max tMax t
  have hlo : lo.toRat ≤ t.toRat := toRat_min_le tMin t
  have hhi : t.toRat ≤ hi.toRat := le_toRat_max tMax t
  have hokf : ∀ r : SimTime, (!(r < lo)) = true ↔ Rounding.floor.Beyond lo.toRat r.toRat := by
    intro r
    simp [Rounding.Beyond, lt_iff_toRat]
  have hokc : ∀ r : SimTime, (!(hi < r)) = true ↔ Rounding.ceiling.Beyond hi.toRat r.toRat := by
    intro r
    simp [Rounding.Beyond, lt_iff_toRat]
  -- each candidate rounds `t` toward one end of the range, then moves its last digit within it
  obtain ⟨f1, f2⟩ := lowestPrecision_between hokf (fun x h1 h2 => ⟨h1, h2.trans hhi⟩) hlo hhi (startDigits lo hi)
  obtain ⟨c1, c2⟩ := lowestPrecision_between hokc (fun x h1 h2 => ⟨hlo.trans h2, h1⟩) hlo hhi (startDigits lo hi)
  obtain ⟨hf1, hf2⟩ := nudgeLastDigit_between f1 f2
  obtain ⟨hc1, hc2⟩ := nudgeLastDigit_between c1 c2
  rcases (pickShorter_spec _ _).1 with h | h <;> rw [h]
  · exact ⟨le_iff_toRat.2 hf1, le_iff_toRat.2 hf2⟩
  · exact ⟨le_iff_toRat.2 hc1, le_iff_toRat.2 hc2⟩

end SimTime

/-- The values of `ts` are the consecutive multiples `n, n + 1, …` of `s`. -/
def Consecutive (s : ℚ) (ts : List SimTime) : Prop :=
  ∃ n : Int, ∀ (i : Nat) (h : i < ts.length), ts[i].toRat = (n + i) * s

namespace Mapper

/-! ## Decimal ticks -/

/-- The loop of `decimalTicks` at candidate `t`, a multiple `n` of the step
`s`, with the ticks `acc` taken so far, latest first: none negative, at most
`maxTicks`, and they are the multiples of `s` just below `t`. -/
def TickRun (s : ℚ) (t : SimTime) (acc : List SimTime) : Prop :=
  ∃ n : Int, t.toRat = n * s ∧ acc.length ≤ maxTicks ∧ (∀ x ∈ acc, 0 ≤ x.toRat) ∧
    ∀ (i : Nat) (h : i < acc.reverse.length), acc.reverse[i].toRat = (n - acc.length + i) * s

theorem TickRun.start {s : ℚ} {t : SimTime} {n : Int} (ht : t.toRat = n * s) : TickRun s t [] :=
  ⟨n, ht, by simp [maxTicks], by simp, by simp⟩

/-- The loop stops with the ticks taken so far, in order. -/
theorem TickRun.finish {s : ℚ} {t : SimTime} {acc : List SimTime} (h : TickRun s t acc) :
    acc.reverse.length ≤ maxTicks ∧ (∀ x ∈ acc.reverse, 0 ≤ x.toRat) ∧ Consecutive s acc.reverse := by
  obtain ⟨n, -, hlen, hnonneg, hcons⟩ := h
  refine ⟨by simpa using hlen, by simpa using hnonneg, ⟨n - acc.length, fun i hi => ?_⟩⟩
  rw [hcons i hi]
  push_cast
  ring

/-- One more candidate: taken when it is not negative, and then the next
candidate is one step further.  A negative candidate is only ever met
before the first tick, since the ticks only grow. -/
theorem TickRun.step {s : ℚ} (hs : 0 < s) {step t : SimTime} (hstep : step.toRat = s) {acc : List SimTime}
    (h : TickRun s t acc) (hroom : acc.length < maxTicks) :
    TickRun s (t + step) (if t.sign ≥ 0 then t :: acc else acc) := by
  obtain ⟨n, ht, hlen, hnonneg, hcons⟩ := h
  have hnext : (t + step).toRat = (n + 1 : Int) * s := by
    rw [SimTime.toRat_add, ht, hstep]
    push_cast
    ring
  by_cases hsign : t.sign ≥ 0
  · rw [if_pos hsign]
    refine ⟨n + 1, hnext, by simpa using hroom, ?_, ?_⟩
    · intro x hx
      rcases List.mem_cons.1 hx with rfl | hx
      · exact (SimTime.sign_nonneg_iff x).1 hsign
      · exact hnonneg x hx
    · intro i hi
      simp only [List.reverse_cons, List.length_append, List.length_reverse, List.length_cons,
        List.length_nil] at hi ⊢
      rcases Nat.lt_or_ge i acc.length with hi' | hi'
      · rw [List.getElem_append_left (by simpa using hi'), hcons i (by simpa using hi')]
        push_cast
        ring
      · have hieq : i = acc.length := by omega
        subst hieq
        rw [List.getElem_append_right (by simp)]
        simp [ht]
  · rw [if_neg hsign]
    -- a negative candidate comes before every tick: the latest tick is the
    -- multiple just below the candidate, and it is not negative
    cases acc with
    | nil => exact TickRun.start hnext
    | cons x rest =>
      exfalso
      have hx : x.toRat = (n - 1) * s := by
        have h := hcons rest.length (by simp)
        simp only [List.reverse_cons, List.length_cons] at h
        rw [List.getElem_append_right (by simp)] at h
        simp only [List.length_reverse, Nat.sub_self, List.getElem_cons_zero] at h
        rw [h]
        push_cast
        ring
      have hn : (0 : ℚ) ≤ (n - 1) * s := hx ▸ hnonneg x List.mem_cons_self
      have hpos : 0 < t.toRat := by
        rw [ht]
        nlinarith
      exact hsign ((SimTime.sign_nonneg_iff t).2 hpos.le)

variable {c : ChartEnv}

/-- A pure result lifted into the mapper leaves the mapper as it is. -/
theorem exec_liftExcept {α : Type} (r : Except Fault α) (m : Mapper) : exec (liftExcept r) m = (r, m) := by
  cases r <;> rfl

/-- What the loop of `decimalTicks` returns from a `TickRun`: its invariant
at the end. -/
theorem decimalTicks_go_spec {s : ℚ} (hs : 0 < s) {step stop : SimTime} (hstep : step.toRat = s) :
    ∀ (fuel : Nat) (t : SimTime) (acc : List SimTime) (m m' : Mapper) (ts : List SimTime),
      TickRun s t acc → exec (decimalTicks.go c step stop fuel t acc) m = (.ok ts, m') →
      ts.length ≤ maxTicks ∧ (∀ x ∈ ts, 0 ≤ x.toRat) ∧ Consecutive s ts
  | 0, t, acc, m, m', ts, hrun, h => by
    rw [decimalTicks.go, exec_pure, Prod.mk.injEq, Except.ok.injEq] at h
    rw [← h.1]
    exact hrun.finish
  | fuel + 1, t, acc, m, m', ts, hrun, h => by
    rw [decimalTicks.go] at h
    by_cases hstop : (!decide (t < stop)) = true
    · rw [if_pos hstop, exec_pure, Prod.mk.injEq, Except.ok.injEq] at h
      rw [← h.1]
      exact hrun.finish
    rw [if_neg hstop] at h
    by_cases hfull : acc.length ≥ maxTicks
    · rw [if_pos hfull, exec_pure, Prod.mk.injEq, Except.ok.injEq] at h
      rw [← h.1]
      exact hrun.finish
    rw [if_neg hfull] at h
    by_cases hcancel : c.canceled = true
    · rw [if_pos hcancel, exec_bind_error (exec_throw _)] at h
      cases h
    rw [if_neg hcancel] at h
    exact decimalTicks_go_spec hs hstep fuel _ _ m m' ts (hrun.step hs hstep (by omega)) h

/-- The step of the decimal ticks at scale `e` is one, two or five times a
power of ten, and `10 ^ e` is a multiple of it. -/
theorem decimalStep_spec (minStep : SimTime) (e : Int) :
    let step : SimTime := if minStep < ⟨2, e - 1⟩ then ⟨2, e - 1⟩
      else if minStep < ⟨5, e - 1⟩ then ⟨5, e - 1⟩ else ⟨1, e⟩
    ∃ (d : Nat) (k : Int) (q : Nat), d ∈ [1, 2, 5] ∧ step.toRat = d * 10 ^ k ∧ (10 : ℚ) ^ e = q * step.toRat := by
  have hten : (10 : ℚ) ^ e = 10 * 10 ^ (e - 1) := by
    rw [← zpow_one_add₀ (by norm_num)]
    congr 1
    omega
  dsimp only
  split
  · exact ⟨2, e - 1, 5, by simp, by simp [SimTime.toRat_mk], by rw [SimTime.toRat_mk, hten]; push_cast; ring⟩
  · split
    · exact ⟨5, e - 1, 2, by simp, by simp [SimTime.toRat_mk], by rw [SimTime.toRat_mk, hten]; push_cast; ring⟩
    · exact ⟨1, e, 1, by simp, by simp [SimTime.toRat_mk], by simp [SimTime.toRat_mk]⟩

/-- The decimal ticks are the consecutive multiples of a step of one, two or
five times a power of ten, none negative, at most `maxTicks` of them. -/
theorem decimalTicks_spec {v : Viewport} {left right : SimTime} {spacing : Int} {m m' : Mapper}
    {ts : List SimTime} (h : exec (decimalTicks c v left right spacing) m = (.ok ts, m')) :
    ∃ (d : Nat) (k : Int), d ∈ [1, 2, 5] ∧ ts.length ≤ maxTicks ∧ (∀ x ∈ ts, 0 ≤ x.toRat) ∧
      Consecutive (d * 10 ^ k) ts := by
  unfold decimalTicks at h
  dsimp only at h
  split at h
  · rw [exec_bind_error (exec_throw _)] at h
    cases h
  · cases hmin : timeOfFloat (Float.ofInt spacing / v.ppu) with
    | error e =>
      rw [hmin] at h
      rw [exec_bind_error (exec_liftExcept _ _)] at h
      cases h
    | ok minStep =>
      rw [hmin, exec_bind_ok (exec_liftExcept _ _)] at h
      generalize Number.toInt64 (Number.log10 (Float.ofInt spacing / v.ppu)).ceil = e at h
      obtain ⟨d, k, q, hd, hstep, hq⟩ := decimalStep_spec minStep e
      obtain ⟨N, hN⟩ := SimTime.quantize_multiple left e .floor
      have hs : (0 : ℚ) < d * 10 ^ k := by
        have : (0 : ℚ) < d := by
          simp only [List.mem_cons, List.not_mem_nil, or_false] at hd
          rcases hd with rfl | rfl | rfl <;> norm_num
        positivity
      refine ⟨d, k, hd, decimalTicks_go_spec hs hstep _ _ [] m m' ts (TickRun.start (n := N * q) ?_) h⟩
      rw [hN, hq, hstep]
      push_cast
      ring

/-! ## The mode stays -/

section Mode

variable {md : Mode}

theorem relocate_keeps_mode (o : Option EventRef) : Keeps (fun m => m.mode = md) (relocate c o) := by
  intro m hm
  exact hm

theorem reset_keeps_mode : Keeps (fun m => m.mode = md) (reset c) := by
  unfold reset
  refine Keeps.bind (fun m hm => hm) fun _ => Keeps.bind (onView_keeps_mode _) fun first =>
    Keeps.bind (onView_keeps_mode _) fun _ => keeps_get_bind fun m hm => ?_
  dsimp only
  -- the focus is derived again and the origin found again; neither touches the mode
  split
  · refine (Keeps.bind (P := fun m => m.mode = md) (onView_keeps_mode _) fun _ => Keeps.bind (keeps_pure _) fun _ =>
      Keeps.bind ?focus fun _ => keeps_get_bind fun m' hm' => ?origin) m hm
    case focus => exact fun m hm => hm
    case origin =>
      split
      · exact (Keeps.bind (onView_keeps_mode _) fun _ => relocate_keeps_mode _) m' hm'
      · exact (Keeps.bind (keeps_pure _) fun _ => relocate_keeps_mode _) m' hm'
  · refine (Keeps.bind (P := fun m => m.mode = md) (keeps_pure _) fun _ =>
      Keeps.bind ?focus fun _ => keeps_get_bind fun m' hm' => ?origin) m hm
    case focus => exact fun m hm => hm
    case origin =>
      split
      · exact (Keeps.bind (onView_keeps_mode _) fun _ => relocate_keeps_mode _) m' hm'
      · exact (Keeps.bind (keeps_pure _) fun _ => relocate_keeps_mode _) m' hm'

theorem sync_keeps_mode : Keeps (fun m => m.mode = md) (sync c) := by
  unfold sync
  refine keeps_get_bind fun m hm => ?_
  dsimp only
  -- whether the origin is stale depends on whether there is one
  split
  all_goals
    split
    · exact (Keeps.bind reset_keeps_mode fun _ =>
        keeps_get_bind (P := fun m => m.mode = md) fun m' hm' => by split <;> exact hm') m hm
    · exact (keeps_get_bind (P := fun m => m.mode = md) fun m' hm' => by split <;> exact hm') m hm

theorem firstOfRun_go_keeps_mode (o : EventRef) (x : Float) :
    ∀ (fuel : Nat) (e : EventRef), Keeps (fun m => m.mode = md) (firstOfRun.go c o x fuel e)
  | 0, _ => by
    rw [firstOfRun.go]
    exact keeps_pure _
  | fuel + 1, e => by
    rw [firstOfRun.go]
    refine Keeps.bind (onView_keeps_mode _) fun r => ?_
    split
    · exact keeps_pure _
    · refine Keeps.bind (coordinateOf_keeps_mode _ _) fun cp => ?_
      split_ifs
      · exact keeps_pure _
      · exact firstOfRun_go_keeps_mode o x fuel _

theorem timeAt_keeps_mode (x : Float) (upper : Bool) : Keeps (fun m => m.mode = md) (timeAt c x upper) := by
  unfold timeAt
  refine Keeps.bind sync_keeps_mode fun o => Keeps.bind (lastAtMost_keeps_mode o x) fun lo => ?_
  cases lo with
  | none =>
    dsimp only
    refine Keeps.bind (onView_keeps_mode _) fun hi =>
      Keeps.bind (keeps_liftExcept _) fun d => keeps_get_bind fun m hm => ?_
    cases hi with
    | none => exact hm
    | some h =>
      dsimp only
      split_ifs <;> exact hm
  | some l =>
    dsimp only
    refine Keeps.bind (coordinateOf_keeps_mode _ _) fun cl => ?_
    by_cases hcl : (cl == x) = true
    · rw [if_pos hcl]
      split
      · exact keeps_pure _
      · exact Keeps.bind (firstOfRun_go_keeps_mode _ x _ _) fun _ => keeps_pure _
    rw [if_neg hcl]
    refine Keeps.bind (onView_keeps_mode _) fun hi =>
      Keeps.bind (keeps_liftExcept _) fun d => keeps_get_bind fun m hm => ?_
    cases hi with
    | none =>
      dsimp only
      split_ifs <;> exact hm
    | some h =>
      dsimp only
      by_cases hmode : m.mode = .simulationTime
      · rw [if_pos hmode]
        exact hm
      rw [if_neg hmode]
      exact (Keeps.bind (coordinateOf_keeps_mode _ _) fun _ => Keeps.bind (keeps_liftExcept _) fun _ =>
        keeps_pure _) m hm

theorem tickAt_keeps_mode (v : Viewport) (x range : Float) : Keeps (fun m => m.mode = md) (tickAt c v x range) := by
  unfold tickAt
  refine Keeps.bind (onView_keeps_mode _) fun last => ?_
  split
  · exact keeps_pure _
  · exact Keeps.bind (timeAt_keeps_mode _ _) fun _ => Keeps.bind (timeAt_keeps_mode _ _) fun _ =>
      Keeps.bind (timeAt_keeps_mode _ _) fun _ => keeps_pure _

end Mode

/-! ## Loops -/

/-- A loop whose body always goes on keeps an invariant of the elements done
so far and the value carried. -/
theorem exec_forIn_yield {α β : Type} {f : α → β → MapperM (ForInStep β)} (I : List α → β → Prop)
    (hf : ∀ done x b m r m', I done b → exec (f x b) m = (.ok r, m') → ∃ b', r = .yield b' ∧ I (done ++ [x]) b') :
    ∀ (xs done : List α) (b : β) (m m' : Mapper) (r : β), I done b →
      exec (forIn xs b f) m = (.ok r, m') → I (done ++ xs) r
  | [], done, b, m, m', r, hb, h => by
    rw [List.forIn_nil, exec_pure, Prod.mk.injEq, Except.ok.injEq] at h
    rw [List.append_nil, ← h.1]
    exact hb
  | x :: xs, done, b, m, m', r, hb, h => by
    rw [List.forIn_cons] at h
    rcases hx : exec (f x b) m with ⟨_ | y, m₁⟩
    · rw [exec_bind_error hx] at h
      cases h
    · obtain ⟨b', rfl, hb'⟩ := hf done x b m y m₁ hb hx
      rw [exec_bind_ok hx] at h
      simpa using exec_forIn_yield I hf xs (done ++ [x]) b' m₁ m' r hb' h

/-- A pixel tick is neither negative nor past `stop`. -/
theorem pixelTicks_spec {v : Viewport} {stop : SimTime} {spacing : Int} {m m' : Mapper} {ts : List SimTime}
    (h : exec (pixelTicks c v stop spacing) m = (.ok ts, m')) : ∀ t ∈ ts, 0 ≤ t.toRat ∧ t ≤ stop := by
  unfold pixelTicks at h
  rw [bind_pure] at h
  refine exec_forIn_yield (fun _ out => ∀ t ∈ out, 0 ≤ t.toRat ∧ t ≤ stop) ?_ _ [] [] m m' ts
    (by simp) h
  intro done x out m₀ r m₁ hout hx
  dsimp only at hx
  split at hx
  · rw [exec_bind_error (exec_throw _)] at hx
    cases hx
  rcases ht : exec (tickAt c v (Float.ofInt x) (Float.ofInt spacing / 2)) m₀ with ⟨_ | t, m₂⟩
  · rw [exec_bind_error ht] at hx
    cases hx
  · rw [exec_bind_ok ht] at hx
    split at hx
    · next hkeep =>
      rw [exec_pure, Prod.mk.injEq, Except.ok.injEq] at hx
      refine ⟨_, hx.1.symm, fun t' ht' => ?_⟩
      rcases List.mem_append.1 ht' with ht' | ht'
      · exact hout t' ht'
      · rw [List.mem_singleton.1 ht']
        obtain ⟨hsign, hstop⟩ := hkeep
        exact ⟨(SimTime.sign_nonneg_iff t).1 hsign, SimTime.not_lt_iff_le.1 (by simpa using hstop)⟩
    · rw [exec_pure, Prod.mk.injEq, Except.ok.injEq] at hx
      exact ⟨_, hx.1.symm, hout⟩

/-! ## Ticks near a pixel -/

/-- The tick near pixel `x` lies between the times drawn at `x - range / 2`
and `x + range / 2`, one after the other, widened to the time drawn at `x`
before them; a view without events gives zero. -/
theorem tickAt_within {v : Viewport} {x range : Float} {m m' : Mapper} {t : SimTime}
    (h : exec (tickAt c v x range) m = (.ok t, m')) :
    ((exec (onView (LogView.last c.base c.canceled)) m).1 = .ok none ∧ t = SimTime.zero) ∨
      ∃ (m₁ m₂ : Mapper) (tx lo hi : SimTime),
        exec (timeAtPixel c v x false) (exec (onView (LogView.last c.base c.canceled)) m).2 = (.ok tx, m₁) ∧
        exec (timeAtPixel c v (x - range / 2) false) m₁ = (.ok lo, m₂) ∧
        exec (timeAtPixel c v (x + range / 2) false) m₂ = (.ok hi, m') ∧
        SimTime.min lo tx ≤ t ∧ t ≤ SimTime.max hi tx := by
  unfold tickAt at h
  rcases hl : exec (onView (LogView.last c.base c.canceled)) m with ⟨_ | last, m₀⟩
  · rw [exec_bind_error hl] at h
    cases h
  rw [exec_bind_ok hl] at h
  cases last with
  | none =>
    rw [exec_pure, Prod.mk.injEq, Except.ok.injEq] at h
    exact .inl ⟨rfl, h.1.symm⟩
  | some r =>
    dsimp only at h
    rcases hx : exec (timeAtPixel c v x false) m₀ with ⟨_ | tx, m₁⟩
    · rw [exec_bind_error hx] at h
      cases h
    rw [exec_bind_ok hx] at h
    rcases hlo : exec (timeAtPixel c v (x - range / 2) false) m₁ with ⟨_ | lo, m₂⟩
    · rw [exec_bind_error hlo] at h
      cases h
    rw [exec_bind_ok hlo] at h
    rcases hhi : exec (timeAtPixel c v (x + range / 2) false) m₂ with ⟨_ | hi, m₃⟩
    · rw [exec_bind_error hhi] at h
      cases h
    rw [exec_bind_ok hhi, exec_pure, Prod.mk.injEq, Except.ok.injEq] at h
    obtain ⟨rfl, rfl⟩ := h
    exact .inr ⟨m₁, m₂, tx, lo, hi, rfl, hlo, hhi, SimTime.shortestWithin_between tx lo hi⟩

/-- On the full view the ticks near a pixel keep the mapper walked. -/
theorem tickAt_keeps (hl : c.base.Inv) (v : Viewport) (x range : Float) : Keeps (Walked c) (tickAt c v x range) := by
  unfold tickAt
  refine Keeps.bind (fun m hm => by rw [LogView.last, exec_onView_through hm.full]; exact hm) fun last => ?_
  split
  · exact keeps_pure _
  · exact Keeps.bind (timeAt_keeps hl _ _) fun _ => Keeps.bind (timeAt_keeps hl _ _) fun _ =>
      Keeps.bind (timeAt_keeps hl _ _) fun _ => keeps_pure _

/-! ## The ticks of a viewport -/

/-- Each time becomes one tick, in order. -/
theorem exec_tickSet {times : List SimTime} {pre : SimTime} {text : String} {v : Viewport} {m m' : Mapper}
    {ts : TickSet}
    (h : exec (do
        let out ← forIn times ([] : List Tick) fun t r => do
          let x ← pixelOf c v t
          pure (ForInStep.yield (r ++ [⟨t, x, tickLabel text t⟩]))
        pure (⟨pre, text, out⟩ : TickSet)) m = (.ok ts, m')) :
    ts.ticks.map (·.time) = times := by
  rcases hloop : exec (forIn times ([] : List Tick) fun t r => do
      let x ← pixelOf c v t
      pure (ForInStep.yield (r ++ [⟨t, x, tickLabel text t⟩]))) m with ⟨_ | out, m₁⟩
  · rw [exec_bind_error hloop] at h
    cases h
  rw [exec_bind_ok hloop, exec_pure, Prod.mk.injEq, Except.ok.injEq] at h
  rw [← h.1]
  refine exec_forIn_yield (fun done (r : List Tick) => r.map (·.time) = done) ?_ times [] [] m m₁ out rfl hloop
  intro done t r m₀ y m₂ hr ht
  rcases hx : exec (pixelOf c v t) m₀ with ⟨_ | x, m₃⟩
  · rw [exec_bind_error hx] at ht
    cases ht
  rw [exec_bind_ok hx, exec_pure, Prod.mk.injEq, Except.ok.injEq] at ht
  exact ⟨_, ht.1.symm, by simp [hr]⟩

end Mapper

end EventChart
