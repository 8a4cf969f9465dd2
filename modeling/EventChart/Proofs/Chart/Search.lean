import EventChart.Proofs.Chart.Coordinates
import EventChart.Proofs.Number.FloatOrder
/-!
# Searching the timeline

The inverse queries of a mapper search the events around a coordinate `x`.
`lastAtMost` starts at an event that `start` guesses near `x`, then walks
down while the coordinate is above `x`, or up while the next one is not,
reading coordinates on the way.  `firstNotBefore` takes the event after the
one found, or, when that one sits exactly at `x`, walks back to the first
event of the run at `x`.

On the full view of the base these searches are linear scans
(`lastAtMostScan`, `firstAtLeastScan`) as soon as the coordinates do not
decrease along the log and `x` is finite, whatever event the search starts
from.  Both conditions matter: in event-number mode the difference of two
numbers wraps to 64 bits, and then a later event can have a smaller
coordinate.

* `Mapper.Measures` is the state of a search: a walked stretch around the
  origin and fixed reference coordinates `r`.
* `exec_lastAtMost_go_up`, `exec_lastAtMost_go_down` and
  `exec_firstOfRun_go` are the steps of the two walks; `lastAtMost_go_up`,
  `lastAtMost_go_down` and `firstOfRun_go_first` their runs.
* `exec_start` places the start at an event of the base.
-/

namespace EventChart

/-! ## Linear scans -/

/-- The last of the positions below `n` whose coordinate is at most `x`. -/
def lastAtMostScan (r : Nat → Float) (x : Float) : Nat → Option Nat
  | 0 => none
  | n + 1 => if r n ≤ x then some n else lastAtMostScan r x n

/-- The first of the positions below `n` whose coordinate is at least `x`. -/
def firstAtLeastScan (r : Nat → Float) (x : Float) (n : Nat) : Option Nat :=
  (List.range n).find? fun j => decide (x ≤ r j)

section Scans
variable {r : Nat → Float} {x : Float} {n j : Nat}

theorem lastAtMostScan_eq_some (hj : j < n) (hle : r j ≤ x) (hgt : ∀ i, j < i → i < n → ¬r i ≤ x) :
    lastAtMostScan r x n = some j := by
  induction n with
  | zero => omega
  | succ n ih =>
    rw [lastAtMostScan]
    rcases Nat.lt_succ_iff_lt_or_eq.mp hj with hj | rfl
    · rw [if_neg (hgt n hj (by omega))]
      exact ih hj fun i h1 h2 => hgt i h1 (by omega)
    · rw [if_pos hle]

theorem lastAtMostScan_eq_none (h : ∀ i, i < n → ¬r i ≤ x) : lastAtMostScan r x n = none := by
  induction n with
  | zero => rfl
  | succ n ih =>
    rw [lastAtMostScan, if_neg (h n (by omega))]
    exact ih fun i hi => h i (by omega)

/-- What the scan for the last position at most `x` answers: such a
position with none after it, or none when there is no such position. -/
theorem lastAtMostScan_spec (r : Nat → Float) (x : Float) (n : Nat) :
    match lastAtMostScan r x n with
    | some j => j < n ∧ r j ≤ x ∧ ∀ i, j < i → i < n → ¬r i ≤ x
    | none => ∀ i, i < n → ¬r i ≤ x := by
  induction n with
  | zero => exact fun i hi => absurd hi (Nat.not_lt_zero i)
  | succ n ih =>
    rw [lastAtMostScan]
    by_cases hn : r n ≤ x
    · rw [if_pos hn]
      exact ⟨by omega, hn, fun i h1 h2 => absurd h2 (by omega)⟩
    · rw [if_neg hn]
      revert ih
      cases lastAtMostScan r x n with
      | some j =>
        rintro ⟨hj, hle, hgt⟩
        refine ⟨by omega, hle, fun i h1 h2 => ?_⟩
        rcases Nat.lt_succ_iff_lt_or_eq.mp h2 with h2 | rfl
        · exact hgt i h1 h2
        · exact hn
      | none =>
        intro hgt i hi
        rcases Nat.lt_succ_iff_lt_or_eq.mp hi with hi | rfl
        · exact hgt i hi
        · exact hn

theorem firstAtLeastScan_eq_some (hj : j < n) (hle : x ≤ r j) (hlt : ∀ i, i < j → ¬x ≤ r i) :
    firstAtLeastScan r x n = some j := by
  rw [firstAtLeastScan, List.find?_range_eq_some]
  exact ⟨decide_eq_true hle, List.mem_range.mpr hj, fun i hi => by simpa using hlt i hi⟩

theorem firstAtLeastScan_eq_none (h : ∀ i, i < n → ¬x ≤ r i) : firstAtLeastScan r x n = none := by
  rw [firstAtLeastScan, List.find?_range_eq_none]
  intro i hi
  simpa using h i hi

end Scans

namespace ChartEnv

variable {c : ChartEnv}

/-- The event at a position of the base. -/
theorem eventAt_of_lt (hl : c.base.Inv) {i : Nat} (hi : i < c.base.length) : c.base.eventAt i = some (c.refAt i) := by
  rw [eventAt_eq hl, if_pos ⟨by omega, by omega⟩, Int.toNat_natCast]

end ChartEnv

namespace Mapper

variable {c : ChartEnv}

/-- The event at any position of the base is an event of it, or none. -/
theorem onBase_eventAt (hl : c.base.Inv) (i : Int) : OnBase c (c.base.eventAt i) := by
  intro e he
  rw [ChartEnv.eventAt_eq hl] at he
  split_ifs at he with hi
  exact ⟨i.toNat, by omega, (Option.some.inj he).symm⟩

/-- The last event not after a time is an event of the base, or none. -/
theorem onBase_lastNotAfter (hl : c.base.Inv) (t : SimTime) : OnBase c (c.base.lastNotAfter t) :=
  onBase_eventAt hl _

end Mapper

namespace Mapper

variable {c : ChartEnv} {m : Mapper}

/-! ## The state of a search -/

/-- A mapper of the full view with its origin at position `k` and a walked
stretch around it, whose reference coordinates are `r`. -/
def Measures (c : ChartEnv) (k : Nat) (r : Nat → Float) (m : Mapper) : Prop :=
  StretchAt c k m ∧ reference c m k = r

theorem Measures.full {k : Nat} {r : Nat → Float} (h : Measures c k r m) : m.view = .full := by
  obtain ⟨⟨b, f, hs⟩, -⟩ := h
  exact hs.full

theorem Measures.origin_lt {k : Nat} {r : Nat → Float} (h : Measures c k r m) : k < c.base.length := by
  obtain ⟨⟨b, f, hs⟩, -⟩ := h
  have := hs.origin_le
  have := hs.lt_length
  omega

/-- Unless canceled, reading the coordinate of an event of the base answers
its reference coordinate and keeps the state of the search. -/
theorem coordinateOf_measures (hl : c.base.Inv) (hc : c.canceled = false) {k : Nat} {r : Nat → Float}
    (h : Measures c k r m) {j : Nat} (hj : j < c.base.length) :
    ∃ m', exec (coordinateOf c (c.refAt k) (c.refAt j)) m = (.ok (r j), m') ∧ Measures c k r m' := by
  obtain ⟨⟨b, f, hs⟩, rfl⟩ := h
  exact coordinateOf_stretch hl hc hs hj

/-! ## One step of each walk -/

section Steps
variable (hl : c.base.Inv) (hc : c.canceled = false) (hm : m.view = .full) {o : EventRef} {x ce cn : Float}
  {p : Nat} {m' : Mapper}
include hl hc hm

/-- One step of the search up from the last position `p`, whose coordinate
`ce` is not above `x`: it answers `p`. -/
theorem exec_lastAtMost_go_up_last (hp : p + 1 = c.base.length) (hce : ¬ce > x) (fuel steps : Nat) :
    exec (lastAtMost.go c o x (fuel + 1) steps (c.refAt p) ce) m = (.ok (some (c.refAt p)), m) := by
  rw [lastAtMost.go]
  dsimp only
  rw [if_neg (by simp [hc]), if_neg hce, exec_bind_ok (exec_neighbour hl hm (by omega) 1), ChartEnv.eventAt_eq hl,
    if_neg (by omega)]
  rfl

/-- One step of the search up from position `p`, whose coordinate `ce` is
not above `x`, to the next event, whose coordinate is `cn`: it answers `p`
if `cn` is above `x`, and goes on from the next event otherwise. -/
theorem exec_lastAtMost_go_up (hp : p + 1 < c.base.length) (hce : ¬ce > x)
    (hcn : exec (coordinateOf c o (c.refAt (p + 1))) m = (.ok cn, m')) (fuel steps : Nat) :
    exec (lastAtMost.go c o x (fuel + 1) steps (c.refAt p) ce) m =
      if cn > x then (.ok (some (c.refAt p)), m')
      else exec (lastAtMost.go c o x fuel (steps + 1) (c.refAt (p + 1)) cn) m' := by
  rw [lastAtMost.go]
  dsimp only
  rw [if_neg (by simp [hc]), if_neg hce, exec_bind_ok (exec_neighbour hl hm (by omega) 1), ChartEnv.eventAt_eq hl,
    if_pos (by omega), show ((p : Int) + 1).toNat = p + 1 by omega]
  dsimp only
  rw [exec_bind_ok hcn]
  by_cases hgt : cn > x
  · rw [if_pos ⟨by decide, hgt⟩, if_pos hgt]
    rfl
  · rw [if_neg fun h => hgt h.2, if_neg fun h => absurd h.1 (by decide), if_neg hgt]

/-- One step of the search down from the first position, whose coordinate
`ce` is above `x`: it answers none. -/
theorem exec_lastAtMost_go_down_first (hp : 0 < c.base.length) (hce : ce > x) (fuel steps : Nat) :
    exec (lastAtMost.go c o x (fuel + 1) steps (c.refAt 0) ce) m = (.ok none, m) := by
  rw [lastAtMost.go]
  dsimp only
  rw [if_neg (by simp [hc]), if_pos hce, exec_bind_ok (exec_neighbour hl hm hp (-1)), ChartEnv.eventAt_eq hl,
    if_neg (by omega)]
  rfl

/-- One step of the search down from position `p`, whose coordinate `ce` is
above `x`, to the previous event, whose coordinate is `cn`: it answers the
previous event if `cn` is not above `x`, and goes on from it otherwise. -/
theorem exec_lastAtMost_go_down (hp : p < c.base.length) (hpos : 0 < p) (hce : ce > x)
    (hcn : exec (coordinateOf c o (c.refAt (p - 1))) m = (.ok cn, m')) (fuel steps : Nat) :
    exec (lastAtMost.go c o x (fuel + 1) steps (c.refAt p) ce) m =
      if cn ≤ x then (.ok (some (c.refAt (p - 1))), m')
      else exec (lastAtMost.go c o x fuel (steps + 1) (c.refAt (p - 1)) cn) m' := by
  rw [lastAtMost.go]
  dsimp only
  rw [if_neg (by simp [hc]), if_pos hce, exec_bind_ok (exec_neighbour hl hm hp (-1)), ChartEnv.eventAt_eq hl,
    if_pos (by omega), show ((p : Int) + -1).toNat = p - 1 by omega]
  dsimp only
  rw [exec_bind_ok hcn, if_neg fun h => absurd h.1 (by decide)]
  by_cases hle : cn ≤ x
  · rw [if_pos ⟨by decide, hle⟩, if_pos hle]
    rfl
  · rw [if_neg fun h => hle h.2, if_neg hle]

omit hc in
/-- The walk back to the first event of a run stops at the first event of
the log. -/
theorem exec_firstOfRun_go_first (hp : 0 < c.base.length) (fuel : Nat) :
    exec (firstOfRun.go c o x (fuel + 1) (c.refAt 0)) m = (.ok (c.refAt 0), m) := by
  rw [firstOfRun.go, exec_bind_ok (exec_neighbour hl hm hp (-1)), ChartEnv.eventAt_eq hl, if_neg (by omega)]
  rfl

omit hc in
/-- One step of the walk back to the first event of a run at `x`, from
position `p` to the previous event, whose coordinate is `cn`: it answers
`p` if `cn` is not `x`, and goes on from the previous event otherwise. -/
theorem exec_firstOfRun_go (hp : p < c.base.length) (hpos : 0 < p)
    (hcn : exec (coordinateOf c o (c.refAt (p - 1))) m = (.ok cn, m')) (fuel : Nat) :
    exec (firstOfRun.go c o x (fuel + 1) (c.refAt p)) m =
      if (cn != x) = true then (.ok (c.refAt p), m') else exec (firstOfRun.go c o x fuel (c.refAt (p - 1))) m' := by
  rw [firstOfRun.go, exec_bind_ok (exec_neighbour hl hm hp (-1)), ChartEnv.eventAt_eq hl, if_pos (by omega),
    show ((p : Int) + -1).toNat = p - 1 by omega]
  dsimp only
  rw [exec_bind_ok hcn]
  split_ifs <;> rfl

end Steps

/-! ## Where a search starts -/

/-- A search starts at an event of the base: in simulation-time mode the
last event not after the time of `x`, or the first event; in event-number
mode the first event numbered at least the number of `x`, or the last
event; in the other modes an end of the walked stretch, or the origin.  In
simulation-time mode `x` must be finite to have a time. -/
theorem exec_start (hl : c.base.Inv) {k : Nat} {r : Nat → Float} (h : Measures c k r m) {x : Float}
    (hx : x.isFinite = true) :
    ∃ p < c.base.length, exec (start c (c.refAt k) x) m = (.ok (some (c.refAt p)), m) := by
  obtain ⟨⟨b, f, hs⟩, -⟩ := h
  have hbk := hs.le_origin
  have hkf := hs.origin_le
  have hf := hs.lt_length
  unfold start
  rw [exec_bind_ok exec_get]
  dsimp only
  split
  · obtain ⟨t, ht⟩ := SimTime.ofFloat?_ok hx
    have hlift : exec (liftExcept (timeOfFloat x)) m = (.ok t, m) := by
      simp [liftExcept, timeOfFloat, ht]
    rw [exec_bind_ok hlift, LogView.lastNotAfter, exec_bind_ok (exec_onView_through hs.full _ _)]
    cases hlast : c.base.lastNotAfter (c.timeOf (c.refAt k) + t) with
    | some e =>
      -- the last event not after the time is an event of the base
      obtain ⟨p, hp, rfl⟩ := onBase_lastNotAfter hl _ e hlast
      exact ⟨p, hp, rfl⟩
    | none =>
      refine ⟨0, by omega, ?_⟩
      rw [LogView.first, exec_onView_through hs.full, EventLog.first, ChartEnv.eventAt_eq hl,
        if_pos ⟨le_rfl, by omega⟩]
      rfl
  · rw [hs.full]
    dsimp only
    rw [if_pos (by omega)]
    generalize c.base.searchNumber _ = s
    refine ⟨(min (s : Int) (c.base.length - 1)).toNat, by omega, ?_⟩
    rw [ChartEnv.eventAt_eq hl, if_pos ⟨by omega, by omega⟩]
    rfl
  · split_ifs
    · exact ⟨f, hf, by rw [hs.forward]; rfl⟩
    · exact ⟨b, by omega, by rw [hs.backward]; rfl⟩
    · exact ⟨k, by omega, rfl⟩

/-- The search for the last event at most `x` walks from where it starts,
with that event's coordinate. -/
theorem exec_lastAtMost_start {o : EventRef} {x ce : Float} {p : Nat} {m' : Mapper}
    (hstart : exec (start c o x) m = (.ok (some (c.refAt p)), m))
    (hce : exec (coordinateOf c o (c.refAt p)) m = (.ok ce, m')) :
    exec (lastAtMost c o x) m = exec (lastAtMost.go c o x (c.base.length + 2) 1 (c.refAt p) ce) m' := by
  unfold lastAtMost
  rw [exec_bind_ok hstart]
  dsimp only
  rw [exec_bind_ok hce]

/-! ## Whole walks -/

section Runs
variable (hl : c.base.Inv) (hc : c.canceled = false) {k : Nat} {r : Nat → Float} {x : Float}
  (hmono : ∀ i j, i ≤ j → j < c.base.length → r i ≤ r j) (hx : x.isNaN = false)
include hl hc hmono hx

omit hl hc hx in
/-- Coordinates that do not decrease are numbers. -/
theorem isNaN_of_mono {j : Nat} (hj : j < c.base.length) : (r j).isNaN = false :=
  (Float.isNaN_of_le (hmono j j le_rfl hj)).1

omit hl hc in
/-- A coordinate that is not at most `x` is above it. -/
theorem lt_of_not_le_coord {j : Nat} (hj : j < c.base.length) (h : ¬r j ≤ x) : x < r j := by
  by_contra hlt
  exact h ((Float.not_lt_iff_le hx (isNaN_of_mono hmono hj)).mp hlt)

/-- The search up from a position whose coordinate is at most `x`, with fuel
for every later event, answers the last position whose coordinate is at
most `x`. -/
theorem lastAtMost_go_up :
    ∀ (fuel steps p : Nat) (m : Mapper), Measures c k r m → p < c.base.length → r p ≤ x →
      c.base.length ≤ p + fuel →
      ∃ m', exec (lastAtMost.go c (c.refAt k) x fuel steps (c.refAt p) (r p)) m =
        (.ok ((lastAtMostScan r x c.base.length).map c.refAt), m') ∧ Measures c k r m'
  | 0, _, p, _, _, hp, _, hfuel => absurd hfuel (by omega)
  | fuel + 1, steps, p, m, h, hp, hle, hfuel => by
    have hce : ¬r p > x := fun hgt => Float.not_le_of_lt hgt hle
    by_cases hnext : p + 1 < c.base.length
    · obtain ⟨m', hcn, h'⟩ := coordinateOf_measures hl hc h hnext
      rw [exec_lastAtMost_go_up hl hc h.full hnext hce hcn]
      by_cases hgt : r (p + 1) > x
      · -- the next coordinate is above `x`, and so are all later ones
        rw [if_pos hgt, lastAtMostScan_eq_some hp hle fun i hpi hi hile =>
          Float.not_le_of_lt hgt (Float.le_trans (hmono (p + 1) i (by omega) hi) hile)]
        exact ⟨m', rfl, h'⟩
      · rw [if_neg hgt]
        exact lastAtMost_go_up fuel (steps + 1) (p + 1) m' h' hnext
          ((Float.not_lt_iff_le hx (isNaN_of_mono hmono hnext)).mp hgt) (by omega)
    · rw [exec_lastAtMost_go_up_last hl hc h.full (by omega) hce,
        lastAtMostScan_eq_some hp hle fun i hpi hi => absurd hi (by omega)]
      exact ⟨m, rfl, h⟩

/-- The search down from a position whose coordinate is above `x`, with fuel
for every earlier event, answers the last position whose coordinate is at
most `x`, or none. -/
theorem lastAtMost_go_down :
    ∀ (fuel steps p : Nat) (m : Mapper), Measures c k r m → p < c.base.length → x < r p → p < fuel →
      ∃ m', exec (lastAtMost.go c (c.refAt k) x fuel steps (c.refAt p) (r p)) m =
        (.ok ((lastAtMostScan r x c.base.length).map c.refAt), m') ∧ Measures c k r m'
  | 0, _, p, _, _, _, _, hfuel => absurd hfuel (Nat.not_lt_zero p)
  | fuel + 1, steps, p, m, h, hp, hgt, hfuel => by
    rcases Nat.eq_zero_or_pos p with rfl | hpos
    · -- at the first event: every coordinate is above `x`
      rw [exec_lastAtMost_go_down_first hl hc h.full hp hgt,
        lastAtMostScan_eq_none fun i hi hile => Float.not_le_of_lt hgt (Float.le_trans (hmono 0 i (by omega) hi) hile)]
      exact ⟨m, rfl, h⟩
    · obtain ⟨m', hcn, h'⟩ := coordinateOf_measures hl hc h (j := p - 1) (by omega)
      rw [exec_lastAtMost_go_down hl hc h.full hp hpos hgt hcn]
      by_cases hle : r (p - 1) ≤ x
      · -- the previous coordinate is at most `x`, and all later ones from `p` are above it
        rw [if_pos hle, lastAtMostScan_eq_some (by omega) hle fun i hpi hi hile =>
          Float.not_le_of_lt hgt (Float.le_trans (hmono p i (by omega) hi) hile)]
        exact ⟨m', rfl, h'⟩
      · rw [if_neg hle]
        exact lastAtMost_go_down fuel (steps + 1) (p - 1) m' h' (by omega)
          (lt_of_not_le_coord hmono hx (by omega) hle) (by omega)

omit hx in
/-- The walk back from a position at coordinate `x`, with fuel for every
earlier event, answers the first position of its run at `x`; every position
before that one is below `x`. -/
theorem firstOfRun_go_first :
    ∀ (fuel p : Nat) (m : Mapper), Measures c k r m → p < c.base.length → (r p == x) = true → p < fuel →
      ∃ j ≤ p, ∃ m', exec (firstOfRun.go c (c.refAt k) x fuel (c.refAt p)) m = (.ok (c.refAt j), m') ∧
        Measures c k r m' ∧ (r j == x) = true ∧ ∀ i, i < j → r i < x
  | 0, p, _, _, _, _, hfuel => absurd hfuel (Nat.not_lt_zero p)
  | fuel + 1, p, m, h, hp, heq, hfuel => by
    rcases Nat.eq_zero_or_pos p with rfl | hpos
    · rw [exec_firstOfRun_go_first hl h.full hp]
      exact ⟨0, le_rfl, m, rfl, h, heq, fun i hi => absurd hi (Nat.not_lt_zero i)⟩
    · obtain ⟨m', hcn, h'⟩ := coordinateOf_measures hl hc h (j := p - 1) (by omega)
      rw [exec_firstOfRun_go hl h.full hp hpos hcn]
      by_cases hne : (r (p - 1) != x) = true
      · -- the previous coordinate is below `x`, and so are all earlier ones
        have hprev : r (p - 1) < x := by
          refine Float.lt_of_le_of_beq_false
            (Float.le_trans (hmono (p - 1) p (by omega) hp) (Float.le_of_beq heq).1) ?_
          simpa [bne] using hne
        rw [if_pos hne]
        exact ⟨p, le_rfl, m', rfl, h', heq, fun i hi =>
          Float.lt_of_le_of_lt (hmono i (p - 1) (by omega) (by omega)) hprev⟩
      · rw [if_neg hne]
        obtain ⟨j, hj, m'', hrun, h'', hjx, hbelow⟩ :=
          firstOfRun_go_first fuel (p - 1) m' h' (by omega) (by simpa [bne] using hne) (by omega)
        exact ⟨j, by omega, m'', hrun, h'', hjx, hbelow⟩

end Runs

/-! ## Whole searches -/

section Search
variable (hl : c.base.Inv) (hc : c.canceled = false) {k : Nat} {r : Nat → Float} {x : Float}
  (hmono : ∀ i j, i ≤ j → j < c.base.length → r i ≤ r j) (hx : x.isFinite = true)
include hl hc hmono hx

/-- From a state of the search, `lastAtMost` answers the last position
whose coordinate is at most `x`, whatever event it starts from. -/
theorem exec_lastAtMost (h : Measures c k r m) :
    ∃ m', exec (lastAtMost c (c.refAt k) x) m = (.ok ((lastAtMostScan r x c.base.length).map c.refAt), m') ∧
      Measures c k r m' := by
  have hnan := Float.isNaN_of_isFinite hx
  obtain ⟨p, hp, hstart⟩ := exec_start hl h hx
  obtain ⟨m₁, hce, h₁⟩ := coordinateOf_measures hl hc h hp
  rw [exec_lastAtMost_start hstart hce]
  -- the walk goes up from a start at most `x` and down from one above it
  by_cases hle : r p ≤ x
  · exact lastAtMost_go_up hl hc hmono hnan _ 1 p m₁ h₁ hp hle (by omega)
  · exact lastAtMost_go_down hl hc hmono hnan _ 1 p m₁ h₁ hp (lt_of_not_le_coord hmono hnan hp hle) (by omega)

/-- From a state of the search, `lastNotAfter` answers the last event whose
coordinate is at most `x`. -/
theorem exec_lastNotAfter (h : Measures c k r m) :
    ∃ m', exec (lastNotAfter c x) m = (.ok ((lastAtMostScan r x c.base.length).map c.refAt), m') ∧
      Measures c k r m' := by
  obtain ⟨b, f, hs⟩ := h.1
  unfold lastNotAfter
  rw [exec_bind_ok (exec_sync hs)]
  exact exec_lastAtMost hl hc hmono hx h

/-- From a state of the search, `firstNotBefore` answers the first event
whose coordinate is at least `x`: the event after the last one at most `x`,
or the first of the run at `x` when that one is at `x`. -/
theorem exec_firstNotBefore (h : Measures c k r m) :
    ∃ m', exec (firstNotBefore c x) m = (.ok ((firstAtLeastScan r x c.base.length).map c.refAt), m') ∧
      Measures c k r m' := by
  have hnan := Float.isNaN_of_isFinite hx
  have hk := h.origin_lt
  obtain ⟨b, f, hs⟩ := h.1
  obtain ⟨m₁, hlast, h₁⟩ := exec_lastAtMost hl hc hmono hx h
  unfold firstNotBefore
  rw [exec_bind_ok (exec_sync hs), exec_bind_ok hlast]
  have hspec := lastAtMostScan_spec r x c.base.length
  revert hspec
  cases lastAtMostScan r x c.base.length with
  | none =>
    -- every coordinate is above `x`: the first event is the answer
    intro hgt
    refine ⟨m₁, ?_, h₁⟩
    rw [Option.map_none, LogView.first, exec_onView_through h₁.full, EventLog.first, ChartEnv.eventAt_eq hl,
      if_pos ⟨le_rfl, by omega⟩, firstAtLeastScan_eq_some (j := 0) (by omega)
        (Float.le_of_lt (lt_of_not_le_coord hmono hnan (by omega) (hgt 0 (by omega))))
        fun i hi => absurd hi (Nat.not_lt_zero i)]
    rfl
  | some lo =>
    rintro ⟨hlo, hle, hgt⟩
    obtain ⟨m₂, hcl, h₂⟩ := coordinateOf_measures hl hc h₁ hlo
    rw [Option.map_some, exec_bind_ok hcl]
    by_cases heq : (r lo == x) = true
    · -- the last event at most `x` is at `x`: walk back to the first of its run
      rw [if_pos heq]
      obtain ⟨j, hj, m₃, hrun, h₃, hjx, hbelow⟩ :=
        firstOfRun_go_first hl hc hmono (c.base.length + 2) lo m₂ h₂ hlo heq (by omega)
      refine ⟨m₃, ?_, h₃⟩
      rw [firstOfRun, exec_bind_ok hrun, firstAtLeastScan_eq_some (by omega) (Float.le_of_beq hjx).2
        fun i hi => Float.not_le_of_lt (hbelow i hi)]
      rfl
    · -- it is below `x`: the next event, if any, is the first at least `x`
      have hbelow : r lo < x := Float.lt_of_le_of_beq_false hle (by simpa using heq)
      have hlt : ∀ i, i ≤ lo → ¬x ≤ r i := fun i hi =>
        Float.not_le_of_lt (Float.lt_of_le_of_lt (hmono i lo hi hlo) hbelow)
      rw [if_neg heq, exec_neighbour hl h₂.full hlo 1, ChartEnv.eventAt_eq hl]
      refine ⟨m₂, ?_, h₂⟩
      by_cases hnext : lo + 1 < c.base.length
      · rw [if_pos ⟨by omega, by omega⟩, firstAtLeastScan_eq_some (j := lo + 1) hnext
          (Float.le_of_lt (lt_of_not_le_coord hmono hnan hnext (hgt (lo + 1) (by omega) hnext)))
          fun i hi => hlt i (by omega)]
        simp only [Option.map_some]
        rw [show ((lo : Int) + 1).toNat = lo + 1 by omega]
      · rw [if_neg (by omega), firstAtLeastScan_eq_none fun i hi => hlt i (by omega)]
        rfl

end Search

/-! ## Every reachable state -/

/-- In every state a chart reaches, with its origin at position `k`, the
mapper is a state of the search over its reference coordinates. -/
theorem Reached.measures (hl : c.base.Inv) (hr : Reached c m) {k : Nat} (ho : m.origin = some (c.refAt k)) :
    Measures c k (reference c m k) m := by
  rcases hr.walked hl with ⟨-, -, hnone⟩ | ⟨k', b, f, hs⟩
  · rw [hnone] at ho
    cases ho
  · -- the origin's position is the stretch's
    have hk : k' = k := by
      rw [hs.origin] at ho
      exact congrArg EventRef.index (Option.some.inj ho)
    subst hk
    exact ⟨⟨b, f, hs⟩, rfl⟩


/-! ## The searches are scans -/

end Mapper

end EventChart
