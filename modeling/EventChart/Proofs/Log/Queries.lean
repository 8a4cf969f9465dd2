import EventChart.Proofs.Filter.Settled
import EventChart.Proofs.Number.Rounding
/-!
# What the queries of a log answer

Every query of a log reads its index, and the index of a reachable log is placed
and in order (`Reachable.inv`). This file turns that invariant into the answers
of the queries, each stated against the events in log order and not against the
binary searches that compute it:

* `eventForNumber_eq_some_iff`: the event numbered `n` is found exactly when
  some event carries that number;
* `searchNumber_spec`: the number search stops at the first position whose
  number is `n` or more, at the length when there is none;
* `eventAt_eq_some_iff` and `neighbour_refOf`: positions outside the log name
  no event, and the neighbour of an event is the event that many positions on;
* `percentage_inUnit`: the relative position is a float between zero and one.

The two time searches agree with a linear scan by `lastNotAfter_eq_scan` and
`firstNotBefore_eq_scan`. `Answers` collects all of it, and `Reachable.answers_queries`
says that every reachable log has those answers.
-/

namespace EventChart

theorem InOrder.precedes_getElem {xs : Array Event} (h : InOrder xs.toList) {i j : Nat}
    (hij : i < j) (hj : j < xs.size) : xs[i].Precedes xs[j] := by
  have hpre := List.pairwise_iff_getElem.mp h i j (by simp; omega) (by simpa using hj) hij
  simpa only [Array.getElem_toList] using hpre

namespace EventLog

variable {l : EventLog}

/-! ## Numbers -/

/-- The event numbered `n` is found exactly when some event carries that number. -/
theorem eventForNumber_eq_some_iff (h : InOrder l.index.events.toList) (n : Int) (r : EventRef) :
    l.eventForNumber n = some r ↔
      ∃ i, ∃ hi : i < l.index.events.size,
        l.index.events[i].number = n ∧ r = l.refOf l.index.events[i] := by
  rw [eventForNumber, Index.find?_eq_find? h, Option.map_eq_some_iff]
  constructor
  · rintro ⟨e, hfind, rfl⟩
    obtain ⟨hn, i, hi, rfl, -⟩ := List.find?_eq_some_iff_getElem.mp hfind
    exact ⟨i, by simpa using hi, by simpa using hn, by simp⟩
  · rintro ⟨i, hi, hn, rfl⟩
    refine ⟨l.index.events[i], List.find?_eq_some_iff_getElem.mpr ⟨by simpa using hn, i,
      by simpa using hi, by simp, fun j hj => ?_⟩, rfl⟩
    -- an earlier event has a smaller number, so it is not the one sought
    have hlt := (h.precedes_getElem hj hi).1
    simp only [Array.getElem_toList] at hlt ⊢
    simp only [Bool.not_eq_eq_eq_not, Bool.not_true, beq_eq_false_iff_ne, ne_eq]
    omega

/-- The number search stops at the first position whose number is `n` or more,
at the length when there is none. -/
theorem searchNumber_spec (h : InOrder l.index.events.toList) (n : Int) :
    l.searchNumber n ≤ l.length ∧
      ∀ i (hi : i < l.index.events.size), i < l.searchNumber n ↔ l.index.events[i].number < n := by
  have hs := Index.searchNumber_eq_findIdx h n
  have hsize : l.index.events.toList.length = l.index.events.size := Array.length_toList
  rw [searchNumber, length, hs]
  refine ⟨hsize ▸ List.findIdx_le_length, fun i hi => ?_⟩
  constructor
  · intro hlt
    have hnot := List.not_of_lt_findIdx hlt
    simpa using hnot
  · intro hnum
    by_contra hge
    have hk : (l.index.events.toList.findIdx fun e => decide (e.number ≥ n)) <
        l.index.events.toList.length := by omega
    have hfound := List.findIdx_getElem (w := hk)
    simp only [Array.getElem_toList, decide_eq_true_eq] at hfound
    -- the first event numbered `n` or more comes no later than position `i`
    rcases Nat.eq_or_lt_of_le (Nat.le_of_not_lt hge) with heq | hlt
    · simp only [heq] at hfound
      omega
    · have hpre := (h.precedes_getElem hlt hi).1
      omega

/-! ## Positions -/

/-- A position names an event exactly when it lies inside the log. -/
theorem eventAt_eq_some_iff (j : Int) (r : EventRef) :
    l.eventAt j = some r ↔
      ∃ i, ∃ hi : i < l.index.events.size, (i : Int) = j ∧ r = l.refOf l.index.events[i] := by
  unfold eventAt
  split
  · simp only [reduceCtorEq, false_iff, not_exists, not_and]
    intro i _ hij
    omega
  · rw [Option.map_eq_some_iff]
    constructor
    · rintro ⟨e, he, rfl⟩
      obtain ⟨hi, rfl⟩ := Array.getElem?_eq_some_iff.mp he
      exact ⟨j.toNat, hi, by omega, rfl⟩
    · rintro ⟨i, hi, rfl, rfl⟩
      exact ⟨l.index.events[i], by simp [hi], rfl⟩

/-- The neighbour of an event of a placed log is the event `delta` positions on. -/
theorem neighbour_refOf (hl : l.Inv) {i : Nat} (hi : i < l.index.events.size) (delta : Int) :
    l.neighbour (some (l.refOf l.index.events[i])) delta = .ok (l.eventAt (i + delta)) := by
  have hidx := (Index.Placed.getElem hl i hi).1
  simp [neighbour, check_refOf hl (Array.getElem_mem_toList hi), hidx]

/-! ## Relative positions -/

/-- The relative position of a number is a float between zero and one, for a log
short enough that its positions are exact floats. -/
theorem percentage_inUnit (hlen : l.length ≤ 2 ^ 53) (n : Int) : Float.InUnit (l.percentage n) := by
  unfold percentage
  split
  · exact Float.inUnit_zero
  · dsimp only
    split
    · exact Float.inUnit_one
    · exact Float.inUnit_div_ofNat (by omega) (by omega) (by omega)

/-! ## The answers of a log -/

/-- What the queries of a log answer, stated against its events in log order. -/
structure Answers (l : EventLog) : Prop where
  /-- Each event sits at its own position, in the log's epoch. -/
  placed : ∀ i (hi : i < l.index.events.size),
    l.index.events[i].index = i ∧ l.index.events[i].epoch = l.epoch
  /-- Numbers strictly increase and times never decrease along the log. -/
  ordered : ∀ i j (hij : i < j) (hj : j < l.index.events.size),
    l.index.events[i].number < l.index.events[j].number ∧
      l.index.events[i].time ≤ l.index.events[j].time
  /-- The event numbered `n`, when there is one. -/
  eventForNumber : ∀ n r, l.eventForNumber n = some r ↔
    ∃ i, ∃ hi : i < l.index.events.size,
      l.index.events[i].number = n ∧ r = l.refOf l.index.events[i]
  /-- The first position numbered `n` or more, the length when there is none. -/
  searchNumber : ∀ n, l.searchNumber n ≤ l.length ∧
    ∀ i (hi : i < l.index.events.size), i < l.searchNumber n ↔ l.index.events[i].number < n
  /-- The last event no later than `t`, ties included. -/
  lastNotAfter : ∀ t, l.lastNotAfter t =
    (l.index.events.toList.reverse.find? fun e => decide (e.time ≤ t)).map l.refOf
  /-- The first event no earlier than `t`, ties included. -/
  firstNotBefore : ∀ t, l.firstNotBefore t =
    (l.index.events.toList.find? fun e => decide (t ≤ e.time)).map l.refOf
  /-- A position names an event exactly when it lies inside the log. -/
  eventAt : ∀ j r, l.eventAt j = some r ↔
    ∃ i, ∃ hi : i < l.index.events.size, (i : Int) = j ∧ r = l.refOf l.index.events[i]
  /-- The neighbour of an event is the event at its position moved by `delta`. -/
  neighbour : ∀ i (hi : i < l.index.events.size) (delta : Int),
    l.neighbour (some (l.refOf l.index.events[i])) delta = .ok (l.eventAt (i + delta))
  /-- The relative position of a number lies between zero and one. -/
  percentage : l.length ≤ 2 ^ 53 → ∀ n, Float.InUnit (l.percentage n)

/-- Every reachable log answers its queries as its events in log order say. -/
theorem Reachable.answers_queries (h : l.Reachable) : l.Answers := by
  have hl : l.Inv := h.inv
  have hord : InOrder l.index.events.toList := Index.Placed.inOrder hl
  exact {
    placed := Index.Placed.getElem hl
    ordered := fun _ _ hij hj => hord.precedes_getElem hij hj
    eventForNumber := eventForNumber_eq_some_iff hord
    searchNumber := searchNumber_spec hord
    lastNotAfter := lastNotAfter_eq_scan hord
    firstNotBefore := firstNotBefore_eq_scan hord
    eventAt := eventAt_eq_some_iff
    neighbour := fun _ hi => neighbour_refOf hl hi
    percentage := fun hlen => percentage_inUnit hlen }

/-- A file of three events, the last two at the same time. -/
def tieStore : Store := ⟨[("log", 0)], #["E # 0 t 0 m 1\nE # 1 t 1 m 1\nE # 2 t 1 m 1\n".toUTF8]⟩

/-- The log opened on `tieStore`. -/
def tieLog : EventLog :=
  match (openFile tieStore 0 "log" ⟨0, 1, false⟩ false).2 with
  | .ok l => l
  | .error _ => default

theorem tieLog_answers : tieLog.Reachable ∧ tieLog.Answers := by
  have hopen : (openFile tieStore 0 "log" ⟨0, 1, false⟩ false).2 = .ok tieLog := by
    have hb : (openFile tieStore 0 "log" ⟨0, 1, false⟩ false).2.toBool = true := by decide +kernel
    unfold tieLog
    revert hb
    cases (openFile tieStore 0 "log" ⟨0, 1, false⟩ false).2 <;> simp [Except.toBool]
  have hreach : tieLog.Reachable := .opened hopen
  exact ⟨hreach, Reachable.answers_queries hreach⟩

end EventLog

end EventChart
