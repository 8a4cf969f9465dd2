import EventChart.Proofs.Filter.Settled
import EventChart.Proofs.Log.Reported
import Mathlib
/-!
# Traversing a filtered view

A filtered view answers its traversals by scanning the positions of its base
between the bounds of its number range, one position at a time, and asking
each event's cached verdict.  This module proves that on a settled view each
query answers from the visible events of the base in base order
(`visibleEvents`), and leaves the view settled (`Answers`).

* The scan.  `scan_go_keeps` is the loop: any function of the start that
  is empty past the far end and steps like the loop (the event at a position
  if visible, else the answer one step on) is what the loop answers, by
  induction over its fuel; the loop changes no more than the cached
  verdicts (`Keeps`).  `scan_forward_shown` and `scan_backward_shown`
  instantiate it: the first event shown from a position, the last one up to
  it.  Unless the range ends at the greatest 64-bit integer the events shown
  are the visible ones (`scan_forward`, `scan_backward`).
* Neighbours.  `shownAfter` and `shownBefore` list the visible events after
  and before a position, nearest first; each is its head followed by the list
  of that head (`shownAfter_cons`, `shownBefore_cons`), so `neighbour_answers`
  is an induction over the distance: the neighbour `delta` away is the
  `|delta|`-th of them.
* The queries.  `first_answers`, `last_answers`, `eventForNumber_answers`,
  `lastNotAfter_answers`, `firstNotBefore_answers` and `isVisible_answers`.
  The time lookups first search the base and then scan from the event found;
  that the scan gives the visible event nearest to the time is where the
  order of times along the base comes in (`time_le_of_index_le`).

`shows_visible_subsequence` gathers them.  It needs the last number of the
range below the greatest 64-bit integer, and the distance of a neighbour
above the least: at those two values the number after the last and the
negated distance wrap, and `first_missing_at_greatest_last` shows the view of
a two-event log with no first event and a neighbour that does not move.
-/

namespace EventChart

section Sorted

variable {α : Type} {g : α → Int}

/-- In a list sorted by a key, no element before the first one a test takes
passes the test. -/
theorem find?_eq_some_not_before {V : List α} (hV : V.Pairwise fun a b => g a < g b) {p : α → Bool}
    {a b : α} (h : V.find? p = some a) (hb : b ∈ V) (hba : g b < g a) : p b = false := by
  obtain ⟨as, bs, hsplit, hnot⟩ := List.find?_eq_some_iff_append.mp h |>.2
  subst hsplit
  rw [List.mem_append, List.mem_cons] at hb
  rcases hb with hb | rfl | hb
  · simpa using hnot b hb
  · omega
  · have := List.rel_of_pairwise_cons (List.pairwise_append.mp hV).2.1 hb
    omega

end Sorted

namespace FilteredLog

variable {f : FilteredLog} {l : EventLog}

/-- The scanning loop answers what a function of the start answers, when it
is empty past the far end and steps like the loop. -/
theorem scan_go_keeps {vis : Event → Bool} {step lo hi : Int} (hstep : step = 1 ∨ step = -1)
    (S : Int → Option (EventRef × Int)) (hfar : ∀ i, (if step = 1 then hi < i else i < lo) → S i = none)
    (hin : ∀ i, lo ≤ i → i ≤ hi → ∃ e, l.index.events[i.toNat]? = some e ∧
      S i = if vis e then some (l.refOf e, i) else S (i + step))
    (hord : InOrder l.index.events.toList) :
    ∀ (fuel n : Nat) (i : Int) (f : FilteredLog),
      (if step = 1 then lo ≤ i ∧ hi - i < fuel else i ≤ hi ∧ i - lo < fuel) →
      f.Settled l → f.visible = vis → Keeps (scan.go l false step lo hi fuel n i) l f (S i) := by
  intro fuel
  -- the fuel bounds the distance to the far end, which the walk approaches by one each step
  induction fuel with
  | zero =>
    intro n i f hm hf _
    have hpast : if step = 1 then hi < i else i < lo := by split_ifs at hm ⊢ <;> omega
    refine ⟨f.verdicts, ?_, hf⟩
    rw [hfar i hpast]
    rfl
  | succ fuel ih =>
    intro n i f hm hf hvis
    by_cases hr : i < lo ∨ i > hi
    · have hpast : if step = 1 then hi < i else i < lo := by split_ifs at hm ⊢ <;> omega
      refine ⟨f.verdicts, ?_, hf⟩
      simp [scan.go, hr, hfar i hpast]
    · obtain ⟨e, he, hS⟩ := hin i (by omega) (by omega)
      have hmem : e ∈ l.index.events.toList := Array.mem_toList_iff.mpr (Array.mem_of_getElem? he)
      obtain ⟨v1, hv, hf1⟩ := verdict_keeps hf hord hmem
      by_cases hve : vis e
      · refine ⟨v1, ?_, hf1⟩
        rw [hS, if_pos hve]
        simp [scan.go, hr, he, hv, hvis, hve]
      · have hm' : if step = 1 then lo ≤ i + step ∧ hi - (i + step) < fuel
            else i + step ≤ hi ∧ i + step - lo < fuel := by
          split_ifs at hm ⊢ <;> omega
        obtain ⟨v', hgo, hf'⟩ := ih (n + 1) (i + step) _ hm' hf1 hvis
        refine ⟨v', ?_, hf'⟩
        rw [hS, if_neg hve]
        simp [scan.go, hr, he, hv, hvis, hve]
        exact hgo

/-- Scanning forward gives the first shown event from a position. -/
theorem scan_forward_shown (hl : l.Inv) (hf : f.Settled l) (i : Int) :
    Keeps (scan l false i 1) l f
      (((f.shownEvents l).find? fun v => decide (i ≤ v.index)).map fun v => (l.refOf v, (v.index : Int))) := by
  have hord := Index.Placed.inOrder hl
  set S : Int → Option (EventRef × Int) := fun j =>
    ((f.shownEvents l).find? fun v => decide (j ≤ v.index)).map (fun v => (l.refOf v, (v.index : Int)))
    with hS
  -- nothing is shown beyond the allowed positions, and before them the first shown comes first
  have hfar : ∀ j, (f.bounds l).2 < j → S j = none := by
    intro j hj
    simp only [hS, Option.map_eq_none_iff, List.find?_eq_none, decide_eq_true_eq]
    intro v hv
    have := bounds_of_shows (List.mem_filter.mp hv).2
    omega
  have hnear : ∀ j, j ≤ (f.bounds l).1 → S j = S (f.bounds l).1 := by
    intro j hj
    simp only [hS]
    congr 1
    apply List.find?_congr
    intro v hv
    have := bounds_of_shows (List.mem_filter.mp hv).2
    simp only [decide_eq_decide]
    omega
  have hstep : ∀ j, (f.bounds l).1 ≤ j → j ≤ (f.bounds l).2 → ∃ e, l.index.events[j.toNat]? = some e ∧
      S j = if f.visible e then some (l.refOf e, j) else S (j + 1) := by
    intro j hj1 hj2
    obtain ⟨n, rfl, hnl⟩ := exists_of_mem_bounds hord hj1 hj2
    refine ⟨l.index.events.toList[n], by simp, ?_⟩
    have hconv : ∀ n : Nat, S n = (l.index.events.toList.find? fun a => f.shows l a && decide (n ≤ a.index)).map
        (fun v => (l.refOf v, (v.index : Int))) := by
      intro n
      simp [hS, shownEvents]
    -- between the bounds, an event is shown exactly when it is visible
    have hshows : f.shows l l.index.events.toList[n] = f.visible l.index.events.toList[n] := by
      rw [shows, EventLog.placed_getElem hl n hnl]
      simp [hj1, hj2]
    rw [show (n : Int) + 1 = ((n + 1 : Nat) : Int) by push_cast; rfl, hconv, hconv,
      find?_from_getElem (EventLog.placed_getElem hl) (f.shows l) hnl, hshows]
    split_ifs <;> simp [(Index.Placed.getElem hl n (by simpa using hnl)).1]
  unfold Keeps scan
  simp only [StateT.run_bind, StateT.run_get, pure_bind]
  change ∃ v, _ = pure (S i, _) ∧ _
  rw [if_neg (by omega)]
  have hSi : S i = S (if i < (f.bounds l).1 then (f.bounds l).1 else i) := by
    split_ifs with h
    · exact hnear i h.le
    · rfl
  by_cases hempty : (if i < (f.bounds l).1 then (f.bounds l).1 else i) > (f.bounds l).2
  · -- the start is past the allowed positions
    rw [if_pos ⟨hempty, by norm_num⟩, hSi, hfar _ hempty]
    exact ⟨f.verdicts, rfl, hf⟩
  · rw [if_neg (fun h => hempty h.1), if_neg hempty, hSi]
    exact scan_go_keeps (Or.inl rfl) S (fun j hj => hfar j (by simpa using hj)) hstep hord _ 0 _ f
      (by simp only [if_true]; split_ifs <;> omega) hf rfl

/-- Scanning backward gives the last shown event up to a position. -/
theorem scan_backward_shown (hl : l.Inv) (hf : f.Settled l) (i : Int) :
    Keeps (scan l false i (-1)) l f
      (((f.shownEvents l).reverse.find? fun v => decide ((v.index : Int) ≤ i)).map
        fun v => (l.refOf v, (v.index : Int))) := by
  have hord := Index.Placed.inOrder hl
  set S : Int → Option (EventRef × Int) := fun j =>
    ((f.shownEvents l).reverse.find? fun v => decide ((v.index : Int) ≤ j)).map
      (fun v => (l.refOf v, (v.index : Int))) with hS
  -- nothing is shown before the allowed positions, and beyond them the last shown comes first
  have hfar : ∀ j, j < (f.bounds l).1 → S j = none := by
    intro j hj
    simp only [hS, Option.map_eq_none_iff, List.find?_eq_none, List.mem_reverse, decide_eq_true_eq]
    intro v hv
    have := bounds_of_shows (List.mem_filter.mp hv).2
    omega
  have hnear : ∀ j, (f.bounds l).2 ≤ j → S j = S (f.bounds l).2 := by
    intro j hj
    simp only [hS]
    congr 1
    apply List.find?_congr
    intro v hv
    rw [List.mem_reverse] at hv
    have := bounds_of_shows (List.mem_filter.mp hv).2
    simp only [decide_eq_decide]
    omega
  have hconv : ∀ j : Int, S j = (l.index.events.toList.reverse.find? fun a =>
      f.shows l a && decide ((a.index : Int) ≤ j)).map (fun v => (l.refOf v, (v.index : Int))) := by
    intro j
    simp [hS, shownEvents, ← List.filter_reverse]
  have hstep : ∀ j, (f.bounds l).1 ≤ j → j ≤ (f.bounds l).2 → ∃ e, l.index.events[j.toNat]? = some e ∧
      S j = if f.visible e then some (l.refOf e, j) else S (j + -1) := by
    intro j hj1 hj2
    obtain ⟨n, rfl, hnl⟩ := exists_of_mem_bounds hord hj1 hj2
    refine ⟨l.index.events.toList[n], by simp, ?_⟩
    have hprev : S ((n : Int) + -1) = (l.index.events.toList.reverse.find? fun a =>
        f.shows l a && decide (a.index + 1 ≤ n)).map (fun v => (l.refOf v, (v.index : Int))) := by
      rw [hconv]
      congr 1
      apply List.find?_congr
      intro a _
      rw [decide_eq_decide.mpr (show (a.index : Int) ≤ n + -1 ↔ a.index + 1 ≤ n by omega)]
    have hshows : f.shows l l.index.events.toList[n] = f.visible l.index.events.toList[n] := by
      rw [shows, EventLog.placed_getElem hl n hnl]
      simp [hj1, hj2]
    rw [hprev, hconv]
    simp only [Nat.cast_le]
    rw [find?_reverse_upto_getElem (EventLog.placed_getElem hl) (f.shows l) hnl, hshows]
    split_ifs <;> simp [(Index.Placed.getElem hl n (by simpa using hnl)).1]
  unfold Keeps scan
  simp only [StateT.run_bind, StateT.run_get, pure_bind]
  change ∃ v, _ = pure (S i, _) ∧ _
  by_cases hlow : i < (f.bounds l).1
  · -- the start is before the allowed positions
    rw [if_pos ⟨hlow, by norm_num⟩, hfar i hlow]
    exact ⟨f.verdicts, rfl, hf⟩
  · rw [if_neg (fun h => hlow h.1), if_neg (fun h => absurd h.2 (by norm_num))]
    simp only [if_neg hlow]
    have hSi : S i = S (if i > (f.bounds l).2 then (f.bounds l).2 else i) := by
      split_ifs with h
      · exact hnear i h.le
      · rfl
    rw [hSi]
    exact scan_go_keeps (Or.inr rfl) S (fun j hj => hfar j (by simpa using hj)) hstep hord _ 0 _ f
      (by rw [if_neg (by norm_num)]; split_ifs <;> omega) hf rfl

/-- Scanning forward gives the first visible event from a position. -/
theorem scan_forward (hl : l.Inv) (hf : f.Settled l) (hlast : f.params.lastEventNumber < Int64.maxValue.toInt)
    (i : Int) :
    Answers (scan l false i 1) l f
      (((f.visibleEvents l).find? fun v => decide (i ≤ v.index)).map fun v => (l.refOf v, (v.index : Int))) := by
  rw [← shownEvents_eq_visibleEvents hl hf hlast]
  exact (scan_forward_shown hl hf i).answers

/-- Scanning backward gives the last visible event up to a position. -/
theorem scan_backward (hl : l.Inv) (hf : f.Settled l) (hlast : f.params.lastEventNumber < Int64.maxValue.toInt)
    (i : Int) :
    Answers (scan l false i (-1)) l f
      (((f.visibleEvents l).reverse.find? fun v => decide ((v.index : Int) ≤ i)).map
        fun v => (l.refOf v, (v.index : Int))) := by
  rw [← shownEvents_eq_visibleEvents hl hf hlast]
  exact (scan_backward_shown hl hf i).answers

/-! ## Neighbours -/

/-- The visible events after position `i`, nearest first. -/
def shownAfter (f : FilteredLog) (l : EventLog) (i : Int) : List Event :=
  (f.visibleEvents l).filter fun v => decide (i < v.index)

/-- The visible events before position `i`, nearest first. -/
def shownBefore (f : FilteredLog) (l : EventLog) (i : Int) : List Event :=
  ((f.visibleEvents l).filter fun v => decide ((v.index : Int) < i)).reverse

theorem head?_shownAfter (i : Int) :
    (f.shownAfter l i).head? = (f.visibleEvents l).find? fun v => decide (i + 1 ≤ v.index) := by
  rw [shownAfter, List.head?_filter]
  apply List.find?_congr
  intro v _
  simp only [decide_eq_decide]
  omega

/-- What is visible after a visible event is what is visible after the
nearest one, and that one. -/
theorem shownAfter_cons (hl : l.Inv) {i : Int} {v : Event} (h : (f.shownAfter l i).head? = some v) :
    f.shownAfter l i = v :: f.shownAfter l v.index := by
  rw [shownAfter, List.head?_filter] at h
  exact filter_gt_eq_cons (g := fun v : Event => (v.index : Int)) (visibleEvents_sorted hl) h

theorem shownBefore_eq (i : Int) :
    f.shownBefore l i = (f.visibleEvents l).reverse.filter fun v => decide (-i < -(v.index : Int)) := by
  rw [shownBefore, ← List.filter_reverse]
  apply List.filter_congr
  intro v _
  simp only [decide_eq_decide]
  omega

theorem head?_shownBefore (i : Int) :
    (f.shownBefore l i).head? = (f.visibleEvents l).reverse.find? fun v => decide ((v.index : Int) ≤ i + -1) := by
  rw [shownBefore_eq, List.head?_filter]
  apply List.find?_congr
  intro v _
  simp only [decide_eq_decide]
  omega

/-- The same backwards, the events reversed and their positions negated. -/
theorem shownBefore_cons (hl : l.Inv) {i : Int} {v : Event} (h : (f.shownBefore l i).head? = some v) :
    f.shownBefore l i = v :: f.shownBefore l v.index := by
  rw [shownBefore_eq, List.head?_filter] at h
  have hsorted : (f.visibleEvents l).reverse.Pairwise fun a b => -(a.index : Int) < -(b.index : Int) := by
    rw [List.pairwise_reverse]
    exact (visibleEvents_sorted hl).imp fun h => by omega
  rw [shownBefore_eq, shownBefore_eq, filter_gt_eq_cons (g := fun v : Event => -(v.index : Int)) hsorted h]

theorem neighbour_go_answers {p : Parameters} {vis : Event → Bool} {step : Int} (W : Int → List Event)
    (hscan : ∀ (i : Int) (f : FilteredLog), f.Settled l → f.params = p → f.visible = vis →
      Answers (scan l false (i + step) step) l f ((W i).head?.map fun v => (l.refOf v, (v.index : Int))))
    (hcons : ∀ i v, (W i).head? = some v → W i = v :: W v.index) :
    ∀ (k : Nat) (cur : Option EventRef) (i : Int) (f : FilteredLog), f.Settled l → f.params = p →
      f.visible = vis → Answers (neighbour.go l false step (k + 1) cur i) l f (((W i)[k]?).map l.refOf) := by
  intro k
  -- each step moves to the head of what lies ahead, and what lies ahead of it is the rest
  induction k with
  | zero =>
    intro cur i f hf hp hvis
    obtain ⟨f1, hs, hf1, hp1, hvis1⟩ := hscan i f hf hp hvis
    refine ⟨f1, ?_, hf1, hp1, hvis1⟩
    cases hW : (W i).head? with
    | none => simp [neighbour.go, hs, ← List.head?_eq_getElem?, hW]
    | some v => simp [neighbour.go, hs, ← List.head?_eq_getElem?, hW]
  | succ k ih =>
    intro cur i f hf hp hvis
    obtain ⟨f1, hs, hf1, hp1, hvis1⟩ := hscan i f hf hp hvis
    cases hW : (W i).head? with
    | none =>
      refine ⟨f1, ?_, hf1, hp1, hvis1⟩
      have hnil : W i = [] := List.head?_eq_none_iff.mp hW
      simp [neighbour.go, hs, hnil]
    | some v =>
      obtain ⟨f', hgo, hf', hp', hvis'⟩ :=
        ih (some (l.refOf v)) v.index f1 hf1 (hp1.trans hp) (hvis1.trans hvis)
      refine ⟨f', ?_, hf', hp'.trans hp1, hvis'.trans hvis1⟩
      rw [hcons i v hW, neighbour.go.eq_2]
      simp [hs, hW, hgo]

/-- From any event of the base, the neighbour `delta` visible events away is
the `|delta|`-th visible event after it, or before it, if there is one. -/
theorem neighbour_answers (hl : l.Inv) (hf : f.Settled l)
    (hlast : f.params.lastEventNumber < Int64.maxValue.toInt) {e : Event} (he : e ∈ l.index.events.toList)
    (delta : Int) (hmin : Int64.minValue.toInt < delta) (h0 : delta ≠ 0) :
    Answers (neighbour l false (some (l.refOf e)) delta) l f
      ((if 0 < delta then (f.shownAfter l e.index)[delta.toNat - 1]?
        else (f.shownBefore l e.index)[(-delta).toNat - 1]?).map l.refOf) := by
  unfold neighbour
  rw [EventLog.check_refOf hl he]
  refine (answers_lift hf e).bind fun f1 hf1 hp1 hvis1 =>
    (prepare_answers hf1 false).bind fun f2 hf2 hp2 hvis2 => ?_
  have hp : f2.params = f.params := hp2.trans hp1
  have hvis : f2.visible = f.visible := hvis2.trans hvis1
  by_cases hpos : 0 < delta
  · obtain ⟨k, hk⟩ : ∃ k, delta.toNat = k + 1 := ⟨delta.toNat - 1, by omega⟩
    simp only [if_neg (not_lt.mpr hpos.le), if_pos hpos, hk, Nat.add_sub_cancel]
    refine neighbour_go_answers (f.shownAfter l)
      (fun i g hg hgp hgv => ?_) (fun i v h => shownAfter_cons hl h) k _ _ f2 hf2 hp hvis
    have := scan_forward hl hg (hgp ▸ hlast) (i + 1)
    rwa [visibleEvents_congr hgv, ← head?_shownAfter] at this
  · have hneg : delta < 0 := by omega
    obtain ⟨k, hk⟩ : ∃ k, (-delta).toNat = k + 1 := ⟨(-delta).toNat - 1, by omega⟩
    simp only [if_pos hneg, if_neg hpos, int64_neg_toInt hmin hneg, hk, Nat.add_sub_cancel]
    refine neighbour_go_answers (f.shownBefore l)
      (fun i g hg hgp hgv => ?_) (fun i v h => shownBefore_cons hl h) k _ _ f2 hf2 hp hvis
    have := scan_backward hl hg (hgp ▸ hlast) (i + -1)
    rwa [visibleEvents_congr hgv, ← head?_shownBefore] at this

/-! ## The queries -/

/-- The first visible event. -/
theorem first_answers (hl : l.Inv) (hf : f.Settled l) (hlast : f.params.lastEventNumber < Int64.maxValue.toInt) :
    Answers (first l false) l f ((f.visibleEvents l).head?.map l.refOf) := by
  unfold first
  refine (prepare_answers hf false).bind fun f1 hf1 hp1 hvis1 => ?_
  refine (scan_forward hl hf1 (hp1 ▸ hlast) 0).bind fun f2 hf2 _ _ => ?_
  convert answers_pure hf2 _ using 1
  simp [visibleEvents_congr hvis1, ← List.head?_filter]
  rfl

/-- The last visible event. -/
theorem last_answers (hl : l.Inv) (hf : f.Settled l) (hlast : f.params.lastEventNumber < Int64.maxValue.toInt) :
    Answers (last l false) l f ((f.visibleEvents l).getLast?.map l.refOf) := by
  unfold last
  refine (prepare_answers hf false).bind fun f1 hf1 hp1 hvis1 => ?_
  refine (scan_backward hl hf1 (hp1 ▸ hlast) ((l.length : Int) - 1)).bind fun f2 hf2 _ _ => ?_
  convert answers_pure hf2 _ using 1
  -- every event lies at or before the last position
  have hall : ((f.visibleEvents l).reverse.find? fun v => decide ((v.index : Int) ≤ l.length - 1)) =
      (f.visibleEvents l).reverse.find? fun _ => true := by
    apply List.find?_congr
    intro v hv
    rw [List.mem_reverse, visibleEvents, List.mem_filter] at hv
    obtain ⟨k, hk, rfl⟩ := List.getElem_of_mem hv.1
    rw [EventLog.placed_getElem hl k hk]
    simp only [Array.length_toList] at hk
    simp [EventLog.length]
    omega
  rw [visibleEvents_congr hvis1, hall, ← List.head?_filter, List.filter_true, List.head?_reverse,
    Option.map_map]
  rfl

/-- Among the visible events, the one numbered like an event of the base is
that event if it is visible. -/
theorem find?_number_visibleEvents (hl : l.Inv) {e : Event} (he : e ∈ l.index.events.toList) :
    (f.visibleEvents l).find? (fun v => v.number == e.number) = if f.visible e then some e else none := by
  cases hfind : (f.visibleEvents l).find? (fun v => v.number == e.number) with
  | none =>
    rw [List.find?_eq_none] at hfind
    split_ifs with hv
    · exact absurd (by simp) (hfind e (List.mem_filter.mpr ⟨he, hv⟩))
    · rfl
  | some v =>
    -- the event found is numbered like `e`, so it is `e`
    have hvn : v.number = e.number := by simpa using List.find?_some hfind
    have hv := List.mem_filter.mp (List.mem_of_find?_eq_some hfind)
    obtain rfl := (Index.Placed.inOrder hl).eq_of_number_eq hv.1 he hvn
    simp [hv.2]

/-- The event with a number, if it is visible. -/
theorem eventForNumber_answers (hl : l.Inv) (hf : f.Settled l)
    (hlast : f.params.lastEventNumber < Int64.maxValue.toInt) (n : Int) :
    Answers (eventForNumber l false n) l f (((f.visibleEvents l).find? fun v => v.number == n).map l.refOf) := by
  have hord := Index.Placed.inOrder hl
  unfold eventForNumber
  refine (prepare_answers hf false).bind fun f1 hf1 hp1 hvis1 => ?_
  rw [Index.find?_eq_find? hord]
  cases hfind : l.index.events.toList.find? (fun e => e.number == n) with
  | none =>
    -- no event of the base has the number
    have hnone : (f.visibleEvents l).find? (fun v => v.number == n) = none := by
      rw [List.find?_eq_none] at hfind ⊢
      intro v hv
      exact hfind v (List.mem_filter.mp hv).1
    rw [hnone]
    exact answers_pure hf1 none
  | some e =>
    have he := List.mem_of_find?_eq_some hfind
    have hen : e.number = n := by simpa using List.find?_some hfind
    subst hen
    rw [find?_number_visibleEvents hl he]
    refine (answers_get hf1).bind fun f2 hf2 hp2 hvis2 => ?_
    rw [bounds_congr hp1]
    rcases hb : f.bounds l with ⟨lo, hi⟩
    dsimp only
    by_cases hout : (e.index : Int) < lo ∨ (e.index : Int) > hi
    · -- outside the bounds an event is hidden
      have hnv : f.visible e = false := by
        by_contra hv
        have := bounds_of_visible hl hf hlast he (by simpa using hv)
        rw [hb] at this
        omega
      rw [if_pos hout, hnv]
      exact answers_pure hf2 none
    · rw [if_neg hout]
      refine (verdict_answers hf2 hord he).bind fun f3 hf3 _ _ => ?_
      rw [hvis2, hvis1]
      cases f.visible e <;> exact answers_pure hf3 _

/-- Along the base, times do not decrease. -/
theorem time_le_of_index_le (hl : l.Inv) {a b : Event} (ha : a ∈ l.index.events.toList)
    (hb : b ∈ l.index.events.toList) (h : a.index ≤ b.index) : a.time ≤ b.time := by
  obtain ⟨i, hi, rfl⟩ := List.getElem_of_mem ha
  obtain ⟨j, hj, rfl⟩ := List.getElem_of_mem hb
  rw [EventLog.placed_getElem hl i hi, EventLog.placed_getElem hl j hj] at h
  rcases Nat.eq_or_lt_of_le h with rfl | hij
  · exact SimTime.le_refl _
  · exact (List.pairwise_iff_getElem.mp (Index.Placed.inOrder hl) i j hi hj hij).2

theorem events_sorted_reverse (hl : l.Inv) :
    l.index.events.toList.reverse.Pairwise fun a b => -(a.index : Int) < -(b.index : Int) := by
  rw [List.pairwise_reverse]
  exact (pairwise_lt_of_placed (EventLog.placed_getElem hl)).imp fun h => by omega

/-- The last visible event no later than a time. -/
theorem lastNotAfter_answers (hl : l.Inv) (hf : f.Settled l)
    (hlast : f.params.lastEventNumber < Int64.maxValue.toInt) (t : SimTime) :
    Answers (lastNotAfter l false t) l f
      (((f.visibleEvents l).reverse.find? fun v => decide (v.time ≤ t)).map l.refOf) := by
  have hord := Index.Placed.inOrder hl
  unfold lastNotAfter
  refine (prepare_answers hf false).bind fun f1 hf1 hp1 hvis1 => ?_
  rw [EventLog.lastNotAfter_eq_scan hord]
  cases hfind : l.index.events.toList.reverse.find? (fun e => decide (e.time ≤ t)) with
  | none =>
    -- no event of the base is that early
    have hnone : (f.visibleEvents l).reverse.find? (fun v => decide (v.time ≤ t)) = none := by
      rw [List.find?_eq_none] at hfind ⊢
      intro v hv
      exact hfind v (List.mem_reverse.mpr (List.mem_filter.mp (List.mem_reverse.mp hv)).1)
    rw [hnone]
    exact answers_pure hf1 none
  | some e =>
    have he : e ∈ l.index.events.toList := List.mem_reverse.mp (List.mem_of_find?_eq_some hfind)
    have het : e.time ≤ t := by simpa using List.find?_some hfind
    -- the visible events up to `e` are those no later than `t`: the later ones all are later
    have hcongr : ((f.visibleEvents l).reverse.find? fun v => decide ((v.index : Int) ≤ e.index)) =
        (f.visibleEvents l).reverse.find? fun v => decide (v.time ≤ t) := by
      apply List.find?_congr
      intro v hv
      have hvE : v ∈ l.index.events.toList := (List.mem_filter.mp (List.mem_reverse.mp hv)).1
      rw [decide_eq_decide]
      constructor
      · intro hle
        exact SimTime.le_trans (time_le_of_index_le hl hvE he (by exact_mod_cast hle)) het
      · intro hvt
        by_contra hlt
        have := find?_eq_some_not_before (g := fun v : Event => -(v.index : Int)) (events_sorted_reverse hl)
          hfind (List.mem_reverse.mpr hvE) (show -(v.index : Int) < -(e.index : Int) by omega)
        simp [hvt] at this
    simp only [Option.map_some]
    refine (scan_backward hl hf1 (hp1 ▸ hlast) _).bind fun f2 hf2 _ _ => ?_
    convert answers_pure hf2 _ using 1
    rw [visibleEvents_congr hvis1, show (l.refOf e).index = e.index from rfl, hcongr, Option.map_map]
    rfl

/-- The first visible event no earlier than a time. -/
theorem firstNotBefore_answers (hl : l.Inv) (hf : f.Settled l)
    (hlast : f.params.lastEventNumber < Int64.maxValue.toInt) (t : SimTime) :
    Answers (firstNotBefore l false t) l f
      (((f.visibleEvents l).find? fun v => decide (t ≤ v.time)).map l.refOf) := by
  have hord := Index.Placed.inOrder hl
  unfold firstNotBefore
  refine (prepare_answers hf false).bind fun f1 hf1 hp1 hvis1 => ?_
  rw [EventLog.firstNotBefore_eq_scan hord]
  cases hfind : l.index.events.toList.find? (fun e => decide (t ≤ e.time)) with
  | none =>
    -- no event of the base is that late
    have hnone : (f.visibleEvents l).find? (fun v => decide (t ≤ v.time)) = none := by
      rw [List.find?_eq_none] at hfind ⊢
      intro v hv
      exact hfind v (List.mem_filter.mp hv).1
    rw [hnone]
    exact answers_pure hf1 none
  | some e =>
    have he : e ∈ l.index.events.toList := List.mem_of_find?_eq_some hfind
    have het : t ≤ e.time := by simpa using List.find?_some hfind
    -- the visible events from `e` on are those no earlier than `t`: the earlier ones all are earlier
    have hcongr : ((f.visibleEvents l).find? fun v => decide ((e.index : Int) ≤ v.index)) =
        (f.visibleEvents l).find? fun v => decide (t ≤ v.time) := by
      apply List.find?_congr
      intro v hv
      have hvE : v ∈ l.index.events.toList := (List.mem_filter.mp hv).1
      rw [decide_eq_decide]
      constructor
      · intro hle
        exact SimTime.le_trans het (time_le_of_index_le hl he hvE (by exact_mod_cast hle))
      · intro hvt
        by_contra hlt
        have := find?_eq_some_not_before (g := fun v : Event => (v.index : Int))
          (pairwise_lt_of_placed (EventLog.placed_getElem hl)) hfind hvE
          (show (v.index : Int) < e.index by omega)
        simp [hvt] at this
    simp only [Option.map_some]
    refine (scan_forward hl hf1 (hp1 ▸ hlast) _).bind fun f2 hf2 _ _ => ?_
    convert answers_pure hf2 _ using 1
    rw [visibleEvents_congr hvis1, show (l.refOf e).index = e.index from rfl, hcongr, Option.map_map]
    rfl

/-- Whether an event of the base is visible. -/
theorem isVisible_answers (hl : l.Inv) (hf : f.Settled l) {e : Event} (he : e ∈ l.index.events.toList) :
    Answers (isVisible l false (some (l.refOf e))) l f (f.visible e) := by
  unfold isVisible
  rw [EventLog.check_refOf hl he]
  refine (answers_lift hf e).bind fun f1 hf1 _ hvis1 =>
    (prepare_answers hf1 false).bind fun f2 hf2 _ hvis2 => ?_
  rw [← hvis1, ← hvis2]
  exact verdict_answers hf2 (Index.Placed.inOrder hl) he

/-- After the `k`-th visible event come the ones after it in the list. -/
theorem shownAfter_getElem (hl : l.Inv) {k : Nat} (hk : k < (f.visibleEvents l).length) :
    f.shownAfter l (f.visibleEvents l)[k].index = (f.visibleEvents l).drop (k + 1) := by
  have hV := List.pairwise_iff_getElem.mp (visibleEvents_sorted (f := f) hl)
  -- the events up to the `k`-th are not after it, and all the others are
  have hnil : ((f.visibleEvents l).take (k + 1)).filter
      (fun v => decide (((f.visibleEvents l)[k].index : Int) < v.index)) = [] := by
    rw [List.filter_eq_nil_iff]
    intro a ha
    obtain ⟨j, hj, rfl⟩ := List.mem_take_iff_getElem.mp ha
    rcases Nat.lt_or_ge j k with hjk | hjk
    · have := hV j k (by omega) hk hjk
      simp only [decide_eq_true_eq]
      omega
    · obtain rfl : j = k := by omega
      simp
  have hall : ((f.visibleEvents l).drop (k + 1)).filter
      (fun v => decide (((f.visibleEvents l)[k].index : Int) < v.index)) = (f.visibleEvents l).drop (k + 1) := by
    rw [List.filter_eq_self]
    intro a ha
    obtain ⟨j, hj, rfl⟩ := List.mem_drop_iff_getElem.mp ha
    simpa using hV k (k + 1 + j) hk (by omega) (by omega)
  calc f.shownAfter l (f.visibleEvents l)[k].index
      = ((f.visibleEvents l).take (k + 1) ++ (f.visibleEvents l).drop (k + 1)).filter
          (fun v => decide (((f.visibleEvents l)[k].index : Int) < v.index)) := by
        rw [List.take_append_drop]
        rfl
    _ = (f.visibleEvents l).drop (k + 1) := by rw [List.filter_append, hnil, hall, List.nil_append]

/-- Before the `k`-th visible event come the ones before it in the list,
nearest first. -/
theorem shownBefore_getElem (hl : l.Inv) {k : Nat} (hk : k < (f.visibleEvents l).length) :
    f.shownBefore l (f.visibleEvents l)[k].index = ((f.visibleEvents l).take k).reverse := by
  have hV := List.pairwise_iff_getElem.mp (visibleEvents_sorted (f := f) hl)
  have hall : ((f.visibleEvents l).take k).filter
      (fun v => decide ((v.index : Int) < (f.visibleEvents l)[k].index)) = (f.visibleEvents l).take k := by
    rw [List.filter_eq_self]
    intro a ha
    obtain ⟨j, hj, rfl⟩ := List.mem_take_iff_getElem.mp ha
    simpa using hV j k (by omega) hk (by omega)
  have hnil : ((f.visibleEvents l).drop k).filter
      (fun v => decide ((v.index : Int) < (f.visibleEvents l)[k].index)) = [] := by
    rw [List.filter_eq_nil_iff]
    intro a ha
    obtain ⟨j, hj, rfl⟩ := List.mem_drop_iff_getElem.mp ha
    rcases Nat.eq_zero_or_pos j with rfl | hj0
    · simp
    · have := hV k (k + j) hk (by omega) (by omega)
      simp only [decide_eq_true_eq]
      omega
  calc f.shownBefore l (f.visibleEvents l)[k].index
      = (((f.visibleEvents l).take k ++ (f.visibleEvents l).drop k).filter
          (fun v => decide ((v.index : Int) < (f.visibleEvents l)[k].index))).reverse := by
        rw [List.take_append_drop]
        rfl
    _ = ((f.visibleEvents l).take k).reverse := by rw [List.filter_append, hall, hnil, List.append_nil]

/-- Stepping one visible event forward from the `k`-th visible event reaches
the next one, and nothing from the last. -/
theorem neighbour_next_visible (hl : l.Inv) (hf : f.Settled l)
    (hlast : f.params.lastEventNumber < Int64.maxValue.toInt) {k : Nat} (hk : k < (f.visibleEvents l).length) :
    Answers (neighbour l false (some (l.refOf (f.visibleEvents l)[k])) 1) l f
      ((f.visibleEvents l)[k + 1]?.map l.refOf) := by
  have hmem := (List.mem_filter.mp (List.getElem_mem hk)).1
  have := neighbour_answers hl hf hlast hmem 1 (by decide) (by decide)
  rwa [if_pos (by decide), shownAfter_getElem hl hk, List.getElem?_drop] at this

/-- Stepping one visible event back from the `k`-th visible event reaches the
one before, and nothing from the first: the walk goes through the visible
events in reverse. -/
theorem neighbour_prev_visible (hl : l.Inv) (hf : f.Settled l)
    (hlast : f.params.lastEventNumber < Int64.maxValue.toInt) {k : Nat} (hk : k < (f.visibleEvents l).length) :
    Answers (neighbour l false (some (l.refOf (f.visibleEvents l)[k])) (-1)) l f
      ((f.visibleEvents l).reverse[(f.visibleEvents l).length - k]?.map l.refOf) := by
  have hmem := (List.mem_filter.mp (List.getElem_mem hk)).1
  have := neighbour_answers hl hf hlast hmem (-1) (by decide) (by decide)
  have hrev : (f.visibleEvents l).reverse[(f.visibleEvents l).length - k]? =
      ((f.visibleEvents l).take k).reverse[0]? := by
    conv_lhs => rw [← List.take_append_drop k (f.visibleEvents l), List.reverse_append]
    rw [List.getElem?_append_right (by simp)]
    simp
  rwa [if_neg (by decide), shownBefore_getElem hl hk, show (-(-1 : Int)).toNat - 1 = 0 from rfl,
    ← hrev] at this

/-! ## The view shows the visible subsequence of its base -/

/-- On a settled view of a base in order, every query answers from the
visible events of the base, in base order: visibility is the verdict of the
checks; the first and last events are the first and last visible ones;
stepping one visible event forward or back from the `k`-th visible event
reaches the next or the previous one, so the walks visit the visible events
and their reverse; from any event of the base the neighbour `delta` away is
the `|delta|`-th visible event after or before it; an event number gives its
event only if it is visible; the time lookups give the last visible event no
later and the first no earlier than a time; and the positions the traversals
keep to are exactly those whose events pass the range check.  This holds
when the last number of the range is not the greatest 64-bit integer and
the distance not the least. -/
theorem shows_visible_subsequence (hl : l.Inv) (hf : f.Settled l)
    (hlast : f.params.lastEventNumber < Int64.maxValue.toInt) :
    (∀ e ∈ l.index.events.toList, Answers (isVisible l false (some (l.refOf e))) l f (f.visible e)) ∧
    Answers (first l false) l f ((f.visibleEvents l).head?.map l.refOf) ∧
    Answers (last l false) l f ((f.visibleEvents l).getLast?.map l.refOf) ∧
    (∀ k (hk : k < (f.visibleEvents l).length),
      Answers (neighbour l false (some (l.refOf (f.visibleEvents l)[k])) 1) l f
          ((f.visibleEvents l)[k + 1]?.map l.refOf) ∧
        Answers (neighbour l false (some (l.refOf (f.visibleEvents l)[k])) (-1)) l f
          ((f.visibleEvents l).reverse[(f.visibleEvents l).length - k]?.map l.refOf)) ∧
    (∀ e ∈ l.index.events.toList, ∀ delta : Int, Int64.minValue.toInt < delta → delta ≠ 0 →
      Answers (neighbour l false (some (l.refOf e)) delta) l f
        ((if 0 < delta then (f.shownAfter l e.index)[delta.toNat - 1]?
          else (f.shownBefore l e.index)[(-delta).toNat - 1]?).map l.refOf)) ∧
    (∀ n, Answers (eventForNumber l false n) l f
      (((f.visibleEvents l).find? fun v => v.number == n).map l.refOf)) ∧
    (∀ t, Answers (lastNotAfter l false t) l f
      (((f.visibleEvents l).reverse.find? fun v => decide (v.time ≤ t)).map l.refOf)) ∧
    (∀ t, Answers (firstNotBefore l false t) l f
      (((f.visibleEvents l).find? fun v => decide (t ≤ v.time)).map l.refOf)) ∧
    (∀ k (hk : k < l.index.events.size),
      ((f.bounds l).1 ≤ k ∧ (k : Int) ≤ (f.bounds l).2) ↔ f.passes l.index.events[k] .range = true) :=
  ⟨fun _ he => isVisible_answers hl hf he, first_answers hl hf hlast, last_answers hl hf hlast,
    fun _ hk => ⟨neighbour_next_visible hl hf hlast hk, neighbour_prev_visible hl hf hlast hk⟩,
    fun _ he delta hmin h0 => neighbour_answers hl hf hlast he delta hmin h0,
    eventForNumber_answers hl hf hlast, lastNotAfter_answers hl hf hlast, firstNotBefore_answers hl hf hlast,
    fun _ hk => mem_bounds_iff (Index.Placed.inOrder hl) hlast hk⟩

/-! ## Views of a two-event log -/

theorem inv_twoEventLog : EventLog.twoEventLog.Inv := by
  have hopen : (EventLog.openFile EventLog.twoEventStore 0 "log" ⟨0, 1, false⟩ false).2 = .ok EventLog.twoEventLog := by
    have hb : (EventLog.openFile EventLog.twoEventStore 0 "log" ⟨0, 1, false⟩ false).2.toBool = true := by
      decide +kernel
    unfold EventLog.twoEventLog
    revert hb
    cases (EventLog.openFile EventLog.twoEventStore 0 "log" ⟨0, 1, false⟩ false).2 <;> simp [Except.toBool]
  exact EventLog.inv_openFile hopen

/-- The view created on a log, if its parameters are valid. -/
def viewOf (l : EventLog) (p : Parameters) : FilteredLog :=
  match create l p with
  | .ok f => f
  | .error _ => default

theorem create_viewOf {p : Parameters} (h : (create l p).toBool = true) : create l p = .ok (viewOf l p) := by
  unfold viewOf
  revert h
  cases create l p <;> simp [Except.toBool]

/-- The view of `twoEventLog` that shows every event. -/
def plainView : FilteredLog := viewOf EventLog.twoEventLog Parameters.default

theorem plainView_settled : plainView.Settled EventLog.twoEventLog :=
  settled_of_fresh (by decide +kernel) (by decide +kernel) (by decide +kernel) (by decide +kernel)

/-- The view of `twoEventLog` that shows every event is settled, and its
first event is the first of the log. -/
theorem shows_visible_subsequence_plain :
    EventLog.twoEventLog.Inv ∧ plainView.Settled EventLog.twoEventLog ∧
      plainView.params.lastEventNumber < Int64.maxValue.toInt ∧
      Answers (first EventLog.twoEventLog false) EventLog.twoEventLog plainView
        ((plainView.visibleEvents EventLog.twoEventLog).head?.map EventLog.twoEventLog.refOf) :=
  ⟨inv_twoEventLog, plainView_settled, by decide +kernel,
    (shows_visible_subsequence inv_twoEventLog plainView_settled (by decide +kernel)).2.1⟩

/-- The view of `twoEventLog` whose range ends at the greatest 64-bit integer. -/
def wrapView : FilteredLog :=
  viewOf EventLog.twoEventLog { Parameters.default with lastEventNumber := 9223372036854775807 }

/-- With the range ending at the greatest 64-bit integer both events are
visible, yet the view has no first event, since the number after the last
wraps to the least; and the neighbour at the least distance is the start
itself, since the distance negates to itself. -/
theorem first_missing_at_greatest_last :
    (wrapView.visibleEvents EventLog.twoEventLog).map (·.number) = [0, 1] ∧
      ((first EventLog.twoEventLog false).run wrapView).toOption.map (·.1) = some none ∧
      ((neighbour EventLog.twoEventLog false
          ((EventLog.twoEventLog.index.events[0]?).map EventLog.twoEventLog.refOf)
          (-9223372036854775808)).run plainView).toOption.map (·.1) =
        some ((EventLog.twoEventLog.index.events[0]?).map EventLog.twoEventLog.refOf) := by
  decide +kernel

end FilteredLog

end EventChart
