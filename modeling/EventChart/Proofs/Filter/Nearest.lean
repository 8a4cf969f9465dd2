import EventChart.Proofs.Filter.Navigation
import Mathlib
/-!
# Dependencies to the nearest shown events

A filtered view aggregates the dependencies of an event over the events it
hides: from the event it walks the base to causes, or to consequences, and
stops at each event it shows.  The walk asks the view's own cached verdicts,
so it changes the view as it goes, and its answers are cached too, by event
number, in one cache per direction.

`nearDeps` is what the same walk finds over the base with no state at all,
stopping where `stopsAt` says.  A view is `Steady` when it is settled and
every cached answer is `nearDeps`; a query `Serves` an answer when it
answers it on a steady view and leaves the view steady.

* `nearestDeps_serves`: the walk of the view answers `nearDeps`, cached or
  not.  The walk over the view simulates the walk without state
  (`nearest_sim`), since each verdict it asks is `visible` and the view only
  fills its verdict cache on the way (`Keeps`); caching the answer keeps the
  view steady (`Steady.cache`).  Every answered dependency links the event
  to one where the walk stopped (`nearDeps_links`).
* `crossing_gathers_nearest`: the dependencies crossing a stretch of the
  base are the nearest dependencies, both ways, of each event shown in the
  stretch, each kept once (`crossingDeps`), by induction over the loop that
  scans the stretch (`crossing_go_serves`); both ends of each are shown.

A dependency between two shown events thus enters as the walk from either
end finds it.  Where two hidden paths join the same two events, the walk
from each end may find another first: `crossing_depends_on_side` shows a
send found from one end and a reuse from the other, so what a stretch answers
is not what a wider stretch answers restricted to it.
-/

namespace EventChart

namespace EventLog

variable {l : EventLog}

theorem mem_of_find? (hl : l.Inv) {n : Int} {e : Event} (h : l.index.find? n = some e) :
    e ∈ l.index.events.toList := by
  rw [Index.find?_eq_find? (Index.Placed.inOrder hl)] at h
  exact List.mem_of_find?_eq_some h

theorem number_of_find? {n : Int} {e : Event} (h : l.index.find? n = some e) : e.number = n := by
  unfold Index.find? at h
  split at h
  · split_ifs at h with hn
    cases h
    exact hn
  · cases h

theorem isValid_refOf (hl : l.Inv) {e : Event} (he : e ∈ l.index.events.toList) : l.isValid (l.refOf e) = true := by
  obtain ⟨k, hk, rfl⟩ := List.getElem_of_mem he
  have hk' : k < l.index.events.size := by simpa using hk
  simp [isValid, refOf, (Index.Placed.getElem hl k hk').2]

theorem getElem!_mem {k : Nat} (hk : k < l.index.events.size) : l.index.events[k]! ∈ l.index.events.toList := by
  rw [getElem!_pos l.index.events k hk]
  exact Array.mem_toList_iff.mpr (Array.getElem_mem hk)

/-- The consequences of every event of a log just opened are the edges
that leave it. -/
theorem linked_openFile {st : Store} {id : Nat} {path : String} {opts : LogOptions} {f : Nat}
    (hf : st.fileOf? path = some f) (ho : (openFile st id path opts false).2 = .ok l) : l.index.Linked := by
  obtain ⟨s, q, -, hm, -⟩ := (openFile_follows hf ho).1.synced
  exact hm.linked

/-- Over a linked index, a walk finds the consequences of an event among the
edges of the events. -/
theorem walkView_eq (h : l.index.Linked) :
    l.walkView = ⟨fun n => pure (l.index.find? n),
      fun e => (l.index.events.toList.flatMap Event.causes).filter (·.cause == e.number)⟩ := by
  simp only [walkView, h _]

end EventLog

namespace FilteredLog

variable {f : FilteredLog} {l : EventLog}

/-! ## The walk without state -/

/-- Whether a walk from an event of the base stops at `c`: an event of the
base's current epoch that the view shows. -/
def stopsAt (f : FilteredLog) (l : EventLog) (c : Event) : Bool := l.isValid (l.refOf c) && f.shows l c

/-- The dependencies from `e` to the nearest events at which a view stops,
in a direction, as a walk over the base that keeps no state finds them. -/
def nearDeps (f : FilteredLog) (l : EventLog) (e : Event) (dir : Direction) : DepSet :=
  match (nearest l.walkView l.length e dir (limits f.params dir false) frozenClock false
      fun c => pure (f.stopsAt l c)).run' () with
  | .ok r => r
  | .error _ => default

/-- The cached nearest dependencies in a direction. -/
def nearCache (f : FilteredLog) : Direction → Std.HashMap Int DepSet
  | .causes => f.nearCauses
  | .consequences => f.nearConsequences

/-- A settled view whose cached nearest dependencies are those a walk finds. -/
structure Steady (f : FilteredLog) (l : EventLog) : Prop extends Settled f l where
  near : ∀ dir, ∀ e ∈ l.index.events.toList, ∀ r, (f.nearCache dir)[e.number]? = some r → r = f.nearDeps l e dir

/-- A query run on a steady view answers `a` and leaves the view steady, with
the same parameters and showing the same events. -/
def Serves {α : Type} (q : FilterM α) (l : EventLog) (f : FilteredLog) (a : α) : Prop :=
  ∃ f', q.run f = pure (a, f') ∧ f'.Steady l ∧ f'.params = f.params ∧ f'.visible = f.visible

theorem nearDeps_run (e : Event) (dir : Direction) :
    (nearest l.walkView l.length e dir (limits f.params dir false) frozenClock false
      fun c => pure (f.stopsAt l c)).run' () = .ok (f.nearDeps l e dir) := by
  have hfind : ∀ n, Total (l.walkView.find n) := fun n => total_pure _
  have hstop : ∀ c, Total (pure (f.stopsAt l c) : StateT Unit (Except Fault) Bool) := fun c => total_pure _
  obtain ⟨r, u, h⟩ := nearest_total hfind l.length e dir (limits f.params dir false) frozenClock hstop ()
  simp only [nearDeps, StateT.run'_eq, h]
  rfl

/-- Every dependency to the nearest events links the origin to an event of
the base at which the view stops. -/
theorem nearDeps_links (hl : l.Inv) {e : Event} (he : e ∈ l.index.events.toList) (dir : Direction) :
    ∀ d ∈ (f.nearDeps l e dir).deps, ∃ c ∈ l.index.events.toList, f.stopsAt l c = true ∧ d.Links dir e c := by
  have hfind : ∀ n, Sim (fun _ : Unit => True) (fun r => ∀ c, r = some c → c ∈ l.index.events.toList)
      (l.walkView.find n) (l.walkView.find n) := fun n => sim_pure fun c hc => EventLog.mem_of_find? hl hc
  have hacc : ∀ c, c ∈ l.index.events.toList → Sim (fun _ : Unit => True) (fun b => b = f.stopsAt l c)
      (pure (f.stopsAt l c)) (pure (f.stopsAt l c)) := fun c _ => sim_pure rfl
  intro d hd
  obtain ⟨c, hc, hstop, hlink⟩ :=
    (nearest_sim hfind rfl hacc he l.length frozenClock _ (nearDeps_run e dir)).1 d hd
  exact ⟨c, hc, hstop, hlink⟩

theorem nearDeps_congr {f' : FilteredLog} (hp : f'.params = f.params) (hv : f'.visible = f.visible) :
    f'.nearDeps l = f.nearDeps l := by
  funext e dir
  simp [nearDeps, stopsAt, shows_congr hp hv, hp]

/-! ## Steady views -/

theorem serves_pure {α : Type} (hf : f.Steady l) (a : α) : Serves (pure a) l f a := ⟨f, rfl, hf, rfl, rfl⟩

theorem Serves.bind {α β : Type} {q : FilterM α} {k : α → FilterM β} {a : α} {b : β}
    (hq : Serves q l f a)
    (hk : ∀ f', f'.Steady l → f'.params = f.params → f'.visible = f.visible → Serves (k a) l f' b) :
    Serves (q >>= k) l f b := by
  obtain ⟨f1, hrun, hf1, hp1, hvis1⟩ := hq
  obtain ⟨f2, hrun2, hf2, hp2, hvis2⟩ := hk f1 hf1 hp1 hvis1
  exact ⟨f2, by simp [hrun, hrun2], hf2, hp2.trans hp1, hvis2.trans hvis1⟩

/-- A query that fills only the verdict cache keeps a view steady. -/
theorem Keeps.serves {α : Type} {q : FilterM α} {a : α} (h : Keeps q l f a) (hf : f.Steady l) :
    Serves q l f a := by
  obtain ⟨v, hrun, hs⟩ := h
  exact ⟨_, hrun, { hs with near := hf.near }, rfl, rfl⟩

/-- A settled view with no nearest dependencies cached is steady. -/
theorem steady_of_fresh (hf : f.Settled l) (hc : f.nearCauses.isEmpty = true)
    (hq : f.nearConsequences.isEmpty = true) : f.Steady l := by
  refine { hf with near := fun dir e _ r hr => ?_ }
  cases dir
  · rw [nearCache, Std.HashMap.getElem?_of_isEmpty hc] at hr
    cases hr
  · rw [nearCache, Std.HashMap.getElem?_of_isEmpty hq] at hr
    cases hr

/-- Caching the dependencies a walk finds keeps a view steady. -/
theorem Steady.cache (hf : f.Steady l) (hord : InOrder l.index.events.toList) {e : Event}
    (he : e ∈ l.index.events.toList) (dir : Direction) {f' : FilteredLog} (hs : f'.Settled l)
    (hp : f'.params = f.params) (hv : f'.visible = f.visible)
    (hcache : ∀ d, f'.nearCache d =
      if d = dir then (f.nearCache dir).insert e.number (f.nearDeps l e dir) else f.nearCache d) :
    f'.Steady l := by
  refine { hs with near := fun d e' he' r hr => ?_ }
  rw [nearDeps_congr hp hv]
  rw [hcache d] at hr
  split_ifs at hr with hd
  · subst hd
    rw [Std.HashMap.getElem?_insert] at hr
    split_ifs at hr with hn
    · -- only `e` has its number
      cases hr
      rw [hord.eq_of_number_eq he he' (by simpa using hn)]
    · exact hf.near d e' he' r hr
  · exact hf.near d e' he' r hr

/-! ## Nearest dependencies and dependency queries -/

/-- Dependencies cached for an event are answered without a walk. -/
theorem nearestDeps_cached {canceled : Bool} {e : Event} {dir : Direction} {r : DepSet}
    (hc : (f.nearCache dir)[e.number]? = some r) : (nearestDeps l canceled e dir).run f = pure (r, f) := by
  cases dir <;> simp_all [nearestDeps, nearCache]

/-- Whatever a nearest query answers is cached for its event. -/
theorem nearestDeps_caches {canceled : Bool} {e : Event} {dir : Direction} {r : DepSet} {f' : FilteredLog}
    (h : (nearestDeps l canceled e dir).run f = .ok (r, f')) : (f'.nearCache dir)[e.number]? = some r := by
  cases hc : (f.nearCache dir)[e.number]? with
  | some r' =>
    rw [nearestDeps_cached hc] at h
    cases h
    exact hc
  | none =>
    -- the answer of the walk is inserted under the event's number
    unfold nearestDeps at h
    cases dir <;> simp only [nearCache] at hc <;>
      simp only [StateT.run_bind, StateT.run_get, pure_bind, Std.HashMap.get?_eq_getElem?, hc] at h
    all_goals
      simp only [bind, Except.bind] at h
      split at h
      · cases h
      · simp only [StateT.run, modify, modifyGet, pure] at h
        cases h
        simp [nearCache]

/-- The nearest dependencies of an event of the base are those a walk finds,
cached or not. -/
theorem nearestDeps_serves (hl : l.Inv) (hf : f.Steady l) {e : Event} (he : e ∈ l.index.events.toList)
    (dir : Direction) : Serves (nearestDeps l false e dir) l f (f.nearDeps l e dir) := by
  have hord := Index.Placed.inOrder hl
  cases hc : (f.nearCache dir)[e.number]? with
  | some r =>
    rw [← hf.near dir e he r hc]
    exact ⟨f, nearestDeps_cached hc, hf, rfl, rfl⟩
  | none =>
    -- the walk asks the view's own verdicts, which answer as `stopsAt`
    have hfind : ∀ n, Sim (fun s => ∃ v, s = { f with verdicts := v } ∧ s.Settled l)
        (fun r => ∀ c, r = some c → c ∈ l.index.events.toList)
        (WalkView.find (⟨fun n => pure (l.index.find? n), fun c => l.index.consequencesOf c.number⟩ :
          WalkView FilteredLog) n) (l.walkView.find n) :=
      fun n => sim_pure fun c hc => EventLog.mem_of_find? hl hc
    have haccept : ∀ c, c ∈ l.index.events.toList → Sim (fun s => ∃ v, s = { f with verdicts := v } ∧ s.Settled l)
        (fun b => b = f.stopsAt l c)
        (if l.isValid (l.refOf c) = true ∧ (f.bounds l).1 ≤ c.index ∧ (c.index : Int) ≤ (f.bounds l).2 then verdict c
          else pure false) (pure (f.stopsAt l c)) := by
      intro c hc b hb
      cases hb
      refine ⟨rfl, ?_⟩
      rintro s ⟨v, rfl, hs⟩
      split_ifs with hin
      · -- between the bounds and current, the view stops where the event is visible
        have hstop : f.stopsAt l c = f.visible c := by
          simp [stopsAt, shows, hin.1, hin.2.1, hin.2.2]
        obtain ⟨v', hrun, hs'⟩ := verdict_keeps hs hord hc
        rw [hstop]
        exact ⟨_, hrun, v', rfl, hs'⟩
      · have hstop : f.stopsAt l c = false := by
          simp only [EventLog.isValid_refOf hl hc, true_and] at hin
          simp only [stopsAt, shows, EventLog.isValid_refOf hl hc, Bool.true_and]
          by_cases hlo : (f.bounds l).1 ≤ c.index
          · simp only [hlo, decide_true, Bool.true_and, Bool.and_eq_false_iff, decide_eq_false_iff_not]
            exact .inl fun h => hin ⟨hlo, h⟩
          · simp [hlo]
        rw [hstop]
        exact ⟨_, rfl, v, rfl, hs⟩
    obtain ⟨-, hwalk⟩ := nearest_sim hfind rfl haccept he l.length frozenClock _ (nearDeps_run e dir)
    obtain ⟨s', hrun, v, rfl, hs'⟩ := hwalk f ⟨f.verdicts, rfl, hf.toSettled⟩
    -- the walk's answer is cached under the event's number
    unfold Serves nearestDeps
    simp only [StateT.run_bind, StateT.run_get, pure_bind]
    cases dir <;> simp only [nearCache] at hc <;> simp only [Std.HashMap.get?_eq_getElem?, hc]
    · refine ⟨{ ({ f with verdicts := v } : FilteredLog) with
        nearCauses := f.nearCauses.insert e.number (f.nearDeps l e .causes) }, ?_, hf.cache hord he .causes
        ⟨hs'.epoch, hs'.length, hs'.size, hs'.checks, hs'.traced, hs'.verdicts⟩ rfl rfl ?_, rfl, rfl⟩
      · simp only [StateT.run_bind, hrun]
        rfl
      · intro d
        cases d <;> simp [nearCache]
    · refine ⟨{ ({ f with verdicts := v } : FilteredLog) with
        nearConsequences := f.nearConsequences.insert e.number (f.nearDeps l e .consequences) }, ?_, hf.cache hord he .consequences
        ⟨hs'.epoch, hs'.length, hs'.size, hs'.checks, hs'.traced, hs'.verdicts⟩ rfl rfl ?_, rfl, rfl⟩
      · simp only [StateT.run_bind, hrun]
        rfl
      · intro d
        cases d <;> simp [nearCache]

/-- The dependencies of an event of the base are those a walk finds. -/
theorem dependenciesOf_serves (hl : l.Inv) (hf : f.Steady l) {e : Event} (he : e ∈ l.index.events.toList)
    (dir : Direction) : Serves (dependenciesOf l false (some (l.refOf e)) dir) l f (f.nearDeps l e dir) := by
  unfold dependenciesOf
  rw [EventLog.check_refOf hl he]
  refine ((keeps_lift hf.toSettled e).serves hf).bind fun f1 hf1 hp1 hv1 =>
    ((prepare_keeps hf1.toSettled false).serves hf1).bind fun f2 hf2 hp2 hv2 => ?_
  rw [← nearDeps_congr (hp2.trans hp1) (hv2.trans hv1)]
  exact nearestDeps_serves hl hf2 he dir

/-- Whatever a dependency query answers for an event of the base is cached
for it. -/
theorem dependenciesOf_caches {canceled : Bool} {ref : EventRef} {e : Event} (hc : l.check (some ref) = .ok e)
    {dir : Direction} {r : DepSet} {f' : FilteredLog}
    (h : (dependenciesOf l canceled (some ref) dir).run f = .ok (r, f')) : (f'.nearCache dir)[e.number]? = some r := by
  unfold dependenciesOf at h
  rw [hc, StateT.run_bind, StateT.run_lift] at h
  simp only [bind, Except.bind, pure, Except.pure, StateT.bind, StateT.run] at h
  split at h
  · cases h
  · exact nearestDeps_caches h

/-! ## Dependencies crossing a stretch of the base -/

/-- The shown events between two positions. -/
def shownBetween (f : FilteredLog) (l : EventLog) (lo hi : Nat) : List Event :=
  (f.shownEvents l).filter fun v => decide (lo ≤ v.index ∧ v.index ≤ hi)

/-- The dependencies from an event to the nearest shown events, causes first. -/
def nearLinks (f : FilteredLog) (l : EventLog) (v : Event) : List Dependency :=
  (f.nearDeps l v .causes).deps ++ (f.nearDeps l v .consequences).deps

/-- Whether a limit cut short a walk from an event. -/
def nearIncomplete (f : FilteredLog) (l : EventLog) (v : Event) : Bool :=
  (f.nearDeps l v .causes).incomplete || (f.nearDeps l v .consequences).incomplete

/-- The dependencies crossing the positions `lo` to `hi`: those from each
shown event between them to the nearest shown events, each kept once, in
listing order. -/
def crossingDeps (f : FilteredLog) (l : EventLog) (lo hi : Nat) : DepSet :=
  ⟨(DepCollector.empty.addAll ((f.shownBetween l lo hi).flatMap (f.nearLinks l))).sorted,
    (f.shownBetween l lo hi).any (f.nearIncomplete l)⟩

theorem nearLinks_congr {f' : FilteredLog} (hp : f'.params = f.params) (hv : f'.visible = f.visible) :
    f'.nearLinks l = f.nearLinks l := by
  funext v
  simp [nearLinks, nearDeps_congr hp hv]

theorem nearIncomplete_congr {f' : FilteredLog} (hp : f'.params = f.params) (hv : f'.visible = f.visible) :
    f'.nearIncomplete l = f.nearIncomplete l := by
  funext v
  simp [nearIncomplete, nearDeps_congr hp hv]

theorem shownBetween_congr {f' : FilteredLog} (hp : f'.params = f.params) (hv : f'.visible = f.visible) :
    f'.shownBetween l = f.shownBetween l := by
  funext lo hi
  simp [shownBetween, shownEvents, shows_congr hp hv]

/-- Past its first shown event, a stretch holds that one and the stretch
after it. -/
theorem shownBetween_cons (hl : l.Inv) {i hi : Nat} {v : Event}
    (h : (f.shownEvents l).find? (fun v => decide ((i : Int) ≤ v.index)) = some v) (hv : v.index ≤ hi) :
    f.shownBetween l i hi = v :: f.shownBetween l (v.index + 1) hi := by
  -- a stretch is the shown events past a bound, cut at the far end
  have hcut : ∀ lo : Nat, f.shownBetween l lo hi =
      ((f.shownEvents l).filter fun a => decide ((lo : Int) - 1 < a.index)).filter fun a => decide (a.index ≤ hi) := by
    intro lo
    rw [List.filter_filter, shownBetween]
    apply List.filter_congr
    intro a _
    simp only [← Bool.decide_and, decide_eq_decide]
    omega
  have hfind : (f.shownEvents l).find? (fun a => decide ((i : Int) - 1 < a.index)) = some v := by
    rw [← h]
    apply List.find?_congr
    intro a _
    simp only [decide_eq_decide]
    omega
  rw [hcut, hcut, filter_gt_eq_cons (g := fun a : Event => (a.index : Int)) (shownEvents_sorted hl) hfind,
    List.filter_cons_of_pos (by simpa using hv)]
  congr 2
  apply List.filter_congr
  intro a _
  simp only [decide_eq_decide]
  omega

/-- A stretch with no shown event from its start up to its end is empty. -/
theorem shownBetween_eq_nil {i hi : Nat}
    (h : ∀ v ∈ f.shownEvents l, (i : Int) ≤ v.index → hi < v.index) : f.shownBetween l i hi = [] := by
  rw [shownBetween, List.filter_eq_nil_iff]
  intro v hv
  have := h v hv
  simp only [decide_eq_true_eq, not_and, not_le]
  omega

/-- The loop over a stretch gathers the dependencies from each of its shown
events to the nearest shown ones, by induction over the fuel, which bounds the
positions left. -/
theorem crossing_go_serves (hl : l.Inv) (ei : Nat) :
    ∀ (fuel i : Nat) (c : DepCollector) (inc : Bool) (f : FilteredLog), f.Steady l → ei + 1 - i < fuel →
      Serves (crossing.go l false ei fuel i c inc) l f
        (c.addAll ((f.shownBetween l i ei).flatMap (f.nearLinks l)),
          inc || (f.shownBetween l i ei).any (f.nearIncomplete l)) := by
  have hord := Index.Placed.inOrder hl
  intro fuel
  induction fuel with
  | zero => intro i c inc f _ hfuel; omega
  | succ fuel ih =>
    intro i c inc f hf hfuel
    rw [crossing.go]
    by_cases hpast : i > ei
    · -- past the end nothing is left
      rw [if_pos hpast, shownBetween_eq_nil fun v _ _ => by omega]
      simp only [List.flatMap_nil, List.any_nil, Bool.or_false]
      exact serves_pure hf (c, inc)
    rw [if_neg hpast]
    refine ((scan_forward_shown hl hf.toSettled i).serves hf).bind fun f1 hf1 hp1 hv1 => ?_
    cases hfind : (f.shownEvents l).find? (fun v => decide ((i : Int) ≤ v.index)) with
    | none =>
      -- no shown event is left
      have hnil : f.shownBetween l i ei = [] := shownBetween_eq_nil fun v hv hiv => by
        have := List.find?_eq_none.mp hfind v hv
        simp only [decide_eq_true_eq] at this
        omega
      simp only [Option.map_none, hnil, List.flatMap_nil, List.any_nil, Bool.or_false]
      exact serves_pure hf1 (c, inc)
    | some v =>
      simp only [Option.map_some]
      have hvs : v ∈ f.shownEvents l := List.mem_of_find?_eq_some hfind
      have hvmem : v ∈ l.index.events.toList := (List.mem_filter.mp hvs).1
      -- every shown event from the start on lies at or after the first
      have hfirst : ∀ w ∈ f.shownEvents l, (i : Int) ≤ w.index → v.index ≤ w.index := by
        intro w hw hiw
        by_contra hlt
        have := find?_eq_some_not_before (g := fun a : Event => (a.index : Int)) (shownEvents_sorted hl) hfind hw
          (by omega)
        simp only [decide_eq_false_iff_not] at this
        omega
      by_cases hend : (v.index : Int) > ei
      · rw [if_pos hend, shownBetween_eq_nil fun w hw hiw => by have := hfirst w hw hiw; omega]
        simp only [List.flatMap_nil, List.any_nil, Bool.or_false]
        exact serves_pure hf1 (c, inc)
      rw [if_neg hend]
      have hat : l.index.events[((v.index : Nat) : Int).toNat]? = some v := by
        obtain ⟨k, hk, rfl⟩ := List.getElem_of_mem hvmem
        rw [EventLog.placed_getElem hl k hk]
        simp
      have hiv : (i : Int) ≤ v.index := by simpa using List.find?_some hfind
      rw [hat, Int.toNat_natCast]
      -- the nearest dependencies of the first shown event, then the loop from past it
      refine (nearestDeps_serves hl hf1 hvmem .causes).bind fun f2 hf2 hp2 hv2 =>
        (nearestDeps_serves hl hf2 hvmem .consequences).bind fun f3 hf3 hp3 hv3 => ?_
      have hp : f3.params = f.params := hp3.trans (hp2.trans hp1)
      have hv : f3.visible = f.visible := hv3.trans (hv2.trans hv1)
      have hgo := ih (v.index + 1) ((c.addAll (f1.nearDeps l v .causes).deps).addAll (f2.nearDeps l v .consequences).deps)
        (inc || (f1.nearDeps l v .causes).incomplete || (f2.nearDeps l v .consequences).incomplete) f3 hf3 (by omega)
      rw [nearDeps_congr (hp2.trans hp1) (hv2.trans hv1), nearDeps_congr hp1 hv1, nearLinks_congr hp hv,
        nearIncomplete_congr hp hv, shownBetween_congr hp hv] at hgo
      rw [nearDeps_congr (hp2.trans hp1) (hv2.trans hv1), nearDeps_congr hp1 hv1,
        shownBetween_cons hl hfind (by omega), List.flatMap_cons, List.any_cons, DepCollector.addAll_append,
        nearLinks, DepCollector.addAll_append, nearIncomplete, ← Bool.or_assoc, ← Bool.or_assoc]
      exact hgo

theorem crossingDeps_congr {f' : FilteredLog} (hp : f'.params = f.params) (hv : f'.visible = f.visible) :
    f'.crossingDeps l = f.crossingDeps l := by
  funext lo hi
  simp [crossingDeps, shownBetween_congr hp hv, nearLinks_congr hp hv, nearIncomplete_congr hp hv]

/-- Between two events of the base, a steady view answers the dependencies
from the shown events between them to the nearest shown events. -/
theorem crossing_serves (hl : l.Inv) (hf : f.Steady l) {a b : Event} (ha : a ∈ l.index.events.toList)
    (hb : b ∈ l.index.events.toList) :
    Serves (crossing l false (some (l.refOf a)) (some (l.refOf b))) l f
      (f.crossingDeps l (min a.index b.index) (max a.index b.index)) := by
  unfold crossing
  rw [EventLog.check_refOf hl ha, EventLog.check_refOf hl hb]
  -- the stretch runs from the earlier event to the later
  have hends : (if a.index > b.index then (b.index, a.index) else (a.index, b.index)) =
      (min a.index b.index, max a.index b.index) := by
    split_ifs with h
    · rw [min_eq_right (by omega), max_eq_left (by omega)]
    · rw [min_eq_left (by omega), max_eq_right (by omega)]
  refine ((keeps_lift hf.toSettled a).serves hf).bind fun f1 hf1 hp1 hv1 =>
    ((keeps_lift hf1.toSettled b).serves hf1).bind fun f2 hf2 hp2 hv2 => ?_
  simp only [hends]
  refine ((prepare_keeps hf2.toSettled false).serves hf2).bind fun f3 hf3 hp3 hv3 =>
    (crossing_go_serves hl _ _ _ _ _ f3 hf3 (by omega)).bind fun f4 hf4 _ _ => ?_
  have hp : f3.params = f.params := hp3.trans (hp2.trans hp1)
  have hv : f3.visible = f.visible := hv3.trans (hv2.trans hv1)
  rw [shownBetween_congr hp hv, nearLinks_congr hp hv, nearIncomplete_congr hp hv, Bool.false_or]
  exact serves_pure hf4 _

/-- The same between the events at two positions of the base. -/
theorem crossing_at (hl : l.Inv) (hf : f.Steady l) {i j : Nat} (hi : i < l.index.events.size)
    (hj : j < l.index.events.size) :
    Serves (crossing l false ((l.index.events[i]?).map l.refOf) ((l.index.events[j]?).map l.refOf)) l f
      (f.crossingDeps l (min i j) (max i j)) := by
  have hidx : ∀ k (hk : k < l.index.events.size), l.index.events[k].index = k := fun k hk =>
    (Index.Placed.getElem hl k hk).1
  have hmem : ∀ k (hk : k < l.index.events.size), l.index.events[k] ∈ l.index.events.toList := fun k hk =>
    Array.mem_toList_iff.mpr (Array.getElem_mem hk)
  have := crossing_serves hl hf (hmem i hi) (hmem j hj)
  rwa [hidx i hi, hidx j hj, ← Option.map_some, ← Array.getElem?_eq_getElem hi, ← Option.map_some,
    ← Array.getElem?_eq_getElem hj] at this

/-- Both ends of every dependency crossing a stretch are shown. -/
theorem crossingDeps_ends (hl : l.Inv) (lo hi : Nat) :
    ∀ d ∈ (f.crossingDeps l lo hi).deps,
      (∃ x ∈ f.shownEvents l, d.cause = x.number) ∧ (∃ y ∈ f.shownEvents l, d.consequence = y.number) := by
  intro d hd
  simp only [crossingDeps, DepCollector.sorted, Dependency.sort, List.mem_mergeSort, Array.mem_toList_iff] at hd
  rcases DepCollector.mem_addAll _ _ hd with hd | hd
  · simp [DepCollector.empty] at hd
  -- it links a shown event of the stretch to one where the walk from it stopped
  obtain ⟨v, hv, hd⟩ := List.mem_flatMap.mp hd
  have hvs : v ∈ f.shownEvents l := (List.mem_filter.mp hv).1
  have hvmem : v ∈ l.index.events.toList := (List.mem_filter.mp hvs).1
  have hstop : ∀ c ∈ l.index.events.toList, f.stopsAt l c = true → c ∈ f.shownEvents l := by
    intro c hc hs
    simp only [stopsAt, Bool.and_eq_true] at hs
    exact List.mem_filter.mpr ⟨hc, hs.2⟩
  rcases List.mem_append.mp hd with hd | hd
  · obtain ⟨c, hc, hs, hcause, hcons⟩ := nearDeps_links hl hvmem .causes d hd
    exact ⟨⟨c, hstop c hc hs, hcause⟩, ⟨v, hvs, hcons⟩⟩
  · obtain ⟨c, hc, hs, hcause, hcons⟩ := nearDeps_links hl hvmem .consequences d hd
    exact ⟨⟨v, hvs, hcause⟩, ⟨c, hstop c hc hs, hcons⟩⟩

/-- The dependencies crossing the stretch between two events of the base
are those from each shown event of the stretch to the nearest shown events,
each kept once: a dependency between two shown events enters as the walk
from either end finds it, so it is the same whether found from its cause or
from its consequence only when both walks take the same hidden path.  Asking
twice answers the same, and every dependency answered joins two shown
events. -/
theorem crossing_gathers_nearest (hl : l.Inv) (hf : f.Steady l) {a b : Event} (ha : a ∈ l.index.events.toList)
    (hb : b ∈ l.index.events.toList) :
    Serves (crossing l false (some (l.refOf a)) (some (l.refOf b))) l f
        (f.crossingDeps l (min a.index b.index) (max a.index b.index)) ∧
      Serves (crossing l false (some (l.refOf a)) (some (l.refOf b)) >>= fun _ =>
          crossing l false (some (l.refOf a)) (some (l.refOf b))) l f
        (f.crossingDeps l (min a.index b.index) (max a.index b.index)) ∧
      ∀ d ∈ (f.crossingDeps l (min a.index b.index) (max a.index b.index)).deps,
        (∃ x ∈ f.shownEvents l, d.cause = x.number) ∧ (∃ y ∈ f.shownEvents l, d.consequence = y.number) := by
  refine ⟨crossing_serves hl hf ha hb, (crossing_serves hl hf ha hb).bind fun f' hf' hp hv => ?_,
    crossingDeps_ends hl _ _⟩
  rw [← crossingDeps_congr hp hv]
  exact crossing_serves hl hf' ha hb

/-! ## Two hidden paths between two shown events -/

/-- A log where event 0 reaches event 3 along two hidden paths: a message
sent to event 1 and on to event 3, and a message to event 2 whose reuse
reaches event 3. -/
def crossStore : Store :=
  ⟨[("log", 0)], #[("E # 0 t 0 m 1\nBS id 5 c M n a pe -1\nBS id 6 c M n b pe -1\nE # 1 t 0 m 1 ce 0 msg 5\n" ++
    "BS id 7 c M n c pe -1\nE # 2 t 0 m 1\nBS id 6 c M n b pe 0\nE # 3 t 0 m 1 ce 1 msg 7\n" ++
    "BS id 8 c M n d pe 2\n").toUTF8]⟩

/-- The log opened on `crossStore`. -/
def crossLog : EventLog :=
  match (EventLog.openFile crossStore 0 "log" ⟨0, 0, false⟩ false).2 with
  | .ok l => l
  | .error _ => default

/-- The view of `crossLog` that hides events 1 and 2, with no limit on the
walks. -/
def crossView : FilteredLog :=
  viewOf crossLog { Parameters.default with
    excludedEventNumbers := [1, 2]
    maxCauseDepth := 0
    maxConsequenceDepth := 0
    maxNumberOfCauses := 0
    maxNumberOfConsequences := 0 }

/-- What the kernel reads off `crossStore`, in one evaluation of the file:
it opens into four events, and the view of it is fresh, with the log's
snapshot, the checks of its parameters and empty caches. -/
theorem crossLog_read :
    (EventLog.openFile crossStore 0 "log" ⟨0, 0, false⟩ false).2.toBool = true ∧
      crossLog.index.events.size = 4 ∧
      (crossView.epoch = crossLog.epoch ∧ crossView.length = crossLog.length ∧ crossView.size = crossLog.size) ∧
      crossView.checks = crossView.params.checks crossView.criteria ∧ crossView.verdicts.isEmpty = true ∧
      (crossView.params.tracing = true → crossView.traced = true) ∧
      crossView.nearCauses.isEmpty = true ∧ crossView.nearConsequences.isEmpty = true := by
  decide +kernel

theorem openFile_crossStore : (EventLog.openFile crossStore 0 "log" ⟨0, 0, false⟩ false).2 = .ok crossLog := by
  have hb := crossLog_read.1
  unfold crossLog
  revert hb
  cases (EventLog.openFile crossStore 0 "log" ⟨0, 0, false⟩ false).2 <;> simp [Except.toBool]

theorem crossView_steady : crossView.Steady crossLog := by
  obtain ⟨-, -, hsnap, hchecks, hverdicts, htraced, hc, hq⟩ := crossLog_read
  exact steady_of_fresh (settled_of_fresh hsnap hchecks hverdicts htraced) hc hq

/-- `crossLog` holds four events. -/
theorem size_crossLog : crossLog.index.events.size = 4 := crossLog_read.2.1

theorem crossing_gathers_nearest_crossLog :
    crossLog.Inv ∧ crossView.Steady crossLog ∧ crossLog.index.events[0]! ∈ crossLog.index.events.toList ∧
      crossLog.index.events[3]! ∈ crossLog.index.events.toList ∧
      Serves (crossing crossLog false (some (crossLog.refOf crossLog.index.events[0]!))
          (some (crossLog.refOf crossLog.index.events[3]!))) crossLog crossView
        (crossView.crossingDeps crossLog (min crossLog.index.events[0]!.index crossLog.index.events[3]!.index)
          (max crossLog.index.events[0]!.index crossLog.index.events[3]!.index)) := by
  have hl : crossLog.Inv := EventLog.inv_openFile openFile_crossStore
  have h0 := EventLog.getElem!_mem (l := crossLog) (k := 0) (by rw [size_crossLog]; decide)
  have h3 := EventLog.getElem!_mem (l := crossLog) (k := 3) (by rw [size_crossLog]; decide)
  exact ⟨hl, crossView_steady, h0, h3, (crossing_gathers_nearest hl crossView_steady h0 h3).1⟩

/-- Events 0 and 3 are joined by a send through event 1 and a reuse through
event 2.  Crossing event 0 alone finds only the send, which the walk to the
consequences of event 0 reaches first; crossing event 3 alone finds only the
reuse, which the walk to its causes reaches first; the stretch from 0 to 3
finds both. -/
theorem crossing_depends_on_side :
    ((crossing crossLog false ((crossLog.index.events[0]?).map crossLog.refOf)
        ((crossLog.index.events[0]?).map crossLog.refOf)).run' crossView).toOption.map (·.deps) =
      some [⟨0, 3, .send, 5, 7, 2⟩] ∧
    ((crossing crossLog false ((crossLog.index.events[3]?).map crossLog.refOf)
        ((crossLog.index.events[3]?).map crossLog.refOf)).run' crossView).toOption.map (·.deps) =
      some [⟨0, 3, .reuse, 6, 8, 2⟩] ∧
    ((crossing crossLog false ((crossLog.index.events[0]?).map crossLog.refOf)
        ((crossLog.index.events[3]?).map crossLog.refOf)).run' crossView).toOption.map (·.deps) =
      some [⟨0, 3, .send, 5, 7, 2⟩, ⟨0, 3, .reuse, 6, 8, 2⟩] := by
  have hl : crossLog.Inv := EventLog.inv_openFile openFile_crossStore
  have hlinked := EventLog.linked_openFile (f := 0) (by decide) openFile_crossStore
  -- each query answers what the walks over the base find, which the kernel evaluates
  have hrun : ∀ i j, i < 4 → j < 4 →
      ((crossing crossLog false ((crossLog.index.events[i]?).map crossLog.refOf)
        ((crossLog.index.events[j]?).map crossLog.refOf)).run' crossView).toOption.map (·.deps) =
        some (crossView.crossingDeps crossLog (min i j) (max i j)).deps := by
    intro i j hi hj
    obtain ⟨f', h, -⟩ := crossing_at hl crossView_steady (by rw [size_crossLog]; exact hi)
      (by rw [size_crossLog]; exact hj)
    rw [StateT.run'_eq, h]
    rfl
  -- the walks, evaluated by the kernel over the edges of the events, each keep one path
  have hcol : (DepCollector.empty.addAll ((crossView.shownBetween crossLog 0 0).flatMap
        (crossView.nearLinks crossLog))).deps.toList = [⟨0, 3, .send, 5, 7, 2⟩] ∧
      (DepCollector.empty.addAll ((crossView.shownBetween crossLog 3 3).flatMap
        (crossView.nearLinks crossLog))).deps.toList = [⟨0, 3, .reuse, 6, 8, 2⟩] ∧
      (DepCollector.empty.addAll ((crossView.shownBetween crossLog 0 3).flatMap
        (crossView.nearLinks crossLog))).deps.toList = [⟨0, 3, .send, 5, 7, 2⟩, ⟨0, 3, .reuse, 6, 8, 2⟩] := by
    unfold nearLinks nearDeps
    rw [EventLog.walkView_eq hlinked]
    decide +kernel
  rw [hrun 0 0 (by decide) (by decide), hrun 3 3 (by decide) (by decide), hrun 0 3 (by decide) (by decide)]
  simp only [crossingDeps, DepCollector.sorted, Dependency.sort, Nat.min_self, Nat.max_self, Nat.zero_min,
    Nat.zero_max, hcol]
  -- the two found over the whole stretch are already in listing order
  have hsorted : [(⟨0, 3, .send, 5, 7, 2⟩ : Dependency), ⟨0, 3, .reuse, 6, 8, 2⟩].Pairwise
      fun a b => Dependency.le a b = true := by decide
  simp [List.mergeSort_of_pairwise hsorted]

end FilteredLog

end EventChart
