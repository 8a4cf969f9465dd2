import EventChart.Proofs.Graph.Walk
import EventChart.Proofs.Log.Invariant
import EventChart.Filter.View
import Mathlib
/-!
# A view settled on its base log

A filtered view caches what it learns about its base: the verdict of each
event by number, the trace, the aggregated dependencies.  Once it has taken
the base's state and collected its trace, a view is `Settled` on the base:
its snapshot is the base's, its checks are those its parameters turn on, the
trace is in place when tracing, and every cached verdict is the verdict of
the checks, `visible`.

On a settled view a query is described by `Answers q l f a`: run on `f` it
answers `a` and leaves a view that is still settled, with the same
parameters and showing the same events.  Answers compose along `bind`
(`Answers.bind`), so each query's description is assembled from those of the
steps it runs:

* `prepare_answers`: preparing a settled view changes nothing;
* `verdict_answers`: the cached verdict of an event of the base is
  `visible`, whether it was cached before or is computed now;
* `create_settles`: a view just created is settled by its first preparation,
  which can only fail when canceled.

The traversals do not run the range check on each event: they stay between
the positions `bounds` computes by searching the base for the first and last
allowed numbers.  `mem_bounds_iff` proves that a position lies between the
bounds exactly when its event passes the range check, as long as the last
number is not the greatest 64-bit integer (after which the search wraps).
So every visible event lies between the bounds (`bounds_of_visible`).
-/

namespace EventChart

/-! ## Lists whose elements know their positions -/

section Placed

variable {α : Type} {E : List α} {idx : α → Nat}

/-- From a position of a list whose elements know their positions, the first
element a test takes is the one there if it takes it, else the first from the
next position. -/
theorem find?_from_getElem (hplaced : ∀ k (hk : k < E.length), idx E[k] = k) (p : α → Bool) {i : Nat}
    (hi : i < E.length) :
    E.find? (fun a => p a && decide (i ≤ idx a)) =
      if p E[i] then some E[i] else E.find? (fun a => p a && decide (i + 1 ≤ idx a)) := by
  split_ifs with hp
  · rw [List.find?_eq_some_iff_getElem]
    refine ⟨by simp [hp, hplaced i hi], i, hi, rfl, fun j hj => ?_⟩
    simp [hplaced j (by omega)]
    omega
  · apply List.find?_congr
    intro a ha
    obtain ⟨k, hk, rfl⟩ := List.getElem_of_mem ha
    rw [hplaced k hk]
    by_cases hki : k = i
    · subst hki
      have hp' : p E[k] = false := by simpa using hp
      simp [hp']
    · rw [decide_eq_decide.mpr (show i ≤ k ↔ i + 1 ≤ k by omega)]

/-- The same backwards: up to a position, the last element a test takes is
the one there if it takes it, else the last up to the position before. -/
theorem find?_reverse_upto_getElem (hplaced : ∀ k (hk : k < E.length), idx E[k] = k) (p : α → Bool)
    {i : Nat} (hi : i < E.length) :
    E.reverse.find? (fun a => p a && decide (idx a ≤ i)) =
      if p E[i] then some E[i] else E.reverse.find? (fun a => p a && decide (idx a + 1 ≤ i)) := by
  split_ifs with hp
  · rw [List.find?_eq_some_iff_getElem]
    refine ⟨by simp [hp, hplaced i hi], E.length - 1 - i, by simp; omega,
      by rw [List.getElem_reverse]; congr 1; omega, fun j hj => ?_⟩
    have hj' : j < E.length := by omega
    rw [List.getElem_reverse, hplaced (E.length - 1 - j) (by omega)]
    simp
    omega
  · apply List.find?_congr
    intro a ha
    rw [List.mem_reverse] at ha
    obtain ⟨k, hk, rfl⟩ := List.getElem_of_mem ha
    rw [hplaced k hk]
    by_cases hki : k = i
    · subst hki
      have hp' : p E[k] = false := by simpa using hp
      simp [hp']
    · rw [decide_eq_decide.mpr (show k ≤ i ↔ k + 1 ≤ i by omega)]

/-- Elements that know their positions are sorted by them. -/
theorem pairwise_lt_of_placed (hplaced : ∀ k (hk : k < E.length), idx E[k] = k) :
    E.Pairwise fun a b => (idx a : Int) < idx b := by
  rw [List.pairwise_iff_getElem]
  intro i j hi hj hij
  rw [hplaced i hi, hplaced j hj]
  exact_mod_cast hij

end Placed

/-! ## Lists sorted by a key -/

section Sorted

variable {α : Type} {g : α → Int}

/-- In a list sorted by a key, the elements above a bound are the first of
them followed by those above its key. -/
theorem filter_gt_eq_cons {V : List α} (hV : V.Pairwise fun a b => g a < g b) {c : Int} {v : α}
    (hv : V.find? (fun a => decide (c < g a)) = some v) :
    V.filter (fun a => decide (c < g a)) = v :: V.filter (fun a => decide (g v < g a)) := by
  induction V with
  | nil => simp at hv
  | cons a rest ih =>
    rw [List.pairwise_cons] at hV
    by_cases hca : c < g a
    · -- `a` is the first above the bound, and every later element is above both
      rw [List.find?_cons_of_pos (by simpa using hca)] at hv
      cases hv
      rw [List.filter_cons_of_pos (by simpa using hca), List.filter_cons_of_neg (by simp),
        List.filter_eq_self.mpr (fun b hb => by simpa using lt_trans hca (hV.1 b hb)),
        List.filter_eq_self.mpr (fun b hb => by simpa using hV.1 b hb)]
    · rw [List.find?_cons_of_neg (by simpa using hca)] at hv
      have hvmem : v ∈ rest := List.mem_of_find?_eq_some hv
      rw [List.filter_cons_of_neg (by simpa using hca), ih hV.2 hv, List.filter_cons_of_neg]
      have := hV.1 v hvmem
      simp
      omega

end Sorted

/-! ## Events of an ordered log -/

/-- In events in order, the first numbered `n` or higher is at a position up
to `k` exactly when the event at `k` is numbered `n` or higher. -/
theorem findIdx_number_le_iff {E : List Event} (h : InOrder E) (n : Int) {k : Nat} (hk : k < E.length) :
    E.findIdx (fun e => decide (e.number ≥ n)) ≤ k ↔ n ≤ E[k].number := by
  constructor
  · intro hle
    have hj : E.findIdx (fun e => decide (e.number ≥ n)) < E.length := by omega
    have hp := List.findIdx_getElem (w := hj)
    simp only [decide_eq_true_eq] at hp
    rcases Nat.eq_or_lt_of_le hle with heq | hlt
    · simp only [heq] at hp
      exact hp
    · have := (List.pairwise_iff_getElem.mp h _ k hj hk hlt).1
      omega
  · intro hn
    by_contra hlt
    have := List.not_of_lt_findIdx (by omega : k < E.findIdx (fun e => decide (e.number ≥ n)))
    simp at this
    omega

/-- Events in order are told apart by their numbers. -/
theorem InOrder.eq_of_number_eq {E : List Event} (h : InOrder E) {a b : Event} (ha : a ∈ E) (hb : b ∈ E)
    (hab : a.number = b.number) : a = b := by
  obtain ⟨i, hi, rfl⟩ := List.getElem_of_mem ha
  obtain ⟨j, hj, rfl⟩ := List.getElem_of_mem hb
  rcases Nat.lt_trichotomy i j with hij | rfl | hji
  · have := (List.pairwise_iff_getElem.mp h i j hi hj hij).1
    omega
  · rfl
  · have := (List.pairwise_iff_getElem.mp h j i hj hi hji).1
    omega

/-- One past a non-negative 64-bit integer other than the greatest does not
wrap. -/
theorem int64_succ_toInt {n : Int} (h0 : 0 ≤ n) (h : n < Int64.maxValue.toInt) :
    (Int64.ofInt n + 1).toInt = n + 1 := by
  have hmax : Int64.maxValue.toInt = 2 ^ 63 - 1 := by decide
  rw [Int64.toInt_add, Int64.toInt_ofInt]
  have : (1 : Int64).toInt = 1 := rfl
  rw [this, Int.bmod_def, Int.bmod_def]
  simp only [Int64.size]
  split_ifs <;> omega

/-- A negative distance other than the least 64-bit integer is negated
without wrapping. -/
theorem int64_neg_toInt {d : Int} (h1 : Int64.minValue.toInt < d) (h2 : d < 0) :
    (-Int64.ofInt d).toInt = -d := by
  have hmin : Int64.minValue.toInt = -2 ^ 63 := by decide
  rw [Int64.toInt_neg, Int64.toInt_ofInt, Int.bmod_def, Int.bmod_def]
  simp only [Int64.size]
  split_ifs <;> omega

namespace EventLog

variable {l : EventLog}

theorem placed_getElem (hl : l.Inv) (k : Nat) (hk : k < l.index.events.toList.length) :
    l.index.events.toList[k].index = k := by
  simpa using (Index.Placed.getElem hl k (by simpa using hk)).1

/-- An event of the log is found again by its reference. -/
theorem check_refOf (hl : l.Inv) {e : Event} (he : e ∈ l.index.events.toList) :
    l.check (some (l.refOf e)) = .ok e := by
  obtain ⟨k, hk, rfl⟩ := List.getElem_of_mem he
  have hk' : k < l.index.events.size := by simpa using hk
  obtain ⟨hidx, hepoch⟩ := Index.Placed.getElem hl k hk'
  simp [check, refOf, hidx, hepoch, hk']

end EventLog

namespace FilteredLog

/-! ## Settled views -/

/-- Whether the checks of a view pass an event. -/
def visible (f : FilteredLog) (e : Event) : Bool := f.checks.all (f.passes e)

/-- The events a view shows, in log order. -/
def visibleEvents (f : FilteredLog) (l : EventLog) : List Event := l.index.events.toList.filter f.visible

/-- A view that has taken the state of its base and collected its trace, and
whose cached verdicts are those of its checks. -/
structure Settled (f : FilteredLog) (l : EventLog) : Prop where
  epoch : f.epoch = l.epoch
  length : f.length = l.length
  size : f.size = l.size
  checks : f.checks = f.params.checks f.criteria
  traced : f.params.tracing = true → f.traced = true
  verdicts : ∀ e ∈ l.index.events.toList, ∀ v, f.verdicts[e.number]? = some v → v = f.visible e

variable {f : FilteredLog} {l : EventLog}

/-- A query run on a settled view answers `a` and leaves the view settled,
with the same parameters and showing the same events. -/
def Answers {α : Type} (q : FilterM α) (l : EventLog) (f : FilteredLog) (a : α) : Prop :=
  ∃ f', q.run f = pure (a, f') ∧ f'.Settled l ∧ f'.params = f.params ∧ f'.visible = f.visible

theorem answers_pure {α : Type} (hf : f.Settled l) (a : α) : Answers (pure a) l f a :=
  ⟨f, rfl, hf, rfl, rfl⟩

theorem answers_get (hf : f.Settled l) : Answers get l f f := ⟨f, rfl, hf, rfl, rfl⟩

theorem answers_lift {α : Type} (hf : f.Settled l) (a : α) :
    Answers (StateT.lift (Except.ok a : Except Fault α)) l f a := ⟨f, rfl, hf, rfl, rfl⟩

theorem Answers.bind {α β : Type} {q : FilterM α} {k : α → FilterM β} {a : α} {b : β}
    (hq : Answers q l f a)
    (hk : ∀ f', f'.Settled l → f'.params = f.params → f'.visible = f.visible → Answers (k a) l f' b) :
    Answers (q >>= k) l f b := by
  obtain ⟨f1, hrun, hf1, hp1, hvis1⟩ := hq
  obtain ⟨f2, hrun2, hf2, hp2, hvis2⟩ := hk f1 hf1 hp1 hvis1
  exact ⟨f2, by simp [hrun, hrun2], hf2, hp2.trans hp1, hvis2.trans hvis1⟩

theorem visibleEvents_congr {f' : FilteredLog} (h : f'.visible = f.visible) :
    f'.visibleEvents l = f.visibleEvents l := by
  simp [visibleEvents, h]

/-- The visible events are in the order of their positions. -/
theorem visibleEvents_sorted (hl : l.Inv) :
    (f.visibleEvents l).Pairwise fun a b => (a.index : Int) < b.index :=
  (pairwise_lt_of_placed (EventLog.placed_getElem hl)).filter _

/-! ## Queries that only fill the verdict cache -/

/-- A query that answers `a` on a settled view and changes at most its
cached verdicts, leaving it settled. -/
def Keeps {α : Type} (q : FilterM α) (l : EventLog) (f : FilteredLog) (a : α) : Prop :=
  ∃ v, q.run f = pure (a, { f with verdicts := v }) ∧ ({ f with verdicts := v } : FilteredLog).Settled l

theorem Keeps.answers {α : Type} {q : FilterM α} {a : α} (h : Keeps q l f a) : Answers q l f a := by
  obtain ⟨v, hrun, hs⟩ := h
  exact ⟨_, hrun, hs, rfl, rfl⟩

theorem keeps_pure {α : Type} (hf : f.Settled l) (a : α) : Keeps (pure a) l f a := ⟨f.verdicts, rfl, hf⟩

theorem keeps_lift {α : Type} (hf : f.Settled l) (a : α) :
    Keeps (StateT.lift (Except.ok a : Except Fault α)) l f a := ⟨f.verdicts, rfl, hf⟩

theorem Keeps.bind {α β : Type} {q : FilterM α} {k : α → FilterM β} {a : α} {b : β} (hq : Keeps q l f a)
    (hk : ∀ v, ({ f with verdicts := v } : FilteredLog).Settled l → Keeps (k a) l { f with verdicts := v } b) :
    Keeps (q >>= k) l f b := by
  obtain ⟨v1, hrun1, hs1⟩ := hq
  obtain ⟨v2, hrun2, hs2⟩ := hk v1 hs1
  exact ⟨v2, by simp [hrun1, hrun2], hs2⟩

/-- Preparing a view that holds its base's snapshot and, when tracing, its
trace changes nothing. -/
theorem prepare_run_of_current (hsnap : f.epoch = l.epoch ∧ f.length = l.length ∧ f.size = l.size)
    (htraced : f.params.tracing = true → f.traced = true) (canceled : Bool) :
    (prepare l canceled).run f = pure ((), f) := by
  have hsame : ¬ (f.epoch ≠ l.epoch ∨ f.length ≠ l.length ∨ f.size ≠ l.size) := by
    simp [hsnap.1, hsnap.2.1, hsnap.2.2]
  have hdone : f.params.tracing = false ∨ f.traced = true := by
    cases h : f.params.tracing
    · exact .inl rfl
    · exact .inr (htraced h)
  simp [prepare, hsame]
  rw [if_pos hdone]
  rfl

/-- Preparing a settled view changes nothing. -/
theorem prepare_keeps (hf : f.Settled l) (canceled : Bool) : Keeps (prepare l canceled) l f () :=
  ⟨f.verdicts, prepare_run_of_current ⟨hf.epoch, hf.length, hf.size⟩ hf.traced canceled, hf⟩

theorem prepare_answers (hf : f.Settled l) (canceled : Bool) : Answers (prepare l canceled) l f () :=
  (prepare_keeps hf canceled).answers

/-- The cached verdict of an event of the base is whether it is visible. -/
theorem verdict_keeps (hf : f.Settled l) (hord : InOrder l.index.events.toList) {e : Event}
    (he : e ∈ l.index.events.toList) : Keeps (verdict e) l f (f.visible e) := by
  cases hv : f.verdicts[e.number]? with
  | some v =>
    refine ⟨f.verdicts, ?_, hf⟩
    simp [verdict, hv, hf.verdicts e he v hv]
  | none =>
    -- the verdict is computed and cached under a number no other event has
    refine ⟨f.verdicts.insert e.number (f.visible e), ?_, ?_⟩
    · simp [verdict, hv, visible]
    · refine ⟨hf.epoch, hf.length, hf.size, hf.checks, hf.traced, fun e' he' v hv' => ?_⟩
      rw [Std.HashMap.getElem?_insert] at hv'
      split_ifs at hv' with hn
      · cases hv'
        rw [hord.eq_of_number_eq he he' (by simpa using hn)]
        rfl
      · exact hf.verdicts e' he' v hv'

theorem verdict_answers (hf : f.Settled l) (hord : InOrder l.index.events.toList) {e : Event}
    (he : e ∈ l.index.events.toList) : Answers (verdict e) l f (f.visible e) :=
  (verdict_keeps hf hord he).answers

/-- A view that has just taken the state of its base, with no verdict cached,
is settled once its trace is in place. -/
theorem settled_of_fresh (hsnap : f.epoch = l.epoch ∧ f.length = l.length ∧ f.size = l.size)
    (hchecks : f.checks = f.params.checks f.criteria) (hverdicts : f.verdicts.isEmpty = true)
    (htraced : f.params.tracing = true → f.traced = true) : f.Settled l :=
  ⟨hsnap.1, hsnap.2.1, hsnap.2.2, hchecks, htraced, fun _ _ v hv => by
    rw [Std.HashMap.getElem?_of_isEmpty hverdicts] at hv
    cases hv⟩

/-- A view just created is settled by its first preparation: when tracing,
the trace is collected in both directions, which cannot fail unless
canceled. -/
theorem create_settles {p : Parameters} {f0 : FilteredLog} (hc : create l p = .ok f0) :
    ∃ f1, (prepare l false).run f0 = pure ((), f1) ∧ f1.Settled l ∧ f1.params = p := by
  unfold create at hc
  split at hc
  · cases hc
  · rename_i c _
    cases hc
    set g : FilteredLog :=
      reset ⟨p, c, p.checks c, 0, 0, 0, default, {}, false, none, none, {}, {}, none⟩ l with hg
    -- the view has taken the base's snapshot, so its preparation only collects the trace
    have hsnap : g.epoch = l.epoch ∧ g.length = l.length ∧ g.size = l.size := ⟨rfl, rfl, rfl⟩
    cases htr : p.tracing
    · refine ⟨g, ?_, settled_of_fresh hsnap rfl rfl (by simp [hg, reset, htr]), rfl⟩
      simp [prepare, hg, reset, htr]
    · cases hfind : l.index.find? p.tracedEventNumber with
      | none =>
        refine ⟨{ g with traced := true }, ?_, settled_of_fresh hsnap rfl rfl (fun _ => rfl), rfl⟩
        simp [prepare, hg, reset, htr, hfind]
      | some origin =>
        have hview : ∀ n, Total (l.walkView.find n) := fun n => total_pure _
        obtain ⟨cs, _, hcs⟩ := collect_total hview l.length origin .causes
          (limits p .causes true) frozenClock ()
        obtain ⟨qs, _, hqs⟩ := collect_total hview l.length origin .consequences
          (limits p .consequences true) frozenClock ()
        refine ⟨{ g with causes := some cs, consequences := some qs, traced := true }, ?_,
          settled_of_fresh hsnap rfl rfl (fun _ => rfl), rfl⟩
        simp only [StateT.run] at hcs hqs
        simp [prepare, hg, reset, htr, hfind, StateT.run', hcs, hqs, prepare.liftM]
        rfl

/-! ## The allowed positions -/

theorem bounds_congr {f' : FilteredLog} (h : f'.params = f.params) : f'.bounds l = f.bounds l := by
  simp [bounds, h]

/-- A position lies between the bounds exactly when its event passes the
range check. -/
theorem mem_bounds_iff (hord : InOrder l.index.events.toList)
    (hlast : f.params.lastEventNumber < Int64.maxValue.toInt) {k : Nat} (hk : k < l.index.events.size) :
    ((f.bounds l).1 ≤ k ∧ (k : Int) ≤ (f.bounds l).2) ↔ f.passes l.index.events[k] .range = true := by
  have hk' : k < l.index.events.toList.length := by simpa using hk
  have hnum : l.index.events[k].number = l.index.events.toList[k].number := by simp
  -- the search for a number ends at or before `k` exactly when the event there has at least it
  have hlo : ∀ n, ((l.searchNumber n : Nat) : Int) ≤ k ↔ n ≤ l.index.events[k].number := by
    intro n
    rw [EventLog.searchNumber, Index.searchNumber_eq_findIdx hord, hnum, Nat.cast_le]
    exact findIdx_number_le_iff hord n hk'
  have hfirst : (f.bounds l).1 ≤ k ↔
      f.params.firstEventNumber < 0 ∨ l.index.events[k].number ≥ f.params.firstEventNumber := by
    simp only [bounds]
    split_ifs with h
    · rw [hlo]
      omega
    · omega
  have hlast' : (k : Int) ≤ (f.bounds l).2 ↔
      f.params.lastEventNumber < 0 ∨ l.index.events[k].number ≤ f.params.lastEventNumber := by
    simp only [bounds]
    split_ifs with h
    · -- the number after the last does not wrap
      rw [int64_succ_toInt h hlast]
      have := hlo (f.params.lastEventNumber + 1)
      omega
    · have hlen : l.length = l.index.events.size := rfl
      omega
  rw [hfirst, hlast']
  simp [passes]

theorem passes_range_of_visible (hc : f.checks = f.params.checks f.criteria) {e : Event}
    (hv : f.visible e = true) : f.passes e .range = true := by
  by_cases hr : f.params.firstEventNumber ≥ 0 ∨ f.params.lastEventNumber ≥ 0
  · have hmem : CheckName.range ∈ f.checks := by
      rw [hc]
      simp [Parameters.checks, hr]
    exact List.all_eq_true.mp hv _ hmem
  · -- with no range set the check passes every event
    simp only [passes, Bool.and_eq_true, Bool.or_eq_true, decide_eq_true_eq]
    omega

theorem bounds_fst_nonneg : 0 ≤ (f.bounds l).1 := by
  simp only [bounds]
  split_ifs <;> omega

theorem bounds_snd_lt (hord : InOrder l.index.events.toList) : (f.bounds l).2 < l.length := by
  have hsearch : ∀ n, l.searchNumber n ≤ l.length := by
    intro n
    rw [EventLog.searchNumber, Index.searchNumber_eq_findIdx hord]
    simpa [EventLog.length] using
      @List.findIdx_le_length _ (fun e : Event => decide (e.number ≥ n)) l.index.events.toList
  simp only [bounds]
  split_ifs
  · have := hsearch ((Int64.ofInt f.params.lastEventNumber + 1).toInt)
    omega
  · omega

/-- An allowed position holds an event. -/
theorem exists_of_mem_bounds (hord : InOrder l.index.events.toList) {j : Int} (hj1 : (f.bounds l).1 ≤ j)
    (hj2 : j ≤ (f.bounds l).2) : ∃ n : Nat, j = n ∧ n < l.index.events.toList.length := by
  obtain ⟨n, rfl⟩ := Int.eq_ofNat_of_zero_le (le_trans bounds_fst_nonneg hj1)
  have := bounds_snd_lt (f := f) hord
  simp only [EventLog.length] at this
  exact ⟨n, rfl, by simp only [Array.length_toList]; omega⟩

/-- Every visible event lies between the bounds. -/
theorem bounds_of_visible (hl : l.Inv) (hf : f.Settled l)
    (hlast : f.params.lastEventNumber < Int64.maxValue.toInt) {e : Event} (he : e ∈ l.index.events.toList)
    (hv : f.visible e = true) : (f.bounds l).1 ≤ e.index ∧ (e.index : Int) ≤ (f.bounds l).2 := by
  obtain ⟨k, hk, rfl⟩ := List.getElem_of_mem he
  have hk' : k < l.index.events.size := by simpa using hk
  rw [EventLog.placed_getElem hl k hk]
  have hpass := passes_range_of_visible hf.checks hv
  simp only [Array.getElem_toList] at hpass
  exact (mem_bounds_iff (Index.Placed.inOrder hl) hlast hk').mpr hpass

theorem bounds_of_mem_visibleEvents (hl : l.Inv) (hf : f.Settled l)
    (hlast : f.params.lastEventNumber < Int64.maxValue.toInt) {v : Event} (hv : v ∈ f.visibleEvents l) :
    (f.bounds l).1 ≤ v.index ∧ (v.index : Int) ≤ (f.bounds l).2 := by
  rw [visibleEvents, List.mem_filter] at hv
  exact bounds_of_visible hl hf hlast hv.1 hv.2

/-! ## The events a view shows -/

/-- Whether a view shows an event: it lies between the bounds and passes the
checks. -/
def shows (f : FilteredLog) (l : EventLog) (e : Event) : Bool :=
  decide ((f.bounds l).1 ≤ e.index) && decide ((e.index : Int) ≤ (f.bounds l).2) && f.visible e

/-- The events a view shows, in log order. -/
def shownEvents (f : FilteredLog) (l : EventLog) : List Event := l.index.events.toList.filter (f.shows l)

theorem shows_congr {f' : FilteredLog} (hp : f'.params = f.params) (hv : f'.visible = f.visible) :
    f'.shows l = f.shows l := by
  funext e
  simp [shows, bounds_congr hp, hv]

theorem bounds_of_shows {e : Event} (h : f.shows l e = true) :
    (f.bounds l).1 ≤ e.index ∧ (e.index : Int) ≤ (f.bounds l).2 := by
  simp only [shows, Bool.and_eq_true, decide_eq_true_eq] at h
  exact h.1

theorem shownEvents_sorted (hl : l.Inv) :
    (f.shownEvents l).Pairwise fun a b => (a.index : Int) < b.index :=
  (pairwise_lt_of_placed (EventLog.placed_getElem hl)).filter _

/-- Unless the range ends at the greatest 64-bit integer, a view shows exactly
its visible events. -/
theorem shownEvents_eq_visibleEvents (hl : l.Inv) (hf : f.Settled l)
    (hlast : f.params.lastEventNumber < Int64.maxValue.toInt) : f.shownEvents l = f.visibleEvents l := by
  apply List.filter_congr
  intro e he
  by_cases hv : f.visible e = true
  · obtain ⟨h1, h2⟩ := bounds_of_visible hl hf hlast he hv
    simp [shows, hv, h1, h2]
  · simp [shows, hv]

end FilteredLog

end EventChart
