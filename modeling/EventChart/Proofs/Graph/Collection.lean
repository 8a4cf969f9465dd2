import EventChart.Proofs.Graph.Search
import EventChart.Proofs.Filter.Nearest
/-!
# What collecting and the search for the nearest events answer

`collect` and `nearest` report what a walk over the dependencies finds
(`walk_found`).  Over the full log of an `EventLog` (`EventLog.graph`), from
an event of the log:

* `collect_answers`: `collect` succeeds with nodes in order of number, none
  the origin's, each reached along allowed edges with its depth and kind; its
  dependencies are one allowed edge into each node, from the origin or from a
  node one step nearer; the count and depth limits hold; and when no limit
  cut the walk, the nodes are every event the allowed edges reach.
* `collect_within_depth`: under a depth limit every node is reached by a
  path of at most that many edges, and only a walk that was not cut is sure
  to hold every reachable event.  The frontier is taken in order of number,
  not of depth, so a longer path can reach an event first and its depth stop
  the walk there: `collect_misses_event_within_depth`.
* `nearest_finds_accepted`: with no limit, `nearest` reports one aggregated
  edge for each accepted event that a path through rejected events reaches,
  and no other.
-/

namespace EventChart

/-! ## The graph of a log -/

/-- The event found for a number is one of the index's events. -/
theorem Index.mem_of_find? {x : Index} {n : Int} {e : Event} (h : x.find? n = some e) : e ∈ x.events.toList := by
  unfold Index.find? at h
  split at h
  · rename_i e' he'
    split_ifs at h
    cases h
    exact Array.mem_toList_iff.mpr (Array.mem_of_getElem? he')
  · cases h

namespace EventLog

variable {l : EventLog}

/-- An event log as a walk over its dependencies sees it. -/
def graph (l : EventLog) : LogGraph where
  events := l.index.events.toList
  find := l.index.find?
  consequences e := l.index.consequencesOf e.number
  number_of_find := number_of_find?
  mem_of_find := Index.mem_of_find?

theorem walkView_eq_view (l : EventLog) : l.walkView = l.graph.view := rfl

theorem graph_find (l : EventLog) : l.graph.find = l.index.find? := rfl

theorem length_graph_events (l : EventLog) : l.graph.events.length = l.length := by
  simp [graph, length]

/-- In an ordered log, each event is the one found for its number. -/
theorem find?_of_mem (hl : l.Inv) {e : Event} (he : e ∈ l.index.events.toList) : l.index.find? e.number = some e := by
  have hord := Index.Placed.inOrder hl
  rw [Index.find?_eq_find? hord]
  cases hf : l.index.events.toList.find? (·.number == e.number) with
  | none => exact absurd (List.find?_eq_none.mp hf e he) (by simp)
  | some v =>
    have hn : v.number = e.number := by simpa using List.find?_some hf
    rw [hord.eq_of_number_eq (List.mem_of_find?_eq_some hf) he hn]

end EventLog

/-! ## What a walk gathers -/

/-- The node a collection shows for an item. -/
def Reached.node (r : Reached) : Node := ⟨r.event.number, r.depth, r.kind⟩

/-- The collection a walk from `o` gathers: its visited events in order of
number, and the edges that reached them in listing order. -/
def Walk.collection (w : Walk) (o : Event) (dir : Direction) : Collection :=
  ⟨o.number, dir, (w.log.toList.map (·.1.node)).mergeSort (fun a b => a.number ≤ b.number),
    (DepCollector.empty.addAll (w.log.toList.map (·.1.last))).sorted, w.limit⟩

theorem collect_eq {σ : Type} (view : WalkView σ) (size : Nat) (o : Event) (dir : Direction) (lim : Limits)
    (clock : Clock) (canceled : Bool) :
    collect view size o dir lim clock canceled =
      (walk view size o dir lim clock canceled fun _ => pure true) >>= fun w => pure (w.collection o dir) :=
  rfl

/-- Adding dependencies with keys not yet collected, and distinct, keeps them
all, in order. -/
theorem DepCollector.addAll_of_nodup :
    ∀ (ds : List Dependency) (c : DepCollector), ((c.deps.toList ++ ds).map Dependency.key).Nodup →
      (c.addAll ds).deps.toList = c.deps.toList ++ ds
  | [], c, _ => by simp [addAll]
  | d :: ds, c, h => by
    have hnew : c.add d = ⟨c.deps.push d⟩ := by
      unfold add
      rw [if_neg]
      intro hany
      obtain ⟨e, he, hk⟩ := Array.any_eq_true'.mp hany
      -- `d` would repeat the key of `e`
      rw [List.map_append, List.map_cons] at h
      exact List.disjoint_of_nodup_append h (List.mem_map_of_mem (Array.mem_toList_iff.mpr he))
        (by rw [beq_iff_eq.mp hk]; exact List.mem_cons_self)
    have hrest := addAll_of_nodup ds (c.add d) (by rw [hnew]; simpa using h)
    calc (c.addAll (d :: ds)).deps.toList = ((c.add d).addAll ds).deps.toList := rfl
      _ = c.deps.toList ++ d :: ds := by rw [hrest, hnew]; simp

/-- Dependencies with distinct far ends have distinct keys. -/
theorem nodup_keys_of_far {dir : Direction} {ds : List Dependency} (h : (ds.map dir.far).Nodup) :
    (ds.map Dependency.key).Nodup := by
  refine List.Nodup.of_map (fun k : Int × Int × Int × Int => if dir = .causes then k.1 else k.2.1) ?_
  have hfar : (fun k : Int × Int × Int × Int => if dir = .causes then k.1 else k.2.1) ∘ Dependency.key = dir.far := by
    cases dir <;> rfl
  rwa [List.map_map, hfar]

/-- Nodes with distinct numbers, sorted by number, are in strictly
increasing order. -/
theorem pairwise_lt_mergeSort {ns : List Node} (h : (ns.map (·.number)).Nodup) :
    (ns.mergeSort fun a b => a.number ≤ b.number).Pairwise fun a b => a.number < b.number := by
  have hle := @List.pairwise_mergeSort _ (fun a b : Node => decide (a.number ≤ b.number))
    (fun a b c hab hbc => by simp only [decide_eq_true_eq] at *; omega)
    (fun a b => by simp only [Bool.or_eq_true, decide_eq_true_eq]; omega) ns
  have hne : (ns.mergeSort fun a b => a.number ≤ b.number).Pairwise fun a b => a.number ≠ b.number :=
    List.pairwise_map.mp (((List.mergeSort_perm _ _).map _).nodup_iff.mpr h)
  exact (hle.and hne).imp fun hab => lt_of_le_of_ne (by simpa using hab.1) hab.2

section
variable {g : LogGraph} {dir : Direction} {lim : Limits} {ex : Event → Bool} {o : Event}

/-- The edge that reached an item leads to it. -/
theorem Reached.Traces.far_last {r : Reached} (h : r.Traces (g.Step dir lim) ex o) :
    dir.far r.last = r.event.number := by
  obtain ⟨-, ds, hr, hne, -, -, -, -, hlast⟩ := h
  generalize r.event = v at hr
  cases hr with
  | nil => exact absurd rfl hne
  | snoc _ _ hstep =>
    rw [List.getLast?_concat] at hlast
    rw [← Option.some.inj hlast, hstep.number]

end

/-! ## Collections -/

/-- What a collection from `o` over a log graph answers: its origin and
direction; nodes in strictly increasing order of number, none the origin's,
each the event of a route of allowed steps whose length is its depth and
whose kinds combine to its kind; one dependency leading to each node, an
allowed step into it from the origin or from a node one step nearer, so the
dependencies form a tree rooted at the origin; the count and depth limits;
and, when no limit cut the walk, every event a route reaches. -/
structure Collection.Answers (g : LogGraph) (o : Event) (dir : Direction) (lim : Limits) (col : Collection) :
    Prop where
  origin : col.origin = o.number
  direction : col.direction = dir
  sorted : col.nodes.Pairwise fun a b => a.number < b.number
  not_origin : ∀ n ∈ col.nodes, n.number ≠ o.number
  reached : ∀ n ∈ col.nodes, ∃ v ds, g.find n.number = some v ∧ Route (g.Step dir lim) (fun _ => true) o v ds ∧
    n.depth = ds.length ∧ n.kind = pathKind ds
  edges : (col.deps.map dir.far).Perm (col.nodes.map (·.number))
  tree : ∀ d ∈ col.deps, ∃ n ∈ col.nodes, dir.far d = n.number ∧ ∃ v, g.find n.number = some v ∧
    ((n.depth = 1 ∧ g.Step dir lim o d v) ∨
      ∃ m ∈ col.nodes, m.depth + 1 = n.depth ∧ ∃ u, g.find m.number = some u ∧ g.Step dir lim u d v)
  counted : lim.maxCount > 0 → (col.nodes.length : Int) ≤ lim.maxCount
  deep : lim.maxDepth > 0 → ∀ n ∈ col.nodes, (n.depth : Int) ≤ lim.maxDepth
  complete : col.incomplete = false → ∀ v ds, Route (g.Step dir lim) (fun _ => true) o v ds →
    v.number ≠ o.number → ∃ n ∈ col.nodes, n.number = v.number

section
variable {g : LogGraph} {dir : Direction} {lim : Limits} {o : Event}

/-- What a walk that expands every item has found is what its collection
answers. -/
theorem Walk.Found.answers {w : Walk} (hw : w.Found g dir lim (fun _ => true) o) :
    (w.collection o dir).Answers g o dir lim := by
  have hdist := List.nodup_cons.mp hw.distinct
  have hnum : (w.log.toList.map (·.1.node)).map (·.number) = w.log.toList.map (·.1.event.number) := by
    simp [Reached.node]
  -- the edge that reached each item leads to it, so the edges have distinct keys and are all kept
  have hfar : (w.log.toList.map (·.1.last)).map dir.far = w.log.toList.map (·.1.event.number) := by
    rw [List.map_map]
    exact List.map_congr_left fun p hp => (hw.traced p hp).1.far_last
  have hkeys := @nodup_keys_of_far dir (w.log.toList.map (·.1.last)) (by rw [hfar]; exact hdist.2)
  have hdeps : (DepCollector.empty.addAll (w.log.toList.map (·.1.last))).deps.toList = w.log.toList.map (·.1.last) :=
    DepCollector.addAll_of_nodup _ _ (by simpa [DepCollector.empty] using hkeys)
  have hnode : ∀ n, n ∈ (w.collection o dir).nodes ↔ ∃ p ∈ w.log.toList, p.1.node = n := by
    simp [Walk.collection, List.mem_mergeSort]
  have hdep : (w.collection o dir).deps.Perm (w.log.toList.map (·.1.last)) := by
    simp only [Walk.collection, DepCollector.sorted, Dependency.sort]
    exact (List.mergeSort_perm _ _).trans (List.Perm.of_eq hdeps)
  refine ⟨rfl, rfl, pairwise_lt_mergeSort (hnum ▸ hdist.2), ?_, ?_, ?_, ?_, ?_, ?_, ?_⟩
  · -- no item has the origin's number
    intro n hn
    obtain ⟨p, hp, rfl⟩ := (hnode n).mp hn
    exact fun h => hdist.1 (List.mem_map.mpr ⟨p, hp, h⟩)
  · intro n hn
    obtain ⟨p, hp, rfl⟩ := (hnode n).mp hn
    obtain ⟨⟨-, ds, hr, -, hd, -, hk, -⟩, hfind⟩ := hw.traced p hp
    exact ⟨p.1.event, ds, hfind, hr, hd, hk⟩
  · have hn : (w.collection o dir).nodes.Perm (w.log.toList.map (·.1.node)) := List.mergeSort_perm _ _
    refine (hdep.map _).trans ?_
    rw [hfar, ← hnum]
    exact (hn.map _).symm
  · -- each edge is the last step of the route to its item, from the origin or from its parent
    intro d hd
    obtain ⟨p, hp, rfl⟩ := List.mem_map.mp (hdep.subset hd)
    refine ⟨p.1.node, (hnode _).mpr ⟨p, hp, rfl⟩, (hw.traced p hp).1.far_last, p.1.event, (hw.traced p hp).2, ?_⟩
    rcases hw.parent p hp with h | ⟨q, hq, -, hdepth, hstep⟩
    · exact .inl h
    · exact .inr ⟨q.1.node, (hnode _).mpr ⟨q, hq, rfl⟩, hdepth, q.1.event, (hw.traced q hq).2, hstep⟩
  · intro hpos
    have hlen : (w.collection o dir).nodes.length = w.log.size := by
      simp [Walk.collection, List.length_mergeSort]
    rw [hlen]
    exact hw.counted hpos
  · intro hpos n hn
    obtain ⟨p, hp, rfl⟩ := (hnode n).mp hn
    exact hw.deep hpos p hp
  · intro hinc v ds hr hv
    have hnone : w.limit = none := by simpa [Walk.collection, Collection.incomplete] using hinc
    obtain ⟨p, hp, hpv⟩ := hw.complete hnone v ds hr hv
    exact ⟨p.1.node, (hnode _).mpr ⟨p, hp, rfl⟩, by rw [← hpv]; rfl⟩

/-- What `collect` answers over a log graph, from the event with its
number. -/
theorem collect_graph_answers {size : Nat} (hsize : g.events.length ≤ size) (ho : g.find o.number = some o)
    (clock : Clock) : Ensures (collect g.view size o dir lim clock false) (Collection.Answers g o dir lim) := by
  rw [collect_eq]
  exact (@walk_found g dir lim (fun _ => true) o _ (fun _ => ensures_pure rfl) _ hsize ho clock).bind fun _ hw =>
    ensures_pure hw.answers

end

/-- Collecting from an event of a log succeeds, and the collection is sound,
complete when not cut short, and within its limits. -/
theorem collect_answers (l : EventLog) {origin : Event} (ho : l.index.find? origin.number = some origin)
    (dir : Direction) (lim : Limits) (clock : Clock) :
    ∃ col, (collect l.walkView l.length origin dir lim clock false).run' () = .ok col ∧
      col.Answers l.graph origin dir lim := by
  rw [l.walkView_eq_view]
  exact (collect_graph_answers (le_of_eq l.length_graph_events) ho clock).run'

theorem collect_answers_crossLog :
    FilteredLog.crossLog.index.find? FilteredLog.crossLog.index.events[0]!.number =
        some FilteredLog.crossLog.index.events[0]! ∧
      ∃ col, (collect FilteredLog.crossLog.walkView FilteredLog.crossLog.length FilteredLog.crossLog.index.events[0]!
          .consequences ⟨2, 2, 0, true, true⟩ ⟨0, 0⟩ false).run' () = .ok col ∧
        col.Answers FilteredLog.crossLog.graph FilteredLog.crossLog.index.events[0]! .consequences
          ⟨2, 2, 0, true, true⟩ := by
  have ho := EventLog.find?_of_mem (EventLog.inv_openFile FilteredLog.openFile_crossStore)
    (EventLog.getElem!_mem (l := FilteredLog.crossLog) (k := 0) (by rw [FilteredLog.size_crossLog]; decide))
  exact ⟨ho, collect_answers FilteredLog.crossLog ho .consequences _ _⟩

/-! ## Depth limits -/

/-- Under a depth limit, every event a collection returns is reached along
allowed edges by a path of at most that many edges, as many as its depth;
when no limit cut the walk, it returns every event the allowed edges reach. -/
theorem collect_within_depth (l : EventLog) {origin : Event} (ho : l.index.find? origin.number = some origin)
    (dir : Direction) (lim : Limits) (hD : lim.maxDepth > 0) (clock : Clock) :
    ∃ col, (collect l.walkView l.length origin dir lim clock false).run' () = .ok col ∧
      (∀ n ∈ col.nodes, n.number ≠ origin.number ∧ ∃ v ds, l.index.find? n.number = some v ∧
        Route (l.graph.Step dir lim) (fun _ => true) origin v ds ∧ n.depth = ds.length ∧
        (ds.length : Int) ≤ lim.maxDepth) ∧
      (col.incomplete = false → ∀ v ds, Route (l.graph.Step dir lim) (fun _ => true) origin v ds →
        v.number ≠ origin.number → ∃ n ∈ col.nodes, n.number = v.number) := by
  rw [l.walkView_eq_view]
  obtain ⟨col, hrun, hcol⟩ := (collect_graph_answers (le_of_eq l.length_graph_events) ho clock).run'
  refine ⟨col, hrun, fun n hn => ⟨hcol.not_origin n hn, ?_⟩, hcol.complete⟩
  obtain ⟨v, ds, hfind, hr, hd, -⟩ := hcol.reached n hn
  exact ⟨v, ds, hfind, hr, hd, hd ▸ hcol.deep hD n hn⟩

theorem collect_within_depth_crossLog :
    FilteredLog.crossLog.index.find? FilteredLog.crossLog.index.events[0]!.number =
        some FilteredLog.crossLog.index.events[0]! ∧ (⟨1, 0, 0, true, false⟩ : Limits).maxDepth > 0 ∧
      ∃ col, (collect FilteredLog.crossLog.walkView FilteredLog.crossLog.length FilteredLog.crossLog.index.events[0]!
          .consequences ⟨1, 0, 0, true, false⟩ ⟨0, 0⟩ false).run' () = .ok col ∧
        (∀ n ∈ col.nodes, n.number ≠ FilteredLog.crossLog.index.events[0]!.number ∧ ∃ v ds,
          FilteredLog.crossLog.index.find? n.number = some v ∧
          Route (FilteredLog.crossLog.graph.Step .consequences ⟨1, 0, 0, true, false⟩) (fun _ => true)
            FilteredLog.crossLog.index.events[0]! v ds ∧ n.depth = ds.length ∧ (ds.length : Int) ≤ 1) ∧
        (col.incomplete = false → ∀ v ds, Route (FilteredLog.crossLog.graph.Step .consequences ⟨1, 0, 0, true, false⟩)
          (fun _ => true) FilteredLog.crossLog.index.events[0]! v ds →
          v.number ≠ FilteredLog.crossLog.index.events[0]!.number → ∃ n ∈ col.nodes, n.number = v.number) := by
  have ho := EventLog.find?_of_mem (EventLog.inv_openFile FilteredLog.openFile_crossStore)
    (EventLog.getElem!_mem (l := FilteredLog.crossLog) (k := 0) (by rw [FilteredLog.size_crossLog]; decide))
  exact ⟨ho, by decide, collect_within_depth FilteredLog.crossLog ho .consequences ⟨1, 0, 0, true, false⟩ (by decide) _⟩

/-- A log where event 5 is caused by event 4, at the end of the sends
1 → 3 → 4 → 5, and reuses a message of event 2, which reuses one of event 1,
itself caused by event 0. -/
def depthStore : Store :=
  ⟨[("log", 0)], #[("E # 0 t 0 m 1\nE # 1 t 0 m 1 ce 0 msg 5\nE # 2 t 0 m 1\nBS id 6 c M n a pe 1\n" ++
    "E # 3 t 0 m 1 ce 1 msg 7\nE # 4 t 0 m 1 ce 3 msg 8\nE # 5 t 0 m 1 ce 4 msg 9\nBS id 10 c M n b pe 2\n").toUTF8]⟩

/-- The log opened on `depthStore`. -/
def depthLog : EventLog :=
  match (EventLog.openFile depthStore 0 "log" ⟨0, 0, false⟩ false).2 with
  | .ok l => l
  | .error _ => default

/-- What the kernel reads off `depthStore`, evaluated once: the file opens
into six events, the first three numbered by position, with the causes the
routes below follow; and the walk to the causes of event 5 with a depth
limit of 3 visits events 4, 3, 2 and 1, in that order. -/
theorem depthLog_read :
    (EventLog.openFile depthStore 0 "log" ⟨0, 0, false⟩ false).2.toBool = true ∧
      depthLog.index.events.size = 6 ∧
      depthLog.index.events[0]!.number = 0 ∧ depthLog.index.events[1]!.number = 1 ∧
      depthLog.index.events[2]!.number = 2 ∧
      depthLog.index.events[1]!.causes = [⟨0, 1, .send, 5, 5, 1⟩] ∧
      depthLog.index.events[2]!.causes = [⟨1, 2, .reuse, 6, 6, 1⟩] ∧
      depthLog.index.events[5]!.causes = [⟨4, 5, .send, 9, 9, 1⟩, ⟨2, 5, .reuse, 10, 10, 1⟩] ∧
      ((walk depthLog.graph.view depthLog.length depthLog.index.events[5]! .causes ⟨3, 0, 0, true, false⟩ ⟨0, 0⟩ false
        fun _ => pure true).run ()).toOption.map (·.1.log.toList.map (·.1.node)) =
        some [⟨4, 1, .send⟩, ⟨3, 2, .send⟩, ⟨2, 1, .reuse⟩, ⟨1, 3, .send⟩] := by
  decide +kernel

theorem openFile_depthStore : (EventLog.openFile depthStore 0 "log" ⟨0, 0, false⟩ false).2 = .ok depthLog := by
  have hb := depthLog_read.1
  unfold depthLog
  revert hb
  cases (EventLog.openFile depthStore 0 "log" ⟨0, 0, false⟩ false).2 <;> simp [Except.toBool]

/-- An edge of an ordered log to its event at position `k`, which is no
send of a self message left out and is followed if it is a reuse, is a step
a walk may take. -/
theorem EventLog.step_of_edge {l : EventLog} (hl : l.Inv) {dir : Direction} {lim : Limits} {u : Event}
    {d : Dependency} {k : Nat} (hk : k < l.index.events.size) (hd : d ∈ l.graph.view.edges dir u)
    (hfar : dir.far d = l.index.events[k]!.number) (hr : d.kind = .reuse → lim.includeReuses = true)
    (hs : lim.excludeSelfMessages = false) : l.graph.Step dir lim u d l.index.events[k]! where
  mem := hd
  find := by
    rw [hfar]
    exact EventLog.find?_of_mem hl (EventLog.getElem!_mem hk)
  reuse := hr
  self := fun _ h => absurd h (by simp [hs])

theorem inv_depthLog : depthLog.Inv := EventLog.inv_openFile openFile_depthStore

theorem lt_size_depthLog {k : Nat} (hk : k < 6) : k < depthLog.index.events.size := by
  rw [depthLog_read.2.1]
  exact hk

/-- Two reuses lead from event 5 back to event 1. -/
theorem route_depthLog_one :
    Route (depthLog.graph.Step .causes ⟨3, 0, 0, true, false⟩) (fun _ => true) depthLog.index.events[5]!
      depthLog.index.events[1]! ([] ++ [⟨2, 5, .reuse, 10, 10, 1⟩] ++ [⟨1, 2, .reuse, 6, 6, 1⟩]) := by
  obtain ⟨-, -, -, h1, h2, -, h2c, h5c, -⟩ := depthLog_read
  have s52 : depthLog.graph.Step .causes ⟨3, 0, 0, true, false⟩ depthLog.index.events[5]! ⟨2, 5, .reuse, 10, 10, 1⟩
      depthLog.index.events[2]! := by
    refine EventLog.step_of_edge inv_depthLog (lt_size_depthLog (k := 2) (by decide)) ?_ (by rw [h2]; rfl)
      (fun _ => rfl) rfl
    simp [LogGraph.view, WalkView.edges, h5c]
  have s21 : depthLog.graph.Step .causes ⟨3, 0, 0, true, false⟩ depthLog.index.events[2]! ⟨1, 2, .reuse, 6, 6, 1⟩
      depthLog.index.events[1]! := by
    refine EventLog.step_of_edge inv_depthLog (lt_size_depthLog (k := 1) (by decide)) ?_ (by rw [h1]; rfl)
      (fun _ => rfl) rfl
    simp [LogGraph.view, WalkView.edges, h2c]
  exact (Route.nil.snoc (fun h => absurd rfl h) s52).snoc (fun _ => rfl) s21

/-- A send leads from event 1 back to event 0. -/
theorem step_depthLog_zero :
    depthLog.graph.Step .causes ⟨3, 0, 0, true, false⟩ depthLog.index.events[1]! ⟨0, 1, .send, 5, 5, 1⟩
      depthLog.index.events[0]! := by
  obtain ⟨-, -, h0, -, -, h1c, -, -, -⟩ := depthLog_read
  refine EventLog.step_of_edge inv_depthLog (lt_size_depthLog (k := 0) (by decide)) ?_ (by rw [h0]; rfl)
    (fun h => by cases h) rfl
  simp [LogGraph.view, WalkView.edges, h1c]

/-- A list of nodes with distinct numbers, sorted by number, is the one in
strictly increasing order that holds the same nodes. -/
theorem mergeSort_eq_of_pairwise_lt {ns ms : List Node} (h : (ns.map (·.number)).Nodup) (hp : ms.Perm ns)
    (hs : ms.Pairwise fun a b => a.number < b.number) : (ns.mergeSort fun a b => a.number ≤ b.number) = ms :=
  List.Perm.eq_of_pairwise (fun _ _ _ _ h₁ h₂ => absurd (h₁.trans h₂) (lt_irrefl _)) (pairwise_lt_mergeSort h) hs
    ((List.mergeSort_perm _ _).trans hp.symm)

/-- Walking to the causes of event 5 with a depth limit of 3, the walk
reaches event 1 first along the sends 5 ← 4 ← 3 ← 1, at depth 3, and stops
there: event 0, three edges away along the reuses 5 ← 2 ← 1 and the send
1 ← 0, is left out, and event 1 has depth 3 though two edges lead to it. -/
theorem collect_misses_event_within_depth :
    Route (depthLog.graph.Step .causes ⟨3, 0, 0, true, false⟩) (fun _ => true) depthLog.index.events[5]!
        depthLog.index.events[1]! [⟨2, 5, .reuse, 10, 10, 1⟩, ⟨1, 2, .reuse, 6, 6, 1⟩] ∧
      Route (depthLog.graph.Step .causes ⟨3, 0, 0, true, false⟩) (fun _ => true) depthLog.index.events[5]!
        depthLog.index.events[0]! [⟨2, 5, .reuse, 10, 10, 1⟩, ⟨1, 2, .reuse, 6, 6, 1⟩, ⟨0, 1, .send, 5, 5, 1⟩] ∧
      depthLog.index.events[0]!.number = 0 ∧
      ((collect depthLog.walkView depthLog.length depthLog.index.events[5]! .causes ⟨3, 0, 0, true, false⟩ ⟨0, 0⟩
        false).run' ()).toOption.map (·.nodes) = some [⟨1, 3, .send⟩, ⟨2, 1, .reuse⟩, ⟨3, 2, .send⟩, ⟨4, 1, .send⟩] := by
  have ho := EventLog.find?_of_mem inv_depthLog (EventLog.getElem!_mem (lt_size_depthLog (k := 5) (by decide)))
  obtain ⟨w, hw, -⟩ := @walk_found depthLog.graph .causes ⟨3, 0, 0, true, false⟩ (fun _ => true)
    depthLog.index.events[5]! (fun _ => pure true) (fun _ => ensures_pure rfl) _
    (le_of_eq depthLog.length_graph_events) (by rw [EventLog.graph_find]; exact ho) ⟨0, 0⟩
  have hlog : w.log.toList.map (·.1.node) = [⟨4, 1, .send⟩, ⟨3, 2, .send⟩, ⟨2, 1, .reuse⟩, ⟨1, 3, .send⟩] := by
    have h := depthLog_read.2.2.2.2.2.2.2.2
    rw [hw] at h
    exact Option.some.inj h
  have hcol : (collect depthLog.graph.view depthLog.length depthLog.index.events[5]! .causes ⟨3, 0, 0, true, false⟩
      ⟨0, 0⟩ false).run' () = .ok (w.collection depthLog.index.events[5]! .causes) := by
    rw [collect_eq, StateT.run'_eq, StateT.run_bind, hw]
    rfl
  refine ⟨route_depthLog_one, route_depthLog_one.snoc (fun _ => rfl) step_depthLog_zero, depthLog_read.2.2.1, ?_⟩
  -- the sort of what the walk visited is done apart from the kernel
  rw [EventLog.walkView_eq_view, hcol]
  show some ((w.log.toList.map (·.1.node)).mergeSort fun a b => a.number ≤ b.number) = _
  rw [hlog, @mergeSort_eq_of_pairwise_lt _ [⟨1, 3, .send⟩, ⟨2, 1, .reuse⟩, ⟨3, 2, .send⟩, ⟨4, 1, .send⟩]
    (by decide) (by decide) (by decide)]

/-! ## Walks with no limit -/

section
variable {g : LogGraph} {dir : Direction} {lim : Limits}

theorem Ensures.and {α : Type} {m : StateT Unit (Except Fault) α} {P Q : α → Prop} (hp : Ensures m P)
    (hq : Ensures m Q) : Ensures m fun a => P a ∧ Q a := by
  obtain ⟨a, ha, hPa⟩ := hp
  obtain ⟨b, hb, hQb⟩ := hq
  rw [ha] at hb
  cases hb
  exact ⟨a, ha, hPa, hQb⟩

/-- With no depth limit, following edges never cuts a walk, nor sets its
deadline. -/
theorem pushEdges_keeps_limit (hd : lim.maxDepth = 0) (it : Reached) :
    ∀ (ds : List Dependency) (w : Walk),
      Ensures (pushEdges g.view dir lim it ds w) fun w' => w'.limit = w.limit ∧ w'.deadline = w.deadline := by
  intro ds
  induction ds with
  | nil => intro w; exact ensures_pure ⟨rfl, rfl⟩
  | cons d ds ih =>
    intro w
    rw [pushEdges_cons]
    split_ifs with hre hseen hdeep
    · exact ih w
    · exact ih w
    · omega
    · refine (ensures_pure (P := (· = g.find (dir.far d))) rfl).bind fun r hr => ?_
      subst hr
      cases g.find (dir.far d) with
      | none => exact ih w
      | some e =>
        simp only [pushFound]
        split_ifs
        · exact ih w
        · exact ih _

/-- With no depth or count limit and no deadline, a walk is never cut. -/
theorem walkLoop_keeps_limit {visit : Reached → StateT Unit (Except Fault) Bool}
    (hvisit : ∀ it, Ensures (visit it) fun _ => True) (hd : lim.maxDepth = 0) (hc : lim.maxCount = 0) :
    ∀ (fuel : Nat) (w : Walk), w.deadline = none →
      Ensures (walkLoop g.view dir lim false visit fuel w) fun w' => w'.limit = w.limit := by
  intro fuel
  induction fuel with
  | zero => intro w _; exact ensures_pure rfl
  | succ fuel ih =>
    intro w hdl
    unfold walkLoop
    split
    · exact ensures_pure rfl
    · rename_i it rest _
      rw [if_neg (by simp)]
      simp only [hdl]
      rw [if_neg (by simp)]
      split
      · -- the origin: follow its edges, then go on
        exact (pushEdges_keeps_limit hd it _ _).bind fun w₂ h₂ => (ih w₂ h₂.2).mono fun _ h => h.trans h₂.1
      · rw [if_neg (by simp [hc])]
        refine (hvisit it).bind fun b _ => ?_
        split
        · exact (pushEdges_keeps_limit hd it _ _).bind fun w₂ h₂ => (ih w₂ h₂.2).mono fun _ h => h.trans h₂.1
        · exact ih _ rfl

/-- With no depth, count or time limit, a walk is never cut. -/
theorem walk_uncut {visit : Reached → StateT Unit (Except Fault) Bool} (hvisit : ∀ it, Ensures (visit it) fun _ => True)
    (hd : lim.maxDepth = 0) (hc : lim.maxCount = 0) (ht : lim.maxDuration = 0) (size : Nat) (o : Event)
    (clock : Clock) : Ensures (walk g.view size o dir lim clock false visit) (·.limit = none) := by
  unfold walk
  rw [if_neg (by omega)]
  exact walkLoop_keeps_limit hvisit hd hc _ _ rfl

end

/-! ## The nearest accepted events -/

/-- The edge a search for the nearest events reports for an item it did not
expand: between the item's event and the origin `o`, with the message that
leaves the path's cause-side end and the one that arrives at its
consequence-side end. -/
def Reached.aggregate (it : Reached) (dir : Direction) (o : Event) : Dependency :=
  match dir with
  | .causes => ⟨it.event.number, o.number, it.kind, it.last.messageId, it.first.endMessageId, it.length⟩
  | .consequences => ⟨o.number, it.event.number, it.kind, it.first.messageId, it.last.endMessageId, it.length⟩

/-- What a search from `o` for the nearest events reports after the walk
`w`: the edge of each item it did not expand, in listing order, and whether
a limit cut the walk. -/
def Walk.nearestDeps (w : Walk) (o : Event) (dir : Direction) : DepSet :=
  ⟨(DepCollector.empty.addAll (w.log.toList.filterMap fun p => if p.2 then none else some (p.1.aggregate dir o))).sorted,
    w.limit.isSome⟩

theorem nearest_eq {σ : Type} (view : WalkView σ) (size : Nat) (o : Event) (dir : Direction) (lim : Limits)
    (clock : Clock) (canceled : Bool) (accept : Event → StateT σ (Except Fault) Bool) :
    nearest view size o dir lim clock canceled accept =
      (walk view size o dir lim clock canceled fun it => do return !(← accept it.event)) >>= fun w =>
        pure (w.nearestDeps o dir) :=
  rfl

/-- The edge that aggregates the path `ds` between the origin numbered `o`
and the event numbered `x`: from `x` to `o` towards the causes and from `o`
to `x` towards the consequences; its kind combines the path's kinds, its
length counts its edges, its message leaves the path's cause-side end and
its end message arrives at the consequence-side end. -/
def Direction.aggregate (dir : Direction) (o x : Int) (ds : List Dependency) : Dependency :=
  match dir with
  | .causes => ⟨x, o, pathKind ds, ds.getLast!.messageId, ds.head!.endMessageId, ds.length⟩
  | .consequences => ⟨o, x, pathKind ds, ds.head!.messageId, ds.getLast!.endMessageId, ds.length⟩

theorem Reached.far_aggregate (it : Reached) (dir : Direction) (o : Event) :
    dir.far (it.aggregate dir o) = it.event.number := by
  cases dir <;> rfl

section
variable {S : Event → Dependency → Event → Prop} {ex : Event → Bool} {o : Event}

/-- The edge reported for an item aggregates the route it traces. -/
theorem Reached.Traces.aggregate {r : Reached} (h : r.Traces S ex o) (dir : Direction) :
    ∃ ds, Route S ex o r.event ds ∧ r.aggregate dir o = dir.aggregate o.number r.event.number ds := by
  obtain ⟨-, ds, hr, -, -, hlen, hk, hf, hl⟩ := h
  refine ⟨ds, hr, ?_⟩
  cases dir <;>
    simp [Reached.aggregate, Direction.aggregate, hk, hlen, List.head!_of_head? hf, hl]

end

/-- What a search from `o` for the nearest events that `acc` takes answers
over a log graph: each edge it reports aggregates a route of allowed steps
from the origin to an accepted event through rejected ones; the edges lead to
distinct events; and unless a limit cut the walk, it reports an edge to
every accepted event such a route reaches. -/
structure DepSet.NearestFrom (g : LogGraph) (o : Event) (dir : Direction) (lim : Limits) (acc : Event → Bool)
    (r : DepSet) : Prop where
  sound : ∀ d ∈ r.deps, ∃ x ds, acc x = true ∧ x.number ≠ o.number ∧ g.find x.number = some x ∧
    Route (g.Step dir lim) (fun e => !acc e) o x ds ∧ d = dir.aggregate o.number x.number ds
  distinct : (r.deps.map dir.far).Nodup
  complete : r.incomplete = false → ∀ x ds, acc x = true → x.number ≠ o.number →
    Route (g.Step dir lim) (fun e => !acc e) o x ds → ∃ d ∈ r.deps, dir.far d = x.number

/-- The values `f` keeps of a list, where it keeps `g`'s or nothing, are
a sublist of `g`'s. -/
theorem filterMap_sublist_map {α β : Type} {f : α → Option β} {g : α → β} (h : ∀ a b, f a = some b → b = g a) :
    ∀ l : List α, (l.filterMap f).Sublist (l.map g)
  | [] => List.Sublist.slnil
  | a :: l => by
    cases hfa : f a with
    | none =>
      simp only [List.filterMap_cons, hfa, List.map_cons]
      exact (filterMap_sublist_map h l).cons _
    | some b =>
      simp only [List.filterMap_cons, hfa, List.map_cons, h a b hfa]
      exact (filterMap_sublist_map h l).cons_cons _

section
variable {g : LogGraph} {dir : Direction} {lim : Limits} {o : Event}

/-- What a walk that expands the events `acc` rejects has found is what the
search for the nearest accepted events answers. -/
theorem Walk.Found.nearest {w : Walk} {acc : Event → Bool} (hw : w.Found g dir lim (fun e => !acc e) o) :
    (w.nearestDeps o dir).NearestFrom g o dir lim acc := by
  have hdist := List.nodup_cons.mp hw.distinct
  -- the items not expanded are those with an accepted event
  have hmem : ∀ d, d ∈ w.log.toList.filterMap (fun p => if p.2 then none else some (p.1.aggregate dir o)) ↔
      ∃ p ∈ w.log.toList, p.2 = false ∧ p.1.aggregate dir o = d := by
    intro d
    simp only [List.mem_filterMap]
    constructor
    · rintro ⟨p, hp, h⟩
      cases hp2 : p.2 <;> simp [hp2] at h
      exact ⟨p, hp, hp2, h⟩
    · rintro ⟨p, hp, hp2, rfl⟩
      exact ⟨p, hp, by simp [hp2]⟩
  -- their edges lead to distinct events, so they have distinct keys and are all kept
  have hfar : ((w.log.toList.filterMap fun p => if p.2 then none else some (p.1.aggregate dir o)).map dir.far).Nodup := by
    rw [List.map_filterMap]
    refine (filterMap_sublist_map (g := fun p : Reached × Bool => p.1.event.number) (fun p b hb => ?_) _).nodup hdist.2
    cases hp2 : p.2 <;> simp [hp2, Reached.far_aggregate] at hb
    exact hb.symm
  have hperm : (w.nearestDeps o dir).deps.Perm
      (w.log.toList.filterMap fun p => if p.2 then none else some (p.1.aggregate dir o)) := by
    simp only [Walk.nearestDeps, DepCollector.sorted, Dependency.sort]
    refine (List.mergeSort_perm _ _).trans (List.Perm.of_eq ?_)
    exact DepCollector.addAll_of_nodup _ _ (by simpa [DepCollector.empty] using nodup_keys_of_far hfar)
  refine ⟨?_, (hperm.map _).nodup_iff.mpr hfar, ?_⟩
  · intro d hd
    obtain ⟨p, hp, hp2, rfl⟩ := (hmem d).mp (hperm.subset hd)
    have hacc : acc p.1.event = true := by simpa [hp2] using hw.flags p hp
    obtain ⟨htr, hfind⟩ := hw.traced p hp
    obtain ⟨ds, hr, heq⟩ := htr.aggregate dir
    exact ⟨p.1.event, ds, hacc, fun h => hdist.1 (List.mem_map.mpr ⟨p, hp, h⟩), hfind, hr, heq⟩
  · intro hinc x ds hacc hx hr
    have hnone : w.limit = none := by simpa [Walk.nearestDeps] using hinc
    obtain ⟨p, hp, rfl⟩ := hw.complete hnone x ds hr hx
    have hp2 : p.2 = false := by rw [hw.flags p hp, hacc]; rfl
    exact ⟨p.1.aggregate dir o, hperm.symm.subset ((hmem _).mpr ⟨p, hp, hp2, rfl⟩), Reached.far_aggregate _ _ _⟩

/-- What the search for the nearest events answers over a log graph, from
the event with its number. -/
theorem nearest_graph_answers {size : Nat} (hsize : g.events.length ≤ size) (ho : g.find o.number = some o)
    (acc : Event → Bool) (clock : Clock) :
    Ensures (nearest g.view size o dir lim clock false fun e => pure (acc e)) (DepSet.NearestFrom g o dir lim acc) := by
  rw [nearest_eq]
  exact (@walk_found g dir lim (fun e => !acc e) o _ (fun it => ⟨!acc it.event, rfl, rfl⟩) _ hsize ho clock).bind
    fun _ hw =>
    ensures_pure hw.nearest

/-- With no depth, count or time limit, the search for the nearest events is
never cut short. -/
theorem nearest_graph_uncut (hd : lim.maxDepth = 0) (hc : lim.maxCount = 0) (ht : lim.maxDuration = 0)
    (size : Nat) (acc : Event → Bool) (clock : Clock) :
    Ensures (nearest g.view size o dir lim clock false fun e => pure (acc e)) (·.incomplete = false) := by
  rw [nearest_eq]
  exact (walk_uncut (fun it => ⟨!acc it.event, rfl, trivial⟩) hd hc ht size o clock).bind fun w hw =>
    ensures_pure (by simp [Walk.nearestDeps, hw])

end

/-- With no limit, the search from an event of a log for the nearest events
that `acc` accepts succeeds, is not cut short, and reports one aggregated
edge for each accepted event that a route through rejected events reaches,
and no other. -/
theorem nearest_finds_accepted (l : EventLog) {origin : Event} (ho : l.index.find? origin.number = some origin)
    (dir : Direction) (lim : Limits) (hd : lim.maxDepth = 0) (hc : lim.maxCount = 0) (ht : lim.maxDuration = 0)
    (acc : Event → Bool) (clock : Clock) :
    ∃ r, (nearest l.walkView l.length origin dir lim clock false fun e => pure (acc e)).run' () = .ok r ∧
      r.incomplete = false ∧ r.NearestFrom l.graph origin dir lim acc := by
  rw [l.walkView_eq_view]
  exact ((nearest_graph_uncut hd hc ht _ acc clock).and
    (nearest_graph_answers (le_of_eq l.length_graph_events) ho acc clock)).run'

theorem nearest_finds_accepted_crossLog :
    FilteredLog.crossLog.index.find? FilteredLog.crossLog.index.events[0]!.number =
        some FilteredLog.crossLog.index.events[0]! ∧
      (⟨0, 0, 0, true, false⟩ : Limits).maxDepth = 0 ∧ (⟨0, 0, 0, true, false⟩ : Limits).maxCount = 0 ∧
      (⟨0, 0, 0, true, false⟩ : Limits).maxDuration = 0 ∧
      ∃ r, (nearest FilteredLog.crossLog.walkView FilteredLog.crossLog.length FilteredLog.crossLog.index.events[0]!
          .consequences ⟨0, 0, 0, true, false⟩ ⟨0, 0⟩ false fun e => pure (e.number == 3)).run' () = .ok r ∧
        r.incomplete = false ∧
        r.NearestFrom FilteredLog.crossLog.graph FilteredLog.crossLog.index.events[0]! .consequences
          ⟨0, 0, 0, true, false⟩ fun e => e.number == 3 := by
  have ho := EventLog.find?_of_mem (EventLog.inv_openFile FilteredLog.openFile_crossStore)
    (EventLog.getElem!_mem (l := FilteredLog.crossLog) (k := 0) (by rw [FilteredLog.size_crossLog]; decide))
  exact ⟨ho, rfl, rfl, rfl, nearest_finds_accepted FilteredLog.crossLog ho .consequences ⟨0, 0, 0, true, false⟩ rfl rfl rfl
    _ _⟩

end EventChart
