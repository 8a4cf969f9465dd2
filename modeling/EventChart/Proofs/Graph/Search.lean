import EventChart.Proofs.Graph.Walk
/-!
# What a walk over the dependencies finds

A walk from an origin event visits the events it reaches nearest first,
marks each event as seen when it first reaches it, and follows the edges of
the events its visitor asks it to expand.  This file states what such a walk
finds over a log that keeps no state, however it ends.

A log as a walk sees it is a `LogGraph`: its events, the event with each
number, and the edges that leave each event towards its consequences.
`LogGraph.Step` is an edge the walk may follow under its limits, and a
`Route` is a sequence of such steps from the origin through events the walk
expands.  Each item the walk holds stands for a route to its event
(`Reached.Traces`): its depth and length count the route's edges, its kind
is theirs combined, and its first and last edges are the route's.

* `Walk.Inv` is the invariant of a walk once its origin is expanded: every
  item traces a route to an event of the log and is seen, the items and the
  origin have distinct numbers, the log records each visit with the
  visitor's answer, the count and depth limits hold, and each item was
  reached from the origin or from an expanded item one step nearer.  While
  no limit has cut the walk, every seen number is the origin's or an item's.
* `Walk.Closed`: while no limit has cut the walk, every step from an
  expanded event leads to a seen number.
* `pushEdges_ensures` is the step lemma: following the edges of an expanded
  item keeps the invariant and, unless a limit cuts it, closes the item.
  `walkLoop_ensures` is the run lemma: a run keeps both and ends cut by a
  limit or with nothing left to visit.  Its fuel suffices because the items
  are distinct events of the log (`Walk.Inv.length_items`).
* `walk_found` says what a whole walk finds (`Walk.Found`): every visited
  event traces a route, and when no limit cut the walk, every event a route
  reaches, the origin apart, was visited (`Walk.Inv.seen_of_route`).
-/

namespace EventChart

/-! ## Computations that succeed -/

/-- A computation that keeps no state and succeeds, with a value of
property `P`. -/
def Ensures {α : Type} (m : StateT Unit (Except Fault) α) (P : α → Prop) : Prop :=
  ∃ a, m.run () = .ok (a, ()) ∧ P a

section
variable {α β : Type} {P P' : α → Prop} {Q : β → Prop}

theorem ensures_pure {a : α} (h : P a) : Ensures (pure a) P := ⟨a, rfl, h⟩

theorem Ensures.bind {m : StateT Unit (Except Fault) α} {k : α → StateT Unit (Except Fault) β}
    (hm : Ensures m P) (hk : ∀ a, P a → Ensures (k a) Q) : Ensures (m >>= k) Q := by
  obtain ⟨a, h1, ha⟩ := hm
  obtain ⟨b, h2, hb⟩ := hk a ha
  exact ⟨b, by rw [StateT.run_bind, h1]; exact h2, hb⟩

theorem Ensures.mono {m : StateT Unit (Except Fault) α} (hm : Ensures m P) (h : ∀ a, P a → P' a) :
    Ensures m P' := by
  obtain ⟨a, h1, ha⟩ := hm
  exact ⟨a, h1, h a ha⟩

theorem Ensures.run' {m : StateT Unit (Except Fault) α} (hm : Ensures m P) : ∃ a, m.run' () = .ok a ∧ P a := by
  obtain ⟨a, h1, ha⟩ := hm
  exact ⟨a, by rw [StateT.run'_eq, h1]; rfl, ha⟩

end

/-! ## The steps of a walk, named -/

namespace Direction

/-- The end of an edge that a walk in this direction moves to. -/
def far (dir : Direction) (d : Dependency) : Int :=
  match dir with
  | .causes => d.cause
  | .consequences => d.consequence

/-- Of the event `u` a step leaves and the event `v` it reaches, the one
that processed the edge's message. -/
def consequenceOf (dir : Direction) (u v : Event) : Event :=
  match dir with
  | .causes => u
  | .consequences => v

end Direction

/-- The edges a walk in direction `dir` follows from `u`. -/
def WalkView.edges {σ : Type} (view : WalkView σ) (dir : Direction) (u : Event) : List Dependency :=
  match dir with
  | .causes => u.causes
  | .consequences => view.consequences u

theorem edgesOf_eq {σ : Type} (view : WalkView σ) (dir : Direction) (it : Reached) :
    walkLoop.edgesOf view dir it = view.edges dir it.event := rfl

/-- The item a walk pushes when it follows `d` from `it` to `e`: one edge
from the origin, or the path to `it` followed by `d`. -/
def Reached.extend (it : Reached) (d : Dependency) (e : Event) : Reached :=
  if it.isOrigin then ⟨e, it.depth + 1, d.kind, d, d, 1, false⟩
  else ⟨e, it.depth + 1, it.kind.combine d.kind, it.first, d, it.length + 1, false⟩

@[simp] theorem Reached.event_extend (it : Reached) (d : Dependency) (e : Event) : (it.extend d e).event = e := by
  unfold extend; split <;> rfl

@[simp] theorem Reached.depth_extend (it : Reached) (d : Dependency) (e : Event) :
    (it.extend d e).depth = it.depth + 1 := by
  unfold extend; split <;> rfl

@[simp] theorem Reached.last_extend (it : Reached) (d : Dependency) (e : Event) : (it.extend d e).last = d := by
  unfold extend; split <;> rfl

/-- What `pushEdges` does with the event found at the far end of `d`:
passes over a missing one or the send of a self message left out, and
otherwise pushes an item for it. -/
def pushFound {σ : Type} (view : WalkView σ) (dir : Direction) (lim : Limits) (it : Reached) (d : Dependency)
    (ds : List Dependency) (w : Walk) : Option Event → StateT σ (Except Fault) Walk
  | none => pushEdges view dir lim it ds w
  | some e =>
    if d.kind = .send ∧ lim.excludeSelfMessages = true ∧
        (dir.consequenceOf it.event e).isSelfMessageProcessing = true then
      pushEdges view dir lim it ds w
    else pushEdges view dir lim it ds { w with seen := dir.far d :: w.seen, frontier := it.extend d e :: w.frontier }

/-- One edge of `pushEdges`, with the walk's choices named. -/
theorem pushEdges_cons {σ : Type} (view : WalkView σ) (dir : Direction) (lim : Limits) (it : Reached)
    (d : Dependency) (ds : List Dependency) (w : Walk) :
    pushEdges view dir lim it (d :: ds) w =
      if d.kind = .reuse ∧ (!lim.includeReuses) = true then pushEdges view dir lim it ds w
      else if w.seen.contains (dir.far d) = true then pushEdges view dir lim it ds w
      else if lim.maxDepth > 0 ∧ (it.depth : Int) ≥ lim.maxDepth then
        pure { w with limit := w.limit <|> some .depth }
      else view.find (dir.far d) >>= pushFound view dir lim it d ds w := by
  rfl

/-- The item a walk starts from. -/
def Reached.start (o : Event) : Reached := ⟨o, 0, .send, default, default, 0, true⟩

theorem pickNearest_eq_none {dir : Direction} {rs : List Reached} : pickNearest dir rs = none ↔ rs = [] := by
  cases rs with
  | nil => simp [pickNearest]
  | cons r rs =>
    simp only [reduceCtorEq, iff_false]
    unfold pickNearest
    split
    · simp
    · dsimp only
      split_ifs <;> simp

/-- The item a walk takes next leaves the others. -/
theorem pickNearest_perm {dir : Direction} :
    ∀ {rs : List Reached} {b : Reached} {rest : List Reached}, pickNearest dir rs = some (b, rest) →
      rs.Perm (b :: rest)
  | [], _, _, h => by simp [pickNearest] at h
  | r :: rs, b, rest, h => by
    unfold pickNearest at h
    split at h
    · rename_i hnone
      cases h
      rw [pickNearest_eq_none.mp hnone]
    · rename_i hrec
      have hp := pickNearest_perm hrec
      dsimp only at h
      split_ifs at h
      · cases h
        exact (hp.cons r).trans (List.Perm.swap _ _ _)
      · cases h
        rfl

theorem pickNearest_singleton (dir : Direction) (r : Reached) : pickNearest dir [r] = some (r, []) := rfl

/-! ## Logs as a walk sees them -/

/-- A log as a walk over its dependencies sees it: its events, the event
with each number, and the edges that leave each event towards its
consequences.  The event found for a number has that number and is one of
the events. -/
structure LogGraph where
  events : List Event
  find : Int → Option Event
  consequences : Event → List Dependency
  number_of_find : ∀ {n : Int} {e : Event}, find n = some e → e.number = n
  mem_of_find : ∀ {n : Int} {e : Event}, find n = some e → e ∈ events

namespace LogGraph

/-- The walk view of a log graph, which keeps no state. -/
def view (g : LogGraph) : WalkView Unit := ⟨fun n => pure (g.find n), g.consequences⟩

/-- An edge a walk in direction `dir` may follow from `u` to `v` under the
limits `lim`: `d` leaves `u` in that direction, its far end is the log's
event `v`, it is a reuse edge only if reuses are followed, and it is not the
send of a self message when those are left out. -/
structure Step (g : LogGraph) (dir : Direction) (lim : Limits) (u : Event) (d : Dependency) (v : Event) :
    Prop where
  mem : d ∈ g.view.edges dir u
  find : g.find (dir.far d) = some v
  reuse : d.kind = .reuse → lim.includeReuses = true
  self : d.kind = .send → lim.excludeSelfMessages = true →
    (dir.consequenceOf u v).isSelfMessageProcessing = false

theorem Step.number {g : LogGraph} {dir : Direction} {lim : Limits} {u v : Event} {d : Dependency}
    (h : g.Step dir lim u d v) : v.number = dir.far d :=
  g.number_of_find h.find

end LogGraph

/-! ## Routes -/

/-- The kind of a path: the kinds of its edges combined, first to last. -/
def pathKind : List Dependency → DepKind
  | [] => .send
  | d :: ds => ds.foldl (fun k e => k.combine e.kind) d.kind

theorem pathKind_concat {ds : List Dependency} (h : ds ≠ []) (d : Dependency) :
    pathKind (ds ++ [d]) = (pathKind ds).combine d.kind := by
  obtain ⟨a, as, rfl⟩ := List.exists_cons_of_ne_nil h
  simp [pathKind, List.foldl_append]

/-- The routes of a walk from `o` over the steps `S`: the edges followed, in
order, where every event passed through after the origin is one the walk
expands (`ex`). -/
inductive Route (S : Event → Dependency → Event → Prop) (ex : Event → Bool) (o : Event) :
    Event → List Dependency → Prop
  | nil : Route S ex o o []
  | snoc {u v : Event} {ds : List Dependency} {d : Dependency} :
      Route S ex o u ds → (ds ≠ [] → ex u = true) → S u d v → Route S ex o v (ds ++ [d])

section
variable {S : Event → Dependency → Event → Prop} {ex : Event → Bool} {o : Event}

theorem Route.eq_of_nil {v : Event} {ds : List Dependency} (h : Route S ex o v ds) (hds : ds = []) : v = o := by
  cases h with
  | nil => rfl
  | snoc _ _ _ => simp at hds

/-- The event a route of steps of a log ends at, past the origin, is the
log's event with its number. -/
theorem Route.find {g : LogGraph} {dir : Direction} {lim : Limits} {v : Event} {ds : List Dependency}
    (h : Route (g.Step dir lim) ex o v ds) (hds : ds ≠ []) : g.find v.number = some v := by
  cases h with
  | nil => exact absurd rfl hds
  | snoc _ _ hstep => rw [hstep.number]; exact hstep.find

end

/-- An item of a walk from `o` stands for a route to its event: its depth
and length count the route's edges, its kind is theirs combined, and its
first and last edges are the route's. -/
def Reached.Traces (S : Event → Dependency → Event → Prop) (ex : Event → Bool) (o : Event) (r : Reached) : Prop :=
  r.isOrigin = false ∧ ∃ ds, Route S ex o r.event ds ∧ ds ≠ [] ∧ r.depth = ds.length ∧ r.length = ds.length ∧
    r.kind = pathKind ds ∧ ds.head? = some r.first ∧ ds.getLast? = some r.last

/-! ## The invariant of a walk -/

/-- The items a walk holds: those still to visit, then those visited. -/
def Walk.items (w : Walk) : List Reached := w.frontier ++ w.log.toList.map Prod.fst

section
variable (g : LogGraph) (dir : Direction) (lim : Limits) (ex : Event → Bool) (o : Event)

/-- The items whose edges a walk follows: its start, or an item it has
logged as expanded. -/
def Reached.Source (L : Array (Reached × Bool)) (it : Reached) : Prop :=
  (it.isOrigin = true ∧ it.event = o ∧ it.depth = 0) ∨
    (it.Traces (g.Step dir lim) ex o ∧ (it, true) ∈ L.toList ∧ ex it.event = true)

/-- The invariant of a walk from `o` once `o` is expanded. -/
structure Walk.Inv (w : Walk) : Prop where
  traced : ∀ r ∈ w.items, r.Traces (g.Step dir lim) ex o ∧ g.find r.event.number = some r.event
  origin_seen : o.number ∈ w.seen
  seen : ∀ r ∈ w.items, r.event.number ∈ w.seen
  distinct : (o.number :: w.items.map (·.event.number)).Nodup
  flags : ∀ p ∈ w.log.toList, p.2 = ex p.1.event
  visited : w.visited = w.log.size
  counted : lim.maxCount > 0 → (w.log.size : Int) ≤ lim.maxCount
  deep : lim.maxDepth > 0 → ∀ r ∈ w.items, (r.depth : Int) ≤ lim.maxDepth
  parent : ∀ r ∈ w.items, (r.depth = 1 ∧ g.Step dir lim o r.last r.event) ∨
    ∃ p ∈ w.log.toList, p.2 = true ∧ p.1.depth + 1 = r.depth ∧ g.Step dir lim p.1.event r.last r.event
  exact : w.limit = none → ∀ n ∈ w.seen, n = o.number ∨ ∃ r ∈ w.items, r.event.number = n

/-- The events a walk has expanded: its origin, and each visit logged as
expanded. -/
def Walk.Expanded (w : Walk) (u : Event) : Prop := u = o ∨ ∃ p ∈ w.log.toList, p.2 = true ∧ p.1.event = u

/-- While no limit has cut a walk, every step from an event it expanded
leads to a number it has seen. -/
def Walk.Closed (w : Walk) : Prop :=
  w.limit = none → ∀ u, w.Expanded o u → ∀ d v, g.Step dir lim u d v → v.number ∈ w.seen

/-- What following the edges `ds` of `it` does to the walk `w`, leaving
`w'`: it stays invariant, keeps its log, visits and seen numbers, is cut
only if `w'` is, and unless it is, every step along `ds` leads to a seen
number. -/
structure Walk.Pushes (it : Reached) (ds : List Dependency) (w w' : Walk) : Prop where
  inv : w'.Inv g dir lim ex o
  log : w'.log = w.log
  visited : w'.visited = w.visited
  seen : w.seen ⊆ w'.seen
  limit : w'.limit = none → w.limit = none
  closes : w'.limit = none → ∀ d ∈ ds, ∀ v, g.Step dir lim it.event d v → v.number ∈ w'.seen

/-- What a walk from `o` has found, however it ended: each visited event
traces a route and was reached from the origin or from an expanded event
one step nearer; the visited events and the origin have distinct numbers;
each visit is logged with the visitor's answer; the count and depth limits
hold; and when no limit cut the walk, every event a route reaches, the
origin apart, was visited. -/
structure Walk.Found (w : Walk) : Prop where
  traced : ∀ p ∈ w.log.toList, p.1.Traces (g.Step dir lim) ex o ∧ g.find p.1.event.number = some p.1.event
  distinct : (o.number :: w.log.toList.map (·.1.event.number)).Nodup
  flags : ∀ p ∈ w.log.toList, p.2 = ex p.1.event
  counted : lim.maxCount > 0 → (w.log.size : Int) ≤ lim.maxCount
  deep : lim.maxDepth > 0 → ∀ p ∈ w.log.toList, (p.1.depth : Int) ≤ lim.maxDepth
  parent : ∀ p ∈ w.log.toList, (p.1.depth = 1 ∧ g.Step dir lim o p.1.last p.1.event) ∨
    ∃ q ∈ w.log.toList, q.2 = true ∧ q.1.depth + 1 = p.1.depth ∧ g.Step dir lim q.1.event p.1.last p.1.event
  complete : w.limit = none → ∀ v ds, Route (g.Step dir lim) ex o v ds → v.number ≠ o.number →
    ∃ p ∈ w.log.toList, p.1.event = v

end

section
variable {g : LogGraph} {dir : Direction} {lim : Limits} {ex : Event → Bool} {o : Event}

/-! ## What one step of a walk keeps -/

/-- A walk whose items, seen numbers, visits and log are those of an
invariant walk, and that is cut whenever that one is, is invariant. -/
theorem Walk.Inv.of_fields {w w' : Walk} (hw : w.Inv g dir lim ex o) (hf : w'.frontier = w.frontier)
    (hs : w'.seen = w.seen) (hv : w'.visited = w.visited) (hl : w'.log = w.log)
    (hlim : w'.limit = none → w.limit = none) : w'.Inv g dir lim ex o := by
  have hi : w'.items = w.items := by rw [Walk.items, Walk.items, hf, hl]
  refine ⟨?_, ?_, ?_, ?_, ?_, ?_, ?_, ?_, ?_, ?_⟩
  · rw [hi]; exact hw.traced
  · rw [hs]; exact hw.origin_seen
  · rw [hi, hs]; exact hw.seen
  · rw [hi]; exact hw.distinct
  · rw [hl]; exact hw.flags
  · rw [hv, hl]; exact hw.visited
  · rw [hl]; exact hw.counted
  · rw [hi]; exact hw.deep
  · rw [hi, hl]; exact hw.parent
  · intro hnone
    rw [hs, hi]
    exact hw.exact (hlim hnone)

theorem Walk.Closed.of_fields {w w' : Walk} (hc : w.Closed g dir lim o) (hs : w'.seen = w.seen)
    (hl : w'.log = w.log) (hlim : w'.limit = none → w.limit = none) : w'.Closed g dir lim o := by
  intro hnone u hu d v hstep
  have hu' : w.Expanded o u := by
    unfold Walk.Expanded at hu ⊢
    rw [← hl]
    exact hu
  rw [hs]
  exact hc (hlim hnone) u hu' d v hstep

/-- Taking an item off the frontier leaves the others, and the visited ones. -/
theorem Walk.items_perm {w w' : Walk} {it : Reached} {rest : List Reached} (hperm : w.frontier.Perm (it :: rest))
    (hf : w'.frontier = rest) (hl : w'.log = w.log) : w.items.Perm (it :: w'.items) := by
  rw [Walk.items, Walk.items, hf, hl]
  exact hperm.append_right _

/-- The numbers of a walk's origin and items stay distinct when items go. -/
theorem nodup_numbers_of_perm {o : Event} {xs ys : List Reached} {it : Reached}
    (h : (o.number :: xs.map (·.event.number)).Nodup) (hp : xs.Perm (it :: ys)) :
    (o.number :: ys.map (·.event.number)).Nodup := by
  have h' : (o.number :: (it :: ys).map (·.event.number)).Nodup :=
    ((hp.map (·.event.number)).cons o.number).nodup_iff.mp h
  rw [List.map_cons] at h'
  exact h'.sublist ((List.sublist_cons_self _ _).cons_cons _)

/-- A walk cut by the count limit drops the item it took. -/
theorem Walk.Inv.drop {w w' : Walk} {it : Reached} {rest : List Reached} (hw : w.Inv g dir lim ex o)
    (hperm : w.frontier.Perm (it :: rest)) (hf : w'.frontier = rest) (hs : w'.seen = w.seen)
    (hv : w'.visited = w.visited) (hl : w'.log = w.log) (hlim : w'.limit ≠ none) : w'.Inv g dir lim ex o := by
  have hp := Walk.items_perm hperm hf hl
  have hsub : ∀ r ∈ w'.items, r ∈ w.items := fun r hr => hp.symm.subset (List.mem_cons_of_mem _ hr)
  refine ⟨fun r hr => hw.traced r (hsub r hr), hs ▸ hw.origin_seen, fun r hr => hs ▸ hw.seen r (hsub r hr),
    nodup_numbers_of_perm hw.distinct hp, ?_, ?_, ?_, fun h r hr => hw.deep h r (hsub r hr), ?_,
    fun h => absurd h hlim⟩
  · rw [hl]; exact hw.flags
  · rw [hv, hl]; exact hw.visited
  · rw [hl]; exact hw.counted
  · rw [hl]
    exact fun r hr => hw.parent r (hsub r hr)

/-- A visit moves the item taken to the log, with the visitor's answer. -/
theorem Walk.Inv.visit {w w' : Walk} {it : Reached} {rest : List Reached} (hw : w.Inv g dir lim ex o)
    (hperm : w.frontier.Perm (it :: rest)) (hf : w'.frontier = rest) (hs : w'.seen = w.seen)
    (hv : w'.visited = w.visited + 1) (hl : w'.log = w.log.push (it, ex it.event)) (hlim : w'.limit = w.limit)
    (hcount : ¬(lim.maxCount > 0 ∧ (w.visited : Int) ≥ lim.maxCount)) : w'.Inv g dir lim ex o := by
  -- the items are the same, the one taken now last
  have hp : w'.items.Perm w.items := by
    have h := hperm.append_right (w.log.toList.map Prod.fst)
    rw [Walk.items, hf, hl, Array.toList_push, List.map_append, List.map_singleton, ← List.append_assoc]
    exact (List.perm_append_singleton _ _).trans (h.symm.trans (by rfl))
  have hmem : ∀ r ∈ w'.items, r ∈ w.items := fun r hr => hp.subset hr
  have hlog : ∀ p ∈ w.log.toList, p ∈ w'.log.toList := by
    intro p hp'
    rw [hl, Array.toList_push]
    exact List.mem_append_left _ hp'
  refine ⟨fun r hr => hw.traced r (hmem r hr), hs ▸ hw.origin_seen, fun r hr => hs ▸ hw.seen r (hmem r hr),
    ((hp.map (·.event.number)).cons o.number).nodup_iff.mpr hw.distinct, ?_, ?_, ?_,
    fun h r hr => hw.deep h r (hmem r hr), ?_, ?_⟩
  · intro p hp'
    rw [hl, Array.toList_push, List.mem_append, List.mem_singleton] at hp'
    rcases hp' with hp' | rfl
    · exact hw.flags p hp'
    · rfl
  · rw [hv, hl, Array.size_push, hw.visited]
  · intro hpos
    rw [hl, Array.size_push, ← hw.visited]
    push_cast
    omega
  · intro r hr
    rcases hw.parent r (hmem r hr) with h | ⟨p, hp', h⟩
    · exact .inl h
    · exact .inr ⟨p, hlog p hp', h⟩
  · intro hnone n hn
    rw [hs] at hn
    rcases hw.exact (hlim ▸ hnone) n hn with h | ⟨r, hr, h⟩
    · exact .inl h
    · exact .inr ⟨r, hp.symm.subset hr, h⟩

/-- A visit that does not expand its item leaves a closed walk closed. -/
theorem Walk.Closed.visit {w w' : Walk} {it : Reached} (hc : w.Closed g dir lim o) (hs : w'.seen = w.seen)
    (hl : w'.log = w.log.push (it, false)) (hlim : w'.limit = w.limit) : w'.Closed g dir lim o := by
  intro hnone u hu d v hstep
  have hu' : w.Expanded o u := by
    rcases hu with rfl | ⟨p, hp, hflag, rfl⟩
    · exact .inl rfl
    · rw [hl, Array.toList_push, List.mem_append, List.mem_singleton] at hp
      rcases hp with hp | rfl
      · exact .inr ⟨p, hp, hflag, rfl⟩
      · cases hflag
  rw [hs]
  exact hc (hlim ▸ hnone) u hu' d v hstep

/-- The item pushed along a step from an item the walk expands traces a
route, one edge longer. -/
theorem Reached.Source.traces_extend {L : Array (Reached × Bool)} {it : Reached} {d : Dependency} {e : Event}
    (hsrc : it.Source g dir lim ex o L) (hstep : g.Step dir lim it.event d e) :
    (it.extend d e).Traces (g.Step dir lim) ex o := by
  rcases hsrc with ⟨horig, hev, hdepth⟩ | ⟨⟨hno, ds, hr, hne, hd, hlen, hk, hf, -⟩, -, hex⟩
  · -- one edge from the origin
    rw [Reached.extend, if_pos horig]
    have hroute : Route (g.Step dir lim) ex o e ([] ++ [d]) := Route.nil.snoc (fun h => absurd rfl h) (hev ▸ hstep)
    exact ⟨rfl, [d], hroute, by simp, by simp [hdepth], rfl, rfl, rfl, rfl⟩
  · -- the route to `it`, one edge longer
    rw [Reached.extend, if_neg (by simp [hno])]
    refine ⟨rfl, ds ++ [d], hr.snoc (fun _ => hex) hstep, by simp, by simp [hd], by simp [hlen], ?_, ?_, by simp⟩
    · rw [pathKind_concat hne, hk]
    · rw [List.head?_append, hf]
      rfl

/-- The item pushed along a step from an item the walk expands was reached
from the origin, or from that item, one step nearer. -/
theorem Reached.Source.parent_extend {L : Array (Reached × Bool)} {it : Reached} {d : Dependency} {e : Event}
    (hsrc : it.Source g dir lim ex o L) (hstep : g.Step dir lim it.event d e) :
    ((it.extend d e).depth = 1 ∧ g.Step dir lim o (it.extend d e).last (it.extend d e).event) ∨
      ∃ p ∈ L.toList, p.2 = true ∧ p.1.depth + 1 = (it.extend d e).depth ∧
        g.Step dir lim p.1.event (it.extend d e).last (it.extend d e).event := by
  simp only [Reached.depth_extend, Reached.last_extend, Reached.event_extend]
  rcases hsrc with ⟨-, hev, hdepth⟩ | ⟨-, hmem, -⟩
  · exact .inl ⟨by rw [hdepth], hev ▸ hstep⟩
  · exact .inr ⟨(it, true), hmem, rfl, rfl, hstep⟩

/-- Following a step to an unseen event pushes an item for it. -/
theorem Walk.Inv.push {w : Walk} {it : Reached} {d : Dependency} {e : Event} (hw : w.Inv g dir lim ex o)
    (hsrc : it.Source g dir lim ex o w.log) (hstep : g.Step dir lim it.event d e) (hnew : dir.far d ∉ w.seen)
    (hdeep : ¬(lim.maxDepth > 0 ∧ (it.depth : Int) ≥ lim.maxDepth)) :
    ({ w with seen := dir.far d :: w.seen, frontier := it.extend d e :: w.frontier } : Walk).Inv g dir lim ex o := by
  have hnum : e.number = dir.far d := hstep.number
  have hitems : ({ w with seen := dir.far d :: w.seen, frontier := it.extend d e :: w.frontier } : Walk).items =
      it.extend d e :: w.items := rfl
  refine ⟨?_, List.mem_cons_of_mem _ hw.origin_seen, ?_, ?_, hw.flags, hw.visited, hw.counted, ?_, ?_, ?_⟩
  · rw [hitems]
    intro r hr
    rcases List.mem_cons.mp hr with rfl | hr
    · refine ⟨hsrc.traces_extend hstep, ?_⟩
      rw [Reached.event_extend, hnum]
      exact hstep.find
    · exact hw.traced r hr
  · rw [hitems]
    intro r hr
    rcases List.mem_cons.mp hr with rfl | hr
    · rw [Reached.event_extend, hnum]
      exact List.mem_cons_self
    · exact List.mem_cons_of_mem _ (hw.seen r hr)
  · -- the new number is unseen, so it is neither the origin's nor an item's
    rw [hitems, List.map_cons, Reached.event_extend, hnum]
    have hfresh : dir.far d ∉ o.number :: w.items.map (·.event.number) := by
      intro hin
      rcases List.mem_cons.mp hin with h | h
      · exact hnew (h ▸ hw.origin_seen)
      · obtain ⟨r, hr, hrn⟩ := List.mem_map.mp h
        exact hnew (hrn ▸ hw.seen r hr)
    exact (List.Perm.swap _ _ _).nodup_iff.mp (List.nodup_cons.mpr ⟨hfresh, hw.distinct⟩)
  · rw [hitems]
    intro hpos r hr
    rcases List.mem_cons.mp hr with rfl | hr
    · rw [Reached.depth_extend]
      push_cast
      omega
    · exact hw.deep hpos r hr
  · rw [hitems]
    intro r hr
    rcases List.mem_cons.mp hr with rfl | hr
    · exact hsrc.parent_extend hstep
    · exact hw.parent r hr
  · rw [hitems]
    intro hnone n hn
    rcases List.mem_cons.mp hn with rfl | hn
    · exact .inr ⟨it.extend d e, List.mem_cons_self, by rw [Reached.event_extend, hnum]⟩
    · rcases hw.exact hnone n hn with h | ⟨r, hr, h⟩
      · exact .inl h
      · exact .inr ⟨r, List.mem_cons_of_mem _ hr, h⟩

/-- Following one more edge `d` before `ds`, from `w` to `w₁`, where every
step along `d` leads to a number `w₁` has seen. -/
theorem Walk.Pushes.cons {it : Reached} {d : Dependency} {ds : List Dependency} {w w₁ w' : Walk}
    (h : w₁.Pushes g dir lim ex o it ds w') (hs : w.seen ⊆ w₁.seen) (hl : w₁.log = w.log)
    (hv : w₁.visited = w.visited) (hlim : w₁.limit = w.limit)
    (hd : ∀ v, g.Step dir lim it.event d v → v.number ∈ w₁.seen) : w.Pushes g dir lim ex o it (d :: ds) w' := by
  refine ⟨h.inv, h.log.trans hl, h.visited.trans hv, fun n hn => h.seen (hs hn), fun hnone => hlim ▸ h.limit hnone,
    fun hnone d' hd' v hstep => ?_⟩
  rcases List.mem_cons.mp hd' with rfl | hd'
  · exact h.seen (hd v hstep)
  · exact h.closes hnone d' hd' v hstep

/-! ## Following the edges of an item -/

/-- Following the edges `ds` of an item the walk expands: the step lemma of
a walk. -/
theorem pushEdges_ensures {it : Reached} :
    ∀ (ds : List Dependency) (w : Walk), it.Source g dir lim ex o w.log → w.Inv g dir lim ex o →
      (∀ d ∈ ds, d ∈ g.view.edges dir it.event) →
      Ensures (pushEdges g.view dir lim it ds w) (w.Pushes g dir lim ex o it ds) := by
  intro ds
  induction ds with
  | nil =>
    intro w _ hw _
    exact ensures_pure ⟨hw, rfl, rfl, fun _ h => h, id, fun _ d hd => absurd hd List.not_mem_nil⟩
  | cons d ds ih =>
    intro w hsrc hw hedges
    have hrest : ∀ d' ∈ ds, d' ∈ g.view.edges dir it.event := fun d' hd' => hedges d' (List.mem_cons_of_mem _ hd')
    -- passing over `d`, when every step along it leads to a number already seen
    have skip : (∀ v, g.Step dir lim it.event d v → v.number ∈ w.seen) →
        Ensures (pushEdges g.view dir lim it ds w) (w.Pushes g dir lim ex o it (d :: ds)) :=
      fun hd => (ih w hsrc hw hrest).mono fun w' h => h.cons (fun _ h => h) rfl rfl rfl hd
    rw [pushEdges_cons]
    split_ifs with hre hseen hdeep
    · -- a reuse edge, not followed
      refine skip fun v hstep => absurd (hstep.reuse hre.1) ?_
      simpa using hre.2
    · -- its far end already seen
      exact skip fun v hstep => hstep.number ▸ List.contains_iff_mem.mp hseen
    · -- cut by the depth limit
      refine ensures_pure ⟨hw.of_fields rfl rfl rfl rfl fun h => ?_, rfl, rfl, fun _ h => h, fun h => ?_,
        fun h => ?_⟩ <;> simp at h
    · refine (ensures_pure (P := (· = g.find (dir.far d))) rfl).bind fun r hr => ?_
      subst hr
      rcases hfind : g.find (dir.far d) with _ | e
      · -- nothing found at the far end
        exact skip fun v hstep => by rw [hstep.find] at hfind; cases hfind
      · simp only [pushFound]
        split_ifs with hself
        · -- the send of a self message, left out
          refine skip fun v hstep => ?_
          rw [hstep.find] at hfind
          cases hfind
          exact absurd (hstep.self hself.1 hself.2.1) (by simp [hself.2.2])
        · -- a new item for `e`
          have hstep : g.Step dir lim it.event d e := by
            refine ⟨hedges d List.mem_cons_self, hfind, fun h => ?_, fun h₁ h₂ => ?_⟩
            · by_contra hno
              exact hre ⟨h, by simpa using hno⟩
            · simpa [h₁, h₂] using hself
          have hnew : dir.far d ∉ w.seen := fun h => hseen (List.contains_iff_mem.mpr h)
          refine (ih { w with seen := dir.far d :: w.seen, frontier := it.extend d e :: w.frontier } hsrc
            (hw.push hsrc hstep hnew hdeep) hrest).mono fun w' h =>
            h.cons (fun _ h => List.mem_cons_of_mem _ h) rfl rfl rfl fun v hv => ?_
          rw [hv.number]
          exact List.mem_cons_self

/-- A walk holds at most as many items as its log has events: they are
distinct events of the log. -/
theorem Walk.Inv.length_items {w : Walk} (hw : w.Inv g dir lim ex o) : w.items.length ≤ g.events.length := by
  have hnodup : (w.items.map (·.event)).Nodup := by
    have h := (List.nodup_cons.mp hw.distinct).2
    rw [show (fun r : Reached => r.event.number) = Event.number ∘ (·.event) from rfl, ← List.map_map] at h
    exact h.of_map _
  have hsub : w.items.map (·.event) ⊆ g.events := by
    intro e he
    obtain ⟨r, hr, rfl⟩ := List.mem_map.mp he
    exact g.mem_of_find (hw.traced r hr).2
  simpa using hnodup.length_le_of_subset hsub

/-- Following all the edges of an item the walk logged as expanded closes
it. -/
theorem Walk.Closed.expand {w w₁ w₂ : Walk} {it : Reached} (hc : w.Closed g dir lim o)
    (hp : w₁.Pushes g dir lim ex o it (g.view.edges dir it.event) w₂) (hs : w₁.seen = w.seen)
    (hl : w₁.log = w.log.push (it, true)) (hlim : w₁.limit = w.limit) : w₂.Closed g dir lim o := by
  intro hnone u hu d v hstep
  have hnone₁ : w₁.limit = none := hp.limit hnone
  rcases hu with rfl | ⟨p, hmem, hflag, rfl⟩
  · exact hp.seen (hs ▸ hc (hlim ▸ hnone₁) _ (.inl rfl) d v hstep)
  · rw [hp.log, hl, Array.toList_push, List.mem_append, List.mem_singleton] at hmem
    rcases hmem with hmem | rfl
    · exact hp.seen (hs ▸ hc (hlim ▸ hnone₁) _ (.inr ⟨p, hmem, hflag, rfl⟩) d v hstep)
    · exact hp.closes hnone d hstep.mem v hstep

theorem orElse_ne_none {α : Type} (x : Option α) (y : α) : (x <|> some y) ≠ none := by
  cases x <;> simp

/-! ## A whole walk -/

/-- The run lemma of a walk: from an invariant closed walk with at least as
much fuel as the events it has not visited, a walk keeps its invariant and
ends closed, cut by a limit or with nothing left to visit. -/
theorem walkLoop_ensures {visit : Reached → StateT Unit (Except Fault) Bool}
    (hvisit : ∀ it, Ensures (visit it) (· = ex it.event)) :
    ∀ (fuel : Nat) (w : Walk), w.Inv g dir lim ex o → w.Closed g dir lim o → g.events.length ≤ fuel + w.log.size →
      Ensures (walkLoop g.view dir lim false visit fuel w) fun w' =>
        w'.Inv g dir lim ex o ∧ w'.Closed g dir lim o ∧ (w'.limit = none → w'.frontier = []) := by
  intro fuel
  induction fuel with
  | zero =>
    intro w hw hc hfuel
    refine ensures_pure ⟨hw, hc, fun _ => ?_⟩
    -- every event of the log has been visited, so none is left
    have h := hw.length_items
    rw [Walk.items, List.length_append, List.length_map, Array.length_toList] at h
    exact List.eq_nil_of_length_eq_zero (by omega)
  | succ fuel ih =>
    intro w hw hc hfuel
    unfold walkLoop
    split
    · rename_i hpick
      exact ensures_pure ⟨hw, hc, fun _ => pickNearest_eq_none.mp hpick⟩
    · rename_i it rest hpick
      have hperm := pickNearest_perm hpick
      have hno : it.isOrigin = false :=
        (hw.traced it (List.mem_append_left _ (hperm.symm.subset List.mem_cons_self))).1.1
      rw [if_neg (by simp)]
      -- reading the clock, or not, changes nothing the invariant is about
      cases w.deadline <;> dsimp only
      all_goals
        split
        · -- cut by the time limit
          exact ensures_pure ⟨hw.of_fields rfl rfl rfl rfl fun h => absurd h (orElse_ne_none _ _),
            hc.of_fields rfl rfl fun h => absurd h (orElse_ne_none _ _), fun h => absurd h (orElse_ne_none _ _)⟩
        rw [if_neg (by simp [hno])]
        split
        · -- cut by the count limit
          exact ensures_pure ⟨hw.drop hperm rfl rfl rfl rfl (orElse_ne_none _ _),
            hc.of_fields rfl rfl fun h => absurd h (orElse_ne_none _ _), fun h => absurd h (orElse_ne_none _ _)⟩
        next hcount =>
        refine (hvisit it).bind fun b hb => ?_
        subst hb
        cases hexp : ex it.event
        · -- a visit that does not expand its item
          refine ih _ (hw.visit hperm rfl rfl rfl (by rw [hexp]) rfl hcount) (hc.visit rfl rfl rfl) ?_
          simp only [Array.size_push]
          omega
        · -- a visit that expands its item: follow its edges, then go on
          rw [if_pos rfl, edgesOf_eq]
          have htr := (hw.traced it (List.mem_append_left _ (hperm.symm.subset List.mem_cons_self))).1
          refine (@pushEdges_ensures g dir lim ex o it _ _ ?_ ?_ fun d hd => hd).bind fun w₂ hp => ?_
          · exact .inr ⟨htr, by simp, hexp⟩
          · exact hw.visit hperm rfl rfl rfl (by rw [hexp]) rfl hcount
          refine ih w₂ hp.inv (hc.expand hp rfl rfl rfl) ?_
          rw [hp.log, Array.size_push]
          omega

/-! ## What a whole walk finds -/

/-- When no limit cut a closed walk and nothing is left to visit, every
event a route reaches has a seen number: by induction over the route, each
event it passes through was expanded. -/
theorem Walk.Inv.seen_of_route {w : Walk} (hw : w.Inv g dir lim ex o) (hc : w.Closed g dir lim o)
    (ho : g.find o.number = some o) (hnone : w.limit = none) (hdone : w.frontier = []) {v : Event}
    {ds : List Dependency} (h : Route (g.Step dir lim) ex o v ds) : v.number ∈ w.seen := by
  induction h with
  | nil => exact hw.origin_seen
  | @snoc u v ds d hr hex hstep ih =>
    refine hc hnone u ?_ d v hstep
    by_cases hds : ds = []
    · exact .inl (hr.eq_of_nil hds)
    · -- `u` is the log's event with its number: the origin, or a visited item
      have hu := hr.find hds
      rcases hw.exact hnone _ ih with h | ⟨r, hr', h⟩
      · rw [h, ho] at hu
        exact .inl (Option.some.inj hu).symm
      · rw [Walk.items, hdone, List.nil_append] at hr'
        obtain ⟨p, hp, rfl⟩ := List.mem_map.mp hr'
        have hfind := (hw.traced p.1 (List.mem_append_right _ (List.mem_map_of_mem hp))).2
        have heq : p.1.event = u := by
          rw [h, hu] at hfind
          exact (Option.some.inj hfind).symm
        refine .inr ⟨p, hp, ?_, heq⟩
        rw [hw.flags p hp, heq, hex hds]

/-- What an invariant closed walk that ended has found. -/
theorem Walk.Inv.found {w : Walk} (hw : w.Inv g dir lim ex o) (hc : w.Closed g dir lim o)
    (hdone : w.limit = none → w.frontier = []) (ho : g.find o.number = some o) : w.Found g dir lim ex o := by
  have hmem : ∀ p ∈ w.log.toList, p.1 ∈ w.items := fun p hp => List.mem_append_right _ (List.mem_map_of_mem hp)
  refine ⟨fun p hp => hw.traced p.1 (hmem p hp), ?_, hw.flags, hw.counted, fun h p hp => hw.deep h p.1 (hmem p hp),
    fun p hp => hw.parent p.1 (hmem p hp), fun hnone v ds hr hv => ?_⟩
  · have h := hw.distinct
    rw [Walk.items, List.map_append, List.map_map] at h
    exact h.sublist ((List.sublist_append_right _ _).cons_cons _)
  · -- the route's end was seen, and is not the origin, so it is a visited item
    rcases hw.exact hnone _ (hw.seen_of_route hc ho hnone (hdone hnone) hr) with h | ⟨r, hr', h⟩
    · exact absurd h hv
    · rw [Walk.items, hdone hnone, List.nil_append] at hr'
      obtain ⟨p, hp, rfl⟩ := List.mem_map.mp hr'
      have hds : ds ≠ [] := fun hds => hv (by rw [hr.eq_of_nil hds])
      have hfind := (hw.traced p.1 (hmem p hp)).2
      rw [h, hr.find hds] at hfind
      exact ⟨p, hp, (Option.some.inj hfind).symm⟩

/-- A walk that has expanded only its origin, and holds nothing, is
invariant. -/
theorem Walk.inv_start {w : Walk} (hf : w.frontier = []) (hs : w.seen = [o.number]) (hv : w.visited = 0)
    (hl : w.log = #[]) : w.Inv g dir lim ex o := by
  have hi : w.items = [] := by simp [Walk.items, hf, hl]
  refine ⟨by simp [hi], by simp [hs], by simp [hi], by simp [hi], by simp [hl], by simp [hv, hl], ?_, by simp [hi],
    by simp [hi], fun _ n hn => .inl (by simpa [hs] using hn)⟩
  intro hpos
  simp only [hl, List.size_toArray, List.length_nil, Nat.cast_zero]
  omega

/-- A walk from `o` with at least as much fuel as its log has events, two
more than that: what it has found when it ends. -/
theorem walkLoop_start_found {visit : Reached → StateT Unit (Except Fault) Bool}
    (hvisit : ∀ it, Ensures (visit it) (· = ex it.event)) {size : Nat} (hsize : g.events.length ≤ size)
    (ho : g.find o.number = some o) (c : Clock) (dl : Option Int) :
    Ensures (walkLoop g.view dir lim false visit (size + 2) ⟨[Reached.start o], [o.number], 0, 0, c, dl, none, #[]⟩)
      (Walk.Found g dir lim ex o) := by
  -- the first visit takes the origin and follows its edges
  unfold walkLoop
  rw [pickNearest_singleton]
  dsimp only
  rw [if_neg (by simp)]
  cases dl <;> dsimp only
  all_goals
    split
    · -- cut by the time limit before anything was visited
      refine ensures_pure ⟨by simp, by simp, by simp, fun h => ?_, by simp, by simp, fun h => ?_⟩
      · simp only [List.size_toArray, List.length_nil, Nat.cast_zero]
        omega
      · exact absurd h (orElse_ne_none _ _)
    rw [if_pos (show (Reached.start o).isOrigin = true from rfl), edgesOf_eq]
    refine (@pushEdges_ensures g dir lim ex o (Reached.start o) _ _ (.inl ⟨rfl, rfl, rfl⟩)
      (Walk.inv_start rfl rfl rfl rfl) fun d hd => hd).bind fun w₂ hp => ?_
    have hc : w₂.Closed g dir lim o := by
      intro hnone u hu d v hstep
      rcases hu with rfl | ⟨p, hmem, -⟩
      · exact hp.closes hnone d hstep.mem v hstep
      · rw [hp.log] at hmem
        simp at hmem
    refine (walkLoop_ensures hvisit (size + 1) w₂ hp.inv hc ?_).mono fun _ h => h.1.found h.2.1 h.2.2 ho
    rw [hp.log]
    simp only [List.size_toArray, List.length_nil, Nat.add_zero]
    omega

/-- What a walk from `o` finds, over a log of at most `size` events where
`o` is the event with its number, whose visitor expands an item when `ex`
takes its event. -/
theorem walk_found {visit : Reached → StateT Unit (Except Fault) Bool}
    (hvisit : ∀ it, Ensures (visit it) (· = ex it.event)) {size : Nat} (hsize : g.events.length ≤ size)
    (ho : g.find o.number = some o) (clock : Clock) :
    Ensures (walk g.view size o dir lim clock false visit) (Walk.Found g dir lim ex o) := by
  unfold walk
  exact walkLoop_start_found hvisit hsize ho _ _

end

end EventChart
