import EventChart.Proofs.Log.Crossing
/-!
# The trace of a filtered view

A view that traces event `t` collects, on its first query, the events the
dependencies reach from `t` backwards (its causes) and forwards (its
consequences).  Its trace check then places an event by its number: the
traced event passes, an earlier event passes when the causes hold it, and a
later one when the consequences do.

* `collect_uncut_answers`: with no depth, count or time limit, collecting
  from an event of a log is never cut short, so the collection holds exactly
  the events a route of allowed edges reaches (`Collection.Answers.contains_iff`).
* `prepare_collects_trace`: the first preparation of a view that traces an
  event of its base stores both collections.
* `passes_trace_of_collected`: what the trace check reads off them.
* `trace_check_exactly`: with no limit, the trace check passes the traced
  event, the earlier events its causes reach and the later events its
  consequences reach, and no other; the trace is not partial.

Nothing in the log ties the direction of an edge to the order of numbers:
an event may reuse a message of a later event.  That later event is then a
cause of the traced one, but it is looked up among the consequences, and
the trace check hides it (`trace_hides_later_cause`).
-/

namespace EventChart

/-! ## Reaching an event -/

namespace LogGraph

/-- A route of the steps a walk from `o` may take ends at an event numbered
`n`. -/
def Reaches (g : LogGraph) (dir : Direction) (lim : Limits) (o : Event) (n : Int) : Prop :=
  ∃ v ds, Route (g.Step dir lim) (fun _ => true) o v ds ∧ v.number = n

/-- A route from an event with no edge in its direction never leaves it. -/
theorem route_of_no_edges {g : LogGraph} {dir : Direction} {lim : Limits} {o v : Event} {ds : List Dependency}
    (h : Route (g.Step dir lim) (fun _ => true) o v ds) (hno : g.view.edges dir o = []) : ds = [] ∧ v = o := by
  induction h with
  | nil => exact ⟨rfl, rfl⟩
  | snoc _ _ hstep ih =>
    obtain ⟨rfl, rfl⟩ := ih
    have hmem := hstep.mem
    rw [hno] at hmem
    cases hmem

end LogGraph

/-! ## Collections with no limit -/

section
variable {g : LogGraph} {dir : Direction} {lim : Limits} {o : Event}

/-- A collection that was not cut short holds an event other than its origin
exactly when a route of allowed steps reaches it. -/
theorem Collection.Answers.contains_iff {col : Collection} (h : col.Answers g o dir lim)
    (hinc : col.incomplete = false) {n : Int} (hn : n ≠ o.number) :
    col.contains n = true ↔ g.Reaches dir lim o n := by
  constructor
  · intro hc
    obtain ⟨x, hx, hxn⟩ := List.any_eq_true.mp hc
    obtain ⟨v, ds, hfind, hr, -, -⟩ := h.reached x hx
    exact ⟨v, ds, hr, (g.number_of_find hfind).trans (by simpa using hxn)⟩
  · rintro ⟨v, ds, hr, rfl⟩
    obtain ⟨x, hx, hxn⟩ := h.complete hinc v ds hr hn
    exact List.any_eq_true.mpr ⟨x, hx, by simp [hxn]⟩

/-- With no depth, count or time limit, a collection is never cut short. -/
theorem collect_graph_uncut (hd : lim.maxDepth = 0) (hc : lim.maxCount = 0) (ht : lim.maxDuration = 0)
    (size : Nat) (clock : Clock) :
    Ensures (collect g.view size o dir lim clock false) (·.incomplete = false) := by
  rw [collect_eq]
  exact (walk_uncut (fun _ => ensures_pure trivial) hd hc ht size o clock).bind fun w hw =>
    ensures_pure (by simp [Walk.collection, Collection.incomplete, hw])

end

/-- With no depth, count or time limit, collecting from an event of a log
succeeds, is not cut short, and answers what its routes reach. -/
theorem collect_uncut_answers (l : EventLog) {o : Event} (ho : l.index.find? o.number = some o) (dir : Direction)
    (lim : Limits) (hd : lim.maxDepth = 0) (hc : lim.maxCount = 0) (ht : lim.maxDuration = 0) (clock : Clock) :
    ∃ col, (collect l.walkView l.length o dir lim clock false).run' () = .ok col ∧ col.incomplete = false ∧
      col.Answers l.graph o dir lim := by
  rw [l.walkView_eq_view]
  exact ((collect_graph_uncut hd hc ht _ clock).and
    (collect_graph_answers (le_of_eq l.length_graph_events) ho clock)).run'

/-! ## The trace a view collects -/

namespace FilteredLog

variable {l : EventLog} {f : FilteredLog}

/-- A view just created holds its base's snapshot and has not traced yet. -/
theorem create_fresh {p : Parameters} {f0 : FilteredLog} (hc : create l p = .ok f0) :
    f0.params = p ∧ f0.epoch = l.epoch ∧ f0.length = l.length ∧ f0.size = l.size ∧ f0.traced = false := by
  unfold create at hc
  split at hc
  · cases hc
  · cases hc
    exact ⟨rfl, rfl, rfl, rfl, rfl⟩

/-- Preparing a view that holds its base's snapshot and traces an event of
the base it has not collected yet stores the collection of the event's
causes and that of its consequences. -/
theorem prepare_collects_trace (hsnap : f.epoch = l.epoch ∧ f.length = l.length ∧ f.size = l.size)
    (htraced : f.traced = false) (htr : f.params.tracing = true) {o : Event}
    (ho : l.index.find? f.params.tracedEventNumber = some o) {cs qs : Collection}
    (hcs : (collect l.walkView l.length o .causes (limits f.params .causes true) frozenClock false).run' () = .ok cs)
    (hqs : (collect l.walkView l.length o .consequences (limits f.params .consequences true) frozenClock false).run' () =
      .ok qs) :
    (prepare l false).run f = .ok ((), { f with causes := some cs, consequences := some qs, traced := true }) := by
  have hsame : ¬ (f.epoch ≠ l.epoch ∨ f.length ≠ l.length ∨ f.size ≠ l.size) := by
    simp [hsnap.1, hsnap.2.1, hsnap.2.2]
  simp only [StateT.run'_eq] at hcs hqs
  simp [prepare, hsame, htraced, htr, ho, hcs, hqs, prepare.liftM]
  rfl

/-- The trace check of a view that holds both collections passes the traced
event, an earlier event when the causes hold it, and a later one when the
consequences do. -/
theorem passes_trace_of_collected {cs qs : Collection} (hcs : f.causes = some cs) (hqs : f.consequences = some qs)
    (e : Event) :
    f.passes e .trace = true ↔ e.number = f.params.tracedEventNumber ∨
      (e.number < f.params.tracedEventNumber ∧ f.params.traceCauses = true ∧ cs.contains e.number = true) ∨
      (f.params.tracedEventNumber < e.number ∧ f.params.traceConsequences = true ∧ qs.contains e.number = true) := by
  simp only [passes, hcs, hqs, Option.isSome_some, Option.map_some, Option.getD_some]
  split_ifs with h1 h2
  · simp [h1]
  · simp [h1, h2, not_lt_of_gt h2]
  · have h3 : f.params.tracedEventNumber < e.number := by omega
    simp [h1, h2, h3]

/-- With no depth, count or time limit, a view tracing an event of its base
collects, on its first preparation, a trace whose check passes the traced
event, each earlier event that a route of allowed edges reaches backwards
when causes are traced, and each later event that one reaches forwards when
consequences are traced, and no other event; and the trace is not partial.
An allowed edge is a send, or a reuse when reuses are traced, and not the
send of a message a module scheduled to itself when those are left out. -/
theorem trace_check_exactly (l : EventLog) {p : Parameters} {f0 : FilteredLog} (hc : create l p = .ok f0)
    {o : Event} (ho : l.index.find? p.tracedEventNumber = some o) (htr : 0 ≤ p.tracedEventNumber)
    (hdc : p.maxCauseDepth = 0) (hdq : p.maxConsequenceDepth = 0) (hnc : p.maxNumberOfCauses = 0)
    (hnq : p.maxNumberOfConsequences = 0) (htc : p.maxCauseCollectionTime = 0)
    (htq : p.maxConsequenceCollectionTime = 0) :
    ∃ f, (prepare l false).run f0 = .ok ((), f) ∧ (traceIncomplete l false).run' f = .ok false ∧
      ∀ e : Event, f.passes e .trace = true ↔ e.number = p.tracedEventNumber ∨
        (e.number < p.tracedEventNumber ∧ p.traceCauses = true ∧
          l.graph.Reaches .causes (limits p .causes true) o e.number) ∨
        (p.tracedEventNumber < e.number ∧ p.traceConsequences = true ∧
          l.graph.Reaches .consequences (limits p .consequences true) o e.number) := by
  obtain ⟨hp, he, hlen, hs, htd⟩ := create_fresh hc
  subst hp
  have hon : o.number = f0.params.tracedEventNumber := EventLog.number_of_find? ho
  obtain ⟨cs, hcs, hcsi, hcsa⟩ := collect_uncut_answers l (hon ▸ ho) .causes
    (limits f0.params .causes true) hdc hnc htc frozenClock
  obtain ⟨qs, hqs, hqsi, hqsa⟩ := collect_uncut_answers l (hon ▸ ho) .consequences
    (limits f0.params .consequences true) hdq hnq htq frozenClock
  have hprep := prepare_collects_trace ⟨he, hlen, hs⟩ htd (by simpa [Parameters.tracing] using htr) ho hcs hqs
  refine ⟨_, hprep, ?_, fun e => ?_⟩
  · -- the trace is in place, so asking whether it is partial reads both collections
    simp [traceIncomplete, StateT.run'_eq, StateT.run_bind,
      prepare_run_of_current (f := { f0 with causes := some cs, consequences := some qs, traced := true })
        ⟨he, hlen, hs⟩ (fun _ => rfl), hcsi, hqsi]
    rfl
  · rw [passes_trace_of_collected rfl rfl]
    -- away from the traced event, each collection holds exactly what its routes reach
    have hcause : e.number < f0.params.tracedEventNumber →
        (cs.contains e.number = true ↔ l.graph.Reaches .causes (limits f0.params .causes true) o e.number) :=
      fun h => hcsa.contains_iff hcsi (by omega)
    have hconseq : f0.params.tracedEventNumber < e.number →
        (qs.contains e.number = true ↔
          l.graph.Reaches .consequences (limits f0.params .consequences true) o e.number) :=
      fun h => hqsa.contains_iff hqsi (by omega)
    constructor
    · rintro (h | ⟨h1, h2, h3⟩ | ⟨h1, h2, h3⟩)
      · exact .inl h
      · exact .inr (.inl ⟨h1, h2, (hcause h1).mp h3⟩)
      · exact .inr (.inr ⟨h1, h2, (hconseq h1).mp h3⟩)
    · rintro (h | ⟨h1, h2, h3⟩ | ⟨h1, h2, h3⟩)
      · exact .inl h
      · exact .inr (.inl ⟨h1, h2, (hcause h1).mpr h3⟩)
      · exact .inr (.inr ⟨h1, h2, (hconseq h1).mpr h3⟩)

/-! ## A cause numbered after the traced event -/

/-- A log of two events where event 0 sends again a message that event 1,
numbered after it, had sent: a reuse edge from event 1 to event 0. -/
def traceStore : Store :=
  ⟨[("log", 0)], #[("E # 0 t 0 m 1\nBS id 5 c M n a pe 1\n" ++ "E # 1 t 0 m 1\n").toUTF8]⟩

/-- The log opened on `traceStore`. -/
def traceLog : EventLog :=
  match (EventLog.openFile traceStore 0 "log" ⟨0, 0, false⟩ false).2 with
  | .ok l => l
  | .error _ => default

/-- Tracing event 0 with no limit, reuses and self messages included. -/
def traceParams : Parameters :=
  { Parameters.default with
    tracedEventNumber := 0
    maxCauseDepth := 0
    maxConsequenceDepth := 0
    maxNumberOfCauses := 0
    maxNumberOfConsequences := 0 }

/-- What the kernel reads off `traceStore`: the file opens into two events
numbered 0 and 1, event 0 has the reuse edge from event 1 and event 1 no
edge, and the parameters are valid. -/
theorem traceLog_read :
    (EventLog.openFile traceStore 0 "log" ⟨0, 0, false⟩ false).2.toBool = true ∧
      traceLog.index.events.size = 2 ∧
      traceLog.index.events[0]!.number = 0 ∧ traceLog.index.events[1]!.number = 1 ∧
      (traceLog.index.events.toList.flatMap Event.causes).filter (·.cause == 0) = [] ∧
      traceLog.index.events[0]!.causes = [⟨1, 0, .reuse, 5, 5, 1⟩] ∧
      (create traceLog traceParams).toBool = true := by
  decide +kernel

theorem openFile_traceStore : (EventLog.openFile traceStore 0 "log" ⟨0, 0, false⟩ false).2 = .ok traceLog := by
  have hb := traceLog_read.1
  unfold traceLog
  revert hb
  cases (EventLog.openFile traceStore 0 "log" ⟨0, 0, false⟩ false).2 <;> simp [Except.toBool]

theorem create_traceLog : create traceLog traceParams = .ok (viewOf traceLog traceParams) :=
  create_viewOf traceLog_read.2.2.2.2.2.2

theorem find?_traceLog_zero : traceLog.index.find? 0 = some traceLog.index.events[0]! := by
  have h := EventLog.find?_of_mem (EventLog.inv_openFile openFile_traceStore)
    (EventLog.getElem!_mem (l := traceLog) (k := 0) (by rw [traceLog_read.2.1]; decide))
  rwa [traceLog_read.2.2.1] at h

theorem trace_check_exactly_traceLog :
    create traceLog traceParams = .ok (viewOf traceLog traceParams) ∧
      traceLog.index.find? traceParams.tracedEventNumber = some traceLog.index.events[0]! ∧
      ∃ f, (prepare traceLog false).run (viewOf traceLog traceParams) = .ok ((), f) ∧
        (traceIncomplete traceLog false).run' f = .ok false ∧
        ∀ e : Event, f.passes e .trace = true ↔ e.number = traceParams.tracedEventNumber ∨
          (e.number < traceParams.tracedEventNumber ∧ traceParams.traceCauses = true ∧
            traceLog.graph.Reaches .causes (limits traceParams .causes true) traceLog.index.events[0]! e.number) ∨
          (traceParams.tracedEventNumber < e.number ∧ traceParams.traceConsequences = true ∧
            traceLog.graph.Reaches .consequences (limits traceParams .consequences true) traceLog.index.events[0]!
              e.number) :=
  ⟨create_traceLog, find?_traceLog_zero,
    trace_check_exactly traceLog create_traceLog find?_traceLog_zero (by decide) rfl rfl rfl rfl rfl rfl⟩

/-- Tracing event 0 of `traceLog`, event 1 is reached backwards along the
reuse edge, and causes are traced; but event 1 is numbered after the traced
event, so the trace check looks it up among the consequences, which hold
nothing, and hides it. -/
theorem trace_hides_later_cause :
    ∃ f, (prepare traceLog false).run (viewOf traceLog traceParams) = .ok ((), f) ∧
      traceParams.traceCauses = true ∧
      traceLog.graph.Reaches .causes (limits traceParams .causes true) traceLog.index.events[0]!
        traceLog.index.events[1]!.number ∧
      f.passes traceLog.index.events[1]! .trace = false := by
  obtain ⟨-, hsize, h0, h1, hnone, hcauses, -⟩ := traceLog_read
  have hinv := EventLog.inv_openFile openFile_traceStore
  have ho : traceLog.index.find? traceLog.index.events[0]!.number = some traceLog.index.events[0]! := by
    rw [h0]
    exact find?_traceLog_zero
  obtain ⟨hp, he, hlen, hs, htd⟩ := create_fresh create_traceLog
  obtain ⟨cs, hcs, -, -⟩ := collect_uncut_answers traceLog ho .causes
    (limits traceParams .causes true) rfl rfl rfl frozenClock
  obtain ⟨qs, hqs, hqsi, hqsa⟩ := collect_uncut_answers traceLog ho .consequences
    (limits traceParams .consequences true) rfl rfl rfl frozenClock
  rw [← hp] at hcs hqs
  have hprep := prepare_collects_trace ⟨he, hlen, hs⟩ htd (by rw [hp]; rfl) (by rw [hp]; exact find?_traceLog_zero) hcs hqs
  -- the reuse edge of event 0 leads back to event 1
  have hstep : traceLog.graph.Step .causes (limits traceParams .causes true) traceLog.index.events[0]!
      ⟨1, 0, .reuse, 5, 5, 1⟩ traceLog.index.events[1]! :=
    EventLog.step_of_edge hinv (by rw [hsize]; decide) (by simp [WalkView.edges, hcauses])
      (by rw [h1]; rfl) (fun _ => rfl) rfl
  -- no edge leaves event 0 towards its consequences, so nothing is reached forwards
  have hnoreach : ¬ traceLog.graph.Reaches .consequences (limits traceParams .consequences true)
      traceLog.index.events[0]! 1 := by
    rintro ⟨v, ds, hr, hv⟩
    have hno : traceLog.graph.view.edges .consequences traceLog.index.events[0]! = [] := by
      simp only [LogGraph.view, WalkView.edges, EventLog.graph]
      rw [(EventLog.wired_openFile openFile_traceStore).linked, h0]
      exact hnone
    obtain ⟨-, rfl⟩ := LogGraph.route_of_no_edges hr hno
    rw [h0] at hv
    cases hv
  refine ⟨_, hprep, rfl, ⟨_, _, Route.nil.snoc (fun h => absurd rfl h) hstep, rfl⟩, ?_⟩
  cases hpass : passes { viewOf traceLog traceParams with causes := some cs, consequences := some qs, traced := true }
      traceLog.index.events[1]! .trace
  · rfl
  · rw [passes_trace_of_collected rfl rfl, h1, hp] at hpass
    rcases hpass with h | ⟨h, -⟩ | ⟨-, -, h⟩
    · cases h
    · cases h
    · exact absurd ((hqsa.contains_iff hqsi (by rw [h0]; decide)).mp h) hnoreach

end FilteredLog

end EventChart
