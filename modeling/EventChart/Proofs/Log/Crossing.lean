import EventChart.Proofs.Log.Runs
import EventChart.Proofs.Graph.Collection
/-!
# The dependencies that cross a stretch of a log

`EventLog.crossing` lists the dependencies with an end among the events
from one position to another and both ends in the log.  It reads the edges
that lead to an event of the stretch from the event itself, and those that
leave it from the index's consequence lists, so what it answers rests on an
invariant of the index.

* `Event.DirectReuses`: the reuse edges of an event are direct edges into
  it.  A scan builds only such events (`Scan.run_direct`), so the edges of
  an event are direct sends and reuses into it
  (`Event.DirectReuses.causes`), told apart by their keys
  (`Dependency.eq_of_key`).
* `Index.Wired`: the consequence list of each number is exactly the edges of
  the events that leave it, and the events have direct reuse edges.  A commit
  that continues a placed index keeps it wired (`Index.Wired.commit_extends`),
  so every state a log reaches is wired (`EventLog.Reachable.wired`).
* `EventLog.Crosses`: the edges of the log's events with both ends in the
  log and one at a position of the stretch.  `crossing_exactly`: between two
  events of the current epoch of a reachable log, the crossing is exactly
  the dependencies that cross the stretch between them, each key once, in
  listing order.
-/

namespace EventChart

/-! ## Direct edges -/

/-- A direct edge: it stands for one send or reuse, and its message arrives
as it left. -/
def Dependency.IsDirect (d : Dependency) : Prop :=
  d.endMessageId = d.messageId ∧ d.length = 1 ∧ (d.kind = .send ∨ d.kind = .reuse)

/-- Direct edges are told apart by their keys. -/
theorem Dependency.eq_of_key {d d' : Dependency} (hd : d.IsDirect) (hd' : d'.IsDirect) (hk : d.key = d'.key) :
    d = d' := by
  obtain ⟨c, q, k, m, m₁, len⟩ := d
  obtain ⟨c', q', k', m', m₁', len'⟩ := d'
  obtain ⟨h₁, h₂, hkind⟩ := hd
  obtain ⟨h₁', h₂', hkind'⟩ := hd'
  simp only [Dependency.key, Prod.mk.injEq] at hk h₁ h₂ hkind h₁' h₂' hkind'
  obtain ⟨rfl, rfl, rfl, hcode⟩ := hk
  subst h₁ h₂ h₁' h₂'
  -- the kinds are sends or reuses, whose codes differ
  rcases hkind with rfl | rfl <;> rcases hkind' with rfl | rfl <;> simp_all [DepKind.code]

namespace Event

/-- Every reuse edge of an event is a direct edge into it. -/
def DirectReuses (e : Event) : Prop :=
  ∀ d ∈ e.reuses, d = Dependency.direct d.cause e.number .reuse d.messageId

/-- Every edge of an event with direct reuse edges is a direct edge into
it. -/
theorem DirectReuses.causes {e : Event} (h : e.DirectReuses) {d : Dependency} (hd : d ∈ e.causes) :
    d.consequence = e.number ∧ d.IsDirect := by
  unfold Event.causes Event.cause? at hd
  rcases List.mem_append.mp hd with hd | hd
  · split at hd
    · cases hd
    · simp only [Option.toList_some, List.mem_singleton] at hd
      subst hd
      exact ⟨rfl, rfl, rfl, .inl rfl⟩
  · rw [h d hd]
    exact ⟨rfl, rfl, rfl, .inr rfl⟩

end Event

/-! ## Scans build direct edges -/

namespace Scan

/-- Every event a scan holds has direct reuse edges. -/
def Direct (s : Scan) : Prop := ∀ e ∈ s.events.toList, e.DirectReuses

theorem direct_start (base : Index) (replacesLast : Bool) (size : Nat) : (Scan.start base replacesLast size).Direct := by
  simp [Direct, Scan.start]

/-- A record of the current event adds only direct reuse edges into it. -/
theorem Direct.eventRecord {s : Scan} (hs : s.Direct) (en : Entry) : (s.eventRecord en).Direct := by
  unfold Scan.eventRecord
  rcases en.beginSend? with _ | bs
  · dsimp only
    split
    · exact hs
    · split
      · exact forall_mem_modifyCurrent hs fun e he => hs e he
      · exact hs
  · -- a send adds the reuse edge from the message's previous event
    refine forall_mem_modifyCurrent hs fun e he => ?_
    dsimp only
    split
    · intro d hd
      rcases List.mem_append.mp hd with hd | hd
      · exact hs e he d hd
      · rw [List.mem_singleton] at hd
        subst hd
        rfl
    · exact hs e he

theorem Direct.line {s s' : Scan} (hs : s.Direct) {l : Line} (h : s.line l = .ok s') : s'.Direct := by
  rcases line_cases h with ⟨-, rfl⟩ | ⟨-, pe, -, rfl⟩ | ⟨-, en, -, rfl⟩ | ⟨m, -, -, rfl⟩
  · exact hs
  · rw [afterBad_eq]
    split
    · exact hs
    · exact forall_mem_modifyCurrent hs fun e he => hs e he
  · have hn : (s.noteRecord en).Direct := by simpa [Direct] using hs
    unfold afterRecord
    dsimp only
    split
    · exact hn
    · exact Direct.eventRecord (forall_mem_modifyCurrent (f := fun e => { e with endOffset := l.endOffset }) hn
        fun e he => hn e he) en
  · intro e he
    simp only [Array.toList_push, List.mem_append, List.mem_singleton] at he
    rcases he with he | rfl
    · exact hs e he
    · intro d hd
      simp [newEvent] at hd

theorem Direct.tick {s : Scan} (hs : s.Direct) (l : Line) : (s.tick l).Direct := by
  obtain ⟨p, hp⟩ := tick_eq s l
  rw [hp]
  exact hs

/-- A run of a scan builds only events with direct reuse edges. -/
theorem run_direct {raw : List (List UInt8)} {s t : Scan} {pos q : Position} (hs : s.Direct)
    (h : run raw s pos = (t, q, none)) : t.Direct := by
  induction raw generalizing s pos with
  | nil =>
    simp only [run_nil, Prod.mk.injEq] at h
    exact h.1 ▸ hs
  | cons x raw ih =>
    rw [run_cons] at h
    split at h
    · rename_i s' hs'
      exact ih ((hs.tick _).line hs') h
    · simp at h

end Scan

/-! ## Wired indexes -/

namespace Index

/-- An index whose consequence list of each number is exactly the edges of
its events that leave it, and whose events have direct reuse edges. -/
structure Wired (x : Index) : Prop where
  linked : x.Linked
  direct : ∀ e ∈ x.events.toList, e.DirectReuses

variable {x : Index} {epoch : Nat}

theorem wired_empty : Index.empty.Wired := ⟨(models_empty 0).linked, by simp [Index.empty]⟩

theorem consequencesOf_commit (x : Index) (s : Scan) (epoch : Nat) (next : Position) (n : Int) :
    (x.commit s epoch next).consequencesOf n = (x.takeEvents s epoch).1.consequencesOf n := by
  rw [commit_eq]
  simp [consequencesOf]

/-- A commit is linked when the events it takes are. -/
theorem Linked.commit {s : Scan} {next : Position} (h : (x.takeEvents s epoch).1.Linked) :
    (x.commit s epoch next).Linked := by
  intro n
  rw [consequencesOf_commit, h n, events_commit]

/-- Events placed anywhere have direct reuse edges when the events read
have. -/
theorem direct_mapIdx_placed {E : List Event} (g : Nat → Nat) (h : ∀ e ∈ E, e.DirectReuses) :
    ∀ e ∈ E.mapIdx (fun i e => e.placed epoch (g i)), e.DirectReuses := by
  intro e he
  obtain ⟨i, hi, rfl⟩ := List.mem_mapIdx.mp he
  exact h E[i] (List.getElem_mem hi)

/-- The events of a placed index, as read, have direct reuse edges when
those it holds have. -/
theorem direct_of_placed {E : List Event} (hE : x.events.toList = E.mapIdx fun i e => e.placed epoch i)
    (h : ∀ e ∈ x.events.toList, e.DirectReuses) : ∀ e ∈ E, e.DirectReuses := by
  intro e he
  obtain ⟨i, hi, rfl⟩ := List.getElem_of_mem he
  exact h (E[i].placed epoch i) (by rw [hE]; exact List.mem_mapIdx.mpr ⟨i, hi, rfl⟩)

/-- A commit of a scan that continues a placed, wired index keeps it wired. -/
theorem Wired.commit_extends {n : Nat} {s : Scan} {next : Position} (hx : x.Placed epoch) (hw : x.Wired)
    (h : x.Extends n s next) : (x.commit s epoch next).Wired := by
  rcases h with ⟨-, raw, hrun⟩ | ⟨e, hlast, hfirst, raw, hrun⟩
  · -- nothing re-read: the scan's events follow the index's
    obtain ⟨-, hr, -⟩ := hx.run_visible hrun
    have hd := Scan.run_direct (Scan.direct_start x false n) hrun
    have hT : x.takeEvents s epoch = (x.appendEvents epoch s.events.toList, 0) := by
      simp only [takeEvents, hr]
    refine ⟨Linked.commit (by rw [hT]; exact hw.linked.appendEvents epoch _), ?_⟩
    rw [events_commit_append hr]
    intro e he
    rcases List.mem_append.mp he with he | he
    · exact hw.direct e he
    · exact direct_mapIdx_placed (fun i => x.events.size + i) hd e he
  · -- the last event `c` re-read: the scan's events take its place
    obtain ⟨-, hr, hbare⟩ := hx.run_visible hrun
    have hd := Scan.run_direct (Scan.direct_start x true n) hrun
    obtain ⟨first, rest, hev, hn⟩ := first_of_number hfirst
    obtain ⟨E, c, hE, rfl⟩ := hx.split_last hlast
    have hfe : first.entries = none := hbare first (by rw [hev]; exact List.mem_cons_self)
    have hT : x.takeEvents s epoch =
        ((x.replaceLast (c.placed epoch E.length) first).appendEvents epoch rest, (c.placed epoch E.length).endOffset) := by
      simp only [takeEvents, hr, hev, last?_eq hE]
    -- the edges of the events read lead to their own events, whose numbers grow
    have hdir := direct_of_placed hE hw.direct
    have hord : InOrder (E ++ [c]) := by
      have h := hx.inOrder
      rwa [hE, inOrder_placed] at h
    have hE' : ∀ g ∈ E, ∀ d ∈ g.causes, d.consequence ≠ c.number := by
      intro g hg d hd
      rw [((hdir g (List.mem_append_left _ hg)).causes hd).1]
      exact ne_of_lt ((List.pairwise_append.mp hord).2.2 g hg c (List.mem_singleton_self c)).1
    have hc : ∀ d ∈ c.causes, d.consequence = c.number := fun d hd =>
      ((hdir c (List.mem_append_right _ (List.mem_singleton_self c))).causes hd).1
    have hflat : x.events.toList.flatMap Event.causes = E.flatMap Event.causes ++ c.causes := by
      rw [hE, flatMap_causes_placed, List.flatMap_append, List.flatMap_singleton]
    have hlink : (x.replaceLast (c.placed epoch E.length) first).Linked := by
      intro m
      rw [consequencesOf_replaceLast hw.linked hflat hn hE' hc, events_replaceLast hE hn hfe, flatMap_causes_placed]
    refine ⟨Linked.commit (by rw [hT]; exact hlink.appendEvents epoch rest), ?_⟩
    rw [events_commit_replace hE hr hev hn hfe next]
    refine direct_mapIdx_placed id fun g hg => ?_
    rcases List.mem_append.mp hg with hg | hg
    · exact hdir g (List.mem_append_left _ hg)
    · exact hd g hg

end Index

/-! ## Every reachable log is wired -/

namespace EventLog

variable {l : EventLog}

theorem wired_extend (hl : l.Inv) (hw : l.index.Wired) (st : Store) (canceled : Bool) :
    (l.extend st canceled).1.index.Wired := by
  by_cases h : (l.extend st canceled).2.2 = none
  · obtain ⟨s, next, heq, hext⟩ := extend_ok h
    rw [heq]
    exact hw.commit_extends hl hext
  · rw [extend_error h]
    exact hw

theorem wired_replace (hw : l.index.Wired) (st : Store) (canceled : Bool) : (l.replace st canceled).1.index.Wired := by
  by_cases h : (l.replace st canceled).2.2 = none
  · obtain ⟨s, next, raw, heq, hrun⟩ := replace_ok h
    rw [heq]
    exact Index.wired_empty.commit_extends (Index.placed_empty _) (Or.inl ⟨rfl, raw, hrun⟩)
  · rw [replace_error h]
    exact hw

theorem wired_synchronize (hl : l.Inv) (hw : l.index.Wired) (st : Store) (canceled : Bool) (change : Change) :
    (l.synchronize st canceled change).1.index.Wired :=
  (synchronize_preserves (fun l' => l'.Inv ∧ l'.index.Wired) (fun _ _ h => h)
    (fun _ h => ⟨h.1.extend st canceled, wired_extend h.1 h.2 st canceled⟩)
    (fun _ h => ⟨h.1.replace st canceled, wired_replace h.2 st canceled⟩) ⟨hl, hw⟩ change).2

theorem wired_checkForChanges (hl : l.Inv) (hw : l.index.Wired) (st : Store) (canceled : Bool) :
    (l.checkForChanges st canceled).1.index.Wired := by
  unfold EventLog.checkForChanges
  rcases hc : l.reader.check st with ⟨r, _ | c⟩
  · exact hw
  · dsimp only
    split
    · exact hw
    · exact wired_synchronize (l := { l with reader := r }) hl hw st canceled _

theorem wired_openFile {st : Store} {id : Nat} {path : String} {opts : LogOptions} {canceled : Bool}
    (h : (openFile st id path opts canceled).2 = .ok l) : l.index.Wired := by
  unfold openFile at h
  split at h
  · simp at h
  · rename_i r _
    dsimp only at h
    unfold rebuild at h
    rcases hsc : (⟨id, path, r, if opts.maxCached ≤ 0 then defaultMaxCached else opts.maxCached.toNat,
        opts.progress, 0, Index.empty, #[], [], .unchanged⟩ : EventLog).scanFrom st canceled Index.empty
        Position.start false with ⟨p, _ | ⟨s, next⟩⟩ <;> rw [hsc] at h
    · simp [Except.map] at h
    · simp only [Except.map, Except.ok.injEq] at h
      subst h
      obtain ⟨raw, hrun⟩ := scanFrom_ok (congrArg Prod.snd hsc)
      exact Index.wired_empty.commit_extends (Index.placed_empty 1) (Or.inl ⟨rfl, raw, hrun⟩)

/-- Every state a log reaches is wired. -/
theorem Reachable.wired (h : l.Reachable) : l.index.Wired := by
  induction h with
  | opened h => exact wired_openFile h
  | checked st canceled hr ih => exact wired_checkForChanges hr.inv ih st canceled
  | synchronized st canceled change hr ih => exact wired_synchronize hr.inv ih st canceled change

end EventLog

/-! ## Collecting and listing dependencies -/

namespace DepCollector

theorem mem_addAll_of_mem {d : Dependency} :
    ∀ (ds : List Dependency) (c : DepCollector), d ∈ c.deps → d ∈ (c.addAll ds).deps
  | [], _, h => h
  | d' :: ds, c, h => by
    refine mem_addAll_of_mem ds (c.add d') ?_
    unfold add
    split
    · exact h
    · exact Array.mem_push_of_mem _ h

/-- Every dependency added is kept, or one with its key. -/
theorem exists_key_of_mem {d : Dependency} :
    ∀ (ds : List Dependency) (c : DepCollector), d ∈ ds → ∃ d' ∈ (c.addAll ds).deps, d'.key = d.key
  | [], _, h => absurd h List.not_mem_nil
  | d' :: ds, c, h => by
    rcases List.mem_cons.mp h with rfl | h
    · obtain ⟨e, he, hk⟩ := c.mem_add_self d
      exact ⟨e, mem_addAll_of_mem ds _ he, hk⟩
    · exact exists_key_of_mem ds (c.add d') h

/-- A collector keeps each key once. -/
theorem nodup_keys_addAll :
    ∀ (ds : List Dependency) (c : DepCollector), (c.deps.toList.map Dependency.key).Nodup →
      ((c.addAll ds).deps.toList.map Dependency.key).Nodup
  | [], _, h => h
  | d :: ds, c, h => by
    refine nodup_keys_addAll ds (c.add d) ?_
    unfold add
    split
    · exact h
    · rename_i hnew
      rw [Array.toList_push, List.map_append, List.nodup_append]
      refine ⟨h, List.nodup_singleton _, fun k hk k' hk' => ?_⟩
      obtain ⟨e, he, rfl⟩ := List.mem_map.mp hk
      rw [List.map_singleton, List.mem_singleton] at hk'
      subst hk'
      intro heq
      exact hnew (Array.any_eq_true'.mpr ⟨e, Array.mem_toList_iff.mp he, by simp [heq]⟩)

theorem mem_of_mem_addAll_empty {d : Dependency} {ds : List Dependency} (h : d ∈ (empty.addAll ds).deps) :
    d ∈ ds :=
  (mem_addAll ds empty h).resolve_left (by simp [empty])

/-- A fold whose every step adds a list of dependencies adds them all. -/
theorem foldl_eq_addAll {step : DepCollector → Nat → DepCollector} {G : Nat → List Dependency}
    (h : ∀ c i, step c i = c.addAll (G i)) :
    ∀ (is : List Nat) (c : DepCollector), is.foldl step c = c.addAll (is.flatMap G)
  | [], _ => rfl
  | i :: is, c => by
    rw [List.foldl_cons, h, foldl_eq_addAll h is, List.flatMap_cons, DepCollector.addAll_append]

end DepCollector

/-- The listing order is lexicographic by cause, consequence, message and
kind. -/
theorem Dependency.le_iff (a b : Dependency) :
    a.le b = true ↔ a.cause < b.cause ∨ a.cause = b.cause ∧ (a.consequence < b.consequence ∨
      a.consequence = b.consequence ∧ (a.messageId < b.messageId ∨
        a.messageId = b.messageId ∧ a.kind.code ≤ b.kind.code)) := by
  unfold Dependency.le
  split_ifs <;> simp <;> omega

/-- Sorted dependencies are in listing order. -/
theorem Dependency.pairwise_sort (ds : List Dependency) : (Dependency.sort ds).Pairwise fun a b => a.le b = true :=
  List.pairwise_mergeSort (fun a b c hab hbc => by rw [Dependency.le_iff] at *; omega)
    (fun a b => by rw [Bool.or_eq_true, Dependency.le_iff, Dependency.le_iff]; omega) ds

/-! ## The crossing of a stretch -/

namespace EventLog

variable {l : EventLog}

/-- A dependency crosses the stretch of positions `lo` to `hi` of a log: it
is an edge of one of the log's events, both its ends are events of the log,
and one of them is at a position from `lo` to `hi`. -/
def Crosses (l : EventLog) (lo hi : Nat) (d : Dependency) : Prop :=
  (∃ e ∈ l.index.events.toList, d ∈ e.causes) ∧
    (∃ c ∈ l.index.events.toList, c.number = d.cause) ∧ (∃ c ∈ l.index.events.toList, c.number = d.consequence) ∧
    ∃ i, ∃ h : i < l.index.events.size, lo ≤ i ∧ i ≤ hi ∧
      (l.index.events[i].number = d.cause ∨ l.index.events[i].number = d.consequence)

/-- The edges the crossing reads at position `i`: those that lead to its
event and those that leave it, with both ends in the log. -/
def edgesAt (l : EventLog) (i : Nat) : List Dependency :=
  ((l.index.events[i]?).map fun e => (e.causes ++ l.index.consequencesOf e.number).filter
    fun d => (l.index.find? d.cause).isSome && (l.index.find? d.consequence).isSome).getD []

/-- The edges the crossing of the positions `lo` to `hi` reads, in order. -/
def stretchEdges (l : EventLog) (lo hi : Nat) : List Dependency :=
  ((List.range (hi + 1 - lo)).map (· + lo)).flatMap l.edgesAt

/-- Between two events of the current epoch, the crossing collects the edges
of the stretch between their positions and lists them. -/
theorem crossing_eq {a b : EventRef} {ea eb : Event} (ha : l.check (some a) = .ok ea)
    (hb : l.check (some b) = .ok eb) :
    l.crossing false (some a) (some b) =
      .ok ⟨(DepCollector.empty.addAll (l.stretchEdges (min ea.index eb.index) (max ea.index eb.index))).sorted,
        false⟩ := by
  unfold crossing
  rw [ha, hb]
  have hmm : (if ea.index > eb.index then (eb.index, ea.index) else (ea.index, eb.index)) =
      (min ea.index eb.index, max ea.index eb.index) := by
    split_ifs <;> simp only [Prod.mk.injEq] <;> omega
  simp only [bind, Except.bind, pure, Except.pure, Bool.false_eq_true, if_false, hmm]
  rw [DepCollector.foldl_eq_addAll (G := l.edgesAt) (fun c i => by unfold edgesAt; cases l.index.events[i]? <;> rfl)]
  rfl

/-- A number has an event in an ordered log exactly when it is found. -/
theorem isSome_find?_iff (hl : l.Inv) (n : Int) :
    (l.index.find? n).isSome = true ↔ ∃ c ∈ l.index.events.toList, c.number = n := by
  constructor
  · intro h
    obtain ⟨c, hc⟩ := Option.isSome_iff_exists.mp h
    exact ⟨c, mem_of_find? hl hc, number_of_find? hc⟩
  · rintro ⟨c, hc, rfl⟩
    rw [find?_of_mem hl hc]
    rfl

/-- The edges read at a position are the edges of the log with both ends
in the log and one end at that position. -/
theorem mem_edgesAt (hl : l.Inv) (hw : l.index.Wired) {i : Nat} (hi : i < l.index.events.size) (d : Dependency) :
    d ∈ l.edgesAt i ↔ (∃ e ∈ l.index.events.toList, d ∈ e.causes) ∧
      (∃ c ∈ l.index.events.toList, c.number = d.cause) ∧ (∃ c ∈ l.index.events.toList, c.number = d.consequence) ∧
      (l.index.events[i].number = d.cause ∨ l.index.events[i].number = d.consequence) := by
  have hmem : l.index.events[i] ∈ l.index.events.toList := Array.getElem_mem_toList hi
  have hlink := hw.linked
  unfold Index.Linked at hlink
  simp only [edgesAt, Array.getElem?_eq_getElem hi, Option.map_some, Option.getD_some, List.mem_filter,
    List.mem_append, Bool.and_eq_true, isSome_find?_iff hl, hlink, List.mem_flatMap, beq_iff_eq]
  constructor
  · rintro ⟨hd | ⟨⟨f, hf, hdf⟩, hc⟩, hknown⟩
    · exact ⟨⟨_, hmem, hd⟩, hknown.1, hknown.2, .inr ((hw.direct _ hmem).causes hd).1.symm⟩
    · exact ⟨⟨f, hf, hdf⟩, hknown.1, hknown.2, .inl hc.symm⟩
  · rintro ⟨⟨f, hf, hdf⟩, hc, hq, hend | hend⟩
    · exact ⟨.inr ⟨⟨f, hf, hdf⟩, hend.symm⟩, hc, hq⟩
    · -- an edge into the event at `i` is one of its own: numbers tell events apart
      have hf' : f.number = d.consequence := ((hw.direct f hf).causes hdf).1.symm
      obtain rfl := (Index.Placed.inOrder hl).eq_of_number_eq hf hmem (hf'.trans hend.symm)
      exact ⟨.inl hdf, hc, hq⟩

theorem mem_stretchEdges (hl : l.Inv) (hw : l.index.Wired) {lo hi : Nat} (hhi : hi < l.index.events.size)
    (d : Dependency) : d ∈ l.stretchEdges lo hi ↔ l.Crosses lo hi d := by
  simp only [stretchEdges, List.mem_flatMap, List.mem_map, List.mem_range]
  constructor
  · rintro ⟨i, ⟨k, hk, rfl⟩, hd⟩
    have hi : k + lo < l.index.events.size := by omega
    obtain ⟨he, hc, hq, hend⟩ := (mem_edgesAt hl hw hi d).mp hd
    exact ⟨he, hc, hq, k + lo, hi, by omega, by omega, hend⟩
  · rintro ⟨he, hc, hq, i, hi, hlo, hih, hend⟩
    exact ⟨i, ⟨i - lo, by omega, by omega⟩, (mem_edgesAt hl hw hi d).mpr ⟨he, hc, hq, hend⟩⟩

/-- Crossing edges are direct. -/
theorem Crosses.isDirect (hw : l.index.Wired) {lo hi : Nat} {d : Dependency} (h : l.Crosses lo hi d) :
    d.IsDirect := by
  obtain ⟨⟨e, he, hd⟩, -⟩ := h
  exact ((hw.direct e he).causes hd).2

/-- A reference that checks names an event at a position of the log. -/
theorem index_lt_of_check (hl : l.Inv) {a : EventRef} {e : Event} (h : l.check (some a) = .ok e) :
    e.index < l.index.events.size := by
  unfold check at h
  dsimp only at h
  split_ifs at h
  split at h
  · rename_i he
    cases h
    obtain ⟨hi, rfl⟩ := Array.getElem?_eq_some_iff.mp he
    rw [(Index.Placed.getElem hl _ hi).1]
    exact hi
  · cases h

/-- Between two events of the current epoch of a reachable log, the crossing
answers, completely, exactly the edges of the log with both ends in it and one
end at a position between theirs, each key once, in listing order. -/
theorem crossing_exactly (hl : l.Reachable) {a b : EventRef} {ea eb : Event} (ha : l.check (some a) = .ok ea)
    (hb : l.check (some b) = .ok eb) :
    ∃ r, l.crossing false (some a) (some b) = .ok r ∧ r.incomplete = false ∧
      (∀ d, d ∈ r.deps ↔ l.Crosses (min ea.index eb.index) (max ea.index eb.index) d) ∧
      (r.deps.map Dependency.key).Nodup ∧ r.deps.Pairwise fun x y => x.le y = true := by
  have hinv := hl.inv
  have hw := hl.wired
  have hhi : max ea.index eb.index < l.index.events.size :=
    max_lt (index_lt_of_check hinv ha) (index_lt_of_check hinv hb)
  set c := DepCollector.empty.addAll (l.stretchEdges (min ea.index eb.index) (max ea.index eb.index))
  have hperm : c.sorted.Perm c.deps.toList := List.mergeSort_perm _ _
  refine ⟨_, crossing_eq ha hb, rfl, fun d => ?_, ?_, Dependency.pairwise_sort _⟩
  · rw [hperm.mem_iff, Array.mem_toList_iff, ← mem_stretchEdges hinv hw hhi]
    refine ⟨DepCollector.mem_of_mem_addAll_empty, fun hd => ?_⟩
    -- the collector keeps an edge of the same key, which is the same direct edge
    obtain ⟨d', hd', hk⟩ := DepCollector.exists_key_of_mem _ DepCollector.empty hd
    have hdir : ∀ {e}, e ∈ l.stretchEdges (min ea.index eb.index) (max ea.index eb.index) → e.IsDirect :=
      fun he => ((mem_stretchEdges hinv hw hhi _).mp he).isDirect hw
    rw [← Dependency.eq_of_key (hdir (DepCollector.mem_of_mem_addAll_empty hd')) (hdir hd) hk]
    exact hd'
  · exact (hperm.map _).nodup_iff.mpr (DepCollector.nodup_keys_addAll _ _ (by simp [DepCollector.empty]))

open FilteredLog in
theorem crossing_exactly_crossLog :
    crossLog.Reachable ∧
      crossLog.check (some (crossLog.refOf crossLog.index.events[0]!)) = .ok crossLog.index.events[0]! ∧
      crossLog.check (some (crossLog.refOf crossLog.index.events[3]!)) = .ok crossLog.index.events[3]! ∧
      ∃ r, crossLog.crossing false (some (crossLog.refOf crossLog.index.events[0]!))
          (some (crossLog.refOf crossLog.index.events[3]!)) = .ok r ∧ r.incomplete = false ∧
        (∀ d, d ∈ r.deps ↔ crossLog.Crosses (min crossLog.index.events[0]!.index crossLog.index.events[3]!.index)
          (max crossLog.index.events[0]!.index crossLog.index.events[3]!.index) d) ∧
        (r.deps.map Dependency.key).Nodup ∧ r.deps.Pairwise fun x y => x.le y = true := by
  have hr : crossLog.Reachable := .opened openFile_crossStore
  have ha := check_refOf hr.inv (getElem!_mem (l := crossLog) (k := 0) (by rw [size_crossLog]; decide))
  have hb := check_refOf hr.inv (getElem!_mem (l := crossLog) (k := 3) (by rw [size_crossLog]; decide))
  exact ⟨hr, ha, hb, crossing_exactly hr ha hb⟩

end EventLog

end EventChart
