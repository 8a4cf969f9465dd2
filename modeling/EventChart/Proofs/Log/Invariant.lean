import EventChart.Proofs.Log.Sync
/-!
# The invariant of a log's index

Every state a log reaches, opened and then checked for changes or brought up
to date any number of times, against any contents of its file, canceled or
not, successfully or not, has an index whose `i`-th event sits at position
`i` in the log's current epoch, with numbers that grow and times that never
go back.  The searches of a log rely on that order.

* `Index.Placed x epoch`: the events of `x` are those of an ordered reading,
  each placed at its position in `epoch`.  `Index.Extends` is what an
  extension commits: a run over any lines that continues the index.
  `Index.Placed.commit_extends` says that such a commit keeps an index
  placed, and `Index.Placed.numbers_commit_extends` that it keeps the numbers
  of its events.  `Reader.readLines_ok` says that a read that did not fail is
  such a run.
* `EventLog.extend_ok`, `EventLog.replace_ok` and their failing twins say
  what an extension and a rebuild do to a log.
* `EventLog.Inv`: the index of a log is placed in its epoch.  It holds of an
  opened log (`EventLog.inv_openFile`) and every extension, rebuild,
  synchronization and check keeps it (`EventLog.Inv.checkForChanges`).
* `EventLog.Reachable`: the states a log reaches; `EventLog.Reachable.inv`
  is the run lemma.
-/

namespace EventChart

namespace Reader

/-- A read that did not fail folds its visitor over the lines of some bytes,
numbered from where it started. -/
theorem readLines_ok {σ : Type} {r : Reader} {s : Store} {canceled : Bool} {start : Position} {upto : Int}
    {init st : σ} {visit : σ → Line → Visit σ} {q : Position}
    (h : r.readLines s canceled start upto init visit = (st, q, none)) :
    ∃ raw, visitLines visit (linesFrom raw start) init start = (st, q, none) := by
  unfold readLines at h
  split at h
  · simp at h
  · dsimp only at h
    -- where the read stops does not matter
    generalize (if upto < 0 ∨ upto > (r.size : Int) then (r.size : Int) else upto) = stop at h
    split_ifs at h
    · -- nothing to read
      obtain ⟨rfl, rfl⟩ : init = st ∧ start = q := by simpa using h
      exact ⟨[], rfl⟩
    · simp at h
    · simp at h
    · exact ⟨_, (foldLines_eq_visitLines _ _ _ _).symm.trans h⟩

end Reader

namespace EventLog

/-- A scan of a log's file that did not fail ran over the lines of some
bytes. -/
theorem scanFrom_ok {l : EventLog} {st : Store} {canceled : Bool} {base : Index} {pos : Position}
    {replacesLast : Bool} {s : Scan} {next : Position}
    (h : (l.scanFrom st canceled base pos replacesLast).2 = .ok (s, next)) :
    ∃ raw, Scan.run raw (Scan.start base replacesLast l.reader.size) pos = (s, next, none) := by
  unfold scanFrom at h
  rcases hr : l.reader.readLines st canceled pos (-1) (Scan.start base replacesLast l.reader.size) Scan.visit
    with ⟨t, q, _ | e⟩ <;> rw [hr] at h
  · simp only [Except.ok.injEq, Prod.mk.injEq] at h
    obtain ⟨rfl, rfl⟩ := h
    exact Reader.readLines_ok hr
  · simp at h

end EventLog

namespace Index

/-! ## Placed indexes -/

/-- The events of an index are those of an ordered reading, each placed at
its position in the epoch `epoch`. -/
def Placed (x : Index) (epoch : Nat) : Prop :=
  ∃ E, x.events.toList = E.mapIdx (fun i e => e.placed epoch i) ∧ InOrder E

variable {x y : Index} {epoch : Nat}

theorem placed_empty (epoch : Nat) : Index.empty.Placed epoch := ⟨[], rfl, List.Pairwise.nil⟩

theorem Placed.inOrder (hx : x.Placed epoch) : InOrder x.events.toList := by
  obtain ⟨E, hE, hord⟩ := hx
  rw [hE, inOrder_placed]
  exact hord

/-- The `i`-th event of a placed index sits at position `i`, in the index's
epoch. -/
theorem Placed.getElem (hx : x.Placed epoch) (i : Nat) (hi : i < x.events.size) :
    x.events[i].index = i ∧ x.events[i].epoch = epoch := by
  obtain ⟨E, hE, -⟩ := hx
  have hi' : i < x.events.toList.length := by simpa using hi
  have h := List.getElem_of_eq hE hi'
  simp only [Array.getElem_toList, List.getElem_mapIdx] at h
  rw [h]
  exact ⟨rfl, rfl⟩

/-- An index whose events are placed copies of an ordering of events with
the same numbers and times is placed. -/
theorem placed_of_strip {E L : List Event} (hE : x.events.toList = E.mapIdx fun i e => e.placed epoch i)
    (hL : L.map Event.strip = E.map Event.strip) (hord : InOrder L) : x.Placed epoch := by
  refine ⟨E, hE, ?_⟩
  rw [← inOrder_map_strip, ← hL, inOrder_map_strip]
  exact hord

@[simp] theorem events_commit (x : Index) (s : Scan) (epoch : Nat) (next : Position) :
    (x.commit s epoch next).events = (x.takeEvents s epoch).1.events := by
  rw [commit_eq]
  simp

/-- What a commit of a scan that re-reads nothing does to the events: the
scan's follow, each placed at its position. -/
theorem events_commit_append {s : Scan} (hs : s.replacesLast = false) (next : Position) :
    (x.commit s epoch next).events.toList =
      x.events.toList ++ s.events.toList.mapIdx fun i e => e.placed epoch (x.events.size + i) := by
  have hT : x.takeEvents s epoch = (x.appendEvents epoch s.events.toList, 0) := by
    simp only [takeEvents, hs]
  rw [events_commit, hT, events_appendEvents]

/-- What a commit of a scan that re-read the last event `c` does to the
events: the re-read ones take its place. -/
theorem events_commit_replace {s : Scan} {E : List Event} {c first : Event} {rest : List Event}
    (hE : x.events.toList = (E ++ [c]).mapIdx fun i e => e.placed epoch i) (hs : s.replacesLast = true)
    (hev : s.events.toList = first :: rest) (hn : first.number = c.number) (he : first.entries = none)
    (next : Position) :
    (x.commit s epoch next).events.toList = (E ++ s.events.toList).mapIdx fun i e => e.placed epoch i := by
  have hT : x.takeEvents s epoch =
      ((x.replaceLast (c.placed epoch E.length) first).appendEvents epoch rest, (c.placed epoch E.length).endOffset) := by
    simp only [takeEvents, hs, hev, last?_eq hE]
  have hr := events_replaceLast hE hn he
  have hrlen : (x.replaceLast (c.placed epoch E.length) first).events.size = (E ++ [first]).length := by
    simpa using congrArg List.length hr
  rw [events_commit, hT, events_appendEvents, hr, hrlen, ← mapIdx_placed_append, hev, List.append_assoc,
    List.singleton_append]

/-- A placed index with a last event is built from some events and that one. -/
theorem Placed.split_last {last : Event} (hx : x.Placed epoch) (hlast : x.last? = some last) :
    ∃ (E : List Event) (c : Event),
      x.events.toList = (E ++ [c]).mapIdx (fun i e => e.placed epoch i) ∧ last = c.placed epoch E.length := by
  obtain ⟨E, hE, -⟩ := hx
  rcases List.eq_nil_or_concat E with rfl | ⟨E', c, rfl⟩
  · rw [last?, ← Array.getLast?_toList, hE] at hlast
    cases hlast
  · rw [List.concat_eq_append] at hE
    exact ⟨E', c, hE, (Option.some.inj ((last?_eq hE).symm.trans hlast)).symm⟩

/-! ## Scans that continue an index -/

/-- A scan that an extension of the index `x`, over a file the reader has seen
at `n` bytes, commits: a run over some lines from where `x` stopped when it
has no event, or else from its last event, re-reading it and finding it
again under its number. -/
def Extends (x : Index) (n : Nat) (s : Scan) (next : Position) : Prop :=
  (x.last? = none ∧ ∃ raw, Scan.run raw (Scan.start x false n) x.scanned = (s, next, none)) ∨
    ∃ e, x.last? = some e ∧ (s.events[0]?.map (·.number)) = some e.number ∧
      ∃ raw, Scan.run raw (Scan.start x true n) e.pos = (s, next, none)

/-- A run from the start of a scan that continues a placed index sees the
index's events, but the last one when it re-reads that one, then its own, in
order; it finds its events bare. -/
theorem Placed.run_visible {raw : List (List UInt8)} {n : Nat} {pos q : Position} {s : Scan} {rl : Bool}
    (hx : x.Placed epoch) (h : Scan.run raw (Scan.start x rl n) pos = (s, q, none)) :
    InOrder ((if rl then x.events.toList.dropLast else x.events.toList) ++ s.events.toList) ∧
      s.replacesLast = rl ∧ ∀ e ∈ s.events.toList, e.entries = none := by
  have hwf := Scan.run_wf (Scan.Wf.start hx.inOrder (fun i hi => (hx.getElem i hi).1) rl n) h
  have hsound := Scan.run_sound (Scan.sound_start x rl n) h
  obtain ⟨hb, hr⟩ := Scan.run_base h
  have hvis := hwf.visible
  simp only [Scan.visible, hb, hr] at hvis
  refine ⟨hvis, hr, fun e he => ?_⟩
  exact (congrArg Event.entries (hsound.bare e he)).symm

/-- A re-reading scan that finds the last event again under its number starts
with it. -/
theorem first_of_number {s : Scan} {e : Event} (hfirst : (s.events[0]?.map (·.number)) = some e.number) :
    ∃ first rest, s.events.toList = first :: rest ∧ first.number = e.number := by
  rcases hev : s.events.toList with _ | ⟨first, rest⟩
  · rw [← Array.getElem?_toList, hev] at hfirst
    cases hfirst
  · rw [← Array.getElem?_toList, hev] at hfirst
    exact ⟨first, rest, rfl, Option.some.inj hfirst⟩

/-- A commit of a scan that continues a placed index keeps it placed. -/
theorem Placed.commit_extends {n : Nat} {s : Scan} {next : Position} (hx : x.Placed epoch)
    (h : x.Extends n s next) : (x.commit s epoch next).Placed epoch := by
  rcases h with ⟨-, raw, hrun⟩ | ⟨e, hlast, hfirst, raw, hrun⟩
  · -- nothing re-read: the scan's events follow the index's
    obtain ⟨hord, hr, -⟩ := hx.run_visible hrun
    obtain ⟨E, hE, -⟩ := hx
    have hlen : x.events.size = E.length := by simpa using congrArg List.length hE
    refine placed_of_strip (E := E ++ s.events.toList) ?_ ?_ hord
    · rw [events_commit_append hr, hE, mapIdx_placed_append, hlen]
    · rw [if_neg Bool.false_ne_true, List.map_append, List.map_append, hE,
        map_placed Event.strip (fun _ _ _ => rfl)]
  · -- the last event re-read: the scan's events follow the others
    obtain ⟨hord, hr, hbare⟩ := hx.run_visible hrun
    obtain ⟨first, rest, hev, hn⟩ := first_of_number hfirst
    obtain ⟨E, c, hE, rfl⟩ := hx.split_last hlast
    have hfront : x.events.toList.dropLast = E.mapIdx fun i e => e.placed epoch i := by
      rw [hE, List.mapIdx_concat, List.dropLast_concat]
    refine placed_of_strip (E := E ++ s.events.toList)
      (events_commit_replace hE hr hev hn (hbare first (by rw [hev]; exact List.mem_cons_self)) next) ?_ hord
    rw [if_pos rfl, hfront, List.map_append, List.map_append, map_placed Event.strip (fun _ _ _ => rfl)]

/-- A commit of a scan that continues a placed index keeps the numbers of its
events, in order, and may add more. -/
theorem Placed.numbers_commit_extends {n : Nat} {s : Scan} {next : Position} (hx : x.Placed epoch)
    (h : x.Extends n s next) :
    ∃ N, (x.commit s epoch next).events.toList.map Event.number = x.events.toList.map Event.number ++ N := by
  rcases h with ⟨-, raw, hrun⟩ | ⟨e, hlast, hfirst, raw, hrun⟩
  · obtain ⟨-, hr, -⟩ := hx.run_visible hrun
    refine ⟨s.events.toList.map Event.number, ?_⟩
    rw [events_commit_append hr, List.map_append, map_placed Event.number (fun _ _ _ => rfl)]
  · obtain ⟨-, hr, hbare⟩ := hx.run_visible hrun
    obtain ⟨first, rest, hev, hn⟩ := first_of_number hfirst
    obtain ⟨E, c, hE, rfl⟩ := hx.split_last hlast
    refine ⟨rest.map Event.number, ?_⟩
    rw [events_commit_replace hE hr hev hn (hbare first (by rw [hev]; exact List.mem_cons_self)) next, hE,
      map_placed Event.number (fun _ _ _ => rfl), map_placed Event.number (fun _ _ _ => rfl), hev]
    simp [hn]

end Index

namespace EventLog

/-! ## The invariant of a log -/

/-- The invariant of a log: its index is placed in its epoch. -/
def Inv (l : EventLog) : Prop := l.index.Placed l.epoch

variable {l : EventLog}

/-- A failed extension leaves the log as it was. -/
theorem extend_error {st : Store} {canceled : Bool} (h : (l.extend st canceled).2.2 ≠ none) :
    (l.extend st canceled).1 = l := by
  unfold EventLog.extend at h ⊢
  rcases hlast : l.index.last? with _ | e <;> simp only [hlast, Option.isSome_none, Option.isSome_some] at h ⊢
  · rcases hsc : l.scanFrom st canceled l.index l.index.scanned false with ⟨p, _ | ⟨s, next⟩⟩
    · rfl
    · rw [hsc] at h
      exact absurd rfl h
  · rcases hsc : l.scanFrom st canceled l.index e.pos true with ⟨p, _ | ⟨s, next⟩⟩
    · rfl
    · rw [hsc] at h
      dsimp only at h ⊢
      split
      · rfl
      · rename_i hfirst
        rw [if_neg hfirst] at h
        exact absurd rfl h

/-- A successful extension commits, in the log's epoch, a scan that continues
the index over the file as the reader has seen it. -/
theorem extend_ok {st : Store} {canceled : Bool} (h : (l.extend st canceled).2.2 = none) :
    ∃ s next, (l.extend st canceled).1 = { l with index := l.index.commit s l.epoch next } ∧
      l.index.Extends l.reader.size s next := by
  unfold EventLog.extend at h ⊢
  rcases hlast : l.index.last? with _ | e <;> simp only [hlast, Option.isSome_none, Option.isSome_some] at h ⊢
  · -- the scan resumes where the index stopped
    rcases hsc : l.scanFrom st canceled l.index l.index.scanned false with ⟨p, _ | ⟨s, next⟩⟩
    · rw [hsc] at h
      cases h
    · obtain ⟨raw, hrun⟩ := scanFrom_ok (congrArg Prod.snd hsc)
      exact ⟨s, next, rfl, Or.inl ⟨hlast, raw, hrun⟩⟩
  · -- the scan re-reads the last event
    rcases hsc : l.scanFrom st canceled l.index e.pos true with ⟨p, _ | ⟨s, next⟩⟩
    · rw [hsc] at h
      cases h
    · rw [hsc] at h
      dsimp only at h ⊢
      split at h
      · cases h
      · rename_i hfirst
        obtain ⟨raw, hrun⟩ := scanFrom_ok (congrArg Prod.snd hsc)
        rw [if_neg hfirst]
        exact ⟨s, next, rfl, Or.inr ⟨e, hlast, by simpa using hfirst, raw, hrun⟩⟩

/-- A failed rebuild leaves the log as it was. -/
theorem replace_error {st : Store} {canceled : Bool} (h : (l.replace st canceled).2.2 ≠ none) :
    (l.replace st canceled).1 = l := by
  unfold EventLog.replace rebuild at h ⊢
  rcases hsc : l.scanFrom st canceled Index.empty Position.start false with ⟨p, _ | ⟨s, next⟩⟩
  · rfl
  · rw [hsc] at h
    exact absurd rfl h

/-- A successful rebuild commits a scan of the whole file to the empty index,
in the next epoch, and retires the events of the current one. -/
theorem replace_ok {st : Store} {canceled : Bool} (h : (l.replace st canceled).2.2 = none) :
    ∃ s next raw, (l.replace st canceled).1 =
        { l with index := Index.empty.commit s (l.epoch + 1) next, cache := [], epoch := l.epoch + 1,
                 retired := l.retired.push l.index.events } ∧
      Scan.run raw (Scan.start Index.empty false l.reader.size) Position.start = (s, next, none) := by
  unfold EventLog.replace rebuild at h ⊢
  rcases hsc : l.scanFrom st canceled Index.empty Position.start false with ⟨p, _ | ⟨s, next⟩⟩
  · rw [hsc] at h
    cases h
  · obtain ⟨raw, hrun⟩ := scanFrom_ok (congrArg Prod.snd hsc)
    exact ⟨s, next, raw, rfl, hrun⟩

/-- An extension keeps the invariant. -/
theorem Inv.extend (hl : l.Inv) (st : Store) (canceled : Bool) : (l.extend st canceled).1.Inv := by
  by_cases h : (l.extend st canceled).2.2 = none
  · obtain ⟨s, next, heq, hext⟩ := extend_ok h
    rw [heq]
    exact Index.Placed.commit_extends hl hext
  · rw [extend_error h]
    exact hl

/-- A rebuild keeps the invariant, in the next epoch when it succeeds. -/
theorem Inv.replace (hl : l.Inv) (st : Store) (canceled : Bool) : (l.replace st canceled).1.Inv := by
  by_cases h : (l.replace st canceled).2.2 = none
  · obtain ⟨s, next, raw, heq, hrun⟩ := replace_ok h
    rw [heq]
    exact (Index.placed_empty (l.epoch + 1)).commit_extends (Or.inl ⟨rfl, raw, hrun⟩)
  · rw [replace_error h]
    exact hl

/-- Bringing a log up to date keeps the invariant, whatever the change. -/
theorem Inv.synchronize (hl : l.Inv) (st : Store) (canceled : Bool) (change : Change) :
    (l.synchronize st canceled change).1.Inv := by
  have hx := hl.extend st canceled
  unfold EventLog.synchronize
  rcases change with _ | _ | _ | code
  · exact hl
  · -- an append: the extension, then a rebuild if it asks for one
    dsimp only
    rcases hext : l.extend st canceled with ⟨l1, p1, _ | e⟩
    · rw [hext] at hx
      exact hx
    · rw [hext] at hx
      dsimp only
      split
      · have hr := hx.replace st canceled
        rcases hrep : l1.replace st canceled with ⟨l2, p2, _ | e2⟩ <;> rw [hrep] at hr <;> exact hr
      · exact hx
  · -- an overwrite: a rebuild
    have hr := hl.replace st canceled
    dsimp only
    rcases hrep : l.replace st canceled with ⟨l1, p1, _ | e⟩ <;> rw [hrep] at hr <;> exact hr
  · exact hl

/-- A check keeps the invariant, whatever the file now holds. -/
theorem Inv.checkForChanges (hl : l.Inv) (st : Store) (canceled : Bool) : (l.checkForChanges st canceled).1.Inv := by
  unfold EventLog.checkForChanges
  rcases hc : l.reader.check st with ⟨r, _ | c⟩
  · exact hl
  · dsimp only
    split
    · exact hl
    · exact (show ({ l with reader := r } : EventLog).Inv from hl).synchronize st canceled _

/-- An opened log satisfies the invariant. -/
theorem inv_openFile {st : Store} {id : Nat} {path : String} {opts : LogOptions} {canceled : Bool}
    (h : (openFile st id path opts canceled).2 = .ok l) : l.Inv := by
  unfold openFile at h
  split at h
  · simp at h
  · rename_i r _
    dsimp only at h
    unfold rebuild at h
    rcases hsc : (⟨id, path, r, if opts.maxCached ≤ 0 then defaultMaxCached else opts.maxCached.toNat,
        opts.progress, 0, Index.empty, #[], [], .unchanged⟩ : EventLog).scanFrom st canceled Index.empty
        Position.start false with ⟨p, _ | ⟨s, next⟩⟩ <;> rw [hsc] at h
    · simp [Except.map] at h
    · simp only [Except.map, Except.ok.injEq] at h
      subst h
      obtain ⟨raw, hrun⟩ := scanFrom_ok (congrArg Prod.snd hsc)
      exact (Index.placed_empty 1).commit_extends (Or.inl ⟨rfl, raw, hrun⟩)

/-! ## Reachable states -/

/-- The states a log reaches: opened, then checked for changes or brought up
to date any number of times, against any contents of the store, canceled or
not, successfully or not. -/
inductive Reachable : EventLog → Prop
  | opened {st : Store} {id : Nat} {path : String} {opts : LogOptions} {canceled : Bool} {l : EventLog} :
      (openFile st id path opts canceled).2 = .ok l → Reachable l
  | checked {l : EventLog} (st : Store) (canceled : Bool) : Reachable l → Reachable (l.checkForChanges st canceled).1
  | synchronized {l : EventLog} (st : Store) (canceled : Bool) (change : Change) :
      Reachable l → Reachable (l.synchronize st canceled change).1

/-- Every reachable state satisfies the invariant. -/
theorem Reachable.inv (h : l.Reachable) : l.Inv := by
  induction h with
  | opened h => exact inv_openFile h
  | checked st canceled _ ih => exact ih.checkForChanges st canceled
  | synchronized st canceled change _ ih => exact ih.synchronize st canceled change

end EventLog

end EventChart
