import EventChart.Proofs.Log.Uncached
import EventChart.Proofs.Log.Delivery
import EventChart.Proofs.Entry.ReadBack
/-!
# The entries of an event, read and kept

An event's entries are read from the file on demand, between its position
and its end, and kept for a bounded number of events.  This module says
what a read gives and that keeping it is invisible to the reader, as long
as every read happens while the file holds the bytes the log was last
brought up to date with.

* `Event.entriesIn`: the entries of an event in some bytes, its lines that
  are not blank and read, each owned by the event; `Event.LiesIn` says
  where an event lies, and `Scan.whole_liesIn` that every event of a scan
  lies in the scanned bytes.
* `EventLog.materialize_liesIn`: reading an event that lies in the bytes
  its reader saw gives its entries there, and keeps them.
* `EventLog.CacheOk`: the kept entries are bounded by the cache, which
  keeping entries and every check preserve, so that `CacheOk.countP_le`
  bounds the events keeping entries.
* `EventLog.Fresh`: the kept entries are those of the file's bytes, unless
  an overwrite is pending; checks and reads preserve it.
* `EventLog.Session` and `Session.entries_read_faithfully`: in every
  session, the bound holds, and a read gives the event's entries in the
  file, kept or not.  `EventLog.entries_stale_after_rewrite` shows a read
  made while the file held other bytes spoiling a later one.
-/

namespace EventChart

open EventChart.Text

namespace Line

/-- The entry a line gives the event numbered `n`: what the line reads as,
owned by the event, unless it is blank or does not read. -/
def entryFor (n : Int) (ln : Line) : Option Entry :=
  match ln.entry? with
  | some (.ok en) => some { en with eventNumber := n }
  | _ => none

/-- An event line with the number `n` reads as an entry of the event. -/
theorem entry_of_marker {n : Int} {ln : Line} (hm : (ln.marker?.map (·.number)) = some n) :
    ∃ en, ln.entry? = some (.ok en) ∧ (en.eventMarker?.map (·.number)) = some n := by
  unfold Line.marker? at hm
  rcases he : ln.entry? with _ | (pe | en) <;> rw [he] at hm
  · cases hm
  · cases hm
  · exact ⟨en, rfl, hm⟩

/-- The entry an event line gives its event is read at the line, and is an
event line with the event's number. -/
theorem entryFor_of_marker {n : Int} {ln : Line} (hm : (ln.marker?.map (·.number)) = some n) :
    ∃ en, ln.entryFor n = some en ∧ en.offset = ln.offset ∧ en.line = ln.number ∧
      (en.eventMarker?.map (·.number)) = some n := by
  obtain ⟨en, he, hmn⟩ := entry_of_marker hm
  have hp : Entry.parse ln.text ln.number ln.offset = .ok en := by
    unfold Line.entry? at he
    split at he
    · cases he
    · exact Option.some.inj he
  obtain ⟨hl, ho, -⟩ := parse_ok_cases hp
  exact ⟨{ en with eventNumber := n }, by simp [entryFor, he], ho, hl, hmn⟩

end Line

namespace Event

/-- The complete lines of the bytes `F` from the event's position up to its
end, numbered from the event's line. -/
def linesIn (e : Event) (F : List UInt8) : List Line :=
  linesFrom (completeLines [] (bytesBetween F e.pos.offset e.endOffset)) e.pos

/-- The entries of the event in the bytes `F`: those of its lines that are
not blank and read, in file order, each owned by the event. -/
def entriesIn (e : Event) (F : List UInt8) : List Entry := (e.linesIn F).filterMap (Line.entryFor e.number)

/-- Where an event lies in the bytes `F`: at its position starts a complete
line, an event line with the event's number, which ends no later than the
event; the event ends within `F`. -/
def LiesIn (e : Event) (F : List UInt8) : Prop :=
  0 ≤ e.pos.offset ∧ e.endOffset ≤ F.length ∧
    ∃ x rest, IsLine x ∧ F.drop e.pos.offset.toNat = x ++ rest ∧
      ((Scan.lineAt x e.pos).marker?.map (·.number)) = some e.number ∧ e.pos.offset + x.length ≤ e.endOffset

/-- An event that lies in some bytes lies in more bytes after them, and so
does one with its position and number that ends later, within them. -/
theorem LiesIn.grow {e e' : Event} {F : List UInt8} (h : e.LiesIn F) (G : List UInt8) (hpos : e'.pos = e.pos)
    (hn : e'.number = e.number) (hle : e.endOffset ≤ e'.endOffset) (hend : e'.endOffset ≤ (F ++ G).length) :
    e'.LiesIn (F ++ G) := by
  obtain ⟨h0, hF, x, rest, hx, hdrop, hm, hxe⟩ := h
  refine ⟨hpos ▸ h0, hend, x, rest ++ G, hx, ?_, by rw [hpos, hn]; exact hm, by rw [hpos]; omega⟩
  rw [hpos, List.drop_append_of_le_length (by omega), hdrop, List.append_assoc]

theorem LiesIn.append {e : Event} {F : List UInt8} (h : e.LiesIn F) (G : List UInt8) : e.LiesIn (F ++ G) :=
  h.grow G rfl rfl le_rfl (by have := h.2.1; simp; omega)

theorem liesIn_placed {e : Event} {F : List UInt8} (epoch i : Nat) : (e.placed epoch i).LiesIn F ↔ e.LiesIn F :=
  Iff.rfl

@[simp] theorem liesIn_uncached {e : Event} {F : List UInt8} : e.uncached.LiesIn F ↔ e.LiesIn F := Iff.rfl

/-- The entries of an event in some bytes do not depend on the entries it keeps. -/
@[simp] theorem entriesIn_withEntries (e : Event) (c : Option (List Entry)) (F : List UInt8) :
    ({ e with entries := c } : Event).entriesIn F = e.entriesIn F := rfl

/-- Bytes appended after an event leave its entries as they were. -/
theorem entriesIn_append {e : Event} {F : List UInt8} (h : e.LiesIn F) (G : List UInt8) :
    e.entriesIn (F ++ G) = e.entriesIn F := by
  have hb : bytesBetween (F ++ G) e.pos.offset e.endOffset = bytesBetween F e.pos.offset e.endOffset := by
    have hend := h.2.1
    unfold bytesBetween
    rw [List.take_append_of_le_length (by omega)]
  simp only [entriesIn, linesIn, hb]

/-- The lines of an event that lies in `F` start with its event line. -/
theorem linesIn_of_liesIn {e : Event} {F : List UInt8} (h : e.LiesIn F) :
    ∃ x rest, e.linesIn F = Scan.lineAt x e.pos :: rest ∧
      ((Scan.lineAt x e.pos).marker?.map (·.number)) = some e.number := by
  obtain ⟨h0, -, x, R, ⟨w, hw, rfl⟩, hdrop, hm, hxe⟩ := h
  -- the bytes of the event are its event line and then what the event's end leaves of the rest
  have hb : bytesBetween F e.pos.offset e.endOffset =
      w ++ 10 :: R.take (e.endOffset.toNat - e.pos.offset.toNat - (w ++ [10]).length) := by
    unfold bytesBetween
    rw [List.drop_take, hdrop, List.take_append, List.take_of_length_le (by simp at hxe ⊢; omega)]
    simp
  have hl : e.linesIn F = Scan.lineAt (w ++ [10]) e.pos ::
      linesFrom (completeLines [] (R.take (e.endOffset.toNat - e.pos.offset.toNat - (w ++ [10]).length)))
        ⟨e.pos.offset + (w ++ [10]).length, Position.nextLine e.pos.line⟩ := by
    unfold linesIn
    rw [hb, completeLines_line [] w _ hw, Scan.linesFrom_cons]
    simp only [List.reverse_nil, List.nil_append]
  exact ⟨_, _, hl, hm⟩

/-- The entries of an event that lies in `F` start with its event line's:
read at the event's position, with the event's number. -/
theorem entriesIn_head {e : Event} {F : List UInt8} (h : e.LiesIn F) :
    ∃ en rest, e.entriesIn F = en :: rest ∧ en.offset = e.pos.offset ∧ en.line = e.pos.line ∧
      (en.eventMarker?.map (·.number)) = some e.number := by
  obtain ⟨x, rest, hl, hm⟩ := linesIn_of_liesIn h
  obtain ⟨en, hen, ho, hline, hmn⟩ := Line.entryFor_of_marker hm
  refine ⟨en, rest.filterMap (Line.entryFor e.number), ?_, ho, hline, hmn⟩
  rw [entriesIn, hl, List.filterMap_cons, hen]

end Event

namespace Scan

/-- A line keeps every event of a scan lying in the bytes read so far. -/
theorem line_liesIn {s s' : Scan} {P y : List UInt8} {p : Position} (hy : IsLine y) (hp : p.offset = P.length)
    (h : s.line (lineAt y p) = .ok s') (hs : ∀ e ∈ s.events.toList, e.LiesIn P) :
    ∀ e ∈ s'.events.toList, e.LiesIn (P ++ y) := by
  have hy0 : 0 < y.length := by
    obtain ⟨w, -, rfl⟩ := hy
    simp
  have hlen : ((P ++ y).length : Int) = p.offset + y.length := by simp [hp]
  rcases hm : (lineAt y p).marker? with _ | m
  · -- a line without an event line moves at most the current event's end, to its own
    by_cases hne : s.events = #[]
    · have hsize := line_size h
      rw [hm, hne] at hsize
      have hnil : s'.events = #[] := by simpa using hsize
      simp [hnil]
    · obtain ⟨f, hk, hev, hend, -⟩ := line_within h hm hne (by simp only [lineAt]; omega)
      rw [hev]
      refine forall_mem_modifyCurrent (fun e he => (hs e he).append y) fun e he => ?_
      have he' := hend e (by simp only [lineAt]; have := (hs e he).2.1; omega)
      exact (hs e he).grow y (hk e).2.2.1 (hk e).1 he'.1 (by simp only [lineAt] at he'; omega)
  · -- an event line starts an event there
    rw [line_event hm, beginEvent_eq] at h
    split at h
    · cases h
    · cases h
      intro e he
      rw [Array.toList_push, List.mem_append, List.mem_singleton] at he
      rcases he with he | rfl
      · exact (hs e he).append y
      · have hpos : (s.newEvent m (lineAt y p)).pos = p := rfl
        refine ⟨by rw [hpos, hp]; omega, by simp only [newEvent, lineAt]; omega, y, [], hy, ?_, ?_, ?_⟩
        · rw [hpos, hp, Int.toNat_natCast, List.drop_left, List.append_nil]
        · rw [hpos, hm]
          rfl
        · simp [newEvent, lineAt]

/-- A run keeps every event of a scan lying in the bytes read so far. -/
theorem run_liesIn {raw P : List (List UInt8)} {s t : Scan} {q : Position} (hraw : ∀ x ∈ raw, IsLine x)
    (h : run raw s (posAfter P Position.start) = (t, q, none)) (hs : ∀ e ∈ s.events.toList, e.LiesIn P.flatten) :
    ∀ e ∈ t.events.toList, e.LiesIn (P ++ raw).flatten := by
  induction raw generalizing P s with
  | nil =>
    simp only [run_nil, Prod.mk.injEq] at h
    obtain ⟨rfl, -⟩ := h
    simpa using hs
  | cons x raw ih =>
    rw [run_cons] at h
    split at h
    · rename_i s' hs'
      have hp : (posAfter P Position.start).offset = P.flatten.length := by simp [posAfter, Position.start]
      have hstep := line_liesIn (hraw x List.mem_cons_self) hp hs' (by simpa using hs)
      have hpos : (⟨(posAfter P Position.start).offset + x.length,
          Position.nextLine (posAfter P Position.start).line⟩ :
          Position) = posAfter (P ++ [x]) Position.start := by
        rw [posAfter_append, posAfter_cons, posAfter_nil]
      rw [hpos] at h
      have := ih (fun y hy => hraw y (List.mem_cons_of_mem _ hy)) h (by simpa using hstep)
      simpa using this
    · simp at h

/-- Every event a scan of a whole file finds lies in the file. -/
theorem whole_liesIn {F : List UInt8} {s : Scan} {q : Position} (h : whole F = (s, q, none)) :
    ∀ e ∈ s.events.toList, e.LiesIn F := by
  obtain ⟨hls, tail, -, hF⟩ := bytes_eq_flatten F
  have hrun : run (completeLines [] F) (start Index.empty false F.length) (posAfter [] Position.start) =
      (s, q, none) := by
    rw [posAfter_nil]
    exact h
  have hl := run_liesIn hls hrun (by simp [start])
  intro e he
  have := (hl e he).append tail
  rwa [List.nil_append, ← hF] at this

end Scan

namespace EventLog

/-! ## Reading an event's entries -/

/-- A read of an event's lines that took its first line keeps what it
gathered as the event's entries. -/
theorem materialize_of_read {l : EventLog} {st : Store} {i : Nat} {e : Event} {arr : Array Entry} {q : Position}
    (h : l.reader.readLines st false e.pos e.endOffset (true, #[]) (entryVisit e.number) = ((false, arr), q, none)) :
    l.materialize st i e = (l.keepEntries i arr.toList, .ok arr.toList) := by
  unfold materialize
  rw [h]
  rfl

/-- Once the first line was taken, every line goes on, adding its entry. -/
theorem entryVisit_taken (n : Int) (arr : Array Entry) (ln : Line) :
    entryVisit n (false, arr) ln = .next (false, arr ++ (ln.entryFor n).toList.toArray) := by
  unfold entryVisit Line.entryFor Line.entry?
  by_cases hb : (Text.trimBlank ln.text == "") = true
  · simp [hb]
  · simp only [hb, Bool.false_eq_true, if_false, Bool.false_and]
    cases Entry.parse ln.text ln.number ln.offset <;> simp

theorem visitLines_taken (n : Int) (L : List Line) (arr : Array Entry) (pos : Position) :
    (Reader.visitLines (entryVisit n) L (false, arr) pos).1 =
        (false, arr ++ (L.filterMap (Line.entryFor n)).toArray) ∧
      (Reader.visitLines (entryVisit n) L (false, arr) pos).2.2 = none := by
  induction L generalizing arr pos with
  | nil => simp [Reader.visitLines]
  | cons ln L ih =>
    simp only [Reader.visitLines, entryVisit_taken]
    obtain ⟨h1, h2⟩ := ih (arr ++ (ln.entryFor n).toList.toArray) ⟨ln.endOffset, Position.nextLine ln.number⟩
    refine ⟨?_, h2⟩
    rw [h1, List.filterMap_cons]
    cases ln.entryFor n <;> simp

/-- An event line with the event's number is taken first. -/
theorem entryVisit_first {n : Int} {ln : Line} (hm : (ln.marker?.map (·.number)) = some n) :
    entryVisit n (true, #[]) ln = .next (false, (ln.entryFor n).toList.toArray) := by
  obtain ⟨en, he, hmn⟩ := Line.entry_of_marker hm
  unfold Line.entry? at he
  split at he
  · cases he
  · rename_i hb
    have hp := Option.some.inj he
    unfold entryVisit Line.entryFor Line.entry?
    simp [hb, hp, hmn]

/-- Reading an event that lies in the bytes its reader has seen gives its
entries in them, and keeps those. -/
theorem materialize_liesIn {l : EventLog} {st : Store} {f : Nat} {F : List UInt8} (hr : l.reader.Sees f F)
    (hF : (st.contents f).data.toList = F) {e : Event} (he : e.LiesIn F) (i : Nat) :
    l.materialize st i e = (l.keepEntries i (e.entriesIn F), .ok (e.entriesIn F)) := by
  obtain ⟨x, rest, hl, hm⟩ := Event.linesIn_of_liesIn he
  have hend : l.reader.readEnd e.endOffset = e.endOffset := by
    obtain ⟨h0, hF, _, _, -, -, -, hxe⟩ := he
    have hsize := hr.size
    unfold Reader.readEnd
    split <;> omega
  have hread := Reader.readLines_eq_visitLines (s := st) hr.handle (o := e.pos.offset) (k := e.pos.line) he.1
    e.endOffset (true, #[]) (entryVisit e.number)
  rw [hend, hF] at hread
  change l.reader.readLines st false e.pos _ _ _ = Reader.visitLines _ (e.linesIn F) _ e.pos at hread
  rw [hl] at hread
  simp only [Reader.visitLines, entryVisit_first hm] at hread
  obtain ⟨h1, h2⟩ := visitLines_taken e.number rest (((Scan.lineAt x e.pos).entryFor e.number).toList.toArray)
    ⟨(Scan.lineAt x e.pos).endOffset, Position.nextLine (Scan.lineAt x e.pos).number⟩
  rw [materialize_of_read (hread.trans (Prod.ext h1 (Prod.ext rfl h2)))]
  have hes : e.entriesIn F = (((Scan.lineAt x e.pos).entryFor e.number).toList.toArray ++
      (rest.filterMap (Line.entryFor e.number)).toArray).toList := by
    rw [Event.entriesIn, hl, List.filterMap_cons]
    cases (Scan.lineAt x e.pos).entryFor e.number <;> simp
  rw [hes]

/-! ## Keeping entries -/

/-- Setting what the event at one position keeps: that event changes its
entries only, and every other stays. -/
theorem getElem?_modify_entries {xs : Array Event} {i j : Nat} {c : Option (List Entry)} {e' : Event}
    (h : (xs.modify i fun ev => { ev with entries := c })[j]? = some e') :
    (i = j ∧ ∃ e, xs[j]? = some e ∧ e' = { e with entries := c }) ∨ (i ≠ j ∧ xs[j]? = some e') := by
  rw [Array.getElem?_modify] at h
  split at h
  · obtain ⟨e, he, rfl⟩ := Option.map_eq_some_iff.mp h
    exact .inl ⟨by assumption, e, he, rfl⟩
  · exact .inr ⟨by assumption, h⟩

theorem map_uncached_modify (xs : Array Event) (i : Nat) (c : Option (List Entry)) :
    (xs.modify i fun ev => { ev with entries := c }).map Event.uncached = xs.map Event.uncached := by
  apply Array.ext_getElem?
  intro j
  simp only [Array.getElem?_map, Array.getElem?_modify]
  split
  · rw [Option.map_map]
    rfl
  · rfl

/-- Keeping entries for the event at position `i`: when the cache has room,
its position joins the cache; otherwise the oldest position leaves it, and
the event there keeps nothing. -/
theorem keepEntries_cases (l : EventLog) (i : Nat) (es : List Entry) :
    (l.cache.length + 1 ≤ l.maxCached ∧
        l.keepEntries i es = { l with
          index := { l.index with events := l.index.events.modify i fun ev => { ev with entries := some es } },
          cache := l.cache ++ [i] }) ∨
      ∃ old rest, l.cache ++ [i] = old :: rest ∧ l.maxCached < l.cache.length + 1 ∧
        l.keepEntries i es = { l with
          index := { l.index with
            events := (l.index.events.modify i fun ev => { ev with entries := some es }).modify old
              fun ev => { ev with entries := none } },
          cache := rest } := by
  by_cases hroom : l.cache.length + 1 ≤ l.maxCached
  · refine .inl ⟨hroom, ?_⟩
    have hfit : ¬ (l.cache ++ [i]).length > l.maxCached := by simp; omega
    simp only [keepEntries, hfit, if_false]
  · obtain ⟨old, rest, hcons⟩ : ∃ old rest, l.cache ++ [i] = old :: rest :=
      List.exists_cons_of_ne_nil (by simp)
    refine .inr ⟨old, rest, hcons, by omega, ?_⟩
    have hover : (old :: rest).length > l.maxCached := by rw [← hcons]; simp; omega
    simp only [keepEntries, hcons, hover, ↓reduceIte]

/-- Keeping entries changes no more than the entries of the events, the cache
and nothing else: forgetting the entries, the log is as it was. -/
theorem keepEntries_uncached (l : EventLog) (i : Nat) (es : List Entry) :
    (l.keepEntries i es).uncached = l.uncached := by
  rcases keepEntries_cases l i es with ⟨-, h⟩ | ⟨old, rest, -, -, h⟩ <;>
    simp only [h, uncached, Index.uncached, map_uncached_modify]

theorem keepEntries_frame (l : EventLog) (i : Nat) (es : List Entry) :
    (l.keepEntries i es).maxCached = l.maxCached ∧ (l.keepEntries i es).pending = l.pending := by
  rcases keepEntries_cases l i es with ⟨-, h⟩ | ⟨old, rest, -, -, h⟩ <;> rw [h] <;> exact ⟨rfl, rfl⟩

/-- After keeping `es` for the event at position `i`, an event keeps nothing,
or keeps `es` at `i`, or is as it was. -/
theorem keepEntries_event {l : EventLog} {i : Nat} {es : List Entry} {j : Nat} {e' : Event}
    (h : (l.keepEntries i es).index.events[j]? = some e') :
    e'.entries = none ∨ (j = i ∧ ∃ e, l.index.events[i]? = some e ∧ e' = { e with entries := some es }) ∨
      l.index.events[j]? = some e' := by
  -- the event at `j` after the position `i` took its entries
  have hkept : ∀ e'', (l.index.events.modify i fun ev => { ev with entries := some es })[j]? = some e'' →
      (j = i ∧ ∃ e, l.index.events[i]? = some e ∧ e'' = { e with entries := some es }) ∨
        l.index.events[j]? = some e'' := by
    intro e'' h''
    rcases getElem?_modify_entries h'' with ⟨rfl, hrest⟩ | ⟨-, hj⟩
    · exact .inl ⟨rfl, hrest⟩
    · exact .inr hj
  rcases keepEntries_cases l i es with ⟨-, hk⟩ | ⟨old, rest, -, -, hk⟩ <;> rw [hk] at h
  · exact .inr (hkept e' h)
  · rcases getElem?_modify_entries h with ⟨-, e'', -, rfl⟩ | ⟨-, hj⟩
    · exact .inl rfl
    · exact .inr (hkept e' hj)

/-- The entries a log keeps are bounded: its cache lists at most `maxCached`
positions, and every event that keeps entries has its position listed. -/
structure CacheOk (l : EventLog) : Prop where
  bound : l.cache.length ≤ l.maxCached
  listed : ∀ i e, l.index.events[i]? = some e → e.entries.isSome → i ∈ l.cache

/-- A bounded cache keeps entries for at most `maxCached` events. -/
theorem CacheOk.countP_le {l : EventLog} (h : l.CacheOk) :
    (l.index.events.toList.countP fun e => e.entries.isSome) ≤ l.maxCached := by
  set L := l.index.events.toList
  -- the positions of the events that keep entries: distinct, and all in the cache
  set J := ((List.finRange L.length).filter fun j => L[j.1].entries.isSome).map Fin.val
  have hJ : J.Nodup := ((List.nodup_finRange _).filter _).map Fin.val_injective
  have hsub : J ⊆ l.cache := by
    intro j hj
    obtain ⟨k, hk, rfl⟩ := List.mem_map.mp hj
    exact h.listed k.1 L[k.1] (by simp [L]) (List.mem_filter.mp hk).2
  calc L.countP (fun e => e.entries.isSome)
      = J.length := by
        conv_lhs => rw [← List.map_getElem_finRange L]
        rw [List.countP_map, List.countP_eq_length_filter, List.length_map]
        rfl
    _ ≤ l.cache.length := hJ.length_le_of_subset hsub
    _ ≤ l.maxCached := h.bound

/-- Keeping entries keeps the cache bounded, whether or not it drops the
oldest, and whether or not the position was in the cache already. -/
theorem CacheOk.keepEntries {l : EventLog} (h : l.CacheOk) (i : Nat) (es : List Entry) :
    (l.keepEntries i es).CacheOk := by
  -- every event keeping entries once `i` took its own is listed with `i`
  have hlisted : ∀ j e', (l.index.events.modify i fun ev => { ev with entries := some es })[j]? = some e' →
      e'.entries.isSome → j ∈ l.cache ++ [i] := by
    intro j e' hj hs
    rcases getElem?_modify_entries hj with ⟨rfl, -⟩ | ⟨-, hj⟩
    · exact List.mem_append_right _ (List.mem_singleton_self _)
    · exact List.mem_append_left _ (h.listed j e' hj hs)
  rcases keepEntries_cases l i es with ⟨hroom, hk⟩ | ⟨old, rest, hcons, hover, hk⟩ <;> rw [hk]
  · exact ⟨by simpa using hroom, hlisted⟩
  · refine ⟨?_, fun j e' hj hs => ?_⟩
    · have hlen := congrArg List.length hcons
      simp only [List.length_append, List.length_cons, List.length_nil] at hlen
      have := h.bound
      show rest.length ≤ l.maxCached
      omega
    · rcases getElem?_modify_entries hj with ⟨-, e'', -, rfl⟩ | ⟨hne, hj⟩
      · simp at hs
      · have hmem := hlisted j e' hj hs
        rw [hcons] at hmem
        exact (List.mem_cons.mp hmem).resolve_left (Ne.symm hne)

/-- The cache of a log kept by a step that keeps it stays bounded. -/
theorem CacheOk.of_keepsCache {l l' : EventLog} (h : l.CacheOk) (hk : KeepsCache l l') : l'.CacheOk := by
  rcases hk.cache with hc | ⟨hc, hb⟩
  · refine ⟨by rw [hc, hk.maxCached]; exact h.bound, fun i e he hs => ?_⟩
    rw [hc]
    exact h.listed i e (hk.entries i e he hs) hs
  · refine ⟨by simp [hc], fun i e he hs => ?_⟩
    rw [hb e (Array.mem_toList_iff.mpr (Array.mem_of_getElem? he))] at hs
    cases hs

/-! ## Reading entries -/

/-- A read of an event's lines leaves the log as it was, or keeps entries
for the event. -/
theorem materialize_fst (l : EventLog) (st : Store) (i : Nat) (e : Event) :
    (l.materialize st i e).1 = l ∨ ∃ es, (l.materialize st i e).1 = l.keepEntries i es := by
  unfold materialize
  rcases l.reader.readLines st false e.pos e.endOffset (true, #[]) (entryVisit e.number) with
    ⟨⟨first, arr⟩, q, _ | f⟩
  · dsimp only
    split
    · exact .inl rfl
    · exact .inr ⟨_, rfl⟩
  · exact .inl rfl

/-- What keeping entries preserves, a read of an event's entries preserves. -/
theorem entries_preserves (P : EventLog → Prop) {l : EventLog} (st : Store) (r : EventRef)
    (hk : ∀ i es, P (l.keepEntries i es)) (h : P l) : P (l.entries st r).1 := by
  unfold entries
  split
  · exact h
  · split
    · exact h
    · split
      · exact h
      · rcases materialize_fst l st r.index _ with hm | ⟨es, hm⟩ <;> rw [hm]
        · exact h
        · exact hk _ _

theorem entries_uncached (l : EventLog) (st : Store) (r : EventRef) : (l.entries st r).1.uncached = l.uncached :=
  entries_preserves (fun l' => l'.uncached = l.uncached) st r (keepEntries_uncached l) rfl

theorem CacheOk.entries {l : EventLog} (h : l.CacheOk) (st : Store) (r : EventRef) : (l.entries st r).1.CacheOk :=
  entries_preserves CacheOk st r h.keepEntries h

theorem entries_frame (l : EventLog) (st : Store) (r : EventRef) :
    (l.entries st r).1.maxCached = l.maxCached ∧ (l.entries st r).1.pending = l.pending :=
  entries_preserves (fun l' => l'.maxCached = l.maxCached ∧ l'.pending = l.pending) st r
    (keepEntries_frame l) ⟨rfl, rfl⟩

/-! ## Fresh entries -/

/-- The events of an index synced with `F` lie in `F`. -/
theorem Synced.liesIn {l : EventLog} {F : List UInt8} (h : l.Synced F) :
    ∀ e ∈ l.index.events.toList, e.LiesIn F := by
  obtain ⟨s, q, hw, hx, -⟩ := h
  intro e he
  rw [hx.events, List.mem_mapIdx] at he
  obtain ⟨i, hi, rfl⟩ := he
  exact (Event.liesIn_placed _ _).mpr (Scan.whole_liesIn hw _ (List.getElem_mem hi))

/-- The events of a log lagging behind `F` by no overwrite lie in `F`. -/
theorem Lags.liesIn {l : EventLog} {c : Change} {F : List UInt8} (h : l.Lags c F) (hc : c ≠ .overwritten) :
    ∀ e ∈ l.index.events.toList, e.LiesIn F := by
  rcases c with _ | _ | _ | code
  · exact Synced.liesIn h
  · obtain ⟨F₀, G, rfl, hs⟩ := h
    exact fun e he => (hs.liesIn e he).append G
  · exact absurd rfl hc
  · exact h.elim

section run

variable {id : Nat} {path : String} {opts : LogOptions} {l : EventLog} {f : Nat} {F : List UInt8}

/-- The events of a log that is a log of a run, once its entries are
forgotten, lie in the bytes its reader saw, unless an overwrite is pending. -/
theorem liesIn_of_run (h : Run id path opts l.uncached f F) (hp : l.pending ≠ .overwritten) {i : Nat} {e : Event}
    (he : l.index.events[i]? = some e) : e.LiesIn F := by
  have hmem : e.uncached ∈ l.uncached.index.events.toList := by
    simp only [index_uncached, Index.events_uncached, Array.toList_map]
    exact List.mem_map_of_mem (Array.mem_toList_iff.mpr (Array.mem_of_getElem? he))
  exact Event.liesIn_uncached.mp (h.tracks.lags.liesIn (by simpa using hp) _ hmem)

/-- A log of a run, once its entries are forgotten, has no change pending
that a check cannot act on: an overwrite found is the larger change. -/
theorem larger_overwritten_of_run (h : Run id path opts l.uncached f F) :
    l.pending.larger .overwritten = .overwritten := by
  have hlag := h.tracks.lags
  rw [pending_uncached] at hlag
  rcases hp : l.pending with _ | _ | _ | code
  · rfl
  · rfl
  · rfl
  · rw [hp] at hlag
    exact hlag.elim

end run

/-- The entries a log keeps are what the bytes `F` give its events, unless
an overwrite is pending. -/
structure Fresh (l : EventLog) (F : List UInt8) : Prop where
  kept : l.pending ≠ .overwritten → ∀ (i : Nat) (e : Event) (es : List Entry),
    l.index.events[i]? = some e → e.entries = some es → es = e.entriesIn F

/-- Keeping, for the event at position `i`, its entries in `F` keeps the
entries fresh. -/
theorem Fresh.keepEntries {l : EventLog} {F : List UInt8} (h : l.Fresh F) {i : Nat} {e : Event}
    (he : l.index.events[i]? = some e) : (l.keepEntries i (e.entriesIn F)).Fresh F := by
  refine ⟨fun hp j e' es hj hes => ?_⟩
  rw [(keepEntries_frame l i _).2] at hp
  rcases keepEntries_event hj with hnone | ⟨rfl, e'', he'', rfl⟩ | hold
  · rw [hnone] at hes
    cases hes
  · rw [he] at he''
    cases he''
    cases hes
    rfl
  · exact h.kept hp j e' es hold hes

/-- A read of an event's entries, while the file holds the bytes `F` its
reader saw and every event lies in them, keeps the entries fresh. -/
theorem Fresh.entries {l : EventLog} {F : List UInt8} (h : l.Fresh F) {f : Nat} {st : Store}
    (hr : l.reader.Sees f F) (hF : (st.contents f).data.toList = F)
    (hlies : ∀ (i : Nat) (e : Event), l.index.events[i]? = some e → e.LiesIn F) (r : EventRef) :
    (l.entries st r).1.Fresh F := by
  unfold EventLog.entries
  split
  · exact h
  · split
    · exact h
    · rename_i e he
      split
      · exact h
      · rw [materialize_liesIn hr hF (hlies _ _ he)]
        exact h.keepEntries he

/-- What a read of a valid event's entries returns, while the file holds the
bytes `F` its reader saw and every event lies in them: its entries in `F`,
kept or not. -/
theorem entries_liesIn {l : EventLog} {F : List UInt8} (h : l.Fresh F) (hp : l.pending ≠ .overwritten) {f : Nat}
    {st : Store} (hr : l.reader.Sees f F) (hF : (st.contents f).data.toList = F)
    (hlies : ∀ (i : Nat) (e : Event), l.index.events[i]? = some e → e.LiesIn F) {r : EventRef} {e : Event}
    (hv : l.isValid r = true) (he : l.event? r = some e) : (l.entries st r).2 = .ok (e.entriesIn F) := by
  have hepoch : r.epoch = l.epoch := by simpa [isValid] using hv
  have hat : l.index.events[r.index]? = some e := by simpa [event?, hepoch] using he
  unfold EventLog.entries
  rw [if_neg (not_not.mpr hepoch), hat]
  dsimp only
  split
  · rename_i es hes
    rw [h.kept hp r.index e es hat hes]
  · rw [materialize_liesIn hr hF (hlies _ _ hat)]

/-- A check keeps the entries fresh, whichever way the file evolved. -/
theorem Fresh.checkForChanges {id : Nat} {path : String} {opts : LogOptions} {l : EventLog} {f f' : Nat}
    {F F' : List UInt8} {st : Store} (hfr : l.Fresh F) (hrun : Run id path opts l.uncached f F)
    (hev : Evolves l.reader f F st f' F') (canceled : Bool) : (l.checkForChanges st canceled).1.Fresh F' := by
  refine ⟨fun hp' i e es he hes => ?_⟩
  have hold := (keepsCache_checkForChanges l st canceled).entries i e he (by simp [hes])
  -- an overwrite, pending or found, is acted on, and then no entries are kept
  have hkept : ∀ c, (l.reader.check st).2 = .ok c → l.pending.larger c = .overwritten → False := by
    intro c hc hov
    rcases @checkForChanges_overwritten l st canceled c hc hov with h | hb
    · exact hp' h
    · rw [hb e (Array.mem_toList_iff.mpr (Array.mem_of_getElem? he))] at hes
      cases hes
  cases hev with
  | missing hnone =>
    obtain ⟨heq, -⟩ := checkForChanges_missing canceled hnone
    rw [heq] at hp'
    exact hfr.kept hp' i e es hold hes
  | appended G hpath hY =>
    have hc := Reader.check_append hpath hrun.tracks.sees hY
    have hpo : l.pending ≠ .overwritten := fun hpo => hkept _ hc (by rw [hpo]; split <;> rfl)
    rw [hfr.kept hpo i e es hold hes, Event.entriesIn_append (liesIn_of_run hrun hpo hold)]
  | overwritten hpath hc => exact (hkept _ hc (larger_overwritten_of_run hrun)).elim

/-! ## Sessions -/

/-- The bound an opened log puts on the events keeping entries. -/
def maxCachedOf (opts : LogOptions) : Nat := if opts.maxCached ≤ 0 then defaultMaxCached else opts.maxCached.toNat

/-- An opened log keeps no entries, and bounds them as its options say. -/
theorem openFile_keepsNone {st : Store} {id : Nat} {path : String} {opts : LogOptions} {f : Nat} {l : EventLog}
    (hf : st.fileOf? path = some f) (ho : (openFile st id path opts false).2 = .ok l) :
    l.uncached = l ∧ l.cache = [] ∧ l.index.Bare ∧ l.maxCached = maxCachedOf opts := by
  obtain ⟨r, -, -, -, hopen⟩ := openFile_snd hf id opts
  rw [hopen] at ho
  rcases hrun : Scan.run (completeLines [] (st.contents f).data.toList) (Scan.start Index.empty false r.size)
    Position.start with ⟨s, next, _ | e⟩ <;> rw [hrun] at ho
  · cases ho
    have hs := Scan.entries_of_run hrun
    have hempty : Index.empty.Bare := fun e he => by simp [Index.empty] at he
    refine ⟨?_, rfl, hempty.of_keepsEntries (Index.keepsEntries_commit _ hs _ _), rfl⟩
    simp only [uncached, ← Index.commit_uncached _ hs, Index.uncached_empty, Array.map_empty]
  · cases ho

/-- The logs a session reaches from opening the name `path`, with the file
`f` and bytes `F` its reader saw last: opened; checked any number of times,
canceled or not, after the file evolved as `Evolves` allows; and read, for
the entries of any event, any number of times, each while no change is
pending and the file holds the bytes of the last check. -/
inductive Session (id : Nat) (path : String) (opts : LogOptions) : EventLog → Nat → List UInt8 → Prop
  | opened {st : Store} {f : Nat} {l : EventLog} : st.fileOf? path = some f →
      (openFile st id path opts false).2 = .ok l → Session id path opts l f (st.contents f).data.toList
  | checked {l : EventLog} {f f' : Nat} {F F' : List UInt8} {st : Store} (canceled : Bool) :
      Session id path opts l f F → Evolves l.reader f F st f' F' →
      Session id path opts (l.checkForChanges st canceled).1 f' F'
  | read {l : EventLog} {f : Nat} {F : List UInt8} {st : Store} (r : EventRef) :
      Session id path opts l f F → l.pending = .unchanged → (st.contents f).data.toList = F →
      Session id path opts (l.entries st r).1 f F

/-- What every log of a session keeps: forgetting its entries, it is a log
of a run; its cache is bounded, by the bound its options give; and the
entries it keeps are fresh. -/
structure KeepsFresh (id : Nat) (path : String) (opts : LogOptions) (l : EventLog) (f : Nat) (F : List UInt8) :
    Prop where
  run : Run id path opts l.uncached f F
  cache : l.CacheOk
  maxCached : l.maxCached = maxCachedOf opts
  fresh : l.Fresh F

namespace KeepsFresh

variable {id : Nat} {path : String} {opts : LogOptions} {l : EventLog} {f : Nat} {F : List UInt8}

theorem opened {st : Store} (hf : st.fileOf? path = some f) (ho : (openFile st id path opts false).2 = .ok l) :
    KeepsFresh id path opts l f (st.contents f).data.toList := by
  obtain ⟨hu, hc, hb, hmax⟩ := openFile_keepsNone hf ho
  have hnone : ∀ (i : Nat) (e : Event), l.index.events[i]? = some e → e.entries = none :=
    fun i e he => hb e (Array.mem_toList_iff.mpr (Array.mem_of_getElem? he))
  refine ⟨by rw [hu]; exact .opened hf ho, ⟨by simp [hc], fun i e he hs => ?_⟩, hmax,
    ⟨fun _ i e es he hes => ?_⟩⟩
  · rw [hnone i e he] at hs
    cases hs
  · rw [hnone i e he] at hes
    cases hes

theorem checkForChanges {f' : Nat} {F' : List UInt8} {st : Store} (h : KeepsFresh id path opts l f F)
    (hev : Evolves l.reader f F st f' F') (canceled : Bool) :
    KeepsFresh id path opts (l.checkForChanges st canceled).1 f' F' := by
  have hk := keepsCache_checkForChanges l st canceled
  refine ⟨?_, h.cache.of_keepsCache hk, hk.maxCached.trans h.maxCached, h.fresh.checkForChanges h.run hev canceled⟩
  have hu : (l.uncached.checkForChanges st canceled).1 = (l.checkForChanges st canceled).1.uncached := by
    rw [checkForChanges_uncached]
  rw [← hu]
  exact .checked canceled h.run hev

theorem entries {st : Store} (h : KeepsFresh id path opts l f F) (hp : l.pending = .unchanged)
    (hF : (st.contents f).data.toList = F) (r : EventRef) : KeepsFresh id path opts (l.entries st r).1 f F := by
  obtain ⟨hmax, -⟩ := entries_frame l st r
  refine ⟨by rw [entries_uncached]; exact h.run, h.cache.entries st r, hmax.trans h.maxCached, ?_⟩
  exact h.fresh.entries h.run.tracks.sees hF (fun i e he => liesIn_of_run h.run (by rw [hp]; decide) he) r

end KeepsFresh

theorem Session.keepsFresh {id : Nat} {path : String} {opts : LogOptions} {l : EventLog} {f : Nat} {F : List UInt8}
    (h : Session id path opts l f F) : KeepsFresh id path opts l f F := by
  induction h with
  | opened hf ho => exact .opened hf ho
  | checked canceled _ hev ih => exact ih.checkForChanges hev canceled
  | read r _ hp hF ih => exact ih.entries hp hF r

/-- In every session, at most as many events as its options allow keep
entries; and reading the entries of an event of the current epoch, while
no change is pending and the file holds the bytes of the last check, gives
the entries its lines there read as, the first its event line, whether
they were kept or not. -/
theorem Session.entries_read_faithfully {id : Nat} {path : String} {opts : LogOptions} {l : EventLog} {f : Nat}
    {F : List UInt8} (h : Session id path opts l f F) :
    (l.index.events.toList.countP fun e => e.entries.isSome) ≤ maxCachedOf opts ∧
      ∀ (st : Store) (r : EventRef) (e : Event), l.pending = .unchanged → (st.contents f).data.toList = F →
        l.isValid r = true → l.event? r = some e →
        (l.entries st r).2 = .ok (e.entriesIn F) ∧
          ∃ en rest, e.entriesIn F = en :: rest ∧ en.offset = e.pos.offset ∧ en.line = e.pos.line ∧
            (en.eventMarker?.map (·.number)) = some e.number := by
  have hk := h.keepsFresh
  refine ⟨hk.maxCached ▸ hk.cache.countP_le, fun st r e hp hF hv he => ?_⟩
  have hpo : l.pending ≠ .overwritten := by rw [hp]; decide
  have hlies : ∀ (i : Nat) (e : Event), l.index.events[i]? = some e → e.LiesIn F :=
    fun i e he => liesIn_of_run hk.run hpo he
  have hat : l.index.events[r.index]? = some e := by
    simpa [event?, show r.epoch = l.epoch by simpa [isValid] using hv] using he
  exact ⟨entries_liesIn hk.fresh hpo hk.run.tracks.sees hF hlies hv he, Event.entriesIn_head (hlies _ _ hat)⟩

/-- The file \"log\" of two events, the first with a message line. -/
def cachedStore : Store := ⟨[("log", 0)], #["E # 0 t 0 m 1\n- a\nE # 1 t 1 m 1\n".toUTF8]⟩

/-- `cachedStore` with its file rewritten in place, the message changed. -/
def rewrittenMessageStore : Store := ⟨[("log", 0)], #["E # 0 t 0 m 1\n- b\nE # 1 t 1 m 1\n".toUTF8]⟩

/-- The log opened on `cachedStore`. -/
def cachedLog : EventLog :=
  match (openFile cachedStore 0 "log" ⟨0, 0, false⟩ false).2 with
  | .ok l => l
  | .error _ => default

theorem openFile_cached : (openFile cachedStore 0 "log" ⟨0, 0, false⟩ false).2 = .ok cachedLog := by
  have hb : (openFile cachedStore 0 "log" ⟨0, 0, false⟩ false).2.toBool = true := by decide +kernel
  unfold cachedLog
  revert hb
  cases (openFile cachedStore 0 "log" ⟨0, 0, false⟩ false).2 <;> simp [Except.toBool]

/-- Once the first event's entries were read and kept, reading them again
gives its entries in the file. -/
theorem entries_read_faithfully_kept :
    Session 0 "log" ⟨0, 0, false⟩ (cachedLog.entries cachedStore ⟨0, 1, 0⟩).1 0
        (cachedStore.contents 0).data.toList ∧
      ∃ e, (cachedLog.entries cachedStore ⟨0, 1, 0⟩).1.event? ⟨0, 1, 0⟩ = some e ∧
        ((cachedLog.entries cachedStore ⟨0, 1, 0⟩).1.entries cachedStore ⟨0, 1, 0⟩).2 =
          .ok (e.entriesIn (cachedStore.contents 0).data.toList) := by
  have hs : Session 0 "log" ⟨0, 0, false⟩ (cachedLog.entries cachedStore ⟨0, 1, 0⟩).1 0
      (cachedStore.contents 0).data.toList :=
    .read _ (.opened rfl openFile_cached) (openFile_follows rfl openFile_cached).1.pending rfl
  obtain ⟨e, he⟩ : ∃ e, (cachedLog.entries cachedStore ⟨0, 1, 0⟩).1.event? ⟨0, 1, 0⟩ = some e :=
    Option.isSome_iff_exists.mp (by decide +kernel)
  exact ⟨hs, e, he, ((Session.entries_read_faithfully hs).2 cachedStore ⟨0, 1, 0⟩ e (by decide +kernel) rfl
    (by decide +kernel) he).1⟩

/-- Entries read while the file was rewritten are kept: once the file holds
the bytes of the last check again, a read gives the rewritten message where
a read of the log as opened gives the file's. -/
theorem entries_stale_after_rewrite :
    ((cachedLog.entries cachedStore ⟨0, 1, 0⟩).2.toOption.map (·.map (·.text))) = some ["", "a"] ∧
      (((cachedLog.entries rewrittenMessageStore ⟨0, 1, 0⟩).1.entries cachedStore ⟨0, 1, 0⟩).2.toOption.map
        (·.map (·.text))) = some ["", "b"] := by
  decide +kernel

end EventLog

end EventChart
