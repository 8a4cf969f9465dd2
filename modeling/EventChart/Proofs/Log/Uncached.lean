import EventChart.Proofs.Log.Runs
/-!
# Logs without their kept entries

A log keeps the entries it has read for an event in the event itself, for a
bounded number of events.  Nothing the log indexes depends on them: a scan,
a commit and a check of the file find the same events whether entries are
kept or not.  So what is known of logs that keep no entries, the runs of
`EventLog.Run`, carries over to logs that do.

* `Event.uncached`, `Index.uncached` and `EventLog.uncached` drop the kept
  entries, those of the retired epochs too.
* `Scan.visitLines_rebase`: a scan that continues an index reads every line
  as the scan that continues the index without its entries does.
* `Index.commit_uncached` and `EventLog.checkForChanges_uncached`: a commit
  and a check commute with dropping the entries.
* `Index.KeepsEntries` and `EventLog.keepsCache_checkForChanges`: after a
  check, an event holds entries only if it held them before, at the same
  position; the check tracks them as before, or keeps and tracks none.
* `EventLog.checkForChanges_overwritten`: acting on an overwrite keeps no
  entries, or leaves the overwrite pending.
-/

namespace EventChart

namespace Event

/-- The event without the entries kept for it. -/
def uncached (e : Event) : Event := { e with entries := none }

@[simp] theorem entries_uncached (e : Event) : e.uncached.entries = none := rfl
@[simp] theorem number_uncached (e : Event) : e.uncached.number = e.number := rfl
@[simp] theorem index_uncached (e : Event) : e.uncached.index = e.index := rfl
@[simp] theorem uncached_uncached (e : Event) : e.uncached.uncached = e.uncached := rfl
@[simp] theorem pos_uncached (e : Event) : e.uncached.pos = e.pos := rfl
@[simp] theorem endOffset_uncached (e : Event) : e.uncached.endOffset = e.endOffset := rfl

theorem uncached_placed (e : Event) (epoch i : Nat) : (e.placed epoch i).uncached = e.uncached.placed epoch i := rfl

theorem uncached_eq_self {e : Event} (h : e.entries = none) : e.uncached = e := by
  cases e
  simp only at h
  subst h
  rfl

end Event

namespace Index

/-- The index without the entries kept for its events. -/
def uncached (x : Index) : Index := { x with events := x.events.map Event.uncached }

@[simp] theorem events_uncached (x : Index) : x.uncached.events = x.events.map Event.uncached := rfl

theorem uncached_empty : Index.empty.uncached = Index.empty := by
  simp [uncached, empty]

theorem searchNumber_uncached (x : Index) (n : Int) : x.uncached.searchNumber n = x.searchNumber n := by
  unfold searchNumber
  rw [events_uncached, Array.size_map]
  congr 1
  funext i
  by_cases hi : i < x.events.size
  · rw [getElem!_pos _ i (by simpa using hi), getElem!_pos _ i hi, Array.getElem_map]
    rfl
  · rw [getElem!_neg _ i (by simpa using hi), getElem!_neg _ i hi]

theorem find?_uncached (x : Index) (n : Int) : x.uncached.find? n = (x.find? n).map Event.uncached := by
  unfold find?
  rw [searchNumber_uncached, events_uncached, Array.getElem?_map]
  rcases x.events[x.searchNumber n]? with _ | e
  · rfl
  · by_cases h : e.number = n <;> simp [h]

theorem last?_uncached (x : Index) : x.uncached.last? = x.last?.map Event.uncached := by
  simp [last?, Array.back?_map]

theorem register_uncached (x : Index) (e : Event) : x.uncached.register e.uncached = (x.register e).uncached := rfl

theorem unregister_uncached (x : Index) (e : Event) :
    x.uncached.unregister e.uncached = (x.unregister e).uncached := rfl

theorem replaceLast_uncached (x : Index) (last first : Event) :
    x.uncached.replaceLast last.uncached first = (x.replaceLast last first).uncached := by
  unfold replaceLast
  rw [unregister_uncached]
  simp only [uncached, events_register, Array.set!_eq_setIfInBounds, Array.map_setIfInBounds]
  rfl

theorem appendEvents_uncached (x : Index) (epoch : Nat) (es : List Event) :
    x.uncached.appendEvents epoch (es.map Event.uncached) = (x.appendEvents epoch es).uncached := by
  induction es generalizing x with
  | nil => rfl
  | cons e es ih =>
    have hstep :
        ({ x.uncached with events := x.uncached.events.push (e.uncached.placed epoch x.uncached.events.size) } :
          Index).register (e.uncached.placed epoch x.uncached.events.size) =
        (({ x with events := x.events.push (e.placed epoch x.events.size) } : Index).register
          (e.placed epoch x.events.size)).uncached := by
      simp only [events_uncached, Array.size_map, ← Event.uncached_placed]
      rw [← register_uncached]
      simp [uncached, Array.map_push]
    simp only [List.map_cons, appendEvents, List.foldl_cons]
    rw [hstep]
    exact ih _

theorem addModule_uncached (x : Index) (mc : ModuleCreated) :
    x.uncached.addModule mc = (x.addModule mc).uncached := by
  unfold addModule uncached
  dsimp only
  split <;> rfl

theorem addModules_uncached (x : Index) (ms : List ModuleCreated) :
    x.uncached.addModules ms = (x.addModules ms).uncached := by
  induction ms generalizing x with
  | nil => rfl
  | cons mc ms ih =>
    simp only [addModules, List.foldl_cons]
    rw [addModule_uncached]
    exact ih _

theorem noteSimBegin_uncached (x : Index) (sb : Option Entry) :
    x.uncached.noteSimBegin sb = (x.noteSimBegin sb).uncached := by
  rw [noteSimBegin_eq, noteSimBegin_eq]
  rfl

theorem addParseErrorsFrom_uncached (x : Index) (reread : Int) (pes : List LineError) :
    x.uncached.addParseErrorsFrom reread pes = (x.addParseErrorsFrom reread pes).uncached := by
  induction pes generalizing x with
  | nil => rfl
  | cons pe pes ih =>
    simp only [addParseErrorsFrom, List.foldl_cons]
    rw [← addParseErrorsFrom, ← addParseErrorsFrom, ← ih]
    congr 1
    split <;> rfl

theorem takeEvents_uncached (x : Index) {s : Scan} (hs : ∀ e ∈ s.events.toList, e.entries = none) (epoch : Nat) :
    x.uncached.takeEvents s epoch = ((x.takeEvents s epoch).1.uncached, (x.takeEvents s epoch).2) := by
  -- the scan's events hold no entries, so they are their own uncached forms
  have happend : ∀ (y : Index) (es : List Event), (∀ e ∈ es, e.entries = none) →
      y.uncached.appendEvents epoch es = (y.appendEvents epoch es).uncached := fun y es h => by
    have hes : es.map Event.uncached = es := by
      conv_rhs => rw [← List.map_id es]
      exact List.map_congr_left fun e he => Event.uncached_eq_self (h e he)
    rw [← appendEvents_uncached, hes]
  unfold takeEvents
  rw [last?_uncached]
  rcases s.replacesLast with _ | _ <;> rcases hev : s.events.toList with _ | ⟨first, rest⟩ <;>
    rcases x.last? with _ | last <;> rw [hev] at hs
  case true.cons.some =>
    -- the re-read event takes the place of the last one
    show ((x.uncached.replaceLast last.uncached first).appendEvents epoch rest, last.uncached.endOffset) =
      (((x.replaceLast last first).appendEvents epoch rest).uncached, last.endOffset)
    rw [replaceLast_uncached, happend _ rest fun e he => hs e (List.mem_cons_of_mem _ he)]
    rfl
  all_goals exact Prod.ext (happend x _ hs) rfl

/-- Committing a scan, whose events hold no entries, commutes with dropping
the entries of the index. -/
theorem commit_uncached (x : Index) {s : Scan} (hs : ∀ e ∈ s.events.toList, e.entries = none) (epoch : Nat)
    (next : Position) : x.uncached.commit s epoch next = (x.commit s epoch next).uncached := by
  rw [commit_eq, commit_eq, takeEvents_uncached x hs, addModules_uncached, noteSimBegin_uncached,
    addParseErrorsFrom_uncached]
  rfl

end Index

namespace Scan

/-- The scan continuing `b` in place of its base. -/
def rebase (s : Scan) (b : Index) : Scan := { s with base := b }

section rebase

variable (s : Scan) (b : Index)

@[simp] theorem events_rebase : (s.rebase b).events = s.events := rfl
@[simp] theorem base_rebase : (s.rebase b).base = b := rfl
@[simp] theorem pendingSend_rebase : (s.rebase b).pendingSend = s.pendingSend := rfl
@[simp] theorem replacesLast_rebase : (s.rebase b).replacesLast = s.replacesLast := rfl

theorem start_rebase (replacesLast : Bool) (n : Nat) (x : Index) :
    (start x replacesLast n).rebase b = start b replacesLast n := rfl

/-- A commit does not read the index a scan continued. -/
theorem commit_rebase (x : Index) (epoch : Nat) (next : Position) :
    x.commit (s.rebase b) epoch next = x.commit s epoch next := rfl

theorem modifyCurrent_rebase (f : Event → Event) : (s.rebase b).modifyCurrent f = (s.modifyCurrent f).rebase b := rfl

theorem tick_rebase (l : Line) : (s.rebase b).tick l = (s.tick l).rebase b := by
  unfold tick
  rw [apply_ite (rebase · b)]
  rfl

theorem afterBad_rebase (pe : LineError) (l : Line) : (s.rebase b).afterBad pe l = (s.afterBad pe l).rebase b := by
  rw [afterBad_eq, afterBad_eq, apply_ite (rebase · b)]
  rfl

theorem eventRecord_rebase (en : Entry) : (s.rebase b).eventRecord en = (s.eventRecord en).rebase b := by
  unfold eventRecord
  rcases en.beginSend? with _ | bs
  · rw [apply_ite (rebase · b), pendingSend_rebase]
    refine if_congr Iff.rfl rfl ?_
    rcases en.endSend? with _ | es <;> rcases s.pendingSend with _ | i <;> rfl
  · rfl

theorem noteRecord_rebase (en : Entry) : (s.rebase b).noteRecord en = (s.noteRecord en).rebase b := by
  unfold noteRecord
  rcases en.moduleCreated? with _ | mc <;> (rw [apply_ite (rebase · b)]; rfl)

theorem afterRecord_rebase (en : Entry) (l : Line) :
    (s.rebase b).afterRecord en l = (s.afterRecord en l).rebase b := by
  unfold afterRecord
  dsimp only
  rw [noteRecord_rebase, apply_ite (rebase · b)]
  refine if_congr Iff.rfl rfl ?_
  rw [modifyCurrent_rebase, eventRecord_rebase]

end rebase

theorem base_tick (s : Scan) (l : Line) : (s.tick l).base = s.base := by
  obtain ⟨p, hp⟩ := tick_eq s l
  rw [hp]

/-- The events a run from the start of a scan finds hold no entries. -/
theorem entries_of_run {raw : List (List UInt8)} {base : Index} {replacesLast : Bool} {n : Nat}
    {pos q : Position} {s : Scan} (h : run raw (start base replacesLast n) pos = (s, q, none)) :
    ∀ e ∈ s.events.toList, e.entries = none := by
  have hs := run_sound (sound_start base replacesLast n) h
  intro e he
  rw [← hs.bare e he]
  rfl

/-- Which event comes before depends on the events' numbers and times only. -/
theorem refusal_map_uncached (p : Option Event) (m : EventMarker) (l : Line) :
    refusal (p.map Event.uncached) m l = refusal p m l := by
  cases p <;> rfl

section uncached

variable {s : Scan} {x : Index}

/-! ## Reading without the base's entries -/

theorem refusal_rebase (hs : s.base = x) (m : EventMarker) (l : Line) :
    refusal (s.rebase x.uncached).previous m l = refusal s.previous m l := by
  subst hs
  have h : (s.rebase s.base.uncached).previous = s.previous ∨
      (s.rebase s.base.uncached).previous = s.previous.map Event.uncached := by
    unfold previous
    rw [events_rebase]
    rcases s.events.back? with _ | e
    · -- the event before is the base's
      right
      simp only [base_rebase, replacesLast_rebase, Index.last?_uncached, Index.events_uncached, Array.size_map,
        Array.getElem?_map]
      split_ifs <;> rfl
    · left
      rfl
  rcases h with h | h <;> rw [h]
  exact refusal_map_uncached _ m l

theorem lookup_rebase (hs : s.base = x) (n : Int) :
    ((s.rebase x.uncached).lookup n).map Event.uncached = (s.lookup n).map Event.uncached := by
  subst hs
  unfold lookup
  simp only [events_rebase, base_rebase, replacesLast_rebase, Index.find?_uncached, Index.events_uncached,
    Array.size_map]
  split
  · rfl
  · rcases s.base.find? n with _ | e
    · rfl
    · by_cases hc : s.replacesLast = true ∧ e.index + 1 = s.base.events.size <;> simp [hc]

theorem newEvent_rebase (hs : s.base = x) (m : EventMarker) (l : Line) :
    (s.rebase x.uncached).newEvent m l = s.newEvent m l := by
  -- the message that caused the event is read from the messages its cause sent
  have h := lookup_rebase hs m.causeEvent
  unfold newEvent
  revert h
  rcases (s.rebase x.uncached).lookup m.causeEvent with _ | a <;> rcases s.lookup m.causeEvent with _ | b <;>
    intro h <;> simp only [Option.map_none, Option.map_some, reduceCtorEq, Option.some.injEq] at h
  · rfl
  · have hsent : a.sent = b.sent := (congrArg Event.sent h : a.uncached.sent = b.uncached.sent)
    simp only [Event.sentMessage?, hsent]

theorem beginEvent_rebase (hs : s.base = x) (m : EventMarker) (l : Line) :
    (s.rebase x.uncached).beginEvent m l = (s.beginEvent m l).map (rebase · x.uncached) := by
  rw [beginEvent_eq, beginEvent_eq, refusal_rebase hs, newEvent_rebase hs]
  rcases refusal s.previous m l with _ | f <;> rfl

/-- A scan reads a line alike whether the index it continues keeps entries or
not. -/
theorem line_rebase (hs : s.base = x) (l : Line) :
    (s.rebase x.uncached).line l = (s.line l).map (rebase · x.uncached) := by
  rw [line_eq, line_eq]
  rcases l.entry? with _ | (pe | en)
  · rfl
  · exact congrArg Except.ok (afterBad_rebase s _ pe l)
  · dsimp only
    rcases en.eventMarker? with _ | m
    · exact congrArg Except.ok (afterRecord_rebase s _ en l)
    · exact beginEvent_rebase hs m l

theorem visitLines_rebase (L : List Line) (hs : s.base = x) (pos : Position) :
    Reader.visitLines visit L (s.rebase x.uncached) pos =
      Prod.map (rebase · x.uncached) id (Reader.visitLines visit L s pos) := by
  induction L generalizing s pos with
  | nil => rfl
  | cons l L ih =>
    have ht : (s.tick l).base = x := (base_tick s l).trans hs
    simp only [Reader.visitLines, visit_eq, tick_rebase, line_rebase ht]
    rcases hl : (s.tick l).line l with e | s'
    · rfl
    · exact ih ((line_base hl).1.trans ht) _

end uncached

end Scan

namespace Reader

/-- A read of lines by a scan is alike whether the index the scan continues
keeps entries or not. -/
theorem readLines_rebase (r : Reader) (st : Store) (canceled : Bool) (start : Position) (upto : Int) {s : Scan}
    {x : Index} (hs : s.base = x) :
    r.readLines st canceled start upto (s.rebase x.uncached) Scan.visit =
      Prod.map (Scan.rebase · x.uncached) id (r.readLines st canceled start upto s Scan.visit) := by
  unfold readLines
  split
  · rfl
  · dsimp only
    split_ifs
    all_goals first
      | rfl
      | rw [foldLines_eq_visitLines, foldLines_eq_visitLines, Scan.visitLines_rebase _ hs]

end Reader

namespace EventLog

/-- The log without the entries kept for the events of any epoch, and so
with none to keep track of. -/
def uncached (l : EventLog) : EventLog :=
  { l with index := l.index.uncached, retired := l.retired.map (·.map Event.uncached), cache := [] }

@[simp] theorem index_uncached (l : EventLog) : l.uncached.index = l.index.uncached := rfl
@[simp] theorem reader_uncached (l : EventLog) : l.uncached.reader = l.reader := rfl
@[simp] theorem epoch_uncached (l : EventLog) : l.uncached.epoch = l.epoch := rfl
@[simp] theorem pending_uncached (l : EventLog) : l.uncached.pending = l.pending := rfl

/-- A scan of the file does not depend on the entries the log keeps. -/
theorem scanFrom_uncached_log (l : EventLog) : l.uncached.scanFrom = l.scanFrom := rfl

/-- A scan that continues an index without its entries is the scan that
continues the index, up to the index it continues. -/
theorem scanFrom_uncached (l : EventLog) (st : Store) (canceled : Bool) (x : Index) (pos : Position)
    (replacesLast : Bool) :
    l.scanFrom st canceled x.uncached pos replacesLast =
      ((l.scanFrom st canceled x pos replacesLast).1,
        (l.scanFrom st canceled x pos replacesLast).2.map fun r => (r.1.rebase x.uncached, r.2)) := by
  unfold scanFrom
  rw [← Scan.start_rebase x.uncached replacesLast l.reader.size x,
    Reader.readLines_rebase (s := Scan.start x replacesLast l.reader.size) (x := x) _ _ _ _ _ rfl]
  rcases l.reader.readLines st canceled pos (-1) (Scan.start x replacesLast l.reader.size) Scan.visit with
    ⟨s, next, _ | e⟩ <;> rfl

/-- The events a scan of the file finds hold no entries. -/
theorem entries_of_scanFrom {l : EventLog} {st : Store} {canceled : Bool} {base : Index} {pos : Position}
    {replacesLast : Bool} {s : Scan} {next : Position}
    (h : (l.scanFrom st canceled base pos replacesLast).2 = .ok (s, next)) :
    ∀ e ∈ s.events.toList, e.entries = none := by
  obtain ⟨raw, hrun⟩ := scanFrom_ok h
  exact Scan.entries_of_run hrun

/-- Extending the index commutes with dropping the kept entries. -/
theorem extend_uncached (l : EventLog) (st : Store) (canceled : Bool) :
    l.uncached.extend st canceled = ((l.extend st canceled).1.uncached, (l.extend st canceled).2) := by
  unfold extend
  simp only [index_uncached, Index.last?_uncached, scanFrom_uncached_log]
  rcases hlast : l.index.last? with _ | e
  · -- the scan resumes where the index stopped
    simp only [Option.map_none, Option.isSome_none]
    rw [show l.index.uncached.scanned = l.index.scanned from rfl, scanFrom_uncached]
    rcases hsc : l.scanFrom st canceled l.index l.index.scanned false with ⟨p, _ | ⟨s, next⟩⟩
    · rfl
    · show ({ l.uncached with index := l.index.uncached.commit (s.rebase l.index.uncached) l.epoch next }, p, none) =
        ({ l with index := l.index.commit s l.epoch next }.uncached, p, none)
      rw [Scan.commit_rebase, Index.commit_uncached _ (entries_of_scanFrom (congrArg Prod.snd hsc))]
      rfl
  · -- the scan re-reads the last event
    simp only [Option.map_some, Option.isSome_some, Event.pos_uncached]
    rw [scanFrom_uncached]
    rcases hsc : l.scanFrom st canceled l.index e.pos true with ⟨p, _ | ⟨s, next⟩⟩
    · rfl
    · dsimp only [Except.map]
      -- the re-read must start with the last event in both
      split <;> split <;> rename_i h₁ h₂
      · rfl
      · exact absurd h₁ h₂
      · exact absurd h₂ h₁
      · rw [Scan.commit_rebase, Index.commit_uncached _ (entries_of_scanFrom (congrArg Prod.snd hsc))]
        rfl

/-- Rebuilding the index commutes with dropping the kept entries: the new
index keeps none, and the retired events lose theirs. -/
theorem replace_uncached (l : EventLog) (st : Store) (canceled : Bool) :
    l.uncached.replace st canceled = ((l.replace st canceled).1.uncached, (l.replace st canceled).2) := by
  unfold replace rebuild
  rw [scanFrom_uncached_log]
  rcases hsc : l.scanFrom st canceled Index.empty Position.start false with ⟨p, _ | ⟨s, next⟩⟩
  · rfl
  · have hx : (Index.empty.commit s (l.epoch + 1) next).uncached = Index.empty.commit s (l.epoch + 1) next := by
      rw [← Index.commit_uncached _ (entries_of_scanFrom (congrArg Prod.snd hsc)), Index.uncached_empty]
    dsimp only [Except.map]
    simp only [uncached, Array.map_push, hx]
    rfl

theorem synchronize_uncached (l : EventLog) (st : Store) (canceled : Bool) (change : Change) :
    l.uncached.synchronize st canceled change =
      ((l.synchronize st canceled change).1.uncached, (l.synchronize st canceled change).2) := by
  unfold synchronize
  rcases change with _ | _ | _ | code
  · rfl
  · -- an append: the extension, then a rebuild if it asks for one
    dsimp only
    rw [extend_uncached]
    rcases l.extend st canceled with ⟨l1, p1, _ | e⟩
    · rfl
    · dsimp only
      split
      · rw [replace_uncached]
        rcases l1.replace st canceled with ⟨l2, p2, _ | e2⟩ <;> rfl
      · rfl
  · -- an overwrite: a rebuild
    dsimp only
    rw [replace_uncached]
    rcases l.replace st canceled with ⟨l1, p1, _ | e⟩ <;> rfl
  · rfl

/-- A check of the file commutes with dropping the kept entries: it finds the
same change, fails alike, and leaves the same log but for the entries. -/
theorem checkForChanges_uncached (l : EventLog) (st : Store) (canceled : Bool) :
    l.uncached.checkForChanges st canceled =
      ((l.checkForChanges st canceled).1.uncached, (l.checkForChanges st canceled).2) := by
  unfold checkForChanges
  rw [reader_uncached]
  rcases l.reader.check st with ⟨r, _ | c⟩
  · rfl
  · dsimp only
    rw [pending_uncached]
    split
    · rfl
    · exact congrArg (fun t => (t.1, t.2.1, l.pending.larger c, t.2.2))
        (synchronize_uncached { l with reader := r } st canceled (l.pending.larger c))

end EventLog

namespace Index

/-! ## Where kept entries stay -/

/-- Every event of `y` that holds entries is the event of `x` at its
position: `y` keeps entries only where `x` kept them, unchanged. -/
def KeepsEntries (x y : Index) : Prop :=
  ∀ (i : Nat) (e : Event), y.events[i]? = some e → e.entries.isSome → x.events[i]? = some e

/-- No event of the index holds entries. -/
def Bare (x : Index) : Prop := ∀ e ∈ x.events.toList, e.entries = none

theorem KeepsEntries.refl (x : Index) : x.KeepsEntries x := fun _ _ h _ => h

theorem KeepsEntries.trans {x y z : Index} (h₁ : x.KeepsEntries y) (h₂ : y.KeepsEntries z) : x.KeepsEntries z :=
  fun i e he hs => h₁ i e (h₂ i e he hs) hs

theorem Bare.keepsEntries {y : Index} (h : y.Bare) (x : Index) : x.KeepsEntries y := by
  intro i e he hs
  have hmem : e ∈ y.events.toList := by
    rw [← Array.getElem?_toList] at he
    exact List.mem_of_getElem? he
  rw [h e hmem] at hs
  cases hs

theorem Bare.of_keepsEntries {x y : Index} (hx : x.Bare) (h : x.KeepsEntries y) : y.Bare := by
  intro e he
  obtain ⟨i, hi, rfl⟩ := List.getElem_of_mem he
  cases hs : (y.events.toList[i]).entries with
  | none => rfl
  | some es =>
    have hy : y.events[i]? = some y.events.toList[i] := by simp
    have hxi := h i _ hy (by rw [hs]; rfl)
    rw [← Array.getElem?_toList] at hxi
    rw [hx _ (List.mem_of_getElem? hxi)] at hs
    cases hs

theorem keepsEntries_appendEvents (x : Index) (epoch : Nat) {es : List Event} (hs : ∀ e ∈ es, e.entries = none) :
    x.KeepsEntries (x.appendEvents epoch es) := by
  intro i e he hsome
  rw [← Array.getElem?_toList, events_appendEvents, List.getElem?_append] at he
  split_ifs at he with hi
  · rwa [← Array.getElem?_toList]
  · -- an appended event holds no entries
    rw [List.getElem?_mapIdx] at he
    obtain ⟨e', he', rfl⟩ := Option.map_eq_some_iff.mp he
    rw [Event.placed, hs e' (List.mem_of_getElem? he')] at hsome
    cases hsome

theorem keepsEntries_replaceLast (x : Index) (last first : Event) : x.KeepsEntries (x.replaceLast last first) := by
  intro i e he hsome
  unfold replaceLast at he
  simp only [events_register, events_unregister, Array.set!_eq_setIfInBounds, Array.getElem?_setIfInBounds] at he
  split_ifs at he with hi
  · -- the re-read event holds no entries
    cases he
    cases hsome
  · exact he

/-- A commit of a scan, whose events hold no entries, keeps entries only
where the index kept them. -/
theorem keepsEntries_commit (x : Index) {s : Scan} (hs : ∀ e ∈ s.events.toList, e.entries = none) (epoch : Nat)
    (next : Position) : x.KeepsEntries (x.commit s epoch next) := by
  intro i e he
  rw [events_commit] at he
  revert he
  unfold takeEvents
  rcases s.replacesLast with _ | _ <;> rcases hev : s.events.toList with _ | ⟨first, rest⟩ <;>
    rcases x.last? with _ | last <;> rw [hev] at hs
  case true.cons.some =>
    exact ((keepsEntries_replaceLast x last first).trans
      (keepsEntries_appendEvents _ epoch fun e he => hs e (List.mem_cons_of_mem _ he))) i e
  all_goals exact keepsEntries_appendEvents x epoch hs i e

end Index

namespace EventLog

variable {l : EventLog}

/-- What a step of a log does to the entries it keeps: the events that hold
entries after it held them before, at the same positions; the log tracks
them as before, or keeps and tracks none; the bound on them stays. -/
structure KeepsCache (l l' : EventLog) : Prop where
  entries : l.index.KeepsEntries l'.index
  cache : l'.cache = l.cache ∨ (l'.cache = [] ∧ l'.index.Bare)
  maxCached : l'.maxCached = l.maxCached

theorem KeepsCache.refl (l : EventLog) : KeepsCache l l := ⟨.refl _, .inl rfl, rfl⟩

theorem KeepsCache.trans {l₁ l₂ l₃ : EventLog} (h₁ : KeepsCache l₁ l₂) (h₂ : KeepsCache l₂ l₃) :
    KeepsCache l₁ l₃ where
  entries := h₁.entries.trans h₂.entries
  cache := by
    rcases h₂.cache with h | h
    · rcases h₁.cache with h' | ⟨h', hb⟩
      · exact .inl (h.trans h')
      · exact .inr ⟨h.trans h', hb.of_keepsEntries h₂.entries⟩
    · exact .inr h
  maxCached := h₂.maxCached.trans h₁.maxCached

/-- A rebuilt index keeps no entries. -/
theorem replace_bare {st : Store} {canceled : Bool} (h : (l.replace st canceled).2.2 = none) :
    (l.replace st canceled).1.index.Bare := by
  obtain ⟨s, next, raw, heq, hrun⟩ := replace_ok h
  rw [heq]
  have hempty : Index.empty.Bare := fun e he => by simp [Index.empty] at he
  exact hempty.of_keepsEntries (Index.keepsEntries_commit _ (Scan.entries_of_run hrun) _ _)

theorem keepsCache_replace (l : EventLog) (st : Store) (canceled : Bool) :
    KeepsCache l (l.replace st canceled).1 := by
  by_cases h : (l.replace st canceled).2.2 = none
  · have hbare := replace_bare h
    obtain ⟨s, next, raw, heq, -⟩ := replace_ok h
    refine ⟨hbare.keepsEntries _, .inr ⟨by rw [heq], hbare⟩, by rw [heq]⟩
  · rw [replace_error h]
    exact .refl l

theorem keepsCache_extend (l : EventLog) (st : Store) (canceled : Bool) :
    KeepsCache l (l.extend st canceled).1 := by
  by_cases h : (l.extend st canceled).2.2 = none
  · obtain ⟨s, next, heq, hext⟩ := extend_ok h
    rw [heq]
    have hs : ∀ e ∈ s.events.toList, e.entries = none := by
      rcases hext with ⟨-, raw, hrun⟩ | ⟨e, -, -, raw, hrun⟩
      · exact Scan.entries_of_run hrun
      · exact Scan.entries_of_run hrun
    exact ⟨Index.keepsEntries_commit _ hs _ _, .inl rfl, rfl⟩
  · rw [extend_error h]
    exact .refl l

theorem keepsCache_synchronize (l : EventLog) (st : Store) (canceled : Bool) (change : Change) :
    KeepsCache l (l.synchronize st canceled change).1 :=
  synchronize_preserves (KeepsCache l) (fun _ _ h => ⟨h.entries, h.cache, h.maxCached⟩)
    (fun l' h => h.trans (keepsCache_extend l' st canceled))
    (fun l' h => h.trans (keepsCache_replace l' st canceled)) (.refl l) change

/-- A check keeps entries only for events it kept in place. -/
theorem keepsCache_checkForChanges (l : EventLog) (st : Store) (canceled : Bool) :
    KeepsCache l (l.checkForChanges st canceled).1 := by
  -- the reader's check changes nothing the cache depends on
  have hr : ∀ r, KeepsCache l { l with reader := r } := fun r => ⟨.refl _, .inl rfl, rfl⟩
  unfold checkForChanges
  rcases l.reader.check st with ⟨r, _ | c⟩ <;> dsimp only
  · exact hr r
  · split
    · exact hr r
    · exact (hr r).trans (keepsCache_synchronize _ st canceled _)

/-- Acting on an overwrite rebuilds the index, which then keeps no entries,
or leaves the overwrite pending. -/
theorem checkForChanges_overwritten {st : Store} {canceled : Bool} {c : Change}
    (hc : (l.reader.check st).2 = .ok c) (hov : l.pending.larger c = .overwritten) :
    (l.checkForChanges st canceled).1.pending = .overwritten ∨ (l.checkForChanges st canceled).1.index.Bare := by
  unfold checkForChanges
  rcases hrc : l.reader.check st with ⟨r, res⟩
  rw [hrc] at hc
  subst hc
  dsimp only
  rw [hov, if_neg (by decide)]
  dsimp only
  unfold synchronize
  dsimp only
  rcases hrep : ({ l with reader := r } : EventLog).replace st canceled with ⟨l1, p1, _ | e⟩
  · right
    have hok : (({ l with reader := r } : EventLog).replace st canceled).2.2 = none := by rw [hrep]
    have hbare := replace_bare hok
    rw [hrep] at hbare
    exact hbare
  · left
    rfl

end EventLog

end EventChart
