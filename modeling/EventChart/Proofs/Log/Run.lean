import EventChart.Proofs.Log.Simulation
/-!
# Runs of lines through one scan

`Scan.run raw s pos` is a scan over the lines of `raw` numbered from `pos`,
as a read of a file delivers them.  This module says what such a run does
to one scan.

* Steps.  `Scan.run_cons` reads the first line, `Scan.run_append` splits a
  run in two, and a run that did not fail ends after its lines
  (`Scan.run_pos`).
* What a run reads.  The records a run adds depend on its lines alone
  (`Scan.Reads`): the modules they create and their unreadable lines at the
  end, their simulation begin unless one was seen; events are only added,
  every event line adds one (`Scan.line_size`).  A run keeps the reuse edges
  of an event leading to it, waits for no message before the first event,
  and its events hold nothing an index gives (`Scan.Sound`).
* The last event.  Lines without an event line change only the current
  event, and each unreadable one ends before that event's end
  (`Scan.run_within`).  A run that added events splits at its last event
  line (`Scan.run_lastEvent`).
-/

namespace EventChart

/-- An unreadable line is reported where the line starts. -/
theorem Entry.parse_error_offset {line : String} {n off : Int} {pe : LineError}
    (h : Entry.parse line n off = .error pe) : pe.offset = off := by
  unfold Entry.parse at h
  dsimp only at h
  split at h
  · cases h; rfl
  · split at h
    · cases h
    · split at h
      · cases h; rfl
      · cases h; rfl
      · split at h
        · cases h; rfl
        · split at h
          · cases h; rfl
          · split at h
            · cases h; rfl
            · cases h

theorem Line.entry?_error_offset {l : Line} {pe : LineError} (h : l.entry? = some (.error pe)) :
    pe.offset = l.offset := by
  unfold Line.entry? at h
  split at h
  · cases h
  · exact Entry.parse_error_offset (Option.some.inj h)

/-- The module a record line creates. -/
def Line.module? (l : Line) : Option ModuleCreated :=
  match l.entry? with
  | some (.ok en) => if en.eventMarker?.isNone then en.moduleCreated? else none
  | _ => none

/-- The record of a line that begins the simulation. -/
def Line.simBegin? (l : Line) : Option Entry :=
  match l.entry? with
  | some (.ok en) => if en.eventMarker?.isNone ∧ en.kind = .simulationBegin then some en else none
  | _ => none

/-- What is wrong with an unreadable line. -/
def Line.error? (l : Line) : Option LineError :=
  match l.entry? with
  | some (.error pe) => some pe
  | _ => none

namespace Scan

/-! ## Steps -/

/-- The line of the bytes `x` at `pos`. -/
def lineAt (x : List UInt8) (pos : Position) : Line := ⟨lineText x, pos.offset, pos.line, pos.offset + x.length⟩

/-- A scan over the lines of `raw` numbered from `pos`. -/
def run (raw : List (List UInt8)) (s : Scan) (pos : Position) : Scan × Position × Option Fault :=
  Reader.visitLines visit (linesFrom raw pos) s pos

@[simp] theorem run_nil (s : Scan) (pos : Position) : run [] s pos = (s, pos, none) := rfl

theorem linesFrom_cons (x : List UInt8) (raw : List (List UInt8)) (pos : Position) :
    linesFrom (x :: raw) pos = lineAt x pos :: linesFrom raw ⟨pos.offset + x.length, Position.nextLine pos.line⟩ := rfl

theorem run_cons (x : List UInt8) (raw : List (List UInt8)) (s : Scan) (pos : Position) :
    run (x :: raw) s pos =
      match (s.tick (lineAt x pos)).line (lineAt x pos) with
      | .ok s' => run raw s' ⟨pos.offset + x.length, Position.nextLine pos.line⟩
      | .error e => (s.tick (lineAt x pos), pos, some e) := by
  rw [run, linesFrom_cons, Reader.visitLines, visit_eq]
  rcases (s.tick (lineAt x pos)).line (lineAt x pos) with e | s' <;> rfl

/-- A run that did not fail ends after its lines. -/
theorem run_pos {raw : List (List UInt8)} {s t : Scan} {pos q : Position}
    (h : run raw s pos = (t, q, none)) : q = posAfter raw pos := by
  induction raw generalizing s pos with
  | nil =>
    simp only [run_nil, Prod.mk.injEq] at h
    rw [← h.2.1, posAfter_nil]
  | cons x raw ih =>
    rw [run_cons] at h
    split at h
    · rw [ih h, posAfter_cons]
    · simp at h

/-- A run in two parts: the lines of `a`, then those of `b`, unless `a`
failed. -/
theorem run_append (a b : List (List UInt8)) (s : Scan) (pos : Position) :
    run (a ++ b) s pos =
      match run a s pos with
      | (t, _, none) => run b t (posAfter a pos)
      | r => r := by
  unfold run
  rw [linesFrom_append, Reader.visitLines_append visit_neverStops]
  rcases h : Reader.visitLines visit (linesFrom a pos) s pos with ⟨t, q, _ | e⟩
  · rw [run_pos h]
  · rfl

/-! ## One line -/

theorem line_event {s : Scan} {l : Line} {m : EventMarker} (hm : l.marker? = some m) :
    s.line l = s.beginEvent m l := by
  rw [line_eq]
  unfold Line.marker? at hm
  rcases he : l.entry? with _ | (pe | en) <;> rw [he] at hm
  · cases hm
  · cases hm
  · dsimp only at hm ⊢
    rw [hm]

@[simp] theorem events_tick (s : Scan) (l : Line) : (s.tick l).events = s.events := by
  obtain ⟨p, hp⟩ := tick_eq s l
  rw [hp]

@[simp] theorem parseErrors_tick (s : Scan) (l : Line) : (s.tick l).parseErrors = s.parseErrors := by
  obtain ⟨p, hp⟩ := tick_eq s l
  rw [hp]

/-- What a line can do to a scan: nothing (a blank line), record an
unreadable line, take a record, or begin an event that follows the one
before it. -/
theorem line_cases {s s' : Scan} {l : Line} (h : s.line l = .ok s') :
    (l.entry? = none ∧ s' = s) ∨
      (l.marker? = none ∧ ∃ pe, l.entry? = some (.error pe) ∧ s' = s.afterBad pe l) ∨
      (l.marker? = none ∧ ∃ en, l.entry? = some (.ok en) ∧ s' = s.afterRecord en l) ∨
      (∃ m, l.marker? = some m ∧ refusal s.previous m l = none ∧
        s' = { s with events := s.events.push (s.newEvent m l), pendingSend := none }) := by
  rcases hm : l.marker? with _ | m
  · rw [line_eq] at h
    unfold Line.marker? at hm
    rcases he : l.entry? with _ | (pe | en) <;> rw [he] at h hm
    · exact .inl ⟨rfl, (Except.ok.inj h).symm⟩
    · exact .inr (.inl ⟨rfl, pe, rfl, (Except.ok.inj h).symm⟩)
    · dsimp only at hm h
      rw [hm] at h
      exact .inr (.inr (.inl ⟨rfl, en, rfl, (Except.ok.inj h).symm⟩))
  · rw [line_event hm, beginEvent_eq] at h
    split at h
    · cases h
    · rename_i hr
      exact .inr (.inr (.inr ⟨m, rfl, hr, (Except.ok.inj h).symm⟩))

theorem modifyCurrent_comp (s : Scan) (f g : Event → Event) :
    (s.modifyCurrent f).modifyCurrent g = s.modifyCurrent fun e => g (f e) := by
  simp only [modifyCurrent, Array.size_modify, Scan.mk.injEq, and_true, true_and]
  apply Array.toList_inj.mp
  simp only [Array.toList_modify, List.modify_modify_eq]
  rfl

/-- The current event after an unreadable line. -/
def badUpdate (l : Line) (e : Event) : Event := { e with parseErrors := e.parseErrors + 1, endOffset := l.endOffset }

theorem afterBad_eq (s : Scan) (pe : LineError) (l : Line) :
    s.afterBad pe l =
      if s.events = #[] then { s with parseErrors := s.parseErrors.push pe }
      else { s.modifyCurrent (badUpdate l) with parseErrors := s.parseErrors.push pe } := by
  unfold afterBad
  simp only [Array.isEmpty_iff]
  rfl

/-- The current event after a record that starts no event: its end moves to
the record's line, and the record's own update follows. -/
theorem afterRecord_eq (s : Scan) (en : Entry) (l : Line) :
    ∃ f ps pr, Event.KeepsHead f ∧ (∀ e, (f e).endOffset = l.endOffset) ∧ Event.AddsOwnReuses f ∧
      s.afterRecord en l =
        if s.events = #[] then s.noteRecord en
        else { (s.noteRecord en).modifyCurrent f with pendingSend := ps, pendingRoute := pr } := by
  obtain ⟨g, ps, pr, hg, hend, hre, heq⟩ := eventRecord_eq
    ((s.noteRecord en).modifyCurrent fun e => { e with endOffset := l.endOffset }) en
  refine ⟨fun e => g { e with endOffset := l.endOffset }, ps, pr, fun e => ?_, fun e => hend _,
    fun e d hd => (hre _ d hd).elim .inl .inr, ?_⟩
  · exact hg { e with endOffset := l.endOffset }
  · unfold afterRecord
    simp only [Array.isEmpty_iff, events_noteRecord]
    split
    · rfl
    · rw [heq, modifyCurrent_comp]

section records

variable (s : Scan) (pe : LineError) (en : Entry) (l : Line)

@[simp] theorem modules_afterBad : (s.afterBad pe l).modules = s.modules := by
  rw [afterBad_eq]
  split <;> rfl

@[simp] theorem simBegin_afterBad : (s.afterBad pe l).simBegin = s.simBegin := by
  rw [afterBad_eq]
  split <;> rfl

@[simp] theorem parseErrors_afterBad : (s.afterBad pe l).parseErrors = s.parseErrors.push pe := by
  rw [afterBad_eq]
  split <;> rfl

@[simp] theorem modules_afterRecord : (s.afterRecord en l).modules = (s.noteRecord en).modules := by
  obtain ⟨f, ps, pr, -, -, -, heq⟩ := afterRecord_eq s en l
  rw [heq]
  split <;> rfl

@[simp] theorem simBegin_afterRecord : (s.afterRecord en l).simBegin = (s.noteRecord en).simBegin := by
  obtain ⟨f, ps, pr, -, -, -, heq⟩ := afterRecord_eq s en l
  rw [heq]
  split <;> rfl

@[simp] theorem parseErrors_afterRecord : (s.afterRecord en l).parseErrors = s.parseErrors := by
  obtain ⟨f, ps, pr, -, -, -, heq⟩ := afterRecord_eq s en l
  rw [heq]
  split <;> simp [Scan.modifyCurrent]

end records

theorem modifyCurrent_eq_empty {s : Scan} {f : Event → Event} :
    (s.modifyCurrent f).events = #[] ↔ s.events = #[] := by
  rw [← Array.size_eq_zero_iff, ← Array.size_eq_zero_iff, size_modifyCurrent]

/-- A property of every event holds after the current one changes, if the
change keeps it. -/
theorem forall_mem_modifyCurrent {P : Event → Prop} {s : Scan} {f : Event → Event}
    (h : ∀ e ∈ s.events.toList, P e) (hf : ∀ e ∈ s.events.toList, P (f e)) :
    ∀ e ∈ (s.modifyCurrent f).events.toList, P e := by
  by_cases he : s.events = #[]
  · have hnil : (s.modifyCurrent f).events = #[] := by simp [modifyCurrent, he]
    simp [hnil]
  · obtain ⟨es, c, hes⟩ := exists_current he
    rw [events_modifyCurrent hes]
    intro e hmem
    rcases List.mem_append.mp hmem with hmem | hmem
    · exact h e (by rw [hes]; exact List.mem_append_left _ hmem)
    · rw [List.mem_singleton.mp hmem]
      exact hf c (by rw [hes]; simp)

/-- An accepted event line adds one event; any other line none. -/
theorem line_size {s s' : Scan} {l : Line} (h : s.line l = .ok s') :
    s'.events.size = s.events.size + if l.marker?.isSome then 1 else 0 := by
  rcases line_cases h with ⟨he, rfl⟩ | ⟨hm, pe, -, rfl⟩ | ⟨hm, en, -, rfl⟩ | ⟨m, hm, -, rfl⟩
  · simp [Line.marker?, he]
  · rw [afterBad_eq]
    split <;> simp [hm]
  · obtain ⟨f, ps, pr, -, -, -, heq⟩ := afterRecord_eq s en l
    rw [heq]
    split <;> simp [hm]
  · simp [hm]

/-! ## What a run reads -/

/-- Changing the current event by an update that keeps heads keeps the
numbers of the events. -/
theorem numbers_modifyCurrent (s : Scan) {f : Event → Event} (hk : Event.KeepsHead f) :
    (s.modifyCurrent f).events.toList.map Event.number = s.events.toList.map Event.number := by
  by_cases he : s.events = #[]
  · simp [modifyCurrent, he]
  · obtain ⟨es, c, hes⟩ := exists_current he
    rw [events_modifyCurrent hes, hes]
    simp [(hk c).1]

/-- What the lines `L` add to an earlier state `s` of a scan, giving `t`: the
modules they create and their unreadable lines, at the end; their
simulation begin, unless one was seen; and events, each earlier one keeping
its number. -/
structure Reads (L : List Line) (s t : Scan) : Prop where
  modules : t.modules.toList = s.modules.toList ++ L.filterMap Line.module?
  simBegin : t.simBegin = s.simBegin.or (L.findSome? Line.simBegin?)
  parseErrors : t.parseErrors.toList = s.parseErrors.toList ++ L.filterMap Line.error?
  numbers : ∃ N, t.events.toList.map Event.number = s.events.toList.map Event.number ++ N

theorem Reads.nil (s : Scan) : Reads [] s s := ⟨by simp, by simp, by simp, ⟨[], by simp⟩⟩

theorem Reads.append {L L' : List Line} {s t u : Scan} (h₁ : Reads L s t) (h₂ : Reads L' t u) :
    Reads (L ++ L') s u := by
  obtain ⟨N₁, hN₁⟩ := h₁.numbers
  obtain ⟨N₂, hN₂⟩ := h₂.numbers
  refine ⟨?_, ?_, ?_, ⟨N₁ ++ N₂, by rw [hN₂, hN₁, List.append_assoc]⟩⟩
  · rw [h₂.modules, h₁.modules, List.filterMap_append, List.append_assoc]
  · rw [h₂.simBegin, h₁.simBegin, List.findSome?_append, Option.or_assoc]
  · rw [h₂.parseErrors, h₁.parseErrors, List.filterMap_append, List.append_assoc]

theorem Reads.size_le {L : List Line} {s t : Scan} (h : Reads L s t) : s.events.size ≤ t.events.size := by
  obtain ⟨N, hN⟩ := h.numbers
  have := congrArg List.length hN
  simp only [List.length_map, Array.length_toList, List.length_append] at this
  omega

/-- Counting a line adds nothing. -/
theorem Reads.of_tick {L : List Line} {s t : Scan} {l : Line} (h : Reads L (s.tick l) t) : Reads L s t := by
  obtain ⟨p, hp⟩ := tick_eq s l
  rw [hp] at h
  exact ⟨h.modules, h.simBegin, h.parseErrors, h.numbers⟩

theorem line_reads {s s' : Scan} {l : Line} (h : s.line l = .ok s') : Reads [l] s s' := by
  rcases line_cases h with ⟨he, rfl⟩ | ⟨-, pe, he, rfl⟩ | ⟨hm, en, he, rfl⟩ | ⟨m, hm, -, rfl⟩
  · -- a blank line
    have hmod : l.module? = none := by simp [Line.module?, he]
    have hsb : l.simBegin? = none := by simp [Line.simBegin?, he]
    have herr : l.error? = none := by simp [Line.error?, he]
    exact ⟨by simp [hmod], by simp [hsb], by simp [herr], ⟨[], by simp⟩⟩
  · -- an unreadable line
    have hmod : l.module? = none := by simp [Line.module?, he]
    have hsb : l.simBegin? = none := by simp [Line.simBegin?, he]
    have herr : l.error? = some pe := by simp [Line.error?, he]
    have hk : Event.KeepsHead (badUpdate l) := fun e => ⟨rfl, rfl, rfl, rfl, rfl, rfl⟩
    refine ⟨by simp [hmod], by simp [hsb], by simp [herr], ⟨[], ?_⟩⟩
    rw [afterBad_eq]
    split
    · simp
    · exact (numbers_modifyCurrent s hk).trans (List.append_nil _).symm
  · -- a record declares a module or the simulation's begin wherever it stands
    have hem : en.eventMarker? = none := by simpa [Line.marker?, he] using hm
    have hmod : l.module? = en.moduleCreated? := by simp [Line.module?, he, hem]
    have hsb : l.simBegin? = if en.kind = .simulationBegin then some en else none := by
      simp [Line.simBegin?, he, hem]
    have herr : l.error? = none := by simp [Line.error?, he]
    refine ⟨?_, ?_, by simp [herr], ⟨[], ?_⟩⟩
    · rw [modules_afterRecord, modules_noteRecord, List.filterMap_cons, List.filterMap_nil, hmod]
      cases en.moduleCreated? <;> rfl
    · rw [simBegin_afterRecord, simBegin_noteRecord, List.findSome?_singleton, hsb]
      by_cases hk : en.kind = .simulationBegin <;> cases s.simBegin <;> simp [hk]
    · obtain ⟨f, ps, pr, hk, -, -, heq⟩ := afterRecord_eq s en l
      rw [heq]
      split
      · simp
      · rw [List.append_nil, numbers_modifyCurrent _ hk, events_noteRecord]
  · -- an event line adds its event
    obtain ⟨en, he, hem⟩ : ∃ en, l.entry? = some (.ok en) ∧ en.eventMarker? = some m := by
      unfold Line.marker? at hm
      split at hm
      · exact ⟨_, ‹_›, hm⟩
      · cases hm
    have hmod : l.module? = none := by simp [Line.module?, he, hem]
    have hsb : l.simBegin? = none := by simp [Line.simBegin?, he, hem]
    have herr : l.error? = none := by simp [Line.error?, he]
    exact ⟨by simp [hmod], by simp [hsb], by simp [herr], ⟨[(s.newEvent m l).number], by simp⟩⟩

/-- A run adds what its lines declare, and events. -/
theorem run_reads {raw : List (List UInt8)} {s t : Scan} {pos q : Position}
    (h : run raw s pos = (t, q, none)) : Reads (linesFrom raw pos) s t := by
  induction raw generalizing s pos with
  | nil =>
    simp only [run_nil, Prod.mk.injEq] at h
    rw [← h.1]
    exact Reads.nil _
  | cons x raw ih =>
    rw [run_cons] at h
    split at h
    · rename_i s' hs'
      rw [linesFrom_cons, ← List.singleton_append]
      exact (Reads.of_tick (line_reads hs')).append (ih h)
    · simp at h

/-- A line keeps the index a scan continues. -/
theorem line_base {s s' : Scan} {l : Line} (h : s.line l = .ok s') :
    s'.base = s.base ∧ s'.replacesLast = s.replacesLast := by
  rcases line_cases h with ⟨-, rfl⟩ | ⟨-, pe, -, rfl⟩ | ⟨-, en, -, rfl⟩ | ⟨m, -, -, rfl⟩
  · exact ⟨rfl, rfl⟩
  · rw [afterBad_eq]
    split <;> exact ⟨rfl, rfl⟩
  · obtain ⟨f, ps, pr, -, -, -, heq⟩ := afterRecord_eq s en l
    rw [heq]
    split <;> simp [Scan.modifyCurrent]
  · exact ⟨rfl, rfl⟩

/-- A run keeps the index a scan continues, and keeps the scan well formed. -/
theorem run_base {raw : List (List UInt8)} {s t : Scan} {pos q : Position} (h : run raw s pos = (t, q, none)) :
    t.base = s.base ∧ t.replacesLast = s.replacesLast := by
  induction raw generalizing s pos with
  | nil =>
    simp only [run_nil, Prod.mk.injEq] at h
    rw [h.1]
    exact ⟨rfl, rfl⟩
  | cons x raw ih =>
    rw [run_cons] at h
    split at h
    · rename_i s' hs'
      obtain ⟨p, hp⟩ := tick_eq s (lineAt x pos)
      have hl := line_base hs'
      rw [hp] at hl
      obtain ⟨hb, hr⟩ := ih h
      exact ⟨hb.trans hl.1, hr.trans hl.2⟩
    · simp at h

theorem run_wf {raw : List (List UInt8)} {s t : Scan} {pos q : Position} (hs : s.Wf)
    (h : run raw s pos = (t, q, none)) : t.Wf := by
  induction raw generalizing s pos with
  | nil =>
    simp only [run_nil, Prod.mk.injEq] at h
    exact h.1 ▸ hs
  | cons x raw ih =>
    rw [run_cons] at h
    split at h
    · rename_i s' hs'
      exact ih ((hs.tick _).line hs') h
    · simp at h

/-- The lines numbered from `pos` start no earlier than `pos`. -/
theorem offset_le_of_mem_linesFrom :
    ∀ {raw : List (List UInt8)} {pos : Position} {l : Line}, l ∈ linesFrom raw pos → pos.offset ≤ l.offset
  | [], _, _, h => absurd h List.not_mem_nil
  | x :: raw, pos, l, h => by
    rw [linesFrom_cons, List.mem_cons] at h
    rcases h with rfl | h
    · exact le_rfl
    · have := offset_le_of_mem_linesFrom h
      simp only at this
      omega

/-- An unreadable line is reported no earlier than where its run started. -/
theorem offset_le_of_mem_errors {raw : List (List UInt8)} {pos : Position} {pe : LineError}
    (h : pe ∈ (linesFrom raw pos).filterMap Line.error?) : pos.offset ≤ pe.offset := by
  obtain ⟨l, hl, hpe⟩ := List.mem_filterMap.mp h
  have hoff : pe.offset = l.offset := by
    unfold Line.error? at hpe
    split at hpe
    · cases hpe
      exact Line.entry?_error_offset ‹_›
    · cases hpe
  rw [hoff]
  exact offset_le_of_mem_linesFrom hl

/-- An event that holds nothing an index gives: no epoch, no position, no
cached entries. -/
theorem Event.strip_eq_self {e : Event} (h₀ : e.epoch = 0) (h₁ : e.index = 0) (h₂ : e.entries = none) :
    e.strip = e := by
  cases e
  simp only at h₀ h₁ h₂
  subst h₀ h₁ h₂
  rfl

/-- An update that keeps heads gives nothing an index gives. -/
theorem Event.KeepsHead.strip_eq_self {f : Event → Event} (hk : Event.KeepsHead f) {e : Event}
    (he : e.strip = e) : (f e).strip = f e := by
  obtain ⟨-, -, -, h₀, h₁, h₂⟩ := hk e
  have he₀ : e.epoch = 0 := by rw [← he]; rfl
  have he₁ : e.index = 0 := by rw [← he]; rfl
  have he₂ : e.entries = none := by rw [← he]; rfl
  exact Event.strip_eq_self (h₀.trans he₀) (h₁.trans he₁) (h₂.trans he₂)

/-- What every state of a scan satisfies: the reuse edges of an event lead
to it, its events hold nothing an index gives, and no message is pending
before the first event. -/
structure Sound (s : Scan) : Prop where
  reuses : ∀ e ∈ s.events.toList, ∀ d ∈ e.reuses, d.consequence = e.number
  bare : ∀ e ∈ s.events.toList, e.strip = e
  idle : s.events = #[] → s.pendingSend = none

theorem sound_start (base : Index) (replacesLast : Bool) (size : Nat) :
    Sound (Scan.start base replacesLast size) :=
  ⟨by simp [Scan.start], by simp [Scan.start], fun _ => rfl⟩

theorem Sound.modifyCurrent {s : Scan} (hs : Sound s) {f : Event → Event} (hk : Event.KeepsHead f)
    (hr : Event.AddsOwnReuses f) : Sound (s.modifyCurrent f) := by
  refine ⟨forall_mem_modifyCurrent hs.reuses fun e he d hd => ?_,
    forall_mem_modifyCurrent hs.bare fun e he => Event.KeepsHead.strip_eq_self hk (hs.bare e he),
    fun h' => hs.idle (modifyCurrent_eq_empty.mp h')⟩
  rcases hr e d hd with hd | hd
  · rw [(hk e).1]
    exact hs.reuses e he d hd
  · rw [(hk e).1]
    exact hd

theorem line_sound {s s' : Scan} (hs : Sound s) {l : Line} (h : s.line l = .ok s') : Sound s' := by
  rcases line_cases h with ⟨-, rfl⟩ | ⟨-, pe, -, rfl⟩ | ⟨-, en, -, rfl⟩ | ⟨m, -, -, rfl⟩
  · exact hs
  · rw [afterBad_eq]
    split
    · exact ⟨hs.reuses, hs.bare, hs.idle⟩
    · have hm := hs.modifyCurrent (f := badUpdate l) (fun e => ⟨rfl, rfl, rfl, rfl, rfl, rfl⟩)
        (fun e d hd => .inl hd)
      exact ⟨hm.reuses, hm.bare, hm.idle⟩
  · obtain ⟨f, ps, pr, hk, -, hr, heq⟩ := afterRecord_eq s en l
    have hn : Sound (s.noteRecord en) := ⟨by simpa using hs.reuses, by simpa using hs.bare, by simpa using hs.idle⟩
    rw [heq]
    split
    · exact hn
    · rename_i he
      have hm := hn.modifyCurrent hk hr
      refine ⟨hm.reuses, hm.bare, fun h' => absurd ?_ he⟩
      simpa using modifyCurrent_eq_empty.mp h'
  · refine ⟨fun e he d hd => ?_, fun e he => ?_, fun h' => by simp at h'⟩
    · simp only [Array.toList_push, List.mem_append, List.mem_singleton] at he
      rcases he with he | rfl
      · exact hs.reuses e he d hd
      · simp [newEvent] at hd
    · simp only [Array.toList_push, List.mem_append, List.mem_singleton] at he
      rcases he with he | rfl
      · exact hs.bare e he
      · rfl

theorem Sound.tick {s : Scan} (hs : Sound s) (l : Line) : Sound (s.tick l) := by
  obtain ⟨p, hp⟩ := tick_eq s l
  rw [hp]
  exact ⟨hs.reuses, hs.bare, hs.idle⟩

theorem run_sound {raw : List (List UInt8)} {s t : Scan} {pos q : Position} (hs : Sound s)
    (h : run raw s pos = (t, q, none)) : Sound t := by
  induction raw generalizing s pos with
  | nil =>
    simp only [run_nil, Prod.mk.injEq] at h
    exact h.1 ▸ hs
  | cons x raw ih =>
    rw [run_cons] at h
    split at h
    · rename_i s' hs'
      exact ih (line_sound (hs.tick _) hs') h
    · simp at h

/-! ## The last event -/

/-- A line without an event line changes only the current event: its end
moves no further than the line's, and an unreadable line ends before it. -/
theorem line_within {s s' : Scan} {l : Line} (h : s.line l = .ok s') (hm : l.marker? = none)
    (hne : s.events ≠ #[]) (hl : l.offset < l.endOffset) :
    ∃ f, Event.KeepsHead f ∧ s'.events = (s.modifyCurrent f).events ∧
      (∀ e, e.endOffset ≤ l.offset → e.endOffset ≤ (f e).endOffset ∧ (f e).endOffset ≤ l.endOffset) ∧
      ∃ P, s'.parseErrors.toList = s.parseErrors.toList ++ P ∧ ∀ pe ∈ P, ∀ e, pe.offset < (f e).endOffset := by
  rcases line_cases h with ⟨-, rfl⟩ | ⟨-, pe, hpe, rfl⟩ | ⟨-, en, -, rfl⟩ | ⟨m, hm', -, -⟩
  · -- a blank line
    refine ⟨id, fun e => ⟨rfl, rfl, rfl, rfl, rfl, rfl⟩, by rw [modifyCurrent_id], fun e he => ⟨le_rfl, by
      simp only [id]; omega⟩, [], by simp, by simp⟩
  · -- an unreadable line moves the end of the current event to its own
    refine ⟨badUpdate l, fun e => ⟨rfl, rfl, rfl, rfl, rfl, rfl⟩, by rw [afterBad_eq, if_neg hne], fun e he => ⟨?_, le_rfl⟩,
      [pe], by simp, ?_⟩
    · simp only [badUpdate]
      omega
    · intro pe' hpe' e
      rw [List.mem_singleton.mp hpe', Line.entry?_error_offset hpe]
      exact hl
  · -- a record moves the end of the current event to its own line
    obtain ⟨f, ps, pr, hk, hend, -, heq⟩ := afterRecord_eq s en l
    refine ⟨f, hk, ?_, fun e he => ⟨by rw [hend]; omega, by rw [hend]⟩, [], by simp, by simp⟩
    rw [heq, if_neg hne]
    simp [Scan.modifyCurrent]
  · rw [hm] at hm'
    cases hm'

/-- Lines without an event line change only the current event; its head
stays, and each unreadable line among them ends before the event's end. -/
theorem run_within {raw : List (List UInt8)} {t u : Scan} {pos q : Position}
    (h : run raw t pos = (u, q, none)) (hraw : ∀ x ∈ raw, x ≠ [])
    (hm : ∀ l ∈ linesFrom raw pos, l.marker? = none) {es : List Event} {c : Event}
    (ht : t.events.toList = es ++ [c]) (hc : c.endOffset ≤ pos.offset) :
    ∃ c', u.events.toList = es ++ [c'] ∧ c'.number = c.number ∧ c'.time = c.time ∧ c'.pos = c.pos ∧
      c.endOffset ≤ c'.endOffset ∧ c'.endOffset ≤ q.offset ∧
      ∃ P, u.parseErrors.toList = t.parseErrors.toList ++ P ∧ ∀ pe ∈ P, pe.offset < c'.endOffset := by
  induction raw generalizing t c pos with
  | nil =>
    simp only [run_nil, Prod.mk.injEq] at h
    obtain ⟨rfl, rfl, -⟩ := h
    exact ⟨c, ht, rfl, rfl, rfl, le_rfl, hc, [], by simp, by simp⟩
  | cons x raw ih =>
    rw [run_cons] at h
    split at h
    · rename_i s' hs'
      have hx : (0 : Int) < x.length := by
        have := List.length_pos_iff.mpr (hraw x (List.mem_cons_self ..))
        omega
      have hne : (t.tick (lineAt x pos)).events ≠ #[] := by
        rw [events_tick]
        intro he
        simp [he] at ht
      have hmx : (lineAt x pos).marker? = none := hm _ (by rw [linesFrom_cons]; exact List.mem_cons_self ..)
      obtain ⟨f, hk, hev, hend, P₁, hP₁, hp₁⟩ :=
        line_within hs' hmx hne (by simp only [lineAt]; omega)
      have ht' : s'.events.toList = es ++ [f c] := by
        rw [hev, events_modifyCurrent (by rw [events_tick]; exact ht)]
      have hfc := hend c hc
      obtain ⟨c', hu, hn, htime, hpos, hle, hq, P₂, hP₂, hp₂⟩ :=
        ih h (fun y hy => hraw y (List.mem_cons_of_mem _ hy))
          (fun l hl => hm l (by rw [linesFrom_cons]; exact List.mem_cons_of_mem _ hl)) ht' hfc.2
      refine ⟨c', hu, hn.trans (hk c).1, htime.trans (hk c).2.1, hpos.trans (hk c).2.2.1, hfc.1.trans hle, hq,
        P₁ ++ P₂, by rw [hP₂, hP₁, parseErrors_tick, List.append_assoc], fun pe hpe => ?_⟩
      rcases List.mem_append.mp hpe with hpe | hpe
      · exact lt_of_lt_of_le (hp₁ pe hpe c) hle
      · exact hp₂ pe hpe
    · simp at h

/-- A run that adds no event reads no event line. -/
theorem run_no_event {raw : List (List UInt8)} {s t : Scan} {pos q : Position}
    (h : run raw s pos = (t, q, none)) (hsize : t.events.size ≤ s.events.size) :
    ∀ l ∈ linesFrom raw pos, l.marker? = none := by
  induction raw generalizing s pos with
  | nil => simp [linesFrom]
  | cons x raw ih =>
    rw [run_cons] at h
    split at h
    · rename_i s' hs'
      have hstep := line_size hs'
      have hrest := (run_reads h).size_le
      rw [events_tick] at hstep
      intro l hl
      rw [linesFrom_cons, List.mem_cons] at hl
      rcases hl with rfl | hl
      · -- the first line added no event
        rcases hm : (lineAt x pos).marker? with _ | m
        · rfl
        · rw [hm] at hstep
          simp at hstep
          omega
      · exact ih h (by split at hstep <;> omega) l hl
    · simp at h

/-- A run that added events splits at its last event line: the lines before
it, the event line, accepted, and lines without an event line after it. -/
theorem run_lastEvent {raw : List (List UInt8)} {s t : Scan} {pos q : Position}
    (h : run raw s pos = (t, q, none)) (hgrow : s.events.size < t.events.size) :
    ∃ A x B b b' m, raw = A ++ x :: B ∧ run A s pos = (b, posAfter A pos, none) ∧
      (lineAt x (posAfter A pos)).marker? = some m ∧
      (b.tick (lineAt x (posAfter A pos))).line (lineAt x (posAfter A pos)) = .ok b' ∧
      run B b' (posAfter (A ++ [x]) pos) = (t, q, none) ∧
      ∀ l ∈ linesFrom B (posAfter (A ++ [x]) pos), l.marker? = none := by
  induction raw generalizing s pos with
  | nil =>
    simp only [run_nil, Prod.mk.injEq] at h
    rw [h.1] at hgrow
    exact absurd hgrow (lt_irrefl _)
  | cons y raw ih =>
    rw [run_cons] at h
    split at h
    · rename_i s' hs'
      have hpos : posAfter [y] pos = ⟨pos.offset + y.length, Position.nextLine pos.line⟩ := by
        rw [posAfter_cons, posAfter_nil]
      by_cases hlt : s'.events.size < t.events.size
      · -- a later line is the last event line
        obtain ⟨A, x, B, b, b', m, rfl, hA, hm, hb, hB, hno⟩ := ih h hlt
        refine ⟨y :: A, x, B, b, b', m, rfl, ?_, ?_, ?_, ?_, ?_⟩
        · rw [run_cons, hs', posAfter_cons]
          exact hA
        · rw [posAfter_cons]
          exact hm
        · rw [posAfter_cons]
          exact hb
        · rw [List.cons_append, posAfter_cons]
          exact hB
        · rw [List.cons_append, posAfter_cons]
          exact hno
      · -- this line is the last event line
        have hstep := line_size hs'
        rw [events_tick] at hstep
        have hm : ∃ m, (lineAt y pos).marker? = some m := by
          rcases hm : (lineAt y pos).marker? with _ | m
          · rw [hm] at hstep
            simp at hstep
            have := (run_reads h).size_le
            omega
          · exact ⟨m, rfl⟩
        obtain ⟨m, hm⟩ := hm
        refine ⟨[], y, raw, s, s', m, rfl, ?_, ?_, ?_, ?_, ?_⟩
        · rw [posAfter_nil, run_nil]
        · rw [posAfter_nil]
          exact hm
        · rw [posAfter_nil]
          exact hs'
        · rw [List.nil_append, hpos]
          exact h
        · rw [List.nil_append, hpos]
          exact run_no_event h (by omega)
    · simp at h

end Scan

end EventChart
