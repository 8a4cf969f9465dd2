import EventChart.Proofs.Log.Search
import EventChart.Proofs.Log.Lines
/-!
# Scans

A scan reads lines one at a time (`Scan.line`).  This module says once what
one line does to a scan and derives from that the two facts the index
proofs stand on.

* One line.  `Line.entry?` is what a line holds: nothing (a blank line), an
  unreadable line, or an entry.  `Scan.line_eq` splits a step into these
  cases, with an event line and any other record apart; the effect of each
  case is a named function (`Scan.beginEvent_eq`, `Scan.afterBad`,
  `Scan.afterRecord`).
* Looking back.  A scan looks back at earlier events twice: at the event
  before a new one (`Scan.previous`), which the new one must follow, and at
  the event that sent the message a new one processes (`Scan.lookup`).  Both
  look at `Scan.visible`: the base's events, less its last one when that one
  is read again, then the scan's own.  `Scan.previous_eq` and
  `Scan.lookup_eq` say so, the second for a scan whose visible events are in
  order (`Scan.Wf`).
* Two scans in step.  `Scan.Sim` relates a scan that continues an index to a
  scan of the whole file: the same visible events up to what the index adds
  to them (`Event.strip`), the same records after a fixed prefix, the same
  pending message.  `Scan.visit_sim` shows that a line keeps two scans in
  step and fails on both alike, and `Scan.visitLines_sim` extends that to
  every run of lines.  `Scan.visit_sim_event` starts the relation at an
  event line from a weaker one (`Scan.SimAt`).
-/

namespace EventChart

open EventChart.Text

/-! ## What a line holds -/

/-- What a line holds: nothing if it is blank, else what reading it gives. -/
def Line.entry? (l : Line) : Option (Except LineError Entry) :=
  if trimBlank l.text == "" then none else some (Entry.parse l.text l.number l.offset)

/-- The event a line starts, if it is an event line. -/
def Line.marker? (l : Line) : Option EventMarker :=
  match l.entry? with
  | some (.ok en) => en.eventMarker?
  | _ => none

namespace Event

/-- An event as a scan knows it, without what the index gives it (its epoch
and position) and without cached entries. -/
def strip (e : Event) : Event := { e with epoch := 0, index := 0, entries := none }

@[simp] theorem strip_number (e : Event) : e.strip.number = e.number := rfl
@[simp] theorem strip_time (e : Event) : e.strip.time = e.time := rfl
@[simp] theorem strip_sent (e : Event) : e.strip.sent = e.sent := rfl
@[simp] theorem strip_strip (e : Event) : e.strip.strip = e.strip := rfl

theorem sentMessage?_strip (e : Event) (id : Int) : e.strip.sentMessage? id = e.sentMessage? id := rfl

theorem precedes_strip {a b : Event} : a.strip.Precedes b.strip ↔ a.Precedes b := Iff.rfl

/-- An update of an event that neither reads nor writes what the index gives
it: updating the stripped event gives the stripped update. -/
def RespectsStrip (f : Event → Event) : Prop := ∀ e, (f e).strip = (f e.strip).strip

theorem RespectsStrip.strip_congr {f : Event → Event} (hf : RespectsStrip f) {a b : Event}
    (h : a.strip = b.strip) : (f a).strip = (f b).strip := by
  rw [hf a, hf b, h]

/-- An update of an event that keeps its head: the number and time the order
of a log is about, and the line the event starts at; and that leaves alone
what an index gives the event. -/
def KeepsHead (f : Event → Event) : Prop :=
  ∀ e, (f e).number = e.number ∧ (f e).time = e.time ∧ (f e).pos = e.pos ∧
    (f e).epoch = e.epoch ∧ (f e).index = e.index ∧ (f e).entries = e.entries

/-- An update of an event that adds only reuse edges leading to the event
itself. -/
def AddsOwnReuses (f : Event → Event) : Prop :=
  ∀ e, ∀ d ∈ (f e).reuses, d ∈ e.reuses ∨ d.consequence = e.number

end Event

theorem inOrder_map_strip {es : List Event} : InOrder (es.map Event.strip) ↔ InOrder es := by
  simp only [InOrder, List.pairwise_map, Event.precedes_strip]

/-- The last event of an ordered list may change in anything but its number
and time. -/
theorem InOrder.concat_congr {es : List Event} {e e' : Event} (h : InOrder (es ++ [e]))
    (hn : e'.number = e.number) (ht : e'.time = e.time) : InOrder (es ++ [e']) := by
  rw [InOrder, List.pairwise_append] at h ⊢
  refine ⟨h.1, List.pairwise_singleton _ _, fun a ha b hb => ?_⟩
  rw [List.mem_singleton] at hb
  subst hb
  have hp := h.2.2 a ha e (List.mem_singleton_self e)
  exact ⟨hn ▸ hp.1, ht ▸ hp.2⟩

theorem map_strip_concat {l₁ l₂ : List Event} {x₁ x₂ : Event}
    (h : (l₁ ++ [x₁]).map Event.strip = (l₂ ++ [x₂]).map Event.strip) :
    l₁.map Event.strip = l₂.map Event.strip ∧ x₁.strip = x₂.strip := by
  rw [List.map_append, List.map_append] at h
  obtain ⟨hl, hx⟩ := List.append_inj' h rfl
  exact ⟨hl, by simpa using hx⟩

namespace Scan

/-! ## One line -/

/-- The event an event line starts in a scan. -/
def newEvent (s : Scan) (m : EventMarker) (l : Line) : Event :=
  let causeMessage :=
    match s.lookup m.causeEvent with
    | some c => if m.messageId ≥ 0 then c.sentMessage? m.messageId else none
    | none => none
  ⟨0, 0, m.number, m.time, m.moduleId, m.causeEvent, m.messageId,
    ⟨l.offset, l.number⟩, l.endOffset, causeMessage, #[], [], 0, none⟩

/-- Why an event line cannot follow the event before it, if it cannot. -/
def refusal (prev : Option Event) (m : EventMarker) (l : Line) : Option Fault :=
  match prev with
  | some prev =>
    if m.number ≤ prev.number then
      some (.corruptIndex ("line " ++ toString l.number ++ ": event number " ++ toString m.number ++
        " does not follow " ++ toString prev.number))
    else if m.time < prev.time then
      some (.corruptIndex ("line " ++ toString l.number ++ ": simulation time " ++ m.time.toText ++
        " of event " ++ toString m.number ++ " precedes " ++ prev.time.toText))
    else none
  | none => none

/-- The scan after an unreadable line. -/
def afterBad (s : Scan) (pe : LineError) (l : Line) : Scan :=
  let s := { s with parseErrors := s.parseErrors.push pe }
  if s.events.isEmpty then s
  else s.modifyCurrent fun e => { e with parseErrors := e.parseErrors + 1, endOffset := l.endOffset }

/-- The scan that has noted what a record declares wherever it stands: a
created module, and the simulation's begin if none was seen. -/
def noteRecord (s : Scan) (en : Entry) : Scan :=
  let s := match en.moduleCreated? with
    | some mc => { s with modules := s.modules.push mc }
    | none => s
  if en.kind = .simulationBegin ∧ s.simBegin.isNone then { s with simBegin := some en } else s

/-- The scan after a record that starts no event. -/
def afterRecord (s : Scan) (en : Entry) (l : Line) : Scan :=
  let s := s.noteRecord en
  if s.events.isEmpty then s
  else (s.modifyCurrent fun e => { e with endOffset := l.endOffset }).eventRecord en

theorem beginEvent_eq (s : Scan) (m : EventMarker) (l : Line) :
    s.beginEvent m l =
      match refusal s.previous m l with
      | some f => .error f
      | none => .ok { s with events := s.events.push (s.newEvent m l), pendingSend := none } := by
  unfold beginEvent
  rcases hp : s.previous with _ | prev
  · rfl
  · by_cases h1 : m.number ≤ prev.number
    · simp only [refusal, if_pos h1]
      rfl
    · by_cases h2 : m.time < prev.time
      · simp only [refusal, if_neg h1, if_pos h2]
        rfl
      · simp only [refusal, if_neg h1, if_neg h2]
        rfl

/-- One line is blank, unreadable, an event line or another record. -/
theorem line_eq (s : Scan) (l : Line) :
    s.line l =
      match l.entry? with
      | none => .ok s
      | some (.error pe) => .ok (s.afterBad pe l)
      | some (.ok en) =>
        match en.eventMarker? with
        | some m => s.beginEvent m l
        | none => .ok (s.afterRecord en l) := by
  unfold line Line.entry?
  by_cases hb : (trimBlank l.text == "") = true
  · simp only [hb, if_true]
    rfl
  · simp only [hb, if_false, Bool.false_eq_true]
    cases Entry.parse l.text l.number l.offset with
    | error pe => rfl
    | ok en =>
      cases hm : en.eventMarker? with
      | none =>
        simp only [hm, afterRecord, noteRecord]
        exact (apply_ite Except.ok _ _ _).symm
      | some m => simp only [hm]

/-- The scan as `visit` hands it to `line`: one more line counted, and the
progress reported every `progressInterval` lines. -/
def tick (s : Scan) (l : Line) : Scan :=
  let lines := s.lines + 1
  let s := { s with lines := lines }
  if lines % progressInterval = 0 ∧ s.size > 0 then
    { s with progress := s.progress.push (Float.ofInt l.endOffset / Float.ofNat s.size) }
  else s

theorem visit_eq (s : Scan) (l : Line) :
    s.visit l =
      match (s.tick l).line l with
      | .ok s' => .next s'
      | .error e => .fail e (s.tick l) := rfl

/-- Counting a line changes nothing but the count and the progress. -/
theorem tick_eq (s : Scan) (l : Line) : ∃ p, s.tick l = { s with lines := s.lines + 1, progress := p } := by
  unfold tick
  dsimp only
  split
  · exact ⟨_, rfl⟩
  · exact ⟨_, rfl⟩

theorem visit_neverStops : Reader.NeverStops Scan.visit := by
  intro s l s' h
  rw [visit_eq] at h
  split at h <;> cases h

section noteRecord

variable (s : Scan) (en : Entry)

@[simp] theorem events_noteRecord : (s.noteRecord en).events = s.events := by
  unfold noteRecord
  cases en.moduleCreated? <;> dsimp only <;> split <;> rfl

@[simp] theorem base_noteRecord : (s.noteRecord en).base = s.base := by
  unfold noteRecord
  cases en.moduleCreated? <;> dsimp only <;> split <;> rfl

@[simp] theorem replacesLast_noteRecord : (s.noteRecord en).replacesLast = s.replacesLast := by
  unfold noteRecord
  cases en.moduleCreated? <;> dsimp only <;> split <;> rfl

@[simp] theorem parseErrors_noteRecord : (s.noteRecord en).parseErrors = s.parseErrors := by
  unfold noteRecord
  cases en.moduleCreated? <;> dsimp only <;> split <;> rfl

@[simp] theorem pendingSend_noteRecord : (s.noteRecord en).pendingSend = s.pendingSend := by
  unfold noteRecord
  cases en.moduleCreated? <;> dsimp only <;> split <;> rfl

@[simp] theorem pendingRoute_noteRecord : (s.noteRecord en).pendingRoute = s.pendingRoute := by
  unfold noteRecord
  cases en.moduleCreated? <;> dsimp only <;> split <;> rfl

theorem modules_noteRecord :
    (s.noteRecord en).modules.toList = s.modules.toList ++ en.moduleCreated?.toList := by
  unfold noteRecord
  cases en.moduleCreated? <;> dsimp only <;> split <;> simp_all

theorem simBegin_noteRecord :
    (s.noteRecord en).simBegin =
      if en.kind = .simulationBegin ∧ s.simBegin.isNone then some en else s.simBegin := by
  unfold noteRecord
  cases en.moduleCreated? <;> dsimp only <;> split <;> simp_all

end noteRecord

/-! ## Looking back -/

/-- The events a scan looks back at: the base's, less its last one when the
scan reads that one again, then the scan's own. -/
def visible (s : Scan) : List Event :=
  (if s.replacesLast then s.base.events.toList.dropLast else s.base.events.toList) ++ s.events.toList

/-- The event before the next one is the last visible one. -/
theorem previous_eq (s : Scan) : s.previous = s.visible.getLast? := by
  unfold previous visible
  rcases h : s.events.back? with _ | e
  · have hnil : s.events.toList = [] := by
      rw [← List.getLast?_eq_none_iff, Array.getLast?_toList, h]
    simp only [hnil, List.append_nil]
    cases s.replacesLast
    · simp [Index.last?]
    · simp only [Bool.not_true, Bool.false_eq_true, if_false, if_true, List.getLast?_dropLast,
        Array.length_toList, Array.getElem?_toList]
      by_cases hs : s.base.events.size > 1
      · rw [if_pos hs, if_neg (by omega)]
      · rw [if_neg hs, if_pos (by omega)]
  · have hne : s.events.toList.getLast? = some e := by rw [Array.getLast?_toList, h]
    simp [hne]

/-- Looking up a number that a later event of an ordered list has finds
nothing in front of it. -/
theorem InOrder.find?_front_eq_none {pre post : List Event} (h : InOrder (pre ++ post)) {e : Event}
    (he : e ∈ post) : pre.find? (·.number == e.number) = none := by
  rw [List.find?_eq_none]
  intro x hx
  have hlt : x.number < e.number := ((List.pairwise_append.mp h).2.2 x hx e he).1
  simpa using hlt.ne

/-- In an indexed array, the first event found is the last one exactly when
its index says so; otherwise it is found without the last one. -/
theorem find?_dropLast_of_indexed {xs : Array Event} (hidx : ∀ (i : Nat) (h : i < xs.size), xs[i].index = i)
    {p : Event → Bool} {e : Event} (hf : xs.toList.find? p = some e) :
    xs.toList.dropLast.find? p = if e.index + 1 = xs.size then none else some e := by
  have hne : xs.toList ≠ [] := by
    rintro h
    simp [h] at hf
  have hsplit := List.dropLast_append_getLast hne
  rw [← hsplit, List.find?_append] at hf
  rcases hd : xs.toList.dropLast.find? p with _ | e'
  · -- the match is the last event
    rw [hd, Option.none_or, List.find?_singleton] at hf
    have hl : xs.toList.getLast hne = e := by
      split at hf <;> simp_all
    have hsize : 0 < xs.size := by
      rw [← Array.length_toList]
      exact List.length_pos_iff.mpr hne
    have hidxe : e.index = xs.size - 1 := by
      rw [← hl, List.getLast_eq_getElem]
      simpa using hidx (xs.size - 1) (by omega)
    rw [if_pos (by omega)]
  · -- the match lies before the last event
    rw [hd, Option.some_or] at hf
    obtain rfl : e' = e := Option.some.inj hf
    obtain ⟨j, hj, hje⟩ := List.mem_iff_getElem.mp (List.mem_of_find?_eq_some hd)
    have hjlen : j < xs.size - 1 := by simpa using hj
    have hidxe : e'.index = j := by
      rw [← hje, List.getElem_dropLast]
      simpa using hidx j (by omega)
    rw [if_neg (by omega)]

/-- What a scan needs of the events it looks back at: they are in order, and
so is the base, whose events know their positions. -/
structure Wf (s : Scan) : Prop where
  visible : InOrder s.visible
  base : InOrder s.base.events.toList
  indexed : ∀ (i : Nat) (h : i < s.base.events.size), s.base.events[i].index = i

/-- The base's events a scan looks back at. -/
def front (s : Scan) : List Event :=
  if s.replacesLast then s.base.events.toList.dropLast else s.base.events.toList

theorem visible_eq_front (s : Scan) : s.visible = s.front ++ s.events.toList := rfl

/-- A scan looks up an event among the events it looks back at. -/
theorem lookup_eq {s : Scan} (hs : s.Wf) (n : Int) : s.lookup n = s.visible.find? (·.number == n) := by
  unfold lookup
  rw [visible, List.find?_append]
  rcases he : s.events.find? (·.number == n) with _ | e
  · have hl : s.events.toList.find? (·.number == n) = none := by rw [Array.find?_toList, he]
    simp only [he, hl, Option.or_none]
    rw [Index.find?_eq_find? hs.base]
    rcases hb : s.base.events.toList.find? (·.number == n) with _ | b
    · have hd : s.base.events.toList.dropLast.find? (·.number == n) = none :=
        List.find?_eq_none.mpr fun x hx => List.find?_eq_none.mp hb x (List.mem_of_mem_dropLast hx)
      cases s.replacesLast
      · simp only [hb, Bool.false_eq_true, if_false]
      · simp only [hb, hd, if_true]
    · cases s.replacesLast
      · simp only [hb, Bool.false_eq_true, false_and, if_false]
      · simp only [hb, find?_dropLast_of_indexed hs.indexed hb, true_and, if_true]
  · have hmem : e ∈ s.events.toList := by
      simpa using Array.mem_of_find?_eq_some he
    have hn : e.number = n := by simpa using Array.find?_some he
    have hfront := InOrder.find?_front_eq_none hs.visible hmem
    rw [hn] at hfront
    have hl : s.events.toList.find? (·.number == n) = some e := by rw [Array.find?_toList, he]
    simp only [he, hl, hfront, Option.none_or]

/-! ## The current event -/

theorem modify_concat {α : Type} (l : List α) (a : α) (f : α → α) :
    (l ++ [a]).modify l.length f = l ++ [f a] := by
  induction l with
  | nil => simp
  | cons x l ih => simp [ih]

/-- A scan that has begun an event has a current one, its last. -/
theorem exists_current {s : Scan} (h : s.events ≠ #[]) : ∃ es e, s.events.toList = es ++ [e] := by
  rcases List.eq_nil_or_concat s.events.toList with hnil | ⟨es, e, he⟩
  · exact absurd (Array.toList_eq_nil_iff.mp hnil) h
  · exact ⟨es, e, by simpa using he⟩

theorem events_modifyCurrent {s : Scan} {es : List Event} {e : Event}
    (h : s.events.toList = es ++ [e]) (f : Event → Event) :
    (s.modifyCurrent f).events.toList = es ++ [f e] := by
  have hsize : s.events.size - 1 = es.length := by
    rw [← Array.length_toList, h]
    simp
  simp only [modifyCurrent, Array.toList_modify, hsize, h, modify_concat]

@[simp] theorem size_modifyCurrent (s : Scan) (f : Event → Event) :
    (s.modifyCurrent f).events.size = s.events.size := by
  simp [modifyCurrent]

/-- Well-formedness is about the base and the events only. -/
theorem Wf.of_same {s s' : Scan} (hs : s.Wf) (hb : s'.base = s.base) (hr : s'.replacesLast = s.replacesLast)
    (he : s'.events = s.events) : s'.Wf := by
  have hv : s'.visible = s.visible := by rw [Scan.visible, Scan.visible, hb, hr, he]
  exact ⟨hv ▸ hs.visible, hb ▸ hs.base, hb ▸ hs.indexed⟩

theorem Wf.modifyCurrent {s : Scan} (hs : s.Wf) {f : Event → Event} (hf : Event.KeepsHead f) :
    (s.modifyCurrent f).Wf := by
  refine ⟨?_, hs.base, hs.indexed⟩
  by_cases he : s.events = #[]
  · have hnil : (s.modifyCurrent f).events = #[] := by simp [Scan.modifyCurrent, he]
    have hv := hs.visible
    rw [visible_eq_front, he] at hv
    rw [visible_eq_front, hnil]
    exact hv
  · obtain ⟨es, e, hes⟩ := exists_current he
    have hv := hs.visible
    rw [visible_eq_front, hes, ← List.append_assoc] at hv
    rw [visible_eq_front, events_modifyCurrent hes, ← List.append_assoc]
    exact hv.concat_congr (hf e).1 (hf e).2.1

theorem modifyCurrent_id (s : Scan) : s.modifyCurrent id = s := by
  cases s
  simp only [modifyCurrent, Scan.mk.injEq, and_true, true_and]
  apply Array.toList_inj.mp
  simp

/-- A record of the current event changes that event in anything but its head
and its end, adds only reuse edges that lead to it, and may change the
pending message. -/
theorem eventRecord_eq (s : Scan) (en : Entry) :
    ∃ f ps pr, Event.KeepsHead f ∧ (∀ e, (f e).endOffset = e.endOffset) ∧ Event.AddsOwnReuses f ∧
      s.eventRecord en = { s.modifyCurrent f with pendingSend := ps, pendingRoute := pr } := by
  unfold eventRecord
  rcases en.beginSend? with _ | bs
  · by_cases hr : en.isRoute = true
    · refine ⟨id, s.pendingSend, true, fun e => ⟨rfl, rfl, rfl, rfl, rfl, rfl⟩, fun e => rfl, fun e d hd => .inl hd, ?_⟩
      simp only [hr, if_true, modifyCurrent_id]
    · simp only [hr, Bool.false_eq_true, if_false]
      rcases en.endSend? with _ | es <;> rcases hp : s.pendingSend with _ | i
      · exact ⟨id, s.pendingSend, s.pendingRoute, fun e => ⟨rfl, rfl, rfl, rfl, rfl, rfl⟩, fun e => rfl,
          fun e d hd => .inl hd, by rw [modifyCurrent_id]⟩
      · exact ⟨id, s.pendingSend, s.pendingRoute, fun e => ⟨rfl, rfl, rfl, rfl, rfl, rfl⟩, fun e => rfl,
          fun e d hd => .inl hd, by rw [modifyCurrent_id]⟩
      · exact ⟨id, s.pendingSend, s.pendingRoute, fun e => ⟨rfl, rfl, rfl, rfl, rfl, rfl⟩, fun e => rfl,
          fun e d hd => .inl hd, by rw [modifyCurrent_id]⟩
      · exact ⟨fun e => { e with sent := e.sent.modify i fun m =>
            { m with arrival := es.arrival, selfMessage := !s.pendingRoute } },
          none, s.pendingRoute, fun e => ⟨rfl, rfl, rfl, rfl, rfl, rfl⟩, fun e => rfl, fun e d hd => .inl hd, rfl⟩
  · refine ⟨_, _, false, fun e => ?_, fun e => ?_, fun e d hd => ?_, rfl⟩
    · dsimp only
      split <;> exact ⟨rfl, rfl, rfl, rfl, rfl, rfl⟩
    · dsimp only
      split <;> rfl
    · -- a send adds the reuse edge from the message's previous event
      dsimp only at hd
      split at hd
      · rw [List.mem_append, List.mem_singleton] at hd
        rcases hd with hd | rfl
        · exact .inl hd
        · exact .inr rfl
      · exact .inl hd

theorem Wf.eventRecord {s : Scan} (hs : s.Wf) (en : Entry) : (s.eventRecord en).Wf := by
  obtain ⟨f, ps, pr, hf, -, -, heq⟩ := eventRecord_eq s en
  have h := hs.modifyCurrent hf
  rw [heq]
  exact ⟨h.visible, h.base, h.indexed⟩

/-- An event line that the scan accepts keeps the events it looks back at in
order. -/
theorem Wf.push {s : Scan} (hs : s.Wf) {m : EventMarker} {l : Line} (hr : refusal s.previous m l = none) :
    ({ s with events := s.events.push (s.newEvent m l), pendingSend := none } : Scan).Wf := by
  refine ⟨?_, hs.base, hs.indexed⟩
  have hv : InOrder (s.visible ++ [s.newEvent m l]) := by
    refine hs.visible.append_of_last fun p hp => ?_
    rw [← previous_eq] at hp
    rw [hp] at hr
    simp only [refusal] at hr
    split_ifs at hr with h1 h2
    exact ⟨by simp only [newEvent]; omega, SimTime.not_lt_iff_le.mp h2⟩
  rw [visible_eq_front, Array.toList_push, ← List.append_assoc]
  exact hv

theorem Wf.tick {s : Scan} (hs : s.Wf) (l : Line) : (s.tick l).Wf := by
  obtain ⟨p, hp⟩ := tick_eq s l
  rw [hp]
  exact hs.of_same rfl rfl rfl

/-- Every line a scan accepts keeps it well formed. -/
theorem Wf.line {s s' : Scan} (hs : s.Wf) {l : Line} (h : s.line l = .ok s') : s'.Wf := by
  rw [line_eq] at h
  rcases hl : l.entry? with _ | (pe | en)
  · -- a blank line
    simp only [hl, Except.ok.injEq] at h
    exact h ▸ hs
  · -- an unreadable line
    simp only [hl, Except.ok.injEq] at h
    subst h
    unfold afterBad
    dsimp only
    split
    · exact hs.of_same rfl rfl rfl
    · refine Wf.modifyCurrent ?_ ?_
      · exact hs.of_same rfl rfl rfl
      · exact fun e => ⟨rfl, rfl, rfl, rfl, rfl, rfl⟩
  · rcases hm : en.eventMarker? with _ | m
    · -- a record of the current event
      simp only [hl, hm, Except.ok.injEq] at h
      subst h
      have hn : (s.noteRecord en).Wf := hs.of_same (by simp) (by simp) (by simp)
      unfold afterRecord
      dsimp only
      split
      · exact hn
      · refine Wf.eventRecord (hn.modifyCurrent ?_) en
        exact fun e => ⟨rfl, rfl, rfl, rfl, rfl, rfl⟩
    · -- an event line
      simp only [hl, hm, beginEvent_eq] at h
      rcases hr : refusal s.previous m l with _ | f
      · rw [hr, Except.ok.injEq] at h
        exact h ▸ hs.push hr
      · rw [hr] at h
        cases h

end Scan

end EventChart
