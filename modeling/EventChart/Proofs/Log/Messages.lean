import EventChart.Proofs.Log.Extend
/-!
# What an event's lines give it

An event of an index is read off the lines of its file: its event line, and
the lines after it up to the next event line.  This module says what those
lines give the event, in terms of the lines alone.

* Messages.  The records of an event send messages in order
  (`sentBy`), each answered by the first arrival record after its send and
  before the next send (`Message.answered`): the arrival time is that
  record's, and the message is the module's own unless a hop or direct send
  came between.  A scan learns this one record at a time, as an `Outbox`;
  `Outbox.foldl_record` shows that the outbox after all the records holds
  `sentBy` of them.
* Reuse edges.  Each send of a message that another event processed last
  declares a reuse edge to the event (`reusesBy`).
* One event.  `Scan.Holds` says that a scan's current event has sent what an
  outbox holds and that the scan waits for the arrival of its last message
  exactly while the outbox does.  A record keeps that
  (`Scan.eventRecord_holds`), and so does every line after the event line
  (`Scan.run_body`).
* The whole file.  `cutAtEvents` cuts the lines of a file at its event
  lines.  `Scan.run_readFrom` shows that a scan of the whole file gives each
  event what its part says, and the message that caused it as found among
  the events before it.  `EventLog.openFile_eventLines` says this of the
  index an opening builds: the message that caused an event is found only
  when its sender comes earlier in the log (`EventLog.cause_message_forward`
  shows one that comes later).
-/

namespace EventChart

/-! ## Messages -/

/-- The message of the send `bs` as the records `rs` after it answer it: the
first arrival record before the next send gives its arrival time, and the
message is the module's own unless a hop or direct send came between it and
its send (or `routed`); with no such record it has not arrived. -/
def Message.answered (bs : BeginSend) (routed : Bool) : List Entry → Message
  | [] => ⟨bs, SimTime.zero, false⟩
  | en :: rs =>
    if en.beginSend?.isSome then ⟨bs, SimTime.zero, false⟩
    else if en.isRoute then Message.answered bs true rs
    else match en.endSend? with
      | some es => ⟨bs, es.arrival, !routed⟩
      | none => Message.answered bs routed rs

/-- The messages that the records `rs` of an event send, in order, each as
the records after its send answer it. -/
def sentBy : List Entry → List Message
  | [] => []
  | en :: rs =>
    match en.beginSend? with
    | some bs => Message.answered bs false rs :: sentBy rs
    | none => sentBy rs

/-- The reuse edges that the records `rs` of event `n` declare: one for each
send of a message that another event processed last. -/
def reusesBy (n : Int) (rs : List Entry) : List Dependency :=
  rs.filterMap fun en => en.beginSend?.bind fun bs =>
    if bs.previousEvent ≥ 0 ∧ bs.previousEvent ≠ n then
      some ⟨bs.previousEvent, n, .reuse, bs.messageId, bs.messageId, 1⟩
    else none

/-- What an event knows of its messages part way through its records: the
messages sent, and while the last one waits for its arrival record, whether
a hop or direct send routed it. -/
structure Outbox where
  sent : List Message
  waiting : Option Bool

namespace Outbox

/-- A message that arrives at time `t`; it is the module's own unless it was
routed. -/
def arrive (t : SimTime) (routed : Bool) (m : Message) : Message :=
  { m with arrival := t, selfMessage := !routed }

/-- What one record of the event tells the outbox. -/
def record (o : Outbox) (en : Entry) : Outbox :=
  match en.beginSend? with
  | some bs => ⟨o.sent ++ [⟨bs, SimTime.zero, false⟩], some false⟩
  | none =>
    if en.isRoute then ⟨o.sent, o.waiting.map fun _ => true⟩
    else match en.endSend?, o.waiting with
      | some es, some r => ⟨o.sent.modify (o.sent.length - 1) (arrive es.arrival r), none⟩
      | _, _ => o

/-- The outbox of an event after its records `rs`. -/
def ofRecords (rs : List Entry) : Outbox := rs.foldl record ⟨[], none⟩

theorem ofRecords_append (rs : List Entry) (en : Entry) :
    ofRecords (rs ++ [en]) = (ofRecords rs).record en := by
  simp [ofRecords, List.foldl_append]

/-- Reading records one at a time answers each message as the records after
its send do: from an outbox with no waiting message the records add the
messages they send, and from one whose last message waits, that message is
answered by them. -/
theorem foldl_record (rs : List Entry) :
    (∀ ms, (rs.foldl record ⟨ms, none⟩).sent = ms ++ sentBy rs) ∧
      ∀ ms bs r, (rs.foldl record ⟨ms ++ [⟨bs, SimTime.zero, false⟩], some r⟩).sent =
        ms ++ Message.answered bs r rs :: sentBy rs := by
  induction rs with
  | nil => simp [sentBy, Message.answered]
  | cons en rs ih =>
    obtain ⟨ih₁, ih₂⟩ := ih
    rcases hb : en.beginSend? with _ | bs'
    · by_cases hr : en.isRoute = true
      · -- a hop or direct send routes the waiting message
        refine ⟨fun ms => ?_, fun ms bs r => ?_⟩
        · simp [record, hb, hr, ih₁, sentBy]
        · simp [record, hb, hr, ih₂, sentBy, Message.answered]
      · rcases he : en.endSend? with _ | es
        · -- a record that changes no message
          refine ⟨fun ms => ?_, fun ms bs r => ?_⟩
          · simp [record, hb, hr, he, ih₁, sentBy]
          · simp [record, hb, hr, he, ih₂, sentBy, Message.answered]
        · -- an arrival record answers the waiting message
          refine ⟨fun ms => ?_, fun ms bs r => ?_⟩
          · simp [record, hb, hr, he, ih₁, sentBy]
          · simp only [List.foldl_cons, record, hb, hr, he, Bool.false_eq_true, if_false]
            rw [List.length_append, List.length_singleton, Nat.add_sub_cancel, Scan.modify_concat, ih₁]
            simp [sentBy, Message.answered, hb, hr, he, arrive]
    · -- a send closes the waiting message and starts a new one
      refine ⟨fun ms => ?_, fun ms bs r => ?_⟩
      · simp only [List.foldl_cons, record, hb]
        rw [ih₂]
        simp [sentBy, hb]
      · simp only [List.foldl_cons, record, hb]
        rw [ih₂]
        simp [sentBy, Message.answered, hb]

/-- The outbox after the records `rs` holds the messages they send. -/
theorem ofRecords_sent (rs : List Entry) : (ofRecords rs).sent = sentBy rs := by
  simpa [ofRecords] using (foldl_record rs).1 []

end Outbox

/-- The reuse edge a send record of event `n` declares, if any. -/
theorem reusesBy_send {en : Entry} {bs : BeginSend} (hb : en.beginSend? = some bs) (n : Int) :
    reusesBy n [en] =
      if bs.previousEvent ≥ 0 ∧ bs.previousEvent ≠ n then
        [⟨bs.previousEvent, n, .reuse, bs.messageId, bs.messageId, 1⟩]
      else [] := by
  by_cases hc : bs.previousEvent ≥ 0 ∧ bs.previousEvent ≠ n <;> simp [reusesBy, hb, hc]

theorem reusesBy_of_not_send {en : Entry} (hb : en.beginSend? = none) (n : Int) : reusesBy n [en] = [] := by
  simp [reusesBy, hb]

theorem reusesBy_append (n : Int) (rs rs' : List Entry) :
    reusesBy n (rs ++ rs') = reusesBy n rs ++ reusesBy n rs' := List.filterMap_append

/-! ## One event -/

namespace Event

/-- What the event line gave an event: its number, time and module, and the
event and message that caused it. -/
def marker (e : Event) : EventMarker := ⟨e.number, e.time, e.moduleId, e.causeEvent, e.messageId⟩

/-- Two states of one event that agree on what its event line gave it, on
where that line is, and on the message that caused it. -/
def SameStart (c c' : Event) : Prop := c'.marker = c.marker ∧ c'.pos = c.pos ∧ c'.causeMessage = c.causeMessage

theorem SameStart.trans {c c' c'' : Event} (h : c.SameStart c') (h' : c'.SameStart c'') : c.SameStart c'' :=
  ⟨h'.1.trans h.1, h'.2.1.trans h.2.1, h'.2.2.trans h.2.2⟩

theorem SameStart.number {c c' : Event} (h : c.SameStart c') : c'.number = c.number :=
  congrArg EventMarker.number h.1

end Event

/-- The record a line holds, if it is neither blank nor unreadable. -/
def Line.record? (l : Line) : Option Entry :=
  match l.entry? with
  | some (.ok en) => some en
  | _ => none

namespace Scan

section sendUpdate

variable (bs : BeginSend) (e : Event)

theorem sent_sendUpdate : (sendUpdate bs e).sent = e.sent.push ⟨bs, SimTime.zero, false⟩ := by
  unfold sendUpdate
  dsimp only
  split <;> rfl

theorem sameStart_sendUpdate : e.SameStart (sendUpdate bs e) := by
  unfold sendUpdate
  dsimp only
  split <;> exact ⟨rfl, rfl, rfl⟩

theorem reuses_sendUpdate {en : Entry} (hb : en.beginSend? = some bs) :
    (sendUpdate bs e).reuses = e.reuses ++ reusesBy e.number [en] := by
  rw [reusesBy_send hb]
  unfold sendUpdate
  dsimp only
  split <;> simp_all

end sendUpdate

/-- The current event `c` of the scan `s` has sent what the outbox `o` holds,
and `s` waits for an arrival record exactly while `o` does: for the last
message, routed as `o` says. -/
structure Holds (s : Scan) (c : Event) (o : Outbox) : Prop where
  sent : c.sent.toList = o.sent
  pendingSend : s.pendingSend = o.waiting.map fun _ => o.sent.length - 1
  pendingRoute : ∀ r, o.waiting = some r → s.pendingRoute = r

theorem Holds.tick {s : Scan} {c : Event} {o : Outbox} (h : s.Holds c o) (l : Line) : (s.tick l).Holds c o := by
  obtain ⟨p, hp⟩ := tick_eq s l
  rw [hp]
  exact ⟨h.sent, h.pendingSend, h.pendingRoute⟩

/-- A record of the current event tells it what it tells the outbox, and adds
the reuse edge the record declares; the event's start stays. -/
theorem eventRecord_holds {s : Scan} {es : List Event} {c : Event} {o : Outbox}
    (hs : s.events.toList = es ++ [c]) (h : s.Holds c o) (en : Entry) :
    ∃ c', (s.eventRecord en).events.toList = es ++ [c'] ∧ c.SameStart c' ∧
      (s.eventRecord en).Holds c' (o.record en) ∧ c'.reuses = c.reuses ++ reusesBy c.number [en] := by
  rcases hb : en.beginSend? with _ | bs
  · have hrb := reusesBy_of_not_send hb c.number
    by_cases hr : en.isRoute = true
    · -- a hop or direct send routes the waiting message
      have hrec : s.eventRecord en = { s with pendingRoute := true } := by simp [eventRecord, hb, hr]
      refine ⟨c, by rw [hrec]; exact hs, ⟨rfl, rfl, rfl⟩, ⟨?_, ?_, fun r hw => ?_⟩, by rw [hrb, List.append_nil]⟩
      · simpa [Outbox.record, hb, hr] using h.sent
      · simp only [hrec, Outbox.record, hb, hr, if_true, h.pendingSend, Option.map_map]
        rfl
      · simp only [Outbox.record, hb, hr, if_true, Option.map_eq_some_iff] at hw
        obtain ⟨_, -, rfl⟩ := hw
        rw [hrec]
    · rcases he : en.endSend? with _ | es'
      · -- a record that changes no message
        have hrec : s.eventRecord en = s := by simp [eventRecord, hb, hr, he]
        have ho : o.record en = o := by simp [Outbox.record, hb, hr, he]
        exact ⟨c, by rw [hrec]; exact hs, ⟨rfl, rfl, rfl⟩, by rw [hrec, ho]; exact h, by rw [hrb, List.append_nil]⟩
      · rcases hw : o.waiting with _ | r
        · -- no message waits, so the arrival record answers none
          have hp : s.pendingSend = none := by rw [h.pendingSend, hw]; rfl
          have hrec : s.eventRecord en = s := by simp [eventRecord, hb, hr, he, hp]
          have ho : o.record en = o := by simp [Outbox.record, hb, hr, he, hw]
          exact ⟨c, by rw [hrec]; exact hs, ⟨rfl, rfl, rfl⟩, by rw [hrec, ho]; exact h, by rw [hrb, List.append_nil]⟩
        · -- the arrival record answers the waiting message
          have hp : s.pendingSend = some (o.sent.length - 1) := by rw [h.pendingSend, hw]; rfl
          have hroute : s.pendingRoute = r := h.pendingRoute r hw
          have hrec : s.eventRecord en =
              { s.modifyCurrent (fun e => { e with sent := e.sent.modify (o.sent.length - 1) (Outbox.arrive es'.arrival r) })
                with pendingSend := none } := by
            simp only [eventRecord, hb, hr, he, hp, hroute, Bool.false_eq_true, if_false]
            rfl
          refine ⟨{ c with sent := c.sent.modify (o.sent.length - 1) (Outbox.arrive es'.arrival r) }, ?_,
            ⟨rfl, rfl, rfl⟩, ⟨?_, ?_, fun r' hw' => ?_⟩, by rw [hrb, List.append_nil]⟩
          · rw [hrec]
            exact events_modifyCurrent hs _
          · simp [Outbox.record, hb, hr, he, hw, Array.toList_modify, h.sent]
          · simp [hrec, Outbox.record, hb, hr, he, hw]
          · simp [Outbox.record, hb, hr, he, hw] at hw'
  · -- a send: the event has sent one more message, which now waits
    have hrec : s.eventRecord en =
        { s.modifyCurrent (sendUpdate bs) with
          pendingSend := (s.modifyCurrent (sendUpdate bs)).events.back?.map (·.sent.size - 1),
          pendingRoute := false } := by
      simp only [eventRecord, hb]
      rfl
    have hev := events_modifyCurrent hs (sendUpdate bs)
    have hback : (s.modifyCurrent (sendUpdate bs)).events.back? = some (sendUpdate bs c) := by
      rw [← Array.getLast?_toList, hev, List.getLast?_concat]
    have hsize : c.sent.size = o.sent.length := by rw [← h.sent, Array.length_toList]
    refine ⟨sendUpdate bs c, by rw [hrec]; exact hev, sameStart_sendUpdate bs c, ⟨?_, ?_, fun r hw => ?_⟩,
      reuses_sendUpdate bs c hb⟩
    · simp [Outbox.record, hb, sent_sendUpdate, h.sent]
    · simp [hrec, hback, sent_sendUpdate, Outbox.record, hb, hsize]
    · simp only [Outbox.record, hb, Option.some.injEq] at hw
      rw [hrec, ← hw]

/-- A line after the event line of the current event: a blank or unreadable
line tells the event nothing, and a record tells it what it tells the
outbox. -/
theorem line_holds {s s' : Scan} {l : Line} (h : s.line l = .ok s') (hm : l.marker? = none)
    {es : List Event} {c : Event} {o : Outbox} (hs : s.events.toList = es ++ [c]) (ho : s.Holds c o) :
    ∃ c', s'.events.toList = es ++ [c'] ∧ c.SameStart c' ∧
      s'.Holds c' (l.record?.toList.foldl Outbox.record o) ∧
      c'.reuses = c.reuses ++ reusesBy c.number l.record?.toList := by
  have hne : s.events ≠ #[] := by
    intro he
    simp [he] at hs
  rcases line_cases h with ⟨he, rfl⟩ | ⟨-, pe, he, rfl⟩ | ⟨-, en, he, rfl⟩ | ⟨m, hm', -, -⟩
  · -- a blank line
    have hr : l.record? = none := by simp [Line.record?, he]
    exact ⟨c, hs, ⟨rfl, rfl, rfl⟩, by simpa [hr] using ho, by simp [hr, reusesBy]⟩
  · -- an unreadable line moves the event's end only
    have hr : l.record? = none := by simp [Line.record?, he]
    refine ⟨badUpdate l c, ?_, ⟨rfl, rfl, rfl⟩, ?_, by simp [hr, reusesBy, badUpdate]⟩
    · rw [afterBad_eq, if_neg hne]
      exact events_modifyCurrent hs _
    · rw [hr, afterBad_eq, if_neg hne]
      exact ⟨ho.sent, ho.pendingSend, ho.pendingRoute⟩
  · -- a record moves the event's end to its line, then tells the event what it holds
    have hr : l.record? = some en := by simp [Line.record?, he]
    have hs₁ : ((s.noteRecord en).modifyCurrent fun e => { e with endOffset := l.endOffset }).events.toList =
        es ++ [{ c with endOffset := l.endOffset }] :=
      events_modifyCurrent (by rw [events_noteRecord]; exact hs) _
    have ho₁ : ((s.noteRecord en).modifyCurrent fun e => { e with endOffset := l.endOffset }).Holds
        { c with endOffset := l.endOffset } o :=
      ⟨ho.sent, by simp [modifyCurrent, ho.pendingSend], fun r hw => by simp [modifyCurrent, ho.pendingRoute r hw]⟩
    obtain ⟨c', hc', hsame, hhold, hre⟩ := eventRecord_holds hs₁ ho₁ en
    have hafter : s.afterRecord en l =
        ((s.noteRecord en).modifyCurrent fun e => { e with endOffset := l.endOffset }).eventRecord en := by
      unfold afterRecord
      simp only [events_noteRecord, Array.isEmpty_iff, hne, if_false]
    refine ⟨c', by rw [hafter]; exact hc', hsame, by rw [hafter, hr]; exact hhold, by rw [hr]; exact hre⟩
  · rw [hm] at hm'
    cases hm'

/-- The lines after the event line of the current event, up to the next
event line, tell it what their records tell the outbox, and add the reuse
edges those records declare. -/
theorem run_body {raw : List (List UInt8)} {s t : Scan} {pos q : Position} (h : run raw s pos = (t, q, none))
    (hm : ∀ l ∈ linesFrom raw pos, l.marker? = none) {es : List Event} {c : Event} {rs : List Entry}
    (hs : s.events.toList = es ++ [c]) (ho : s.Holds c (Outbox.ofRecords rs))
    (hr : c.reuses = reusesBy c.number rs) :
    ∃ c', t.events.toList = es ++ [c'] ∧ c.SameStart c' ∧
      t.Holds c' (Outbox.ofRecords (rs ++ (linesFrom raw pos).filterMap Line.record?)) ∧
      c'.reuses = reusesBy c.number (rs ++ (linesFrom raw pos).filterMap Line.record?) := by
  induction raw generalizing s pos c rs with
  | nil =>
    simp only [run_nil, Prod.mk.injEq] at h
    obtain ⟨rfl, -, -⟩ := h
    exact ⟨c, hs, ⟨rfl, rfl, rfl⟩, by simpa [linesFrom] using ho, by simpa [linesFrom] using hr⟩
  | cons x raw ih =>
    rw [run_cons] at h
    split at h
    · rename_i s' hs'
      have hmx : (lineAt x pos).marker? = none := hm _ (by rw [linesFrom_cons]; exact List.mem_cons_self ..)
      obtain ⟨c₁, hc₁, hsame₁, hhold₁, hre₁⟩ :=
        line_holds hs' hmx (by rw [events_tick]; exact hs) (ho.tick _)
      have hrs : (lineAt x pos).record?.toList.foldl Outbox.record (Outbox.ofRecords rs) =
          Outbox.ofRecords (rs ++ (lineAt x pos).record?.toList) := by
        simp [Outbox.ofRecords, List.foldl_append]
      rw [hrs] at hhold₁
      have hr₁ : c₁.reuses = reusesBy c₁.number (rs ++ (lineAt x pos).record?.toList) := by
        rw [hre₁, hr, hsame₁.number, reusesBy_append]
      obtain ⟨c', hc', hsame, hhold, hre⟩ := ih h
        (fun l hl => hm l (by rw [linesFrom_cons]; exact List.mem_cons_of_mem _ hl)) hc₁ hhold₁ hr₁
      have hlines : rs ++ (linesFrom (x :: raw) pos).filterMap Line.record? =
          rs ++ (lineAt x pos).record?.toList ++
            (linesFrom raw ⟨pos.offset + x.length, Position.nextLine pos.line⟩).filterMap Line.record? := by
        rw [linesFrom_cons, List.filterMap_cons, List.append_assoc]
        cases (lineAt x pos).record? <;> rfl
      refine ⟨c', hc', hsame₁.trans hsame, by rw [hlines]; exact hhold, ?_⟩
      rw [hlines, hre, hsame₁.number]
    · simp at h

end Scan

/-! ## The whole file -/

/-- The lines of a file cut at its event lines: the lines before the first
one, and each event line with the lines after it up to the next. -/
def cutAtEvents : List Line → List Line × List (Line × List Line)
  | [] => ([], [])
  | l :: ls =>
    if l.marker?.isSome then ([], (l, (cutAtEvents ls).1) :: (cutAtEvents ls).2)
    else (l :: (cutAtEvents ls).1, (cutAtEvents ls).2)

theorem cutAtEvents_of_no_marker : ∀ {L : List Line}, (∀ l ∈ L, l.marker? = none) → cutAtEvents L = (L, [])
  | [], _ => rfl
  | l :: L, h => by
    rw [cutAtEvents, h l (List.mem_cons_self ..), cutAtEvents_of_no_marker fun l' hl' => h l' (List.mem_cons_of_mem _ hl')]
    rfl

/-- An event line and the lines after it that are no event lines are one
part. -/
theorem cutAtEvents_event {l : Line} {L : List Line} (hl : l.marker?.isSome) (hL : ∀ l ∈ L, l.marker? = none) :
    cutAtEvents (l :: L) = ([], [(l, L)]) := by
  rw [cutAtEvents, if_pos hl, cutAtEvents_of_no_marker hL]

/-- Lines followed by lines that start with an event line are cut as the two
are, one after the other. -/
theorem cutAtEvents_append (L : List Line) {M : List Line} (hM : (cutAtEvents M).1 = []) :
    cutAtEvents (L ++ M) = ((cutAtEvents L).1, (cutAtEvents L).2 ++ (cutAtEvents M).2) := by
  induction L with
  | nil => exact Prod.ext hM rfl
  | cons l L ih =>
    simp only [List.cons_append, cutAtEvents, ih]
    split <;> rfl

namespace Event

/-- What an event takes from its lines: its start from its event line `el`,
and its messages and reuse edges from the records `rs` of the lines after
it. -/
structure ReadFrom (e : Event) (el : Line) (rs : List Entry) : Prop where
  marker : el.marker? = some e.marker
  pos : e.pos = ⟨el.offset, el.number⟩
  sent : e.sent.toList = sentBy rs
  reuses : e.reuses = reusesBy e.number rs

/-- The message that caused the event `e`, looked up among the events
`before` it. -/
def causeAmong (e : Event) (before : List Event) : Option Message :=
  if 0 ≤ e.messageId then (before.find? (·.number == e.causeEvent)).bind (·.sentMessage? e.messageId) else none

theorem SameStart.causeAmong {c c' : Event} (h : c.SameStart c') (before : List Event) :
    c'.causeAmong before = c.causeAmong before := by
  have hc : c'.causeEvent = c.causeEvent := congrArg EventMarker.causeEvent h.1
  have hm : c'.messageId = c.messageId := congrArg EventMarker.messageId h.1
  rw [Event.causeAmong, Event.causeAmong, hc, hm]

end Event

namespace Scan

/-- A new event's cause message is looked up among the events the scan looks
back at. -/
theorem causeMessage_newEvent {s : Scan} (hs : s.Wf) (m : EventMarker) (l : Line) :
    (s.newEvent m l).causeMessage = (s.newEvent m l).causeAmong s.visible := by
  simp only [newEvent, Event.causeAmong, lookup_eq hs]
  split <;> rename_i hc <;> simp [hc]

/-- A scan of a whole file gives each event, in order, what its part of the
file says, and the message that caused it as found among the events before
it. -/
theorem run_readFrom {raw : List (List UInt8)} {n : Nat} {t : Scan} {q : Position}
    (h : run raw (start Index.empty false n) Position.start = (t, q, none)) :
    List.Forall₂ (fun e seg => e.ReadFrom seg.1 (seg.2.filterMap Line.record?)) t.events.toList
        (cutAtEvents (linesFrom raw Position.start)).2 ∧
      ∀ (i : Nat) (hi : i < t.events.toList.length),
        t.events.toList[i].causeMessage = t.events.toList[i].causeAmong (t.events.toList.take i) := by
  -- induction on the number of events, splitting the file at its last event line
  obtain ⟨k, hk⟩ : ∃ k, t.events.size = k := ⟨_, rfl⟩
  induction k generalizing raw t q with
  | zero =>
    have hnil : t.events.toList = [] := by simp [Array.size_eq_zero_iff.mp hk]
    rw [cutAtEvents_of_no_marker (run_no_event h (by simp [hk])), hnil]
    exact ⟨List.Forall₂.nil, fun i hi => by simp at hi⟩
  | succ k ih =>
    obtain ⟨A, x, B, b, b', m, rfl, hA, hm, hb, hB, hno⟩ := run_lastEvent h (by simp [hk, start])
    set lx := lineAt x (posAfter A Position.start)
    obtain ⟨hvis, hwf, -⟩ := run_start_facts hA
    -- the event line begins an event after those of the lines before it
    have hb' : b' = { b.tick lx with
        events := (b.tick lx).events.push ((b.tick lx).newEvent m lx), pendingSend := none } := by
      rw [line_event hm, beginEvent_eq] at hb
      split at hb
      · cases hb
      · exact (Except.ok.inj hb).symm
    have hs' : b'.events.toList = b.events.toList ++ [(b.tick lx).newEvent m lx] := by simp [hb']
    have ho' : b'.Holds ((b.tick lx).newEvent m lx) (Outbox.ofRecords []) :=
      ⟨rfl, by rw [hb']; rfl, fun r hw => by simp [Outbox.ofRecords] at hw⟩
    -- and the lines after it build that event
    obtain ⟨c', hc', hsame, hhold, hre⟩ := run_body hB hno hs' ho' rfl
    have hbk : b.events.size = k := by
      have hlen := congrArg List.length hc'
      simp only [Array.length_toList, List.length_append, List.length_singleton] at hlen
      omega
    obtain ⟨ihF, ihC⟩ := ih hA hbk
    have hlines : linesFrom (A ++ x :: B) Position.start =
        linesFrom A Position.start ++ lx :: linesFrom B (posAfter (A ++ [x]) Position.start) := by
      rw [linesFrom_append, linesFrom_cons, posAfter_append, posAfter_cons, posAfter_nil]
    have hlx : lx.marker?.isSome := by rw [hm]; rfl
    have hcut : cutAtEvents (linesFrom (A ++ x :: B) Position.start) =
        ((cutAtEvents (linesFrom A Position.start)).1,
          (cutAtEvents (linesFrom A Position.start)).2 ++ [(lx, linesFrom B (posAfter (A ++ [x]) Position.start))]) := by
      rw [hlines, cutAtEvents_append _ (by rw [cutAtEvents_event hlx hno]), cutAtEvents_event hlx hno]
    have hread : c'.ReadFrom lx ((linesFrom B (posAfter (A ++ [x]) Position.start)).filterMap Line.record?) :=
      { marker := by rw [hsame.1, hm]; rfl
        pos := hsame.2.1
        sent := by rw [hhold.sent, Outbox.ofRecords_sent, List.nil_append]
        reuses := by rw [hre, List.nil_append, hsame.number] }
    refine ⟨?_, fun i hi => ?_⟩
    · rw [hc', hcut]
      exact List.rel_append ihF (List.Forall₂.cons hread List.Forall₂.nil)
    · simp only [hc', List.length_append, List.length_singleton] at hi ⊢
      rcases Nat.lt_or_ge i b.events.toList.length with hlt | hge
      · -- an event before the last one
        rw [List.getElem_append_left hlt, List.take_append_of_le_length hlt.le]
        exact ihC i hlt
      · -- the last event looks back at all the others
        have hi' : i = b.events.toList.length := by omega
        subst hi'
        have hvis' : (b.tick lx).visible = b.events.toList := by
          obtain ⟨p, hp⟩ := tick_eq b lx
          rw [hp, ← hvis]
          rfl
        rw [List.getElem_append_right (le_refl _), List.take_left]
        simp only [Nat.sub_self, List.getElem_cons_zero]
        rw [hsame.2.2, hsame.causeAmong, causeMessage_newEvent (hwf.tick lx), hvis']

end Scan

/-! ## The index an opening builds -/

/-- In an ordered list of events, those before the `i`-th have the numbers
below its number. -/
theorem InOrder.find?_take {E : List Event} (hE : InOrder E) {i : Nat} (hi : i < E.length) (n : Int) :
    (E.take i).find? (·.number == n) = if n < E[i].number then E.find? (·.number == n) else none := by
  have hlt : ∀ j (hj : j < E.length), j < i → E[j].number < E[i].number := fun j hj hji =>
    (List.pairwise_iff_getElem.mp hE j i hj hi hji).1
  split
  · -- the events from the `i`-th on are numbered `n` or more
    rename_i hn
    have hdrop : (E.drop i).find? (·.number == n) = none := by
      refine List.find?_eq_none.mpr fun e he => ?_
      obtain ⟨j, hj, rfl⟩ := List.mem_iff_getElem.mp he
      have hij : i + j < E.length := by simp at hj; omega
      rw [List.getElem_drop]
      have hle : E[i].number ≤ E[i + j].number := by
        rcases Nat.eq_zero_or_pos j with rfl | hpos
        · exact le_rfl
        · exact (List.pairwise_iff_getElem.mp hE i (i + j) hi hij (by omega)).1.le
      simp only [beq_iff_eq]
      omega
    calc (E.take i).find? (·.number == n)
        = ((E.take i).find? (·.number == n)).or ((E.drop i).find? (·.number == n)) := by rw [hdrop, Option.or_none]
      _ = (E.take i ++ E.drop i).find? (·.number == n) := (List.find?_append ..).symm
      _ = E.find? (·.number == n) := by rw [List.take_append_drop]
  · -- the events before the `i`-th are numbered below `n`
    rename_i hn
    refine List.find?_eq_none.mpr fun e he => ?_
    obtain ⟨j, hj, rfl⟩ := List.mem_iff_getElem.mp he
    have hj' : j < i := by simp at hj; omega
    rw [List.getElem_take]
    have := hlt j (by omega) hj'
    simp only [beq_iff_eq]
    omega

/-- The messages of the event found by its number are those of the event
found among the events before they were placed. -/
theorem find?_placed_sentMessage? (E : List Event) (epoch : Nat) (n k : Int) :
    ((E.mapIdx fun i e => e.placed epoch i).find? (·.number == n)).bind (·.sentMessage? k) =
      (E.find? (·.number == n)).bind (·.sentMessage? k) := by
  have hstrip : ∀ L : List Event, (L.find? (·.number == n)).bind (·.sentMessage? k) =
      ((L.map Event.strip).find? (·.number == n)).bind (·.sentMessage? k) := by
    intro L
    rw [List.find?_map]
    show _ = (Option.map Event.strip (L.find? (·.number == n))).bind _
    cases L.find? (·.number == n) <;> rfl
  rw [hstrip, map_placed _ (fun _ _ _ => rfl), ← hstrip]

namespace Event

/-- What an event of the index `x` takes from its lines: its start from its
event line `el`; from the records `rs` of the lines after it, the messages it
sent and its causes, the edge of the message that caused it and then the
reuse edges; and that message, from the event of the index numbered as its
cause, when that event comes before it. -/
structure FromLines (x : Index) (e : Event) (el : Line) (rs : List Entry) : Prop where
  marker : el.marker? = some e.marker
  pos : e.pos = ⟨el.offset, el.number⟩
  sent : e.sent.toList = sentBy rs
  causes : e.causes = e.cause?.toList ++ reusesBy e.number rs
  causeMessage : e.causeMessage =
    if 0 ≤ e.messageId ∧ e.causeEvent < e.number then (x.find? e.causeEvent).bind (·.sentMessage? e.messageId)
    else none

end Event

namespace EventLog

/-- Opening a log gives each event of its index, in order, what its part of
the file says: the part is its event line and the lines after it up to the
next event line; the messages it sent and the reuse edges leading to it come
from the records of those lines; and the message that caused it is found in
the event numbered as its cause only when that event comes before it. -/
theorem openFile_eventLines {st : Store} {path : String} {f : Nat} (hf : st.fileOf? path = some f) {id : Nat}
    {opts : LogOptions} {l : EventLog} (h : (openFile st id path opts false).2 = .ok l) :
    List.Forall₂ (fun e seg => e.FromLines l.index seg.1 (seg.2.filterMap Line.record?)) l.index.events.toList
      (cutAtEvents (linesFrom (completeLines [] (st.contents f).data.toList) Position.start)).2 := by
  obtain ⟨r, -, -, -, hopen⟩ := openFile_snd hf id opts
  rw [hopen] at h
  rcases hrun : Scan.run (completeLines [] (st.contents f).data.toList) (Scan.start Index.empty false r.size)
    Position.start with ⟨s, next, _ | e⟩
  · rw [hrun] at h
    obtain rfl := (Except.ok.inj h).symm
    -- the index holds the scan's events, placed, and they are in order
    have hx := Index.models_full hrun 1
    obtain ⟨hvis, hwf, -⟩ := Scan.run_start_facts hrun
    have hord : InOrder s.events.toList := hvis ▸ hwf.visible
    have hxord : InOrder (Index.empty.commit s 1 next).events.toList := by
      rw [hx.events, Index.inOrder_placed]
      exact hord
    obtain ⟨hF, hC⟩ := Scan.run_readFrom hrun
    dsimp only
    rw [hx.events]
    refine List.forall₂_iff_get.mpr ⟨by rw [List.length_mapIdx]; exact hF.length_eq, fun i h₁ h₂ => ?_⟩
    have hi : i < s.events.toList.length := by simpa using h₁
    have hR := hF.get hi h₂
    simp only [List.get_eq_getElem, List.getElem_mapIdx] at hR ⊢
    refine ⟨hR.marker, hR.pos, hR.sent, ?_, ?_⟩
    · show s.events.toList[i].cause?.toList ++ s.events.toList[i].reuses = _
      rw [hR.reuses]
      rfl
    · -- the cause is looked up among the events before this one
      show s.events.toList[i].causeMessage = _
      rw [hC i hi, Event.causeAmong, hord.find?_take hi, Index.find?_eq_find? hxord, hx.events,
        find?_placed_sentMessage?]
      generalize s.events.toList[i] = e
      by_cases h0 : 0 ≤ e.messageId <;> by_cases hlt : e.causeEvent < e.number <;> simp [Event.placed, h0, hlt]
  · rw [hrun] at h
    cases h

/-- The file \"log\" whose first event names as its cause a message of the
second. -/
def forwardStore : Store :=
  ⟨[("log", 0)], #["E # 0 t 0 m 1 ce 1 msg 5\nE # 1 t 0 m 1\nBS id 5 c M n a pe -1\n".toUTF8]⟩

/-- The log opened on `forwardStore`. -/
def forwardLog : EventLog :=
  match (openFile forwardStore 0 "log" ⟨0, 0, false⟩ false).2 with
  | .ok l => l
  | .error _ => default

theorem openFile_forward : (openFile forwardStore 0 "log" ⟨0, 0, false⟩ false).2 = .ok forwardLog := by
  have hb : (openFile forwardStore 0 "log" ⟨0, 0, false⟩ false).2.toBool = true := by decide +kernel
  unfold forwardLog
  revert hb
  cases (openFile forwardStore 0 "log" ⟨0, 0, false⟩ false).2 <;> simp [Except.toBool]

theorem openFile_eventLines_forward :
    forwardStore.fileOf? "log" = some 0 ∧ (openFile forwardStore 0 "log" ⟨0, 0, false⟩ false).2 = .ok forwardLog ∧
      List.Forall₂ (fun e seg => e.FromLines forwardLog.index seg.1 (seg.2.filterMap Line.record?))
        forwardLog.index.events.toList
        (cutAtEvents (linesFrom (completeLines [] (forwardStore.contents 0).data.toList) Position.start)).2 :=
  ⟨rfl, openFile_forward, openFile_eventLines rfl openFile_forward⟩

/-- The first event of `forwardLog` was caused by message 5 of event 1, which
is in the log and sent that message, yet the event has no cause message. -/
theorem cause_message_forward :
    (forwardLog.index.events[0]?.map fun e => (e.causeEvent, e.messageId, e.causeMessage)) = some (1, 5, none) ∧
      (forwardLog.index.events[1]?.map fun e => (e.number, (e.sentMessage? 5).isSome)) = some (1, true) := by
  decide +kernel

end EventLog

end EventChart
