import EventChart.Proofs.Log.Scan
/-!
# Two scans in step

An index that grows is extended by a scan that starts again at the index's
last event.  From there on it reads the same lines as a scan of the whole
file, but it starts from the index instead of from the lines before.  This
module shows that the two read every line alike.

* `Scan.SimAt` relates a scan `a` that continues an index to a scan `b` of
  the whole file: they look back at the same events, up to what an index
  adds to them (`Event.strip`), and `b` has read the records of `a` after a
  fixed prefix.  `Scan.Sim` adds that both are inside an event or both
  before the first one, and wait for the same message.
* `Scan.line_sim` shows that a line keeps `Sim` and fails on both scans
  alike (`Scan.Alike`), and `Scan.line_simAt` that an event line turns
  `SimAt` into `Sim`.
* `Scan.visitLines_sim` extends that to every run of lines.
-/

namespace EventChart

namespace Scan

/-- Two scans that look back at the same events, up to what an index adds to
them, and have read the same records after the prefixes `M₀`, `P₀` and `S₀`
that only `b` has read. -/
structure SimAt (M₀ : List ModuleCreated) (P₀ : List LineError) (S₀ : Option Entry) (a b : Scan) :
    Prop where
  visible : a.visible.map Event.strip = b.visible.map Event.strip
  modules : b.modules.toList = M₀ ++ a.modules.toList
  parseErrors : b.parseErrors.toList = P₀ ++ a.parseErrors.toList
  simBegin : b.simBegin = S₀.or a.simBegin
  wfA : a.Wf
  wfB : b.Wf

/-- Two scans in step: besides `SimAt`, both are inside an event or both
before the first one, and they wait for the same message, routed alike. -/
structure Sim (M₀ : List ModuleCreated) (P₀ : List LineError) (S₀ : Option Entry) (a b : Scan) : Prop
    extends SimAt M₀ P₀ S₀ a b where
  events : a.events.isEmpty = b.events.isEmpty
  pendingSend : a.pendingSend = b.pendingSend
  pendingRoute : a.pendingSend.isSome → a.pendingRoute = b.pendingRoute

/-- Two outcomes of reading a line alike: the same failure, or results
related by `R`. -/
def Alike (R : Scan → Scan → Prop) : Except Fault Scan → Except Fault Scan → Prop
  | .ok a, .ok b => R a b
  | .error e, .error e' => e = e'
  | _, _ => False

section

variable {M₀ : List ModuleCreated} {P₀ : List LineError} {S₀ : Option Entry}

/-! ## The current event -/

theorem front_modifyCurrent (s : Scan) (f : Event → Event) : (s.modifyCurrent f).front = s.front := rfl

@[simp] theorem isEmpty_modifyCurrent (s : Scan) (f : Event → Event) :
    (s.modifyCurrent f).events.isEmpty = s.events.isEmpty := by
  unfold Array.isEmpty
  rw [size_modifyCurrent]

theorem Sim.events_ne {a b : Scan} (h : Sim M₀ P₀ S₀ a b) (ha : a.events ≠ #[]) : b.events ≠ #[] := by
  rw [← Array.isEmpty_eq_false_iff] at ha ⊢
  rw [← h.events, ha]

/-- The current events of two scans in step are the same up to what an index
adds, and so are the events before them. -/
theorem SimAt.current {a b : Scan} (h : SimAt M₀ P₀ S₀ a b) {esA esB : List Event} {eA eB : Event}
    (hA : a.events.toList = esA ++ [eA]) (hB : b.events.toList = esB ++ [eB]) :
    (a.front ++ esA).map Event.strip = (b.front ++ esB).map Event.strip ∧ eA.strip = eB.strip := by
  have hv := h.visible
  rw [visible_eq_front, visible_eq_front, hA, hB, ← List.append_assoc, ← List.append_assoc] at hv
  exact map_strip_concat hv

/-- Two scans in step change their current events alike. -/
theorem Sim.modifyCurrent {a b : Scan} (h : Sim M₀ P₀ S₀ a b) (ha : a.events ≠ #[])
    {f : Event → Event} (hf : Event.RespectsStrip f) (hk : Event.KeepsHead f) :
    Sim M₀ P₀ S₀ (a.modifyCurrent f) (b.modifyCurrent f) := by
  obtain ⟨esA, eA, hA⟩ := exists_current ha
  obtain ⟨esB, eB, hB⟩ := exists_current (h.events_ne ha)
  obtain ⟨hpre, hcur⟩ := h.current hA hB
  have hv : (a.modifyCurrent f).visible.map Event.strip = (b.modifyCurrent f).visible.map Event.strip := by
    rw [visible_eq_front, visible_eq_front, events_modifyCurrent hA, events_modifyCurrent hB,
      front_modifyCurrent, front_modifyCurrent, ← List.append_assoc, ← List.append_assoc]
    simp only [List.map_append] at hpre ⊢
    rw [hpre, List.map_singleton, List.map_singleton, hf.strip_congr hcur]
  have he : (a.modifyCurrent f).events.isEmpty = (b.modifyCurrent f).events.isEmpty := by
    rw [isEmpty_modifyCurrent, isEmpty_modifyCurrent, h.events]
  exact ⟨⟨hv, h.modules, h.parseErrors, h.simBegin, h.wfA.modifyCurrent hk, h.wfB.modifyCurrent hk⟩,
    he, h.pendingSend, h.pendingRoute⟩

/-- The current event after a send record: the message is added to the
event's sent messages, with a reuse edge when another event processed it
last. -/
def sendUpdate (bs : BeginSend) (e : Event) : Event :=
  let e := { e with sent := e.sent.push ⟨bs, SimTime.zero, false⟩ }
  if bs.previousEvent ≥ 0 ∧ bs.previousEvent ≠ e.number then
    { e with reuses := e.reuses ++ [⟨bs.previousEvent, e.number, .reuse, bs.messageId, bs.messageId, 1⟩] }
  else e

theorem sendUpdate_respectsStrip (bs : BeginSend) : Event.RespectsStrip (sendUpdate bs) := by
  intro e
  unfold sendUpdate
  dsimp only
  by_cases hc : bs.previousEvent ≥ 0 ∧ bs.previousEvent ≠ e.number
  · rw [if_pos hc, if_pos (by simpa using hc)]
    rfl
  · rw [if_neg hc, if_neg (by simpa using hc)]
    rfl

theorem sendUpdate_keepsHead (bs : BeginSend) : Event.KeepsHead (sendUpdate bs) := by
  intro e
  unfold sendUpdate
  dsimp only
  split <;> exact ⟨rfl, rfl, rfl, rfl, rfl, rfl⟩

/-- Two scans in step that set their pending messages alike stay in step. -/
theorem Sim.withPending {a b : Scan} (h : Sim M₀ P₀ S₀ a b) {psA psB : Option Nat} {prA prB : Bool}
    (hps : psA = psB) (hpr : psA.isSome → prA = prB) :
    Sim M₀ P₀ S₀ { a with pendingSend := psA, pendingRoute := prA }
      { b with pendingSend := psB, pendingRoute := prB } :=
  ⟨⟨h.visible, h.modules, h.parseErrors, h.simBegin, h.wfA.of_same rfl rfl rfl, h.wfB.of_same rfl rfl rfl⟩,
    h.events, hps, hpr⟩

/-- The messages the current events of two scans in step have sent. -/
theorem Sim.back_sent {a b : Scan} (h : Sim M₀ P₀ S₀ a b) (ha : a.events ≠ #[]) :
    a.events.back?.map (·.sent) = b.events.back?.map (·.sent) := by
  obtain ⟨esA, eA, hA⟩ := exists_current ha
  obtain ⟨esB, eB, hB⟩ := exists_current (h.events_ne ha)
  have hsent : eA.sent = eB.sent := by
    rw [← Event.strip_sent, (h.current hA hB).2, Event.strip_sent]
  rw [← Array.getLast?_toList, ← Array.getLast?_toList, hA, hB]
  simp [hsent]

/-- Two scans in step read a record of the current event alike. -/
theorem Sim.eventRecord {a b : Scan} (h : Sim M₀ P₀ S₀ a b) (ha : a.events ≠ #[]) (en : Entry) :
    Sim M₀ P₀ S₀ (a.eventRecord en) (b.eventRecord en) := by
  unfold Scan.eventRecord
  rcases en.beginSend? with _ | bs
  · by_cases hr : en.isRoute = true
    · -- a hop or a direct send routes the pending message
      simp only [hr, if_true]
      exact h.withPending h.pendingSend fun _ => rfl
    · simp only [hr, Bool.false_eq_true, if_false]
      rw [← h.pendingSend]
      rcases en.endSend? with _ | es <;> rcases hp : a.pendingSend with _ | i
      · exact h
      · exact h
      · exact h
      · -- the arrival of the pending message, routed alike in both scans
        rw [← h.pendingRoute (by simp [hp])]
        refine (h.modifyCurrent ha ?_ ?_).withPending rfl fun hs => by simp at hs
        · intro e
          rfl
        · intro e
          exact ⟨rfl, rfl, rfl, rfl, rfl, rfl⟩
  · -- a send: the current event sent a message, which is now pending
    have hm := h.modifyCurrent ha (sendUpdate_respectsStrip bs) (sendUpdate_keepsHead bs)
    show Sim M₀ P₀ S₀
      { a.modifyCurrent (sendUpdate bs) with
        pendingSend := (a.modifyCurrent (sendUpdate bs)).events.back?.map (·.sent.size - 1),
        pendingRoute := false }
      { b.modifyCurrent (sendUpdate bs) with
        pendingSend := (b.modifyCurrent (sendUpdate bs)).events.back?.map (·.sent.size - 1),
        pendingRoute := false }
    refine hm.withPending ?_ fun _ => rfl
    have hs := hm.back_sent (by rwa [← Array.isEmpty_eq_false_iff, isEmpty_modifyCurrent,
      Array.isEmpty_eq_false_iff])
    have hsize := congrArg (Option.map fun (ms : Array Message) => ms.size - 1) hs
    simp only [Option.map_map] at hsize
    exact hsize

/-! ## One line -/

private theorem or_note {S₀ x y : Option Entry} (h : y = S₀.or x) (c : Prop) [Decidable c] (en : Entry) :
    (if c ∧ y.isNone then some en else y) = S₀.or (if c ∧ x.isNone then some en else x) := by
  subst h
  cases S₀ <;> by_cases hc : c <;> simp [hc]

/-- Two scans in step note a module or the simulation's begin alike. -/
theorem Sim.noteRecord {a b : Scan} (h : Sim M₀ P₀ S₀ a b) (en : Entry) :
    Sim M₀ P₀ S₀ (a.noteRecord en) (b.noteRecord en) := by
  have hv : ∀ s : Scan, (s.noteRecord en).visible = s.visible := fun s => by
    simp [Scan.visible]
  refine ⟨⟨?_, ?_, ?_, ?_, ?_, ?_⟩, ?_, ?_, ?_⟩
  · rw [hv, hv]
    exact h.visible
  · rw [modules_noteRecord, modules_noteRecord, h.modules, List.append_assoc]
  · simpa using h.parseErrors
  · rw [simBegin_noteRecord, simBegin_noteRecord]
    exact or_note h.simBegin _ en
  · exact h.wfA.of_same (by simp) (by simp) (by simp)
  · exact h.wfB.of_same (by simp) (by simp) (by simp)
  · simpa using h.events
  · simpa using h.pendingSend
  · simpa using h.pendingRoute

/-- Two scans in step read an unreadable line alike. -/
theorem Sim.afterBad {a b : Scan} (h : Sim M₀ P₀ S₀ a b) (pe : LineError) (l : Line) :
    Sim M₀ P₀ S₀ (a.afterBad pe l) (b.afterBad pe l) := by
  have hp : Sim M₀ P₀ S₀ { a with parseErrors := a.parseErrors.push pe }
      { b with parseErrors := b.parseErrors.push pe } :=
    ⟨⟨h.visible, h.modules, by simp [h.parseErrors], h.simBegin, h.wfA.of_same rfl rfl rfl,
      h.wfB.of_same rfl rfl rfl⟩, h.events, h.pendingSend, h.pendingRoute⟩
  unfold Scan.afterBad
  dsimp only
  rw [← h.events]
  split
  · exact hp
  · rename_i he
    refine hp.modifyCurrent (by simpa using he) ?_ ?_
    · intro e
      rfl
    · intro e
      exact ⟨rfl, rfl, rfl, rfl, rfl, rfl⟩

/-- Two scans in step read a record that starts no event alike. -/
theorem Sim.afterRecord {a b : Scan} (h : Sim M₀ P₀ S₀ a b) (en : Entry) (l : Line) :
    Sim M₀ P₀ S₀ (a.afterRecord en l) (b.afterRecord en l) := by
  have hn := h.noteRecord en
  unfold Scan.afterRecord
  dsimp only
  rw [← hn.events]
  split
  · exact hn
  · rename_i he
    have hne : (a.noteRecord en).events ≠ #[] := by simpa using he
    refine Sim.eventRecord (hn.modifyCurrent hne ?_ ?_) ?_ en
    · intro e
      rfl
    · intro e
      exact ⟨rfl, rfl, rfl, rfl, rfl, rfl⟩
    · rwa [← Array.isEmpty_eq_false_iff, isEmpty_modifyCurrent, Array.isEmpty_eq_false_iff]

theorem refusal_congr {p q : Option Event} (h : p.map Event.strip = q.map Event.strip) (m : EventMarker)
    (l : Line) : refusal p m l = refusal q m l := by
  rcases p with _ | p <;> rcases q with _ | q
  · rfl
  · cases h
  · cases h
  · have hs : p.strip = q.strip := by simpa using h
    have hn : p.number = q.number := by rw [← Event.strip_number, hs, Event.strip_number]
    have ht : p.time = q.time := by rw [← Event.strip_time, hs, Event.strip_time]
    simp only [refusal, hn, ht]

/-- Scans that look back at the same events find the same ones by number. -/
theorem SimAt.lookup {a b : Scan} (h : SimAt M₀ P₀ S₀ a b) (n : Int) :
    (a.lookup n).map Event.strip = (b.lookup n).map Event.strip := by
  have key : ∀ s : Scan, (s.visible.find? (·.number == n)).map Event.strip =
      (s.visible.map Event.strip).find? (·.number == n) := fun s => by
    rw [List.find?_map]
    rfl
  rw [lookup_eq h.wfA, lookup_eq h.wfB, key, key, h.visible]

theorem newEvent_congr {a b : Scan} {m : EventMarker}
    (h : (a.lookup m.causeEvent).map Event.strip = (b.lookup m.causeEvent).map Event.strip) (l : Line) :
    a.newEvent m l = b.newEvent m l := by
  unfold newEvent
  cases ha : a.lookup m.causeEvent with
  | none =>
    cases hb : b.lookup m.causeEvent with
    | none => rfl
    | some cb =>
      rw [ha, hb] at h
      simp at h
  | some ca =>
    cases hb : b.lookup m.causeEvent with
    | none =>
      rw [ha, hb] at h
      simp at h
    | some cb =>
      rw [ha, hb] at h
      have hs : ca.strip = cb.strip := by simpa using h
      have hm : ca.sentMessage? m.messageId = cb.sentMessage? m.messageId := by
        rw [← Event.sentMessage?_strip, hs, Event.sentMessage?_strip]
      simp only [hm]

/-- An event line puts two scans that look back at the same events in step,
or fails on both alike. -/
theorem SimAt.beginEvent {a b : Scan} (h : SimAt M₀ P₀ S₀ a b) (m : EventMarker) (l : Line) :
    Alike (Sim M₀ P₀ S₀) (a.beginEvent m l) (b.beginEvent m l) := by
  have hprev : a.previous.map Event.strip = b.previous.map Event.strip := by
    rw [previous_eq, previous_eq, ← List.getLast?_map, ← List.getLast?_map, h.visible]
  have hr := refusal_congr hprev m l
  have hn := newEvent_congr (h.lookup m.causeEvent) l
  have hv : ∀ (s : Scan) (e : Event),
      ({ s with events := s.events.push e, pendingSend := none } : Scan).visible = s.visible ++ [e] := by
    intro s e
    show s.front ++ (s.events.push e).toList = (s.front ++ s.events.toList) ++ [e]
    rw [Array.toList_push, List.append_assoc]
  rw [beginEvent_eq, beginEvent_eq, ← hr]
  rcases hra : refusal a.previous m l with _ | f
  · -- both scans begin the same event
    refine ⟨⟨?_, h.modules, h.parseErrors, h.simBegin, h.wfA.push hra, h.wfB.push (hr ▸ hra)⟩,
      by simp, rfl, fun hs => by simp at hs⟩
    rw [hv, hv, List.map_append, List.map_append, h.visible, hn]
  · rfl

/-- A line keeps two scans in step, or fails on both alike. -/
theorem line_sim {a b : Scan} (h : Sim M₀ P₀ S₀ a b) (l : Line) :
    Alike (Sim M₀ P₀ S₀) (a.line l) (b.line l) := by
  rw [line_eq, line_eq]
  rcases l.entry? with _ | (pe | en)
  · exact h
  · exact h.afterBad pe l
  · dsimp only
    split
    · exact h.toSimAt.beginEvent _ l
    · exact h.afterRecord en l

/-- An event line puts two scans that look back at the same events in step,
or fails on both alike. -/
theorem line_simAt {a b : Scan} (h : SimAt M₀ P₀ S₀ a b) {l : Line} {m : EventMarker}
    (hm : l.marker? = some m) : Alike (Sim M₀ P₀ S₀) (a.line l) (b.line l) := by
  rw [line_eq, line_eq]
  unfold Line.marker? at hm
  rcases he : l.entry? with _ | (pe | en) <;> rw [he] at hm
  · cases hm
  · cases hm
  · dsimp only at hm ⊢
    rw [hm]
    exact h.beginEvent m l

/-! ## Runs of lines -/

theorem SimAt.tick {a b : Scan} (h : SimAt M₀ P₀ S₀ a b) (l : Line) :
    SimAt M₀ P₀ S₀ (a.tick l) (b.tick l) := by
  obtain ⟨p, hp⟩ := tick_eq a l
  obtain ⟨q, hq⟩ := tick_eq b l
  rw [hp, hq]
  exact ⟨h.visible, h.modules, h.parseErrors, h.simBegin, h.wfA.of_same rfl rfl rfl, h.wfB.of_same rfl rfl rfl⟩

theorem Sim.tick {a b : Scan} (h : Sim M₀ P₀ S₀ a b) (l : Line) : Sim M₀ P₀ S₀ (a.tick l) (b.tick l) := by
  obtain ⟨p, hp⟩ := tick_eq a l
  obtain ⟨q, hq⟩ := tick_eq b l
  have ht := h.toSimAt.tick l
  rw [hp, hq] at ht ⊢
  exact ⟨ht, h.events, h.pendingSend, h.pendingRoute⟩

/-- Two runs over the same lines alike: they stop at the same position with
the same failure, and end in step when neither failed. -/
def RunAlike (M₀ : List ModuleCreated) (P₀ : List LineError) (S₀ : Option Entry)
    (ra rb : Scan × Position × Option Fault) : Prop :=
  ra.2 = rb.2 ∧ (ra.2.2 = none → Sim M₀ P₀ S₀ ra.1 rb.1)

private theorem runAlike_cons {a b : Scan} {l : Line} {L : List Line} {pos : Position}
    (hl : Alike (Sim M₀ P₀ S₀) ((a.tick l).line l) ((b.tick l).line l))
    (ih : ∀ a' b', Sim M₀ P₀ S₀ a' b' →
      RunAlike M₀ P₀ S₀ (Reader.visitLines visit L a' ⟨l.endOffset, Position.nextLine l.number⟩)
        (Reader.visitLines visit L b' ⟨l.endOffset, Position.nextLine l.number⟩)) :
    RunAlike M₀ P₀ S₀ (Reader.visitLines visit (l :: L) a pos) (Reader.visitLines visit (l :: L) b pos) := by
  simp only [Reader.visitLines, visit_eq]
  rcases ha : (a.tick l).line l with ea | a' <;> rcases hb : (b.tick l).line l with eb | b' <;>
    rw [ha, hb] at hl
  · -- the line fails on both scans alike
    have he : ea = eb := hl
    subst he
    exact ⟨rfl, fun h => by cases h⟩
  · exact hl.elim
  · exact hl.elim
  · exact ih a' b' hl

/-- Lines read by two scans in step keep them in step, or fail on both
alike at the same line. -/
theorem visitLines_sim {a b : Scan} (h : Sim M₀ P₀ S₀ a b) (L : List Line) (pos : Position) :
    RunAlike M₀ P₀ S₀ (Reader.visitLines visit L a pos) (Reader.visitLines visit L b pos) := by
  induction L generalizing a b pos with
  | nil => exact ⟨rfl, fun _ => h⟩
  | cons l L ih => exact runAlike_cons (line_sim (h.tick l) l) fun a' b' h' => ih h' _

/-- Lines that start with an event line, read by two scans that look back at
the same events, keep them in step from that line on. -/
theorem visitLines_simAt {a b : Scan} (h : SimAt M₀ P₀ S₀ a b) {l : Line} {m : EventMarker}
    (hm : l.marker? = some m) (L : List Line) (pos : Position) :
    RunAlike M₀ P₀ S₀ (Reader.visitLines visit (l :: L) a pos) (Reader.visitLines visit (l :: L) b pos) :=
  runAlike_cons (line_simAt (h.tick l) hm) fun _ _ h' => visitLines_sim h' L _

end

end Scan

end EventChart
