import EventChart.Proofs.Log.Open
/-!
# Extending an index after an append

When bytes are appended to a log file, the log extends its index: it scans
again from the line of its last event, which may have grown, and commits the
scan so that the re-read event takes the place of the last one.  This module
shows that the result is the index a scan of the whole grown file builds.

* `EventLog.Synced l F`: the index of `l` models, in the log's epoch, what a
  scan of the whole bytes `F` reads, and resumes where that scan ended.
* `Scan.run_split_last`: a scan that found events splits at the line of its
  last event; the unreadable lines from there on end before that event does.
* `Scan.simAt_reread`: a scan that re-reads the last event of an index looks
  back at the same events as a scan of the whole file at that line.
* `EventLog.extend_synced`: extending a log synced with `F` over `F ++ G`
  succeeds exactly when a scan of `F ++ G` does, and then syncs the log with
  `F ++ G` in the same epoch.
-/

namespace EventChart

/-! ## Lines of a grown file -/

/-- From the start of a line on, a file is cut into the lines from there. -/
theorem completeLines_drop_posAfter {bs : List UInt8} {A R : List (List UInt8)}
    (h : completeLines [] bs = A ++ R) :
    completeLines [] (bs.drop (posAfter A Position.start).offset.toNat) = R := by
  have hk : ((completeLines [] bs).take A.length).flatten.length = (posAfter A Position.start).offset.toNat := by
    rw [h, List.take_left' rfl]
    simp only [posAfter, Position.start, Int.zero_add, Int.toNat_natCast]
  rw [← hk, completeLines_drop, h, List.drop_left]

theorem ne_nil_of_mem_completeLines {bs x : List UInt8} (h : x ∈ completeLines [] bs) : x ≠ [] := by
  obtain ⟨w, -, rfl⟩ := (bytes_eq_flatten bs).1 x h
  simp

theorem Line.error?_of_marker {l : Line} {m : EventMarker} (h : l.marker? = some m) : l.error? = none := by
  unfold Line.marker? at h
  unfold Line.error?
  split at h
  · rename_i en he
    rw [he]
  · cases h

/-- Events that hold nothing an index gives are known by their stripped
forms. -/
theorem eq_of_map_strip {l₁ l₂ : List Event} (h : l₁.map Event.strip = l₂.map Event.strip)
    (h₁ : ∀ e ∈ l₁, e.strip = e) (h₂ : ∀ e ∈ l₂, e.strip = e) : l₁ = l₂ := by
  rw [List.map_congr_left h₁, List.map_congr_left h₂] at h
  simpa using h

namespace Scan

/-! ## The last event of a scan -/

/-- A scan that found events splits at the line of its last event: the lines
before it, the event line, and lines that start no event.  The last event
starts at that line, ends no later than the scan, and every unreadable line
from the event line on ends before it. -/
theorem run_split_last {raw : List (List UInt8)} {s₀ s : Scan} {q : Position}
    (h : run raw s₀ Position.start = (s, q, none)) (hs₀ : s₀.events = #[]) (hne : s.events ≠ #[])
    (hraw : ∀ x ∈ raw, x ≠ []) :
    ∃ A x B b m c, raw = A ++ x :: B ∧ run A s₀ Position.start = (b, posAfter A Position.start, none) ∧
      (lineAt x (posAfter A Position.start)).marker? = some m ∧
      s.events.toList = b.events.toList ++ [c] ∧ c.number = m.number ∧ c.pos = posAfter A Position.start ∧
      c.endOffset ≤ q.offset ∧
      ∀ pe ∈ (linesFrom (x :: B) (posAfter A Position.start)).filterMap Line.error?, pe.offset < c.endOffset := by
  have hgrow : s₀.events.size < s.events.size := by
    rw [hs₀, Array.size_empty, Nat.pos_iff_ne_zero, Ne, Array.size_eq_zero_iff]
    exact hne
  obtain ⟨A, x, B, b, b', m, rfl, hA, hm, hb, hB, hno⟩ := run_lastEvent h hgrow
  set ℓ := lineAt x (posAfter A Position.start) with hℓ
  -- the event line starts the last event
  obtain ⟨-, hb'⟩ : refusal (b.tick ℓ).previous m ℓ = none ∧
      b' = { b.tick ℓ with events := (b.tick ℓ).events.push ((b.tick ℓ).newEvent m ℓ), pendingSend := none } := by
    rcases line_cases hb with ⟨he, -⟩ | ⟨hm', -⟩ | ⟨hm', -⟩ | ⟨m', hm', hr, rfl⟩
    · simp [Line.marker?, he] at hm
    · rw [hm] at hm'; cases hm'
    · rw [hm] at hm'; cases hm'
    · rw [hm] at hm'
      cases hm'
      exact ⟨hr, rfl⟩
  have hpB : posAfter (A ++ [x]) Position.start = ⟨ℓ.endOffset, Position.nextLine ℓ.number⟩ := by
    rw [posAfter_append, posAfter_cons, posAfter_nil]
    rfl
  have hc : b'.events.toList = b.events.toList ++ [(b.tick ℓ).newEvent m ℓ] := by
    rw [hb', Array.toList_push, events_tick]
  obtain ⟨c', hsev, hn, -, hpos, -, hq, P, hP, hpe⟩ := run_within hB
    (fun y hy => hraw y (List.mem_append_right _ (List.mem_cons_of_mem _ hy))) hno hc
    (by rw [hpB]; exact le_rfl)
  refine ⟨A, x, B, b, m, c', rfl, hA, hm, hsev, hn, hpos, hq, fun pe hmem => ?_⟩
  -- the unreadable lines after the event line are those the run recorded
  have hreads := run_reads hB
  have hPeq : P = (linesFrom B (posAfter (A ++ [x]) Position.start)).filterMap Line.error? := by
    rw [hreads.parseErrors] at hP
    exact (List.append_cancel_left hP).symm
  rw [linesFrom_cons, List.filterMap_cons, Line.error?_of_marker hm] at hmem
  have hpos' : ⟨(posAfter A Position.start).offset + x.length, Position.nextLine (posAfter A Position.start).line⟩ =
      posAfter (A ++ [x]) Position.start := by
    rw [posAfter_append, posAfter_cons, posAfter_nil]
  rw [hpos', ← hPeq] at hmem
  exact hpe pe hmem

/-! ## Re-reading the last event -/

/-- A scan that re-reads the last event of an index built from `E ++ [c]`
looks back at the same events as a scan of the whole file that has read the
events `E`. -/
theorem simAt_reread {x : Index} {epoch : Nat} {E : List Event} {c : Event} {b : Scan}
    (hx : x.events.toList = (E ++ [c]).mapIdx fun i e => e.placed epoch i) (hE : InOrder (E ++ [c]))
    (hb : b.Wf) (hv : b.visible.map Event.strip = E.map Event.strip) (n : Nat) :
    SimAt b.modules.toList b.parseErrors.toList b.simBegin (start x true n) b := by
  have hfront : (start x true n).visible = E.mapIdx fun i e => e.placed epoch i := by
    simp [Scan.visible, Scan.start, hx, List.mapIdx_concat]
  have hidx : ∀ (i : Nat) (h : i < x.events.size), x.events[i].index = i := by
    intro i h
    have h' := List.getElem_of_eq hx (by simpa using h)
    simp only [Array.getElem_toList, List.getElem_mapIdx] at h'
    rw [h']
    rfl
  refine ⟨?_, by simp [Scan.start], by simp [Scan.start], by simp [Scan.start], ?_, hb⟩
  · rw [hfront, map_placed _ (fun _ _ _ => rfl), hv]
  · exact Wf.start (by rw [hx, Index.inOrder_placed]; exact hE) hidx true n

/-! ## What the scans read -/

/-- A scan that has read no record yet. -/
def Fresh (s : Scan) : Prop := s.modules = #[] ∧ s.simBegin = none ∧ s.parseErrors = #[]

theorem fresh_start (base : Index) (replacesLast : Bool) (n : Nat) : Fresh (start base replacesLast n) :=
  ⟨rfl, rfl, rfl⟩

/-- A run that starts with an event line from no event starts its events
with that line's event. -/
theorem run_first_number {x : List UInt8} {raw : List (List UInt8)} {s t : Scan} {pos q : Position}
    {m : EventMarker} (h : run (x :: raw) s pos = (t, q, none)) (hs : s.events = #[])
    (hm : (lineAt x pos).marker? = some m) : ∃ first rest, t.events.toList = first :: rest ∧ first.number = m.number := by
  rw [run_cons] at h
  split at h
  · rename_i s' hs'
    have hev : s'.events.toList = [(s.tick (lineAt x pos)).newEvent m (lineAt x pos)] := by
      rcases line_cases hs' with ⟨he, -⟩ | ⟨hm', -⟩ | ⟨hm', -⟩ | ⟨m', hm', -, rfl⟩
      · simp [Line.marker?, he] at hm
      · rw [hm] at hm'; cases hm'
      · rw [hm] at hm'; cases hm'
      · rw [hm] at hm'
        cases hm'
        simp [hs]
    obtain ⟨N, hN⟩ := (run_reads h).numbers
    rw [hev] at hN
    rcases ht : t.events.toList with _ | ⟨first, rest⟩
    · rw [ht] at hN
      simp at hN
    · rw [ht] at hN
      simp only [List.map_cons, List.map_nil, List.cons_append, List.nil_append, List.cons.injEq] at hN
      exact ⟨first, rest, rfl, hN.1⟩
  · simp at h

/-- Reading the lines of `F`, then those of `G` from where `F`'s ended, reads
what a scan of both reads. -/
theorem reading_append {LF LG : List (List UInt8)} {s₀ s₀' a₀ sF sE sY : Scan} {qF qE qY : Position}
    (hF : run LF s₀ Position.start = (sF, qF, none)) (hE : run LG a₀ qF = (sE, qE, none))
    (hY : run (LF ++ LG) s₀' Position.start = (sY, qY, none)) (h₀ : Fresh s₀) (h₀' : Fresh s₀')
    (ha : Fresh a₀) :
    sF.modules.toList ++ sE.modules.toList = sY.modules.toList ∧ sF.simBegin.or sE.simBegin = sY.simBegin ∧
      sF.parseErrors.toList ++ sE.parseErrors.toList = sY.parseErrors.toList := by
  have rF := run_reads hF
  have rE := run_reads hE
  have rY := run_reads hY
  rw [run_pos hF] at rE
  rw [linesFrom_append] at rY
  refine ⟨?_, ?_, ?_⟩
  · rw [rF.modules, rE.modules, rY.modules, h₀.1, h₀'.1, ha.1]
    simp [List.filterMap_append]
  · rw [rF.simBegin, rE.simBegin, rY.simBegin, h₀.2.1, h₀'.2.1, ha.2.1]
    simp [List.findSome?_append]
  · rw [rF.parseErrors, rE.parseErrors, rY.parseErrors, h₀.2.2, h₀'.2.2, ha.2.2]
    simp [List.filterMap_append]

/-- Reading the lines of `F` up to the last event line `x`, and again from
`x` on through the lines of `G`, reads what a scan of both reads: the records
read twice count once, and of the unreadable lines read twice only those
after `bound` are kept. -/
theorem reading_reread {A B LG : List (List UInt8)} {x : List UInt8} {s₀ s₀' a₀ sF sE sY : Scan}
    {qF qE qY : Position} {bound : Int}
    (hF : run (A ++ x :: B) s₀ Position.start = (sF, qF, none))
    (hE : run (x :: (B ++ LG)) a₀ (posAfter A Position.start) = (sE, qE, none))
    (hY : run (A ++ x :: (B ++ LG)) s₀' Position.start = (sY, qY, none)) (h₀ : Fresh s₀) (h₀' : Fresh s₀')
    (ha : Fresh a₀)
    (hin : ∀ pe ∈ (linesFrom (x :: B) (posAfter A Position.start)).filterMap Line.error?, pe.offset < bound)
    (hle : bound ≤ qF.offset) :
    latestRecords (sF.modules.toList ++ sE.modules.toList) = latestRecords sY.modules.toList ∧
      sF.simBegin.or sE.simBegin = sY.simBegin ∧
      sF.parseErrors.toList ++ sE.parseErrors.toList.filter (fun pe => bound ≤ pe.offset) =
        sY.parseErrors.toList := by
  set pA := posAfter A Position.start
  set pN := posAfter (x :: B) pA
  have hqF : qF = pN := by rw [run_pos hF, posAfter_append]
  have hlE : linesFrom (x :: (B ++ LG)) pA = linesFrom (x :: B) pA ++ linesFrom LG pN := by
    rw [← List.cons_append, linesFrom_append]
  have rF := run_reads hF
  have rE := run_reads hE
  have rY := run_reads hY
  rw [linesFrom_append] at rF
  rw [hlE] at rE
  rw [linesFrom_append, hlE] at rY
  -- the lines read twice, and the lines of `G`
  set LA := linesFrom A Position.start
  set LR := linesFrom (x :: B) pA
  set LN := linesFrom LG pN
  refine ⟨?_, ?_, ?_⟩
  · rw [rF.modules, rE.modules, rY.modules, h₀.1, h₀'.1, ha.1]
    simp only [List.nil_append, List.filterMap_append]
    rw [← List.append_assoc, ← List.append_assoc, latestRecords_absorb]
  · rw [rF.simBegin, rE.simBegin, rY.simBegin, h₀.2.1, h₀'.2.1, ha.2.1]
    simp only [Option.none_or, List.findSome?_append]
    cases LA.findSome? Line.simBegin? <;> cases LR.findSome? Line.simBegin? <;> rfl
  · have hdrop : (LR.filterMap Line.error?).filter (fun pe => bound ≤ pe.offset) = [] := by
      apply List.filter_eq_nil_iff.mpr
      intro pe hpe
      have := hin pe hpe
      simp only [decide_eq_true_eq]
      omega
    have hkeep : (LN.filterMap Line.error?).filter (fun pe => bound ≤ pe.offset) = LN.filterMap Line.error? := by
      apply List.filter_eq_self.mpr
      intro pe hpe
      have := offset_le_of_mem_errors hpe
      rw [← hqF] at this
      simp only [decide_eq_true_eq]
      omega
    rw [rF.parseErrors, rE.parseErrors, rY.parseErrors, h₀.2.2, h₀'.2.2, ha.2.2]
    simp only [List.nil_append, List.filterMap_append, List.filter_append, hdrop, hkeep,
      List.append_assoc]

/-- The scan of a whole file, as opening it makes it. -/
def whole (F : List UInt8) : Scan × Position × Option Fault :=
  run (completeLines [] F) (start Index.empty false F.length) Position.start

/-- A scan that continues no event looks back at its own events only. -/
theorem visible_of_base {s : Scan} (hb : s.base = Index.empty) (hr : s.replacesLast = false) :
    s.visible = s.events.toList := by
  simp [Scan.visible, hb, hr, Index.empty]

/-- What a scan of a whole file does up to any line. -/
theorem run_start_facts {raw : List (List UInt8)} {n : Nat} {pos q : Position} {t : Scan}
    (h : run raw (start Index.empty false n) pos = (t, q, none)) :
    t.visible = t.events.toList ∧ t.Wf ∧ Sound t :=
  ⟨visible_of_base (run_base h).1 (run_base h).2, run_wf (wf_start_empty n) h, run_sound (sound_start _ _ _) h⟩

end Scan

namespace EventLog

/-! ## What extending does -/

/-- Extending a log with a last event re-reads the file from that event's
line; the re-read must start with that event. -/
theorem extend_of_last {l : EventLog} {st : Store} {f : Nat} {e : Event} (hlast : l.index.last? = some e)
    (hh : l.reader.handle = some f) (hsize : l.reader.size = (st.contents f).size) (hpos : 0 ≤ e.pos.offset) :
    ((l.extend st false).1, (l.extend st false).2.2) =
      match Scan.run (completeLines [] ((st.contents f).data.toList.drop e.pos.offset.toNat))
          (Scan.start l.index true l.reader.size) e.pos with
      | (s, next, none) =>
        if (s.events[0]?.map (·.number)) != some e.number then (l, some (.fileChanged .overwritten none))
        else ({ l with index := l.index.commit s l.epoch next }, none)
      | (_, _, some err) => (l, some err.canceledRead) := by
  have hsc := scanFrom_snd hh hsize l.index hpos true
  unfold extend
  simp only [hlast, Option.isSome_some]
  rcases hs : l.scanFrom st false l.index e.pos true with ⟨p, r⟩
  rw [hs] at hsc
  dsimp only at hsc ⊢
  rw [hsc]
  rcases Scan.run (completeLines [] ((st.contents f).data.toList.drop e.pos.offset.toNat))
    (Scan.start l.index true l.reader.size) e.pos with ⟨s, next, _ | err⟩
  · dsimp only
    split <;> rfl
  · rfl

/-- Extending a log without events reads the file from where the index
resumes. -/
theorem extend_of_none {l : EventLog} {st : Store} {f : Nat} (hlast : l.index.last? = none)
    (hh : l.reader.handle = some f) (hsize : l.reader.size = (st.contents f).size)
    (hpos : 0 ≤ l.index.scanned.offset) :
    ((l.extend st false).1, (l.extend st false).2.2) =
      match Scan.run (completeLines [] ((st.contents f).data.toList.drop l.index.scanned.offset.toNat))
          (Scan.start l.index false l.reader.size) l.index.scanned with
      | (s, next, none) => ({ l with index := l.index.commit s l.epoch next }, none)
      | (_, _, some err) => (l, some err.canceledRead) := by
  have hsc := scanFrom_snd hh hsize l.index hpos false
  unfold extend
  simp only [hlast, Option.isSome_none]
  rcases hs : l.scanFrom st false l.index l.index.scanned false with ⟨p, r⟩
  rw [hs] at hsc
  dsimp only at hsc ⊢
  rw [hsc]
  rcases Scan.run (completeLines [] ((st.contents f).data.toList.drop l.index.scanned.offset.toNat))
    (Scan.start l.index false l.reader.size) l.index.scanned with ⟨s, next, _ | err⟩ <;> rfl

/-! ## Extending a synced log -/

/-- A log synced with the bytes `F`: its index models, in the log's epoch,
what a scan of the whole of `F` reads, and resumes where that scan ended. -/
def Synced (l : EventLog) (F : List UInt8) : Prop :=
  ∃ s q, Scan.whole F = (s, q, none) ∧
    l.index.Models l.epoch s.events.toList s.modules.toList s.simBegin s.parseErrors.toList ∧ l.index.scanned = q

/-- What extending the log `l` over the bytes `Y` must give, as `l'` with the
failure `err`: success exactly when a scan of the whole of `Y` succeeds; then
a log synced with `Y` that differs from `l` in its index only; and on a
failure the log as it was. -/
def Extended (l l' : EventLog) (err : Option Fault) (Y : List UInt8) : Prop :=
  (err = none ↔ ∃ s q, Scan.whole Y = (s, q, none)) ∧
    (err = none → l' = { l with index := l'.index } ∧ l'.Synced Y) ∧ (err ≠ none → l' = l)

theorem size_of_bytes {st : Store} {f : Nat} {Y : List UInt8} (hY : (st.contents f).data.toList = Y) :
    (st.contents f).size = Y.length := by
  rw [← hY, Array.length_toList]
  rfl

/-- Extending a log synced with `F` whose index has a last event, after `G`
was appended. -/
theorem extend_synced_last {l : EventLog} {st : Store} {f : Nat} {F G : List UInt8} {e : Event}
    (hs : l.Synced F) (hlast : l.index.last? = some e) (hh : l.reader.handle = some f)
    (hY : (st.contents f).data.toList = F ++ G) (hsize : l.reader.size = (st.contents f).size) :
    Extended l (l.extend st false).1 (l.extend st false).2.2 (F ++ G) := by
  obtain ⟨sF, qF, hF, hx, -⟩ := hs
  obtain ⟨tail, -, -, hLY⟩ := completeLines_append F G
  set LG := completeLines [] (tail ++ G)
  have hev := hx.events
  have hne : sF.events ≠ #[] := by
    intro h0
    rw [h0] at hev
    rw [Index.last?, ← Array.getLast?_toList, hev] at hlast
    cases hlast
  -- the scan of `F` splits at the line of its last event
  obtain ⟨A, xl, B, b, m, c, hLF, hA, hm, hsev, hcn, hcpos, hcq, hcerr⟩ :=
    Scan.run_split_last hF rfl hne (fun y hy => ne_nil_of_mem_completeLines hy)
  set E := b.events.toList
  set pA := posAfter A Position.start
  have hx' : l.index.events.toList = (E ++ [c]).mapIdx fun i e => e.placed l.epoch i := by rw [hev, hsev]
  have he : e = c.placed l.epoch E.length := (Option.some.inj ((Index.last?_eq hx').symm.trans hlast)).symm
  have hepos : e.pos = pA := by rw [he]; exact hcpos
  have hoff : 0 ≤ e.pos.offset := by
    rw [hepos]
    show (0 : Int) ≤ 0 + (A.flatten.length : Int)
    omega
  -- the extension re-reads from the event line
  have hdrop : completeLines [] ((F ++ G).drop pA.offset.toNat) = xl :: (B ++ LG) :=
    completeLines_drop_posAfter (by rw [hLY, hLF]; simp)
  have hext := extend_of_last hlast hh hsize hoff
  rw [hepos, hY, hdrop, hsize, size_of_bytes hY] at hext
  -- the scan of the whole grown file reaches the event line where that of `F` did
  have halikeA := Scan.run_start_alike A Position.start F.length (F ++ G).length
  rw [show Scan.run A (Scan.start Index.empty false F.length) Position.start = (b, pA, none) from hA] at halikeA
  rcases hAY : Scan.run A (Scan.start Index.empty false (F ++ G).length) Position.start with ⟨bY, qA, errA⟩
  rw [hAY] at halikeA
  obtain ⟨hqA, hsimA⟩ := halikeA
  obtain ⟨rfl, rfl⟩ : pA = qA ∧ (none : Option Fault) = errA := Prod.mk.inj hqA
  have hsim := hsimA rfl
  have hwhole : Scan.whole (F ++ G) = Scan.run (xl :: (B ++ LG)) bY pA := by
    unfold Scan.whole
    rw [hLY, hLF, List.append_assoc, List.cons_append, Scan.run_append, hAY]
  obtain ⟨hvF, hwF, hsF⟩ := Scan.run_start_facts hF
  obtain ⟨hvb, -, -⟩ := Scan.run_start_facts hA
  obtain ⟨hvbY, -, hsbY⟩ := Scan.run_start_facts hAY
  have hord : InOrder (E ++ [c]) := by
    have := hwF.visible
    rwa [hvF, hsev] at this
  have hv : bY.visible.map Event.strip = E.map Event.strip := by rw [← hsim.visible, hvb]
  -- from the event line on, the extension and the whole scan are in step
  have halike : Scan.RunAlike bY.modules.toList bY.parseErrors.toList bY.simBegin
      (Scan.run (xl :: (B ++ LG)) (Scan.start l.index true (F ++ G).length) pA)
      (Scan.run (xl :: (B ++ LG)) bY pA) := by
    unfold Scan.run
    rw [Scan.linesFrom_cons]
    exact Scan.visitLines_simAt (Scan.simAt_reread hx' hord hsim.wfB hv _) hm _ _
  rcases hEr : Scan.run (xl :: (B ++ LG)) (Scan.start l.index true (F ++ G).length) pA with ⟨sE, qE, errE⟩
  rcases hYr : Scan.run (xl :: (B ++ LG)) bY pA with ⟨sY, qY, errY⟩
  rw [hEr, hYr] at halike
  obtain ⟨hq, hsimE⟩ := halike
  obtain ⟨rfl, rfl⟩ : qE = qY ∧ errE = errY := Prod.mk.inj hq
  rw [hEr] at hext
  rcases errE with _ | err
  · -- both succeed: the re-read starts with the last event, and the commit is the whole scan's index
    have hsimE := hsimE rfl
    obtain ⟨first, rest, hfr, hfn⟩ := Scan.run_first_number hEr rfl hm
    have hcheck : (sE.events[0]?.map (·.number)) = some e.number := by
      rw [← Array.getElem?_toList, hfr, he, Event.number_placed, hcn, ← hfn]
      rfl
    simp only [hcheck, bne_self_eq_false, Bool.false_eq_true, if_false, Prod.mk.injEq] at hext
    obtain ⟨h1, h2⟩ := hext
    obtain ⟨hbE, hrE⟩ := Scan.run_base hEr
    have hsE := Scan.run_sound (Scan.sound_start _ _ _) hEr
    have hsY := Scan.run_sound hsbY hYr
    have hbY := Scan.run_base hYr
    have hbbY := Scan.run_base hAY
    -- the events: those before the last one, then the re-read ones
    have hevents : E ++ sE.events.toList = sY.events.toList := by
      have hvis := hsimE.visible
      rw [Scan.visible_of_base (hbY.1.trans hbbY.1) (hbY.2.trans hbbY.2)] at hvis
      simp only [Scan.visible, hbE, hrE, Scan.start, if_true, hx', List.mapIdx_concat, List.dropLast_concat,
        List.map_append, map_placed Event.strip (fun _ _ _ => rfl)] at hvis
      rw [← List.map_append] at hvis
      refine eq_of_map_strip hvis (fun g hg => ?_) (hsY.bare)
      rcases List.mem_append.mp hg with hg | hg
      · exact hsF.bare g (by rw [hsev]; exact List.mem_append_left _ hg)
      · exact hsE.bare g hg
    -- the records
    have hF' : Scan.run (A ++ xl :: B) (Scan.start Index.empty false F.length) Position.start = (sF, qF, none) := by
      rw [← hLF]; exact hF
    have hY' : Scan.run (A ++ xl :: (B ++ LG)) (Scan.start Index.empty false (F ++ G).length) Position.start =
        (sY, qE, none) := by
      rw [Scan.run_append, hAY]
      exact hYr
    obtain ⟨hmods, hsb, hpe⟩ := Scan.reading_reread hF' hEr hY' (Scan.fresh_start _ _ _) (Scan.fresh_start _ _ _)
      (Scan.fresh_start _ _ _) hcerr hcq
    -- edges lead to their own events, whose numbers grow
    have hE : ∀ g ∈ E, ∀ d ∈ g.causes, d.consequence ≠ c.number := by
      intro g hg d hd
      have hgF : g ∈ sF.events.toList := by rw [hsev]; exact List.mem_append_left _ hg
      rw [Event.consequence_of_mem_causes (hsF.reuses g hgF) hd]
      exact ne_of_lt ((List.pairwise_append.mp hord).2.2 g hg c (List.mem_singleton_self c)).1
    have hc : ∀ d ∈ c.causes, d.consequence = c.number :=
      fun d hd => Event.consequence_of_mem_causes (hsF.reuses c (by rw [hsev]; simp)) hd
    have hfe : first.entries = none := by
      have := congrArg Event.entries (hsE.bare first (by rw [hfr]; exact List.mem_cons_self ..))
      exact this.symm
    have hx2 : l.index.Models l.epoch (E ++ [c]) sF.modules.toList sF.simBegin sF.parseErrors.toList := hsev ▸ hx
    have hcommit := hx2.commit_replace hrE hfr (hfn.trans hcn.symm) hfe hE hc qE
    refine ⟨⟨fun _ => ⟨sY, qE, hwhole.trans hYr⟩, fun _ => h2⟩, fun _ => ⟨by rw [h1], sY, qE, hwhole.trans hYr,
      ?_, ?_⟩, fun h => absurd h2 h⟩
    · rw [h1]
      exact hcommit.congr hevents hmods hsb hpe
    · rw [h1]
      exact Index.scanned_commit _ _ _ _
  · -- both fail at the same line
    simp only [Prod.mk.injEq] at hext
    obtain ⟨h1, h2⟩ := hext
    refine ⟨⟨fun h => ?_, fun hw => ?_⟩, fun h => ?_, fun _ => h1⟩
    · rw [h2] at h
      cases h
    · obtain ⟨s, q, hs⟩ := hw
      rw [hwhole, hYr] at hs
      cases hs
    · rw [h2] at h
      cases h

/-- Extending a log synced with `F` whose index has no event yet, after `G`
was appended: the scan resumes where that of `F` ended. -/
theorem extend_synced_none {l : EventLog} {st : Store} {f : Nat} {F G : List UInt8}
    (hs : l.Synced F) (hlast : l.index.last? = none) (hh : l.reader.handle = some f)
    (hY : (st.contents f).data.toList = F ++ G) (hsize : l.reader.size = (st.contents f).size) :
    Extended l (l.extend st false).1 (l.extend st false).2.2 (F ++ G) := by
  obtain ⟨sF, qF, hF, hx, hq⟩ := hs
  obtain ⟨tail, -, -, hLY⟩ := completeLines_append F G
  set LF := completeLines [] F
  set LG := completeLines [] (tail ++ G)
  have hqF : qF = posAfter LF Position.start := Scan.run_pos hF
  have hempty : l.index.events.toList = [] := by
    rw [Index.last?, ← Array.getLast?_toList, List.getLast?_eq_none_iff] at hlast
    exact hlast
  have hsFe : sF.events.toList = [] := by
    have h := hx.events
    rw [hempty] at h
    exact List.mapIdx_eq_nil_iff.mp h.symm
  have hoff : 0 ≤ l.index.scanned.offset := by
    rw [hq, hqF]
    show (0 : Int) ≤ 0 + (LF.flatten.length : Int)
    omega
  -- the extension reads the lines of `G` from where the scan of `F` ended
  have hdrop : completeLines [] ((F ++ G).drop qF.offset.toNat) = LG := by
    rw [hqF]
    exact completeLines_drop_posAfter hLY
  have hext := extend_of_none hlast hh hsize hoff
  rw [hq, hY, hdrop, hsize, size_of_bytes hY] at hext
  -- the scan of the whole grown file reaches the lines of `G` where that of `F` ended
  have halikeF := Scan.run_start_alike LF Position.start F.length (F ++ G).length
  rw [show Scan.run LF (Scan.start Index.empty false F.length) Position.start = (sF, qF, none) from hF]
    at halikeF
  rcases hFY : Scan.run LF (Scan.start Index.empty false (F ++ G).length) Position.start with ⟨bY, qA, errA⟩
  rw [hFY] at halikeF
  obtain ⟨hqA, hsimA⟩ := halikeF
  obtain ⟨rfl, rfl⟩ : qF = qA ∧ (none : Option Fault) = errA := Prod.mk.inj hqA
  have hsim := hsimA rfl
  have hwhole : Scan.whole (F ++ G) = Scan.run LG bY qF := by
    unfold Scan.whole
    rw [hLY, Scan.run_append, hFY, ← hqF]
  obtain ⟨hvF, -, -⟩ := Scan.run_start_facts hF
  obtain ⟨hvbY, hwbY, hsbY⟩ := Scan.run_start_facts hFY
  have hbYe : bY.events.toList = [] := by
    have h := hsim.visible
    rw [hvF, hvbY, hsFe, List.map_nil] at h
    exact List.map_eq_nil_iff.mp h.symm
  -- from there on, the extension and the whole scan are in step
  have hsim0 : Scan.Sim bY.modules.toList bY.parseErrors.toList bY.simBegin
      (Scan.start l.index false (F ++ G).length) bY :=
    { visible := by
        rw [hvbY, hbYe]
        simp [Scan.visible, Scan.start, hempty]
      modules := by simp [Scan.start]
      parseErrors := by simp [Scan.start]
      simBegin := by simp [Scan.start]
      wfA := Scan.Wf.start (by simp [InOrder, hempty])
        (fun i h => absurd h (by simp [← Array.length_toList, hempty])) false _
      wfB := hwbY
      events := by simp [Scan.start, ← Array.toList_eq_nil_iff, hbYe]
      pendingSend := (hsbY.idle (by simpa using hbYe)).symm
      pendingRoute := fun h => by simp [Scan.start] at h }
  have halike : Scan.RunAlike bY.modules.toList bY.parseErrors.toList bY.simBegin
      (Scan.run LG (Scan.start l.index false (F ++ G).length) qF) (Scan.run LG bY qF) :=
    Scan.visitLines_sim hsim0 (linesFrom LG qF) qF
  rcases hEr : Scan.run LG (Scan.start l.index false (F ++ G).length) qF with ⟨sE, qE, errE⟩
  rcases hYr : Scan.run LG bY qF with ⟨sY, qY, errY⟩
  rw [hEr, hYr] at halike
  obtain ⟨hq', hsimE⟩ := halike
  obtain ⟨rfl, rfl⟩ : qE = qY ∧ errE = errY := Prod.mk.inj hq'
  rw [hEr] at hext
  rcases errE with _ | err
  · -- both succeed, and the commit appends what the whole scan read after `F`
    have hsimE := hsimE rfl
    simp only [Prod.mk.injEq] at hext
    obtain ⟨h1, h2⟩ := hext
    have hsE := Scan.run_sound (Scan.sound_start _ _ _) hEr
    have hsY := Scan.run_sound hsbY hYr
    obtain ⟨hbE, hrE⟩ := Scan.run_base hEr
    have hbY := Scan.run_base hYr
    have hbbY := Scan.run_base hFY
    have hevents : sF.events.toList ++ sE.events.toList = sY.events.toList := by
      have hvis := hsimE.visible
      rw [Scan.visible_of_base (hbY.1.trans hbbY.1) (hbY.2.trans hbbY.2)] at hvis
      simp only [Scan.visible, hbE, hrE, Scan.start, Bool.false_eq_true, if_false, hempty, List.nil_append] at hvis
      rw [hsFe, List.nil_append]
      exact eq_of_map_strip hvis hsE.bare hsY.bare
    have hY' : Scan.run (LF ++ LG) (Scan.start Index.empty false (F ++ G).length) Position.start =
        (sY, qE, none) := by
      rw [Scan.run_append, hFY, ← hqF]
      exact hYr
    obtain ⟨hmods, hsb, hpe⟩ := Scan.reading_append hF hEr hY' (Scan.fresh_start _ _ _)
      (Scan.fresh_start _ _ _) (Scan.fresh_start _ _ _)
    have hoffE : ∀ pe ∈ sE.parseErrors.toList, 0 ≤ pe.offset := by
      intro pe hpe
      rw [(Scan.run_reads hEr).parseErrors] at hpe
      have := Scan.offset_le_of_mem_errors (by simpa [Scan.start] using hpe)
      rw [hqF] at this
      have h0 : (0 : Int) ≤ (posAfter LF Position.start).offset := by
        show (0 : Int) ≤ 0 + (LF.flatten.length : Int)
        omega
      omega
    have hcommit := hx.commit_append hrE hoffE qE
    refine ⟨⟨fun _ => ⟨sY, qE, hwhole.trans hYr⟩, fun _ => h2⟩, fun _ => ⟨by rw [h1], sY, qE, hwhole.trans hYr,
      ?_, ?_⟩, fun h => absurd h2 h⟩
    · rw [h1]
      exact hcommit.congr hevents (by rw [hmods]) hsb hpe
    · rw [h1]
      exact Index.scanned_commit _ _ _ _
  · -- both fail at the same line
    simp only [Prod.mk.injEq] at hext
    obtain ⟨h1, h2⟩ := hext
    refine ⟨⟨fun h => ?_, fun hw => ?_⟩, fun h => ?_, fun _ => h1⟩
    · rw [h2] at h
      cases h
    · obtain ⟨s, q, hs⟩ := hw
      rw [hwhole, hYr] at hs
      cases hs
    · rw [h2] at h
      cases h

/-- Extending a log synced with `F`, after `G` was appended to its file,
succeeds exactly when a scan of the whole of `F ++ G` does, and then syncs
the log with `F ++ G`, changing its index only. -/
theorem extend_synced {l : EventLog} {st : Store} {f : Nat} {F G : List UInt8} (hs : l.Synced F)
    (hh : l.reader.handle = some f) (hY : (st.contents f).data.toList = F ++ G)
    (hsize : l.reader.size = (st.contents f).size) :
    Extended l (l.extend st false).1 (l.extend st false).2.2 (F ++ G) := by
  rcases hlast : l.index.last? with _ | e
  · exact extend_synced_none hs hlast hh hY hsize
  · exact extend_synced_last hs hlast hh hY hsize

end EventLog

end EventChart
