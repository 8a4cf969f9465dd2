import EventChart.Proofs.Log.Build
/-!
# Opening a log

Opening a log reads its whole file in one scan and commits the scan to the
empty index in epoch one.  This module says so in terms of `Scan.run`, the
scan over the lines of a byte list.

* `EventLog.scanFrom_snd` and `EventLog.openFile_snd` say what a scan from a
  position and an opening return, through the run over the lines of the file.
* `Scan.run_start_alike`: two scans from the start that differ only in the
  size their progress is measured against read every line alike.
* `Index.models_full`: the index of a full scan models what the scan read.
-/

namespace EventChart

namespace Scan

theorem Wf.start {base : Index} (hb : InOrder base.events.toList)
    (hi : ∀ (i : Nat) (h : i < base.events.size), base.events[i].index = i) (replacesLast : Bool) (n : Nat) :
    (start base replacesLast n).Wf := by
  refine ⟨?_, hb, hi⟩
  unfold Scan.visible
  cases replacesLast
  · simpa [Scan.start] using hb
  · simpa [Scan.start, InOrder] using hb.sublist (List.dropLast_sublist _)

theorem wf_start_empty (n : Nat) : (start Index.empty false n).Wf :=
  Wf.start (by simp [InOrder, Index.empty]) (fun i h => by simp [Index.empty] at h) false n

/-- Two scans of a whole file are in step at the start, whatever size their
progress is measured against. -/
theorem sim_start (n n' : Nat) : Sim [] [] none (start Index.empty false n) (start Index.empty false n') where
  visible := rfl
  modules := rfl
  parseErrors := rfl
  simBegin := rfl
  wfA := wf_start_empty n
  wfB := wf_start_empty n'
  events := rfl
  pendingSend := rfl
  pendingRoute := fun _ => rfl

theorem run_start_alike (raw : List (List UInt8)) (pos : Position) (n n' : Nat) :
    RunAlike [] [] none (run raw (start Index.empty false n) pos) (run raw (start Index.empty false n') pos) :=
  visitLines_sim (sim_start n n') (linesFrom raw pos) pos

end Scan

theorem Reader.openFile_eq {st : Store} {path : String} {f : Nat} (hf : st.fileOf? path = some f) (fp : Int) :
    Reader.openFile st path fp =
      .ok ⟨path, some f, f, (st.contents f).size,
        slice (st.contents f) 0 (if fp ≤ 0 then defaultFingerprint else fp.toNat),
        if fp ≤ 0 then defaultFingerprint else fp.toNat⟩ := by
  simp [Reader.openFile, hf]

/-- An uncanceled scan of an open file from the start of a line is a run over
the lines of the file from there. -/
theorem Reader.readLines_run {r : Reader} {s : Store} {f : Nat} (hh : r.handle = some f)
    (hsize : r.size = (s.contents f).size) {start : Position} (hstart : 0 ≤ start.offset) (init : Scan) :
    r.readLines s false start (-1) init Scan.visit =
      Scan.run (completeLines [] ((s.contents f).data.toList.drop start.offset.toNat)) init start :=
  Reader.readLines_eq hh hsize hstart init Scan.visit

namespace EventLog

/-- An uncanceled scan of an open file from the start of a line runs over the
lines of the file from there. -/
theorem scanFrom_snd {l : EventLog} {st : Store} {f : Nat} (hh : l.reader.handle = some f)
    (hsize : l.reader.size = (st.contents f).size) (base : Index) {pos : Position} (hpos : 0 ≤ pos.offset)
    (replacesLast : Bool) :
    (l.scanFrom st false base pos replacesLast).2 =
      match Scan.run (completeLines [] ((st.contents f).data.toList.drop pos.offset.toNat))
          (Scan.start base replacesLast l.reader.size) pos with
      | (s, next, none) => .ok (s, next)
      | (_, _, some e) => .error e.canceledRead := by
  unfold scanFrom
  rw [Reader.readLines_run hh hsize hpos]
  rcases Scan.run (completeLines [] ((st.contents f).data.toList.drop pos.offset.toNat))
    (Scan.start base replacesLast l.reader.size) pos with ⟨s, next, _ | e⟩ <;> rfl

/-- Opening a log scans its whole file into the empty index in epoch one. -/
theorem openFile_snd {st : Store} {path : String} {f : Nat} (hf : st.fileOf? path = some f) (id : Nat)
    (opts : LogOptions) :
    ∃ r : Reader, Reader.openFile st path opts.fingerprint = .ok r ∧ r.handle = some f ∧
      r.size = (st.contents f).size ∧
      (openFile st id path opts false).2 =
        match Scan.run (completeLines [] (st.contents f).data.toList) (Scan.start Index.empty false r.size)
            Position.start with
        | (s, next, none) => .ok
            { id := id, path := path, reader := r,
              maxCached := if opts.maxCached ≤ 0 then defaultMaxCached else opts.maxCached.toNat,
              reportsProgress := opts.progress, epoch := 1, index := Index.empty.commit s 1 next,
              retired := #[], cache := [], pending := .unchanged }
        | (_, _, some e) => .error (.within ("indexing " ++ path) e.canceledRead) := by
  refine ⟨_, Reader.openFile_eq hf _, rfl, rfl, ?_⟩
  simp only [openFile, Reader.openFile_eq hf, rebuild, scanFrom]
  rw [Reader.readLines_run (f := f) rfl rfl le_rfl]
  simp only [Position.start, Int.toNat_zero, List.drop_zero]
  rcases Scan.run (completeLines [] (st.contents f).data.toList) _ _ with ⟨s, next, _ | e⟩ <;> rfl

end EventLog

namespace Index

/-- The index of a scan of a whole file models what the scan read. -/
theorem models_full {raw : List (List UInt8)} {n : Nat} {s : Scan} {next : Position}
    (h : Scan.run raw (Scan.start Index.empty false n) Position.start = (s, next, none)) (epoch : Nat) :
    (Index.empty.commit s epoch next).Models epoch s.events.toList s.modules.toList s.simBegin
      s.parseErrors.toList := by
  have hr := Scan.run_reads h
  have hoff : ∀ pe ∈ s.parseErrors.toList, 0 ≤ pe.offset := by
    intro pe hpe
    rw [hr.parseErrors] at hpe
    exact Scan.offset_le_of_mem_errors (by simpa [Scan.start] using hpe)
  have hm := (models_empty epoch).commit_append (Scan.run_base h).2 hoff next
  simpa using hm

end Index

end EventChart
