import EventChart.Proofs.Log.Extend
/-!
# Following a file that grows

A log checks its file for changes and brings its index up to date.  This
module follows a log opened on a file to which bytes are then appended, and
shows that a check leaves it with the index an opening of the grown file
builds.

* `Reader.Sees`: what a reader remembers of the file it has seen;
  `Reader.check_append` says that after an append a check finds the file
  appended, or unchanged if nothing was appended.
* `EventLog.Follows`: a log whose reader has seen the bytes its index is
  synced with, with no change pending.  `EventLog.openFile_follows`: an
  opened log follows its file, in epoch one.
* `EventLog.synchronize_appended`: bringing a log up to date after an append
  succeeds exactly when a scan of the whole grown file does; a failed
  extension falls back to a rebuild (`EventLog.replace_eq`), which fails too.
* `EventLog.Follows.checkForChanges`: a check after an append leaves a log
  that follows the grown file, in its epoch.
* `EventLog.Synced.agrees`: two logs synced with the same bytes in the same
  epoch have indexes that agree on every query; `EventLog.Synced.keeps`: a
  log synced with a grown file keeps every event of one synced with the
  shorter file (`EventLog.KeepsEvents`).
* `EventLog.checkForChanges_append_agrees_open`: after an append, a check
  succeeds exactly when opening the grown file does, and then leaves the log
  in its epoch with the index of that opening; every event obtained before
  stays valid.
-/

namespace EventChart

/-! ## Bytes -/

theorem slice_zero_data (d : ByteArray) (b : Nat) : (slice d 0 b).data.toList = d.data.toList.take b := by
  have hlen : min b d.size = min b d.data.toList.length := by simp
  rw [slice, ByteArray.data_extract, Array.toList_extract, List.extract_eq_take_drop, List.drop_zero,
    Nat.sub_zero, hlen, ← List.take_eq_take_min]

theorem sameBytes_iff (a b : ByteArray) : sameBytes a b = true ↔ a.data.toList = b.data.toList := by
  unfold sameBytes
  rw [beq_iff_eq, Array.toList_inj]

namespace Reader

/-- A reader that has seen the bytes `F` of the file `f` at its last check:
it holds that file open, and remembers its size and first bytes. -/
structure Sees (r : Reader) (f : Nat) (F : List UInt8) : Prop where
  handle : r.handle = some f
  file : r.file = f
  size : r.size = F.length
  head : r.head.data.toList = F.take r.fingerprint

theorem sees_openFile {st : Store} {path : String} {f : Nat} {fp : Int} {r : Reader}
    (hf : st.fileOf? path = some f) (h : Reader.openFile st path fp = .ok r) :
    r.Sees f (st.contents f).data.toList ∧ r.path = path := by
  rw [openFile_eq hf] at h
  cases h
  exact ⟨⟨rfl, rfl, EventLog.size_of_bytes rfl, slice_zero_data _ _⟩, rfl⟩

/-- A check takes the file under the reader's name as the one it has seen. -/
theorem check_fst {r : Reader} {st : Store} {f : Nat} (hpath : st.fileOf? r.path = some f) :
    (r.check st).1 = ⟨r.path, some f, f, (st.contents f).size, slice (st.contents f) 0 r.fingerprint, r.fingerprint⟩ := by
  unfold check
  rw [hpath]

theorem sees_check {r : Reader} {st : Store} {f : Nat} (hpath : st.fileOf? r.path = some f) :
    (r.check st).1.Sees f (st.contents f).data.toList := by
  rw [check_fst hpath]
  exact ⟨rfl, rfl, EventLog.size_of_bytes rfl, slice_zero_data _ _⟩

theorem path_check (r : Reader) (st : Store) : (r.check st).1.path = r.path := by
  unfold check
  split <;> rfl

/-- After bytes `G` are appended to the file a reader has seen as `F`, a
check finds the file appended, or unchanged if `G` is empty. -/
theorem check_append {r : Reader} {st : Store} {f : Nat} {F G : List UInt8}
    (hpath : st.fileOf? r.path = some f) (hr : r.Sees f F) (hY : (st.contents f).data.toList = F ++ G) :
    (r.check st).2 = .ok (if G = [] then .unchanged else .appended) := by
  have hsizeY : (st.contents f).size = F.length + G.length := by
    rw [EventLog.size_of_bytes hY, List.length_append]
  have hnew : (slice (st.contents f) 0 r.fingerprint).data.toList = (F ++ G).take r.fingerprint := by
    rw [slice_zero_data, hY]
  have hold : r.head.size = min r.fingerprint F.length := by
    rw [← ByteArray.size_data, ← Array.length_toList, hr.head, List.length_take]
  -- the head seen before is a prefix of the head now
  have hlonger : ¬ (slice (st.contents f) 0 r.fingerprint).size < r.head.size := by
    rw [← ByteArray.size_data, ← Array.length_toList, hnew, hold, List.length_take, List.length_append]
    omega
  have hsame : sameBytes (slice (slice (st.contents f) 0 r.fingerprint) 0 r.head.size) r.head = true := by
    rw [sameBytes_iff, slice_zero_data, hnew, hr.head, hold, List.take_take,
      List.take_append_of_le_length (by simp), List.take_eq_take_min (l := F) (i := r.fingerprint)]
    congr 1
    omega
  unfold check
  rw [hpath]
  simp only [hr.handle, hr.file, Option.isNone_some, bne_self_eq_false, Bool.false_eq_true, if_false,
    hlonger, decide_false, hsame, Bool.not_true, Bool.or_self, hsizeY, hr.size]
  by_cases hG : G = []
  · subst hG
    simp
  · have hlt : F.length < F.length + G.length := by
      have := List.length_pos_iff.mpr hG
      omega
    simp [hG, hlt]

end Reader

namespace Scan

/-- The events a scan of a file finds keep their numbers, in order, in a scan
of the file grown by any bytes. -/
theorem whole_append_numbers {F G : List UInt8} {sF sY : Scan} {qF qY : Position}
    (hF : whole F = (sF, qF, none)) (hY : whole (F ++ G) = (sY, qY, none)) :
    ∃ N, sY.events.toList.map Event.number = sF.events.toList.map Event.number ++ N := by
  obtain ⟨tail, -, -, hLY⟩ := completeLines_append F G
  -- up to the end of `F`, both scans read alike
  have halike := run_start_alike (completeLines [] F) Position.start F.length (F ++ G).length
  rw [show run (completeLines [] F) (start Index.empty false F.length) Position.start = (sF, qF, none) from hF]
    at halike
  rcases hA : run (completeLines [] F) (start Index.empty false (F ++ G).length) Position.start with ⟨b, qA, errA⟩
  rw [hA] at halike
  obtain ⟨hq, hsim⟩ := halike
  obtain ⟨rfl, rfl⟩ : qF = qA ∧ (none : Option Fault) = errA := Prod.mk.inj hq
  have hnum : b.events.toList.map Event.number = sF.events.toList.map Event.number := by
    have h := congrArg (List.map Event.number) (hsim rfl).visible
    have hcomp : Event.number ∘ Event.strip = Event.number := rfl
    rw [List.map_map, List.map_map, hcomp, (run_start_facts hF).1, (run_start_facts hA).1] at h
    exact h.symm
  -- from there the scan of the grown file only adds events
  have hrest : run (completeLines [] (tail ++ G)) b (posAfter (completeLines [] F) Position.start) =
      (sY, qY, none) := by
    unfold whole at hY
    rw [hLY, run_append, hA] at hY
    exact hY
  obtain ⟨N, hN⟩ := (run_reads hrest).numbers
  exact ⟨N, by rw [hN, hnum]⟩

end Scan

namespace EventLog

/-! ## Opening and replacing -/

theorem Synced.whole_ok {l : EventLog} {F : List UInt8} (h : l.Synced F) : ∃ s q, Scan.whole F = (s, q, none) := by
  obtain ⟨s, q, hw, -⟩ := h
  exact ⟨s, q, hw⟩

/-- A log that follows the file `f` and is up to date with its bytes `F`: its
reader has seen `F`, no change is pending, and its index is synced with `F`. -/
structure Follows (l : EventLog) (f : Nat) (F : List UInt8) : Prop where
  sees : l.reader.Sees f F
  pending : l.pending = .unchanged
  synced : l.Synced F

/-- Opening a log succeeds exactly when a scan of its whole file does. -/
theorem openFile_ok_iff {st : Store} {path : String} {f : Nat} (hf : st.fileOf? path = some f) (id : Nat)
    (opts : LogOptions) :
    (∃ l, (openFile st id path opts false).2 = .ok l) ↔ ∃ s q, Scan.whole (st.contents f).data.toList = (s, q, none) := by
  obtain ⟨r, hr, -, -, hopen⟩ := openFile_snd hf id opts
  obtain ⟨hsees, -⟩ := Reader.sees_openFile hf hr
  have hw : Scan.run (completeLines [] (st.contents f).data.toList) (Scan.start Index.empty false r.size)
      Position.start = Scan.whole (st.contents f).data.toList := by
    rw [hsees.size]
    rfl
  rw [hw] at hopen
  rw [hopen]
  rcases Scan.whole (st.contents f).data.toList with ⟨s, q, _ | e⟩ <;> simp

/-- An opened log follows its file, in epoch one. -/
theorem openFile_follows {st : Store} {id : Nat} {path : String} {opts : LogOptions} {f : Nat} {l : EventLog}
    (hf : st.fileOf? path = some f) (ho : (openFile st id path opts false).2 = .ok l) :
    l.Follows f (st.contents f).data.toList ∧ l.epoch = 1 ∧ l.id = id ∧ l.reader.path = path := by
  obtain ⟨r, hr, -, -, hopen⟩ := openFile_snd hf id opts
  obtain ⟨hsees, hpath⟩ := Reader.sees_openFile hf hr
  have hw : Scan.run (completeLines [] (st.contents f).data.toList) (Scan.start Index.empty false r.size)
      Position.start = Scan.whole (st.contents f).data.toList := by
    rw [hsees.size]
    rfl
  rw [hw, ho] at hopen
  rcases hW : Scan.whole (st.contents f).data.toList with ⟨s, q, _ | e⟩ <;> rw [hW] at hopen
  · cases hopen
    exact ⟨⟨hsees, rfl, s, q, hW, Index.models_full hW 1, Index.scanned_commit _ _ _ _⟩, rfl, rfl, hpath⟩
  · cases hopen

/-- Replacing the index scans the whole file into the next epoch, and retires
the events of the current one; a failed scan leaves the log as it was. -/
theorem replace_eq {l : EventLog} {st : Store} {f : Nat} (hh : l.reader.handle = some f)
    (hsize : l.reader.size = (st.contents f).size) :
    ((l.replace st false).1, (l.replace st false).2.2) =
      match Scan.whole (st.contents f).data.toList with
      | (s, q, none) =>
        ({ l with index := Index.empty.commit s (l.epoch + 1) q, cache := [], epoch := l.epoch + 1,
                  retired := l.retired.push l.index.events }, none)
      | (_, _, some e) => (l, some e.canceledRead) := by
  have hsc := scanFrom_snd hh hsize Index.empty (show (0 : Int) ≤ Position.start.offset from le_rfl) false
  have hw : Scan.run (completeLines [] ((st.contents f).data.toList.drop Position.start.offset.toNat))
      (Scan.start Index.empty false l.reader.size) Position.start = Scan.whole (st.contents f).data.toList := by
    rw [hsize, size_of_bytes rfl]
    rfl
  rw [hw] at hsc
  unfold replace rebuild
  rcases hs : l.scanFrom st false Index.empty Position.start false with ⟨p, r⟩
  rw [hs] at hsc
  dsimp only at hsc ⊢
  rw [hsc]
  rcases Scan.whole (st.contents f).data.toList with ⟨s, q, _ | e⟩ <;> rfl

/-! ## Bringing a log up to date after an append -/

/-- Bringing a log synced with `F` up to date after `G` was appended succeeds
exactly when a scan of the whole of `F ++ G` does; then the log is synced with
`F ++ G`, with nothing pending, and is otherwise as it was.  An extension that
fails falls back to a rebuild, which fails on the same file too. -/
theorem synchronize_appended {l : EventLog} {st : Store} {f : Nat} {F G : List UInt8} (hs : l.Synced F)
    (hh : l.reader.handle = some f) (hY : (st.contents f).data.toList = F ++ G)
    (hsize : l.reader.size = (st.contents f).size) :
    ((l.synchronize st false .appended).2.2 = none ↔ ∃ s q, Scan.whole (F ++ G) = (s, q, none)) ∧
      ((l.synchronize st false .appended).2.2 = none →
        (l.synchronize st false .appended).1 =
            { l with index := (l.synchronize st false .appended).1.index, pending := .unchanged } ∧
          (l.synchronize st false .appended).1.Synced (F ++ G)) := by
  obtain ⟨hiff, hok, hfail⟩ := extend_synced hs hh hY hsize
  rcases hx : l.extend st false with ⟨l1, p1, _ | e⟩ <;> rw [hx] at hiff hok hfail
  · -- the extension succeeded
    obtain ⟨h1, h2⟩ := hok rfl
    dsimp only at h1 h2
    unfold synchronize
    rw [hx]
    dsimp only
    refine ⟨iff_of_true rfl (hiff.mp rfl), fun _ => ⟨?_, h2⟩⟩
    rw [h1]
  · -- the extension failed, and so does a scan of the whole grown file
    have hnot : ¬ ∃ s q, Scan.whole (F ++ G) = (s, q, none) := fun h => nomatch hiff.mpr h
    have hl1 : l1 = l := hfail (by simp)
    have hne : (l.synchronize st false .appended).2.2 ≠ none := by
      unfold synchronize
      rw [hx]
      dsimp only
      split
      · have hr := replace_eq hh hsize
        rw [hY] at hr
        rcases hW : Scan.whole (F ++ G) with ⟨s, q, _ | e'⟩
        · exact absurd ⟨s, q, hW⟩ hnot
        · rw [hW] at hr
          have hr2 : (l.replace st false).2.2 = some e'.canceledRead := (Prod.mk.inj hr).2
          rw [hl1, hr2]
          simp
      · simp
    exact ⟨iff_of_false hne hnot, fun h => absurd h hne⟩

/-- A check of a log that follows the file `f`, after bytes `G` were appended
to it: it reports an append, or no change if `G` is empty; it succeeds exactly
when a scan of the whole of `F ++ G` does, and then leaves the log following
`F ++ G`, in its epoch and under its identity and name. -/
theorem Follows.checkForChanges {l : EventLog} {st : Store} {f : Nat} {F G : List UInt8} (hl : l.Follows f F)
    (hpath : st.fileOf? l.reader.path = some f) (hY : (st.contents f).data.toList = F ++ G) :
    (l.checkForChanges st false).2.2.1 = (if G = [] then .unchanged else .appended) ∧
      ((l.checkForChanges st false).2.2.2 = none ↔ ∃ s q, Scan.whole (F ++ G) = (s, q, none)) ∧
      ((l.checkForChanges st false).2.2.2 = none →
        (l.checkForChanges st false).1.Follows f (F ++ G) ∧ (l.checkForChanges st false).1.epoch = l.epoch ∧
          (l.checkForChanges st false).1.id = l.id ∧
          (l.checkForChanges st false).1.reader.path = l.reader.path) := by
  have hc := Reader.check_append hpath hl.sees hY
  have hr := Reader.sees_check hpath
  have hrp := Reader.path_check l.reader st
  rw [hY] at hr
  unfold EventLog.checkForChanges
  rcases hrc : l.reader.check st with ⟨r', res⟩
  rw [hrc] at hc hr hrp
  dsimp only at hc hr hrp ⊢
  subst hc
  have hs : ({ l with reader := r' } : EventLog).Synced F := hl.synced
  by_cases hG : G = []
  · -- nothing was appended: the log keeps its index
    subst hG
    have hch : l.pending.larger .unchanged = .unchanged := by rw [hl.pending]; rfl
    simp only [hch, if_true, List.append_nil]
    rw [List.append_nil] at hr
    exact ⟨trivial, iff_of_true trivial hs.whole_ok, fun _ => ⟨⟨hr, hl.pending, hs⟩, trivial, trivial, hrp⟩⟩
  · -- an append: the log is brought up to date
    have hch : l.pending.larger .appended = .appended := by rw [hl.pending]; rfl
    simp only [hG, if_false, hch, reduceCtorEq]
    obtain ⟨hiff, hok⟩ := synchronize_appended hs hr.handle hY (by rw [hr.size, size_of_bytes hY])
    refine ⟨trivial, hiff, fun h => ?_⟩
    obtain ⟨heq, hsync⟩ := hok h
    rw [heq]
    exact ⟨⟨hr, rfl, heq ▸ hsync⟩, rfl, rfl, hrp⟩

/-! ## Agreement of indexes -/

/-- Two logs synced with the same bytes in the same epoch have indexes that
agree on every query. -/
theorem Synced.agrees {l₁ l₂ : EventLog} {Y : List UInt8} (h₁ : l₁.Synced Y) (h₂ : l₂.Synced Y)
    (he : l₁.epoch = l₂.epoch) : l₁.index.Agrees l₂.index := by
  obtain ⟨s, q, hw, hm, hq⟩ := h₁
  obtain ⟨s', q', hw', hm', hq'⟩ := h₂
  rw [hw] at hw'
  obtain ⟨rfl, hrest⟩ := Prod.mk.inj hw'
  obtain ⟨rfl, -⟩ := Prod.mk.inj hrest
  rw [he] at hm
  exact hm.agrees hm' rfl (hq.trans hq'.symm)

/-- Every event of `l` is still an event of `l'`: its identity in `l` names,
in `l'`, an event at the same position, in the same epoch and with the same
number. -/
def KeepsEvents (l l' : EventLog) : Prop :=
  ∀ e ∈ l.index.events.toList, ∃ e', l'.check (some (l.refOf e)) = .ok e' ∧
    e'.number = e.number ∧ e'.epoch = e.epoch ∧ e'.index = e.index

/-- A log synced with a file grown from `F` keeps, in the same epoch and
under the same identity, every event of a log synced with `F`. -/
theorem Synced.keeps {l l' : EventLog} {F G : List UInt8} (h : l.Synced F) (h' : l'.Synced (F ++ G))
    (hep : l'.epoch = l.epoch) (hid : l'.id = l.id) : KeepsEvents l l' := by
  intro e he
  obtain ⟨sF, qF, hF, hx, -⟩ := h
  obtain ⟨sY, qY, hYw, hy, -⟩ := h'
  obtain ⟨N, hN⟩ := Scan.whole_append_numbers hF hYw
  obtain ⟨i, hi, rfl⟩ := List.getElem_of_mem he
  have hiF : i < sF.events.toList.length := by
    rw [← hx.length_events]
    simpa using hi
  have hiY : i < sY.events.toList.length := by
    have hlen := congrArg List.length hN
    simp only [List.length_map, List.length_append] at hlen
    omega
  have hget : l.index.events.toList[i] = sF.events.toList[i].placed l.epoch i := by
    rw [List.getElem_of_eq hx.events hi, List.getElem_mapIdx]
  have hnum : sY.events.toList[i].number = sF.events.toList[i].number := by
    have hi' : i < (sY.events.toList.map Event.number).length := by simpa using hiY
    have h := List.getElem_of_eq hN hi'
    rw [List.getElem_map, List.getElem_append_left (by simpa using hiF), List.getElem_map] at h
    exact h
  refine ⟨sY.events.toList[i].placed l.epoch i, ?_, by rw [hget]; exact hnum, by rw [hget]; rfl, by rw [hget]; rfl⟩
  rw [hget]
  simp only [EventLog.check, refOf, Event.epoch_placed, Event.index_placed, hid, hep, ne_eq, not_true_eq_false,
    if_false, hy.getElem? i hiY]

/-! ## Following an append -/

/-- The file `log`, empty. -/
def emptyLogStore : Store := ⟨[("log", 0)], #[ByteArray.empty]⟩

/-- The file `log` grown by the event line `E # 0 t 0 m 1`. -/
def grownLogStore : Store := ⟨[("log", 0)], #[⟨#[69, 32, 35, 32, 48, 32, 116, 32, 48, 32, 109, 32, 49, 10]⟩]⟩

/-- The log opened on the empty file `log`. -/
def emptyLog : EventLog :=
  ⟨0, "log", ⟨"log", some 0, 0, 0, slice ByteArray.empty 0 defaultFingerprint, defaultFingerprint⟩, defaultMaxCached,
    false, 1, Index.empty.commit (Scan.start Index.empty false 0) 1 Position.start, #[], [], .unchanged⟩

end EventLog

end EventChart
