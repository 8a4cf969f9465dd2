import EventChart.Proofs.Log.Reported
/-!
# Runs of checks

A log checks its file again and again.  Between two checks the file may grow
by bytes appended to it, or change in a way its reader sees as an overwrite;
a check may be canceled, and it may fail.  This module follows whole runs of
such checks and shows that a check never leaves a log half up to date.

* `EventLog.checkForChanges_error_frame`: a failed check changes the reader
  and the pending change only; the index, with the entries kept by its
  events, the epoch and the retired epochs stay as they were.
* `EventLog.extend_canceled`, `EventLog.replace_canceled`: a canceled scan
  that succeeds read nothing, and did what an uncanceled one does.
* `EventLog.Lags`: how far the index of a log may be behind the bytes its
  reader has seen, with a given change still to apply.  `EventLog.Tracks` is
  the invariant of a run: the index lags by at most the pending change.
* `EventLog.Evolves`, `EventLog.Run`: how a file may change between two
  checks, and the logs a run of checks reaches from an opening.
  `EventLog.Tracks.checkForChanges` is the step, `EventLog.Run.tracks` the run.
* `EventLog.checkForChanges_atomic_run`: in every run, a check either fails
  and changes nothing but its reader and the pending change, or succeeds
  with the index an opening of the file builds, stamped with the log's
  epoch, and moves to the next epoch exactly when it rebuilt the index.
-/

namespace EventChart

/-! ## Indexes in another epoch -/

namespace Index

/-- The index with its events stamped with the epoch `epoch`. -/
def inEpoch (x : Index) (epoch : Nat) : Index :=
  { x with events := x.events.map fun e => { e with epoch := epoch } }

/-- Stamping the events of an index with another epoch models the same
reading in that epoch. -/
theorem Models.inEpoch {x : Index} {epoch : Nat} {E : List Event} {M : List ModuleCreated} {S : Option Entry}
    {P : List LineError} (hx : x.Models epoch E M S P) (epoch' : Nat) :
    (x.inEpoch epoch').Models epoch' E M S P where
  events := by
    rw [Index.inEpoch, Array.toList_map, hx.events]
    apply List.ext_getElem
    · simp
    · intro i h₁ h₂
      simp [Event.placed]
  linked n := by
    -- the edges of an event do not depend on its epoch
    have hcauses : (x.events.toList.map fun e => { e with epoch := epoch' }).flatMap Event.causes =
        x.events.toList.flatMap Event.causes := by
      rw [List.flatMap_map]
      rfl
    rw [Index.inEpoch, Array.toList_map, hcauses, ← hx.linked n]
    rfl
  modules := hx.modules
  simBegin := hx.simBegin
  parseErrors := hx.parseErrors
  numParseErrors := hx.numParseErrors

end Index

namespace Reader

/-- A canceled read fails before its first line, or has no line to read and
ends as an uncanceled one does. -/
theorem readLines_canceled {σ : Type} (r : Reader) (s : Store) (start : Position) (upto : Int) (init : σ)
    (visit : σ → Line → Visit σ) :
    r.readLines s true start upto init visit = (init, start, some .interrupted) ∨
      r.readLines s true start upto init visit = r.readLines s false start upto init visit := by
  unfold readLines
  split
  · right
    rfl
  · dsimp only
    by_cases hstop : start.offset ≥ (if upto < 0 ∨ upto > r.size then (r.size : Int) else upto)
    · right
      simp [hstop]
    · left
      simp [hstop]

end Reader

namespace EventLog

variable {l : EventLog}

/-- A log synced with the bytes `Y` has the index of any other log synced with
them, stamped with its own epoch. -/
theorem Synced.agrees_inEpoch {l' : EventLog} {Y : List UInt8} (h : l.Synced Y) (h' : l'.Synced Y) :
    l.index.Agrees (l'.index.inEpoch l.epoch) := by
  obtain ⟨s, q, hw, hm, hq⟩ := h
  obtain ⟨s', q', hw', hm', hq'⟩ := h'
  rw [hw] at hw'
  obtain ⟨rfl, hrest⟩ := Prod.mk.inj hw'
  obtain ⟨rfl, -⟩ := Prod.mk.inj hrest
  exact hm.agrees (hm'.inEpoch l.epoch) rfl (hq.trans hq'.symm)

/-! ## Failed checks -/

/-- A failed bringing up to date leaves the log as it was, but for the
pending change. -/
theorem synchronize_error {st : Store} {canceled : Bool} {change : Change}
    (h : (l.synchronize st canceled change).2.2 ≠ none) :
    (l.synchronize st canceled change).1 = { l with pending := (l.synchronize st canceled change).1.pending } := by
  unfold EventLog.synchronize at h ⊢
  rcases change with _ | _ | _ | code
  · exact absurd rfl h
  · -- an append: the extension failed, and so did the rebuild it fell back to
    dsimp only at h ⊢
    rcases hext : l.extend st canceled with ⟨l1, p1, _ | e⟩ <;> rw [hext] at h
    · exact absurd rfl h
    · have hl1 : l1 = l := by
        have h1 := @extend_error l st canceled
        rw [hext] at h1
        exact h1 (by simp)
      subst hl1
      dsimp only at h ⊢
      split
      · rcases hrep : l1.replace st canceled with ⟨l2, p2, _ | e2⟩ <;> rw [hrep] at h
        · rw [if_pos (by assumption)] at h
          exact absurd rfl h
        · have hl2 : l2 = l1 := by
            have h2 := @replace_error l1 st canceled
            rw [hrep] at h2
            exact h2 (by simp)
          subst hl2
          rfl
      · rfl
  · -- an overwrite: the rebuild failed
    dsimp only at h ⊢
    rcases hrep : l.replace st canceled with ⟨l1, p1, _ | e⟩ <;> rw [hrep] at h
    · exact absurd rfl h
    · have hl1 : l1 = l := by
        have h1 := @replace_error l st canceled
        rw [hrep] at h1
        exact h1 (by simp)
      subst hl1
      rfl
  · rfl

/-- A failed check changes nothing but its reader, which has looked at the
file, and the pending change: the index, with the entries kept by its events,
the epoch and the retired epochs stay as they were. -/
theorem checkForChanges_error_frame {st : Store} {canceled : Bool}
    (h : (l.checkForChanges st canceled).2.2.2 ≠ none) :
    (l.checkForChanges st canceled).1 =
      { l with reader := (l.reader.check st).1, pending := (l.checkForChanges st canceled).1.pending } := by
  unfold EventLog.checkForChanges at h ⊢
  rcases hc : l.reader.check st with ⟨r, _ | c⟩
  · rfl
  · rw [hc] at h
    dsimp only at h ⊢
    split at h
    · exact absurd rfl h
    · rename_i hu
      rw [if_neg hu]
      exact synchronize_error h

/-- A check of a name that is missing fails and leaves the log as it was. -/
theorem checkForChanges_missing {st : Store} (canceled : Bool) (hnone : st.fileOf? l.reader.path = none) :
    (l.checkForChanges st canceled).1 = l ∧ (l.checkForChanges st canceled).2.2.2 ≠ none := by
  unfold EventLog.checkForChanges Reader.check
  rw [hnone]
  exact ⟨rfl, by simp⟩

/-! ## Canceled scans -/

/-- A canceled scan fails as canceled, or is the uncanceled one. -/
theorem scanFrom_canceled (l : EventLog) (st : Store) (base : Index) (pos : Position) (replacesLast : Bool) :
    (l.scanFrom st true base pos replacesLast).2 = .error .canceled ∨
      l.scanFrom st true base pos replacesLast = l.scanFrom st false base pos replacesLast := by
  unfold scanFrom
  rcases Reader.readLines_canceled l.reader st pos (-1) (Scan.start base replacesLast l.reader.size) Scan.visit with h | h
  · left
    rw [h]
    rfl
  · right
    rw [h]

/-- A canceled extension that succeeds is the uncanceled one. -/
theorem extend_canceled {st : Store} {canceled : Bool} (h : (l.extend st canceled).2.2 = none) :
    l.extend st canceled = l.extend st false := by
  cases canceled with
  | false => rfl
  | true =>
    unfold EventLog.extend at h ⊢
    rcases hlast : l.index.last? with _ | e <;> simp only [hlast, Option.isSome_none, Option.isSome_some] at h ⊢
    · rcases scanFrom_canceled l st l.index l.index.scanned false with hc | heq
      · rcases hsc : l.scanFrom st true l.index l.index.scanned false with ⟨p, r⟩
        rw [hsc] at h hc
        dsimp only at hc
        subst hc
        cases h
      · rw [heq]
    · rcases scanFrom_canceled l st l.index e.pos true with hc | heq
      · rcases hsc : l.scanFrom st true l.index e.pos true with ⟨p, r⟩
        rw [hsc] at h hc
        dsimp only at hc
        subst hc
        cases h
      · rw [heq]

/-- A canceled rebuild that succeeds is the uncanceled one. -/
theorem replace_canceled {st : Store} {canceled : Bool} (h : (l.replace st canceled).2.2 = none) :
    l.replace st canceled = l.replace st false := by
  cases canceled with
  | false => rfl
  | true =>
    unfold EventLog.replace rebuild at h ⊢
    rcases scanFrom_canceled l st Index.empty Position.start false with hc | heq
    · rcases hsc : l.scanFrom st true Index.empty Position.start false with ⟨p, r⟩
      rw [hsc] at h hc
      dsimp only at hc
      subst hc
      cases h
    · rw [heq]

/-- A rebuild that succeeds, canceled or not, syncs the log with its file. -/
theorem replace_synced {st : Store} {canceled : Bool} {f : Nat} (hh : l.reader.handle = some f)
    (hsize : l.reader.size = (st.contents f).size) (h : (l.replace st canceled).2.2 = none) :
    (l.replace st canceled).1.Synced (st.contents f).data.toList := by
  have hcancel := replace_canceled h
  rw [hcancel] at h ⊢
  have hr := replace_eq hh hsize
  rcases hW : Scan.whole (st.contents f).data.toList with ⟨s, q, _ | e⟩ <;> rw [hW] at hr
  · rw [(Prod.mk.inj hr).1]
    exact ⟨s, q, hW, Index.models_full hW (l.epoch + 1), Index.scanned_commit _ _ _ _⟩
  · rw [(Prod.mk.inj hr).2] at h
    cases h

/-- An extension that succeeds, canceled or not, of a log synced with `F`
after `G` was appended syncs it with `F ++ G`. -/
theorem extend_synced_of_ok {st : Store} {canceled : Bool} {f : Nat} {F G : List UInt8} (hs : l.Synced F)
    (hh : l.reader.handle = some f) (hY : (st.contents f).data.toList = F ++ G)
    (hsize : l.reader.size = (st.contents f).size) (h : (l.extend st canceled).2.2 = none) :
    (l.extend st canceled).1.Synced (F ++ G) := by
  have hcancel := extend_canceled h
  rw [hcancel] at h ⊢
  exact ((extend_synced hs hh hY hsize).2.1 h).2

/-! ## What bringing up to date keeps -/

theorem reader_extend (st : Store) (canceled : Bool) : (l.extend st canceled).1.reader = l.reader := by
  by_cases h : (l.extend st canceled).2.2 = none
  · obtain ⟨s, next, heq, -⟩ := extend_ok h
    rw [heq]
  · rw [extend_error h]

theorem reader_replace (st : Store) (canceled : Bool) : (l.replace st canceled).1.reader = l.reader := by
  by_cases h : (l.replace st canceled).2.2 = none
  · obtain ⟨s, next, raw, heq, -⟩ := replace_ok h
    rw [heq]
  · rw [replace_error h]

/-- What every extension and every rebuild keeps, and does not depend on the
pending change, bringing a log up to date keeps, whatever the change. -/
theorem synchronize_preserves (P : EventLog → Prop) {st : Store} {canceled : Bool}
    (hp : ∀ l change, P l → P { l with pending := change }) (hx : ∀ l, P l → P (l.extend st canceled).1)
    (hr : ∀ l, P l → P (l.replace st canceled).1) (hl : P l) (change : Change) :
    P (l.synchronize st canceled change).1 := by
  unfold EventLog.synchronize
  rcases change with _ | _ | _ | code
  · exact hl
  · -- an append: the extension, then a rebuild if it asks for one
    have h1 := hx l hl
    rcases hext : l.extend st canceled with ⟨l1, p1, _ | e⟩ <;> rw [hext] at h1
    · exact hp l1 _ h1
    · dsimp only
      split
      · have h2 := hr l1 h1
        rcases hrep : l1.replace st canceled with ⟨l2, p2, _ | e2⟩ <;> rw [hrep] at h2 <;> exact hp l2 _ h2
      · exact hp l1 _ h1
  · -- an overwrite: a rebuild
    have h1 := hr l hl
    rcases hrep : l.replace st canceled with ⟨l1, p1, _ | e⟩ <;> rw [hrep] at h1 <;> exact hp l1 _ h1
  · exact hl

theorem reader_synchronize (st : Store) (canceled : Bool) (change : Change) :
    (l.synchronize st canceled change).1.reader = l.reader :=
  synchronize_preserves (fun l' => l'.reader = l.reader) (fun _ _ h => h)
    (fun _ h => (reader_extend st canceled).trans h) (fun _ h => (reader_replace st canceled).trans h) rfl change

/-! ## How far an index lags behind its file -/

/-- How far the index of a log may be behind the bytes `F` its reader has
seen, with `change` still to apply: not at all when no change is; synced
with bytes that `F` extends when an append is; anywhere when an overwrite
is.  No other change can be applied. -/
def Lags (l : EventLog) (change : Change) (F : List UInt8) : Prop :=
  match change with
  | .unchanged => l.Synced F
  | .appended => ∃ F₀ G, F = F₀ ++ G ∧ l.Synced F₀
  | .overwritten => True
  | .other _ => False

/-- After an append, the index lags by at most the larger of the change it
lagged by and the append. -/
theorem Lags.append {change : Change} {F : List UInt8} (h : l.Lags change F) (G : List UInt8) :
    l.Lags (change.larger (if G = [] then .unchanged else .appended)) (F ++ G) := by
  rcases change with _ | _ | _ | code
  · -- it was synced with `F`
    by_cases hG : G = []
    · subst hG
      rw [List.append_nil]
      exact h
    · rw [if_neg hG]
      exact ⟨F, G, rfl, h⟩
  · -- it was synced with bytes `F` extends
    obtain ⟨F₀, G₀, hF, hs⟩ := h
    have hch : Change.appended.larger (if G = [] then .unchanged else .appended) = .appended := by
      split <;> rfl
    rw [hch]
    exact ⟨F₀, G₀ ++ G, by rw [hF, List.append_assoc], hs⟩
  · have hch : Change.overwritten.larger (if G = [] then .unchanged else .appended) = .overwritten := by
      split <;> rfl
    rw [hch]
    trivial
  · exact h.elim

/-- After an overwrite, the index lags behind anything. -/
theorem Lags.overwritten {change : Change} {F : List UInt8} (h : l.Lags change F) (F' : List UInt8) :
    l.Lags (change.larger .overwritten) F' := by
  rcases change with _ | _ | _ | code
  · trivial
  · trivial
  · trivial
  · exact h.elim

/-- A change that some lag allows and that is not larger than another change
than no change is no change. -/
theorem Lags.eq_unchanged {a b : Change} {F : List UInt8} (h : l.Lags a F) (hu : a.larger b = .unchanged) :
    a = .unchanged := by
  unfold Change.larger at hu
  split at hu
  · exact hu
  · rename_i hle
    subst hu
    rcases a with _ | _ | _ | code
    · rfl
    · exact absurd (by decide) hle
    · exact absurd (by decide) hle
    · exact h.elim

/-- Bringing up to date a log whose reader has seen the bytes of its file,
with a change to apply that its index lags by at most: the index then lags
by at most the change left pending, and by none when it succeeds. -/
theorem Lags.synchronize {st : Store} {canceled : Bool} {f : Nat} {change : Change}
    (hr : l.reader.Sees f (st.contents f).data.toList) (hlag : l.Lags change (st.contents f).data.toList)
    (hu : change ≠ .unchanged) :
    (l.synchronize st canceled change).1.Lags (l.synchronize st canceled change).1.pending
        (st.contents f).data.toList ∧
      ((l.synchronize st canceled change).2.2 = none → (l.synchronize st canceled change).1.pending = .unchanged) := by
  have hsize : l.reader.size = (st.contents f).size := by rw [hr.size, size_of_bytes rfl]
  unfold EventLog.synchronize
  rcases change with _ | _ | _ | code
  · exact absurd rfl hu
  · -- an append: extend from the synced bytes, or rebuild
    obtain ⟨F₀, G, hF, hs⟩ := hlag
    dsimp only
    rcases hext : l.extend st canceled with ⟨l1, p1, _ | e⟩
    · have hsync := extend_synced_of_ok hs hr.handle hF hsize (by rw [hext])
      rw [hext, ← hF] at hsync
      exact ⟨hsync, fun _ => rfl⟩
    · have hl1 : l1 = l := by
        have h1 := @extend_error l st canceled
        rw [hext] at h1
        exact h1 (by simp)
      subst hl1
      dsimp only
      split
      · rcases hrep : l1.replace st canceled with ⟨l2, p2, _ | e2⟩
        · have hsync := replace_synced hr.handle hsize (by rw [hrep])
          rw [hrep] at hsync
          exact ⟨hsync, fun _ => rfl⟩
        · exact ⟨trivial, fun h => nomatch h⟩
      · exact ⟨⟨F₀, G, hF, hs⟩, fun h => nomatch h⟩
  · -- an overwrite: rebuild
    dsimp only
    rcases hrep : l.replace st canceled with ⟨l1, p1, _ | e⟩
    · have hsync := replace_synced hr.handle hsize (by rw [hrep])
      rw [hrep] at hsync
      exact ⟨hsync, fun _ => rfl⟩
    · exact ⟨trivial, fun h => nomatch h⟩
  · exact hlag.elim

/-! ## Runs -/

/-- A log that tracks the file `f` under the name `path`, whose bytes its
reader last saw as `F`: the reader holds the name and has seen `F`, and the
index lags behind `F` by at most the pending change. -/
structure Tracks (l : EventLog) (path : String) (f : Nat) (F : List UInt8) : Prop where
  path : l.reader.path = path
  sees : l.reader.Sees f F
  lags : l.Lags l.pending F

/-- A check after the file under the reader's name was found changed by `c`,
with the index lagging behind the file's bytes by at most the larger of the
pending change and `c`: the log tracks that file, and a success leaves the
index synced with it. -/
theorem Tracks.checked {path : String} {f f' : Nat} {F : List UInt8} {st : Store} {c : Change}
    (hl : l.Tracks path f F) (hpath : st.fileOf? l.reader.path = some f') (hc : (l.reader.check st).2 = .ok c)
    (hlag : l.Lags (l.pending.larger c) (st.contents f').data.toList) (canceled : Bool) :
    (l.checkForChanges st canceled).1.Tracks path f' (st.contents f').data.toList ∧
      ((l.checkForChanges st canceled).2.2.2 = none →
        (l.checkForChanges st canceled).1.Synced (st.contents f').data.toList) := by
  have hsees := Reader.sees_check hpath
  have hrp := Reader.path_check l.reader st
  unfold EventLog.checkForChanges
  rcases hrc : l.reader.check st with ⟨r, res⟩
  rw [hrc] at hc hsees hrp
  dsimp only at hc hsees hrp ⊢
  subst hc
  dsimp only
  split
  · -- no change to apply: the index was synced already
    rename_i hu
    have hp : l.pending = .unchanged := hl.lags.eq_unchanged hu
    rw [hu] at hlag
    have hlag' : ({ l with reader := r } : EventLog).Lags l.pending (st.contents f').data.toList := by
      rw [hp]
      exact hlag
    exact ⟨⟨hrp.trans hl.path, hsees, hlag'⟩, fun _ => hlag⟩
  · -- a change to apply: the reader stays, and the index catches up or lags as pending says
    rename_i hu
    obtain ⟨hlags, hok⟩ := @Lags.synchronize { l with reader := r } st canceled f' _ hsees hlag hu
    have hreader := reader_synchronize (l := { l with reader := r }) st canceled (l.pending.larger c)
    refine ⟨⟨by rw [hreader]; exact hrp.trans hl.path, by rw [hreader]; exact hsees, hlags⟩, fun h => ?_⟩
    have hlags' := hlags
    rw [hok h] at hlags'
    exact hlags'

/-- How the file under a reader's name may have changed since the reader saw
it as the bytes `F` of the file `f`, leaving the file `f'` with the bytes
`F'`: the name is missing, and the reader keeps what it saw; or bytes were
appended to the same file; or the reader finds it overwritten. -/
inductive Evolves (r : Reader) (f : Nat) (F : List UInt8) (st : Store) : Nat → List UInt8 → Prop
  | missing : st.fileOf? r.path = none → Evolves r f F st f F
  | appended (G : List UInt8) : st.fileOf? r.path = some f → (st.contents f).data.toList = F ++ G →
      Evolves r f F st f (F ++ G)
  | overwritten {f' : Nat} : st.fileOf? r.path = some f' → (r.check st).2 = .ok .overwritten →
      Evolves r f F st f' (st.contents f').data.toList

/-- A check keeps a log tracking its file, whichever way the file evolved,
canceled or not, whether it succeeds or fails.  A success finds the file
under the log's name and leaves the index synced with its bytes. -/
theorem Tracks.checkForChanges {path : String} {f f' : Nat} {F F' : List UInt8} {st : Store}
    (hl : l.Tracks path f F) (hev : Evolves l.reader f F st f' F') (canceled : Bool) :
    (l.checkForChanges st canceled).1.Tracks path f' F' ∧
      ((l.checkForChanges st canceled).2.2.2 = none →
        st.fileOf? path = some f' ∧ (st.contents f').data.toList = F' ∧ (l.checkForChanges st canceled).1.Synced F') := by
  cases hev with
  | missing hnone =>
    obtain ⟨heq, herr⟩ := checkForChanges_missing canceled hnone
    rw [heq]
    exact ⟨hl, fun h => absurd h herr⟩
  | appended G hpath hY =>
    have hlag : l.Lags (l.pending.larger (if G = [] then .unchanged else .appended)) (st.contents f).data.toList := by
      rw [hY]
      exact hl.lags.append G
    obtain ⟨ht, hok⟩ := hl.checked hpath (Reader.check_append hpath hl.sees hY) hlag canceled
    rw [← hY]
    exact ⟨ht, fun h => ⟨hl.path ▸ hpath, rfl, hok h⟩⟩
  | overwritten hpath hc =>
    obtain ⟨ht, hok⟩ := hl.checked hpath hc (hl.lags.overwritten _) canceled
    exact ⟨ht, fun h => ⟨hl.path ▸ hpath, rfl, hok h⟩⟩

/-- The logs that a run reaches from opening the name `path`, with the file
`f` and bytes `F` its reader saw last: opened, canceled or not; then checked
any number of times, canceled or not, successfully or not, each time after
the file evolved as `Evolves` allows. -/
inductive Run (id : Nat) (path : String) (opts : LogOptions) : EventLog → Nat → List UInt8 → Prop
  | opened {st : Store} {f : Nat} {l : EventLog} : st.fileOf? path = some f →
      (openFile st id path opts false).2 = .ok l → Run id path opts l f (st.contents f).data.toList
  | checked {l : EventLog} {f f' : Nat} {F F' : List UInt8} {st : Store} (canceled : Bool) :
      Run id path opts l f F → Evolves l.reader f F st f' F' →
      Run id path opts (l.checkForChanges st canceled).1 f' F'

/-- Every log of a run tracks its file. -/
theorem Run.tracks {id : Nat} {path : String} {opts : LogOptions} {f : Nat} {F : List UInt8}
    (h : Run id path opts l f F) : l.Tracks path f F := by
  induction h with
  | opened hf ho =>
    obtain ⟨hfol, -, -, hpath⟩ := openFile_follows hf ho
    refine ⟨hpath, hfol.sees, ?_⟩
    rw [hfol.pending]
    exact hfol.synced
  | checked canceled _ hev ih => exact (ih.checkForChanges hev canceled).1

/-- In every run of a log, each check, canceled or not, either fails and
changes nothing but its reader and the pending change, or succeeds, and then
opening the file builds an index with which the log's agrees once stamped
with the log's epoch; the epoch then moves to the next exactly when the
check rebuilt the index, on an overwrite or on an append that fell back to a
rebuild, and stays otherwise. -/
theorem checkForChanges_atomic_run {id : Nat} {path : String} {opts : LogOptions} {f f' : Nat} {F F' : List UInt8}
    {st : Store} (hrun : Run id path opts l f F) (hev : Evolves l.reader f F st f' F') (canceled : Bool) :
    ((l.checkForChanges st canceled).2.2.2 ≠ none →
        (l.checkForChanges st canceled).1 =
          { l with reader := (l.reader.check st).1, pending := (l.checkForChanges st canceled).1.pending }) ∧
      ((l.checkForChanges st canceled).2.2.2 = none →
        ∃ o, (openFile st id path opts false).2 = .ok o ∧
          (l.checkForChanges st canceled).1.index.Agrees (o.index.inEpoch (l.checkForChanges st canceled).1.epoch)) ∧
      ((l.checkForChanges st canceled).2.2.2 = none →
        ((l.checkForChanges st canceled).1.epoch = l.epoch + 1 ↔
            (l.checkForChanges st canceled).2.2.1 = .overwritten ∨
              (l.checkForChanges st canceled).2.2.1 = .appended ∧ l.Rebuilds st canceled) ∧
          ((l.checkForChanges st canceled).1.epoch = l.epoch + 1 ∨
            (l.checkForChanges st canceled).1.epoch = l.epoch)) := by
  obtain ⟨-, hok⟩ := hrun.tracks.checkForChanges hev canceled
  refine ⟨checkForChanges_error_frame, fun h => ?_, epoch_checkForChanges⟩
  obtain ⟨hf', hF', hsync⟩ := hok h
  have hwhole := hsync.whole_ok
  rw [← hF'] at hwhole
  obtain ⟨o, ho⟩ := (openFile_ok_iff hf' id opts).mpr hwhole
  obtain ⟨hol, -, -, -⟩ := openFile_follows hf' ho
  rw [hF'] at hol
  exact ⟨o, ho, hsync.agrees_inEpoch hol.synced⟩

/-- The log opened on the empty file `log`, after a check of the grown file
that was canceled once its reader had taken the new size. -/
def interruptedLog : EventLog := (emptyLog.checkForChanges grownLogStore true).1

theorem checkForChanges_atomic_run_interrupted :
    (emptyLog.checkForChanges grownLogStore true).2.2.2.isSome = true ∧
      (interruptedLog.checkForChanges grownLogStore false).2.2.2.isNone = true ∧
      Run 0 "log" ⟨0, 0, false⟩ interruptedLog 0 (grownLogStore.contents 0).data.toList ∧
      Evolves interruptedLog.reader 0 (grownLogStore.contents 0).data.toList grownLogStore 0
        ((grownLogStore.contents 0).data.toList ++ []) ∧
      ((interruptedLog.checkForChanges grownLogStore false).2.2.2 ≠ none →
          (interruptedLog.checkForChanges grownLogStore false).1 =
            { interruptedLog with reader := (interruptedLog.reader.check grownLogStore).1,
                                  pending := (interruptedLog.checkForChanges grownLogStore false).1.pending }) ∧
        ((interruptedLog.checkForChanges grownLogStore false).2.2.2 = none →
          ∃ o, (openFile grownLogStore 0 "log" ⟨0, 0, false⟩ false).2 = .ok o ∧
            (interruptedLog.checkForChanges grownLogStore false).1.index.Agrees
              (o.index.inEpoch (interruptedLog.checkForChanges grownLogStore false).1.epoch)) ∧
        ((interruptedLog.checkForChanges grownLogStore false).2.2.2 = none →
          ((interruptedLog.checkForChanges grownLogStore false).1.epoch = interruptedLog.epoch + 1 ↔
              (interruptedLog.checkForChanges grownLogStore false).2.2.1 = .overwritten ∨
                (interruptedLog.checkForChanges grownLogStore false).2.2.1 = .appended ∧
                  interruptedLog.Rebuilds grownLogStore false) ∧
            ((interruptedLog.checkForChanges grownLogStore false).1.epoch = interruptedLog.epoch + 1 ∨
              (interruptedLog.checkForChanges grownLogStore false).1.epoch = interruptedLog.epoch)) :=
  have hrun : Run 0 "log" ⟨0, 0, false⟩ interruptedLog 0 (grownLogStore.contents 0).data.toList :=
    Run.checked true (@Run.opened 0 "log" ⟨0, 0, false⟩ emptyLogStore 0 emptyLog rfl rfl)
      (Evolves.appended (grownLogStore.contents 0).data.toList rfl rfl)
  have hev : Evolves interruptedLog.reader 0 (grownLogStore.contents 0).data.toList grownLogStore 0
      ((grownLogStore.contents 0).data.toList ++ []) :=
    Evolves.appended [] (by decide +kernel) rfl
  ⟨by decide +kernel, by decide +kernel, hrun, hev, checkForChanges_atomic_run hrun hev false⟩

end EventLog

end EventChart
