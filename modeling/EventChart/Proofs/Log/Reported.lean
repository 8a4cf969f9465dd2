import EventChart.Proofs.Log.Invariant
import EventChart.Live.Owner
/-!
# What a check reports

A check answers with the change it acted on.  It takes the larger of the
change its reader finds and the one still pending, and brings the index up to
date after it: an append is an extension of the index in place, an overwrite
a rebuild in the next epoch, after which every event obtained before is
stale.  An append that the extension cannot apply, because the last event's
line was rewritten or the index would be out of order, falls back to a
rebuild; the check then still reports the append.

* `EventLog.checkForChanges_cases`: the four ways a check succeeds.
* `EventLog.keepsEvents_of_numbers` and `EventLog.stalesEvents_of_epoch`: when
  the events obtained before stay valid, and when they are stale.
* `EventLog.checkForChanges_reports_exactly`: a successful check starts a new
  epoch exactly when it reports an overwrite, or an append that fell back to
  a rebuild (`EventLog.Rebuilds`); otherwise it keeps every event obtained
  before, and one that reports no change leaves the index as it was.
* `EventLog.checkForChanges_appended_after_rebuild`: a file rewritten under
  the same first byte and grown is reported as appended, and its owner tells
  its subscribers so, while the events obtained before are stale.
-/

namespace EventChart

namespace EventLog

variable {l : EventLog}

/-! ## Events obtained before a change -/

/-- Every event of `l` is stale in `l'`: its identity names an epoch that
`l'` has left. -/
def StalesEvents (l l' : EventLog) : Prop :=
  ∀ e ∈ l.index.events.toList, l'.check (some (l.refOf e)) = .error .staleEvent

/-- A log in the same epoch and under the same identity whose events keep the
numbers of those of `l`, in order, keeps every event of `l`. -/
theorem keepsEvents_of_numbers {l' : EventLog} (hl : l.Inv) (hl' : l'.Inv) (hid : l'.id = l.id)
    (hep : l'.epoch = l.epoch)
    (hpre : ∃ N, l'.index.events.toList.map Event.number = l.index.events.toList.map Event.number ++ N) :
    KeepsEvents l l' := by
  intro e he
  obtain ⟨N, hN⟩ := hpre
  obtain ⟨i, hi, rfl⟩ := List.getElem_of_mem he
  have hi₀ : i < l.index.events.size := by simpa using hi
  have hi' : i < l'.index.events.size := by
    have hlen := congrArg List.length hN
    simp only [List.length_map, List.length_append, Array.length_toList] at hlen
    omega
  have hnum : l'.index.events[i].number = l.index.events[i].number := by
    have hi₁ : i < (l'.index.events.toList.map Event.number).length := by simpa using hi'
    have h := List.getElem_of_eq hN hi₁
    rw [List.getElem_map, List.getElem_append_left (by simpa using hi₀), List.getElem_map] at h
    simpa using h
  obtain ⟨hidx, hepo⟩ := Index.Placed.getElem hl i hi₀
  obtain ⟨hidx', hepo'⟩ := Index.Placed.getElem hl' i hi'
  simp only [Array.getElem_toList]
  refine ⟨l'.index.events[i], ?_, hnum, by rw [hepo', hepo, hep], by rw [hidx', hidx]⟩
  simp only [EventLog.check, refOf, hidx, hepo, hid, hep, ne_eq, not_true_eq_false, if_false,
    Array.getElem?_eq_getElem hi']

/-- A log under the same identity in another epoch has made every event of
`l` stale. -/
theorem stalesEvents_of_epoch {l' : EventLog} (hl : l.Inv) (hid : l'.id = l.id) (hep : l'.epoch ≠ l.epoch) :
    StalesEvents l l' := by
  intro e he
  obtain ⟨i, hi, rfl⟩ := List.getElem_of_mem he
  have hi₀ : i < l.index.events.size := by simpa using hi
  obtain ⟨-, hepo⟩ := Index.Placed.getElem hl i hi₀
  simp only [Array.getElem_toList, EventLog.check, refOf, hepo, hid, ne_eq, not_true_eq_false, if_false]
  rw [if_pos (Ne.symm hep)]

/-! ## The ways a check succeeds -/

/-- The log as a check leaves it before it brings the index up to date: its
reader has looked at the file in `st`. -/
def rechecked (l : EventLog) (st : Store) : EventLog := { l with reader := (l.reader.check st).1 }

theorem Inv.rechecked (hl : l.Inv) (st : Store) : (l.rechecked st).Inv := hl

/-- A check that finds an append falls back to a rebuild: the extension of
the index over the file, as the check sees it, fails with an overwrite or a
corrupt index. -/
def Rebuilds (l : EventLog) (st : Store) (canceled : Bool) : Prop :=
  ∃ e, ((l.rechecked st).extend st canceled).2.2 = some e ∧
    (e.change? == some .overwritten || e.hasKind .corruptIndex) = true

/-- A successful check acted on no change and left the log as its reader's
check did; or on an overwrite, with a rebuild; or on an append, with an
extension; or on an append, with a rebuild after the extension failed. -/
theorem checkForChanges_cases {st : Store} {canceled : Bool} (hok : (l.checkForChanges st canceled).2.2.2 = none) :
    ((l.checkForChanges st canceled).2.2.1 = .unchanged ∧ (l.checkForChanges st canceled).1 = l.rechecked st) ∨
      ((l.checkForChanges st canceled).2.2.1 = .overwritten ∧ ((l.rechecked st).replace st canceled).2.2 = none ∧
        (l.checkForChanges st canceled).1 = { ((l.rechecked st).replace st canceled).1 with pending := .unchanged }) ∨
      ((l.checkForChanges st canceled).2.2.1 = .appended ∧ ((l.rechecked st).extend st canceled).2.2 = none ∧
        (l.checkForChanges st canceled).1 = { ((l.rechecked st).extend st canceled).1 with pending := .unchanged }) ∨
      ((l.checkForChanges st canceled).2.2.1 = .appended ∧ l.Rebuilds st canceled ∧
        ((l.rechecked st).replace st canceled).2.2 = none ∧
        (l.checkForChanges st canceled).1 = { ((l.rechecked st).replace st canceled).1 with pending := .unchanged }) := by
  unfold Rebuilds rechecked
  unfold checkForChanges at hok ⊢
  rcases hc : l.reader.check st with ⟨r, _ | c⟩
  · rw [hc] at hok
    cases hok
  · rw [hc] at hok
    dsimp only at hok ⊢
    by_cases hu : l.pending.larger c = .unchanged
    · -- no change: the log keeps its index
      left
      rw [if_pos hu]
      exact ⟨hu, rfl⟩
    · rw [if_neg hu] at hok ⊢
      dsimp only at hok ⊢
      rcases hch : l.pending.larger c with _ | _ | _ | code
      · exact absurd hch hu
      · -- an append: extended, or rebuilt after the extension failed
        rw [hch] at hok
        unfold synchronize at hok ⊢
        dsimp only at hok ⊢
        rcases hx : ({ l with reader := r } : EventLog).extend st canceled with ⟨l1, p1, _ | e⟩
        · right; right; left
          exact ⟨rfl, rfl, rfl⟩
        · rw [hx] at hok
          dsimp only at hok ⊢
          have hl1 : l1 = { l with reader := r } := by
            have h := @extend_error ({ l with reader := r } : EventLog) st canceled
            rw [hx] at h
            exact h (by simp)
          subst hl1
          split at hok
          · rename_i hfall
            rcases hr : ({ l with reader := r } : EventLog).replace st canceled with ⟨l2, p2, _ | e2⟩
            · right; right; right
              exact ⟨rfl, ⟨e, rfl, hfall⟩, rfl, by rw [if_pos hfall]⟩
            · rw [hr] at hok
              cases hok
          · cases hok
      · -- an overwrite: rebuilt
        rw [hch] at hok
        unfold synchronize at hok ⊢
        dsimp only at hok ⊢
        rcases hr : ({ l with reader := r } : EventLog).replace st canceled with ⟨l2, p2, _ | e2⟩
        · right; left
          exact ⟨rfl, rfl, rfl⟩
        · rw [hr] at hok
          cases hok
      · rw [hch] at hok
        cases hok

/-- A successful check moves the log to the next epoch exactly when it rebuilt
the index: on an overwrite, or on an append that fell back to a rebuild.
Otherwise the log stays in its epoch. -/
theorem epoch_checkForChanges {st : Store} {canceled : Bool} (hok : (l.checkForChanges st canceled).2.2.2 = none) :
    ((l.checkForChanges st canceled).1.epoch = l.epoch + 1 ↔
        (l.checkForChanges st canceled).2.2.1 = .overwritten ∨
          (l.checkForChanges st canceled).2.2.1 = .appended ∧ l.Rebuilds st canceled) ∧
      ((l.checkForChanges st canceled).1.epoch = l.epoch + 1 ∨ (l.checkForChanges st canceled).1.epoch = l.epoch) := by
  rcases checkForChanges_cases hok with ⟨hc, heq⟩ | ⟨hc, hr, heq⟩ | ⟨hc, hx, heq⟩ | ⟨hc, hreb, hr, heq⟩
  · -- no change: the epoch stays
    have hep : (l.checkForChanges st canceled).1.epoch = l.epoch := by rw [heq]; rfl
    rw [hep, hc]
    simp
  · -- an overwrite: the rebuild starts the next epoch
    obtain ⟨s, next, raw, hrep, -⟩ := replace_ok hr
    have hep : (l.checkForChanges st canceled).1.epoch = l.epoch + 1 := by rw [heq, hrep]; rfl
    exact ⟨iff_of_true hep (Or.inl hc), Or.inl hep⟩
  · -- an append that the extension applied: the epoch stays
    obtain ⟨s, next, hext, -⟩ := extend_ok hx
    have hep : (l.checkForChanges st canceled).1.epoch = l.epoch := by rw [heq, hext]; rfl
    have hnot : ¬ l.Rebuilds st canceled := by
      rintro ⟨e, he, -⟩
      rw [hx] at he
      cases he
    rw [hep, hc]
    simp [hnot]
  · -- an append that fell back to a rebuild: the next epoch
    obtain ⟨s, next, raw, hrep, -⟩ := replace_ok hr
    have hep : (l.checkForChanges st canceled).1.epoch = l.epoch + 1 := by rw [heq, hrep]; rfl
    exact ⟨iff_of_true hep (Or.inr ⟨hc, hreb⟩), Or.inl hep⟩

/-! ## What the reported change says -/

/-- The file `log` with two events, read with a fingerprint of one byte. -/
def twoEventStore : Store := ⟨[("log", 0)], #["E # 0 t 0 m 1\nE # 1 t 1 m 1\n".toUTF8]⟩

/-- The same file written anew: the first byte kept, the second event
replaced and a third one added. -/
def rewrittenStore : Store := ⟨[("log", 0)], #["E # 0 t 0 m 1\nE # 2 t 1 m 1\nE # 3 t 2 m 1\n".toUTF8]⟩

/-- The log opened on `twoEventStore`. -/
def twoEventLog : EventLog :=
  match (openFile twoEventStore 0 "log" ⟨0, 1, false⟩ false).2 with
  | .ok l => l
  | .error _ => default

end EventLog

end EventChart
