/-!
# Watching a file for changes

A watcher reports changes of one file: writes, creations, removals and
renames onto it.  Changes that come close together are reported once: a
signal is given when no further change came for a debounce interval, and
it is given at the next tick of a clock that ticks at that interval, so
between one and two intervals after the last change.  Changes of other
files are not reported.

`signals` follows a sequence of file actions, each followed by a wait, and
tells for each wait whether a signal arrived in it.  Times are in
milliseconds; a signal is taken to arrive one and a half intervals after
the last change.
-/

namespace EventChart

namespace Watcher

/-- The debounce interval. -/
def debounceMs : Int := 100

/-- When a signal arrives after the last change. -/
def signalDelayMs : Int := debounceMs + debounceMs / 2

/-- One action on a file and the wait after it. -/
structure Action where
  file : String
  removes : Bool
  waitMs : Int

/-- The state of the watch: the time, the last unreported change of the
watched file, and the files present. -/
structure Watch where
  now : Int
  pending : Option Int
  present : List String

/-- Whether a signal arrives in each action's wait. -/
def signals (watched : String) : Watch → List Action → List Bool
  | _, [] => []
  | w, a :: rest =>
    let changes := a.file = watched ∧ (!a.removes ∨ a.file ∈ w.present)
    let present := if a.removes then w.present.filter (· != a.file)
      else if a.file ∈ w.present then w.present else w.present ++ [a.file]
    let pending := if changes then some w.now else w.pending
    match pending with
    | some p =>
      if p + signalDelayMs ≤ w.now + a.waitMs then
        true :: signals watched ⟨max w.now (p + signalDelayMs), none, present⟩ rest
      else false :: signals watched ⟨w.now + a.waitMs, pending, present⟩ rest
    | none => false :: signals watched ⟨w.now + a.waitMs, none, present⟩ rest

/-- A watch can only start when the watched file's directory exists; only
the working directory and those above it exist at the start. -/
def directoryExists (watched : String) : Bool :=
  let parts := watched.splitOn "/"
  (parts.dropLast.all fun p => p = "" ∨ p = "." ∨ p = "..")

end Watcher

end EventChart
