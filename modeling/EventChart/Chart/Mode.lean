import EventChart.Fault
/-!
# Timeline modes

Events are laid out along the timeline by their simulation time, their
event number, one unit apart (`step`), or by a distance that grows with the
time between them and stays bounded (`nonlinear`).

A mode is read case-insensitively from its name, after surrounding blanks
are trimmed, with `-` allowed for `_`.  A mode number without a mode is
named `Mode(N)`.
-/

namespace EventChart

/-- How events are laid out along the timeline. -/
inductive Mode where
  | simulationTime
  | eventNumber
  | step
  | nonlinear
deriving DecidableEq, Repr, Inhabited

namespace Mode

/-- Every mode, by number. -/
def all : List Mode := [simulationTime, eventNumber, step, nonlinear]

/-- The number of a mode. -/
def code : Mode → Nat
  | simulationTime => 0
  | eventNumber => 1
  | step => 2
  | nonlinear => 3

/-- The configuration name. -/
def name : Mode → String
  | simulationTime => "simulation_time"
  | eventNumber => "event_number"
  | step => "step"
  | nonlinear => "nonlinear"

/-- The name of a mode number. -/
def nameOf (n : Int) : String :=
  match all.find? (fun m => (m.code : Int) = n) with
  | some m => m.name
  | none => "Mode(" ++ toString n ++ ")"

/-- Reads a mode name. -/
def parse (s : String) : Except Fault Mode :=
  let key := String.ofList ((Text.trimBlank s).toList.map fun c =>
    if c = '-' then '_' else if 'A' ≤ c ∧ c ≤ 'Z' then Char.ofNat (c.toNat + 32) else c)
  match all.find? (·.name == key) with
  | some m => .ok m
  | none => .error (.unknownMode key)

theorem parse_name (m : Mode) : parse m.name = .ok m := by
  cases m <;> rfl

end Mode

end EventChart
