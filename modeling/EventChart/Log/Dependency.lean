/-!
# Message dependencies

A dependency is a causal edge between two events, named by their event
numbers: the cause sent a message that the consequence processed (`send`),
or both processed the same message object (`reuse`).  An edge that stands
for a path of several edges has the combined kind of its parts (`mixed` once
the kinds differ), the message leaving the cause, the message arriving at the
consequence, and the number of edges as its length.

Dependencies are identified by cause, consequence, message and kind, and
listed in that order (`Dependency.sort`).  `DepCollector` keeps the first of
equal dependencies, in the order they were added.
-/

namespace EventChart

/-- The kind of a dependency; other codes can occur in requests. -/
inductive DepKind where
  | send
  | reuse
  | mixed
  | other (code : Int)
deriving DecidableEq, Repr, Inhabited

namespace DepKind

/-- The number of a kind. -/
def code : DepKind → Int
  | send => 0
  | reuse => 1
  | mixed => 2
  | other n => n

/-- The kind of a number. -/
def ofCode (n : Int) : DepKind :=
  if n = 0 then send else if n = 1 then reuse else if n = 2 then mixed else other n

/-- The lowercase name, or `kind(N)` for other codes. -/
def name : DepKind → String
  | send => "send"
  | reuse => "reuse"
  | mixed => "mixed"
  | other n => "kind(" ++ toString n ++ ")"

/-- The kind of a path made of edges of kinds `a` and `b`. -/
def combine (a b : DepKind) : DepKind := if a.code = b.code then a else mixed

theorem combine_self (a : DepKind) : a.combine a = a := by simp [combine]

end DepKind

/-- A causal edge between two events. -/
structure Dependency where
  cause : Int
  consequence : Int
  kind : DepKind
  /-- The message leaving the cause. -/
  messageId : Int
  /-- The message arriving at the consequence. -/
  endMessageId : Int
  /-- The number of direct edges the edge stands for. -/
  length : Int
deriving DecidableEq, Repr, Inhabited

/-- A set of dependencies, and whether a limit may have left some out. -/
structure DepSet where
  deps : List Dependency
  incomplete : Bool
deriving DecidableEq, Repr, Inhabited

namespace Dependency

/-- What identifies a dependency. -/
def key (d : Dependency) : Int × Int × Int × Int := (d.cause, d.consequence, d.messageId, d.kind.code)

/-- The listing order: by cause, consequence, message and kind. -/
def le (a b : Dependency) : Bool :=
  if a.cause ≠ b.cause then a.cause < b.cause
  else if a.consequence ≠ b.consequence then a.consequence < b.consequence
  else if a.messageId ≠ b.messageId then a.messageId < b.messageId
  else a.kind.code ≤ b.kind.code

/-- Dependencies in listing order; equal keys keep their order. -/
def sort (ds : List Dependency) : List Dependency := ds.mergeSort le

/-- A direct send edge. -/
def direct (cause consequence : Int) (kind : DepKind) (msg : Int) : Dependency :=
  ⟨cause, consequence, kind, msg, msg, 1⟩

end Dependency

/-- Dependencies added one by one, the first of each key kept. -/
structure DepCollector where
  deps : Array Dependency
deriving Inhabited

namespace DepCollector

/-- The empty collector. -/
def empty : DepCollector := ⟨#[]⟩

/-- Adds a dependency unless one with its key is there. -/
def add (c : DepCollector) (d : Dependency) : DepCollector :=
  if c.deps.any (·.key == d.key) then c else ⟨c.deps.push d⟩

/-- Adds dependencies in order. -/
def addAll (c : DepCollector) (ds : List Dependency) : DepCollector := ds.foldl add c

/-- The collected dependencies in listing order. -/
def sorted (c : DepCollector) : List Dependency := Dependency.sort c.deps.toList

theorem mem_add_self (c : DepCollector) (d : Dependency) : ∃ e ∈ (c.add d).deps, e.key = d.key := by
  unfold add
  split
  · rename_i h
    obtain ⟨e, he, hk⟩ := Array.any_eq_true'.mp h
    exact ⟨e, he, by simpa using hk⟩
  · exact ⟨d, by simp, rfl⟩

end DepCollector

end EventChart
