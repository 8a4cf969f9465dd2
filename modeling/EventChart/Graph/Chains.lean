import EventChart.Log.Dependency
/-!
# Chains of dependencies

The events of a set of dependencies fall into chains: the connected
components of the graph whose edges are the dependencies.  Events in two
chains are causally independent within the set.

`chains` lists each chain with its events in ascending order and its
dependencies in listing order, the chains by size (largest first) and then
by first event, numbered from zero.
-/

namespace EventChart

/-- A connected set of events and the dependencies among them. -/
structure Chain where
  id : Nat
  events : List Int
  deps : List Dependency
deriving DecidableEq, Repr, Inhabited

/-- Merges the components that hold `a` and `b`. -/
def joinComponents (comps : List (List Int)) (a b : Int) : List (List Int) :=
  let (with_, without) := comps.partition fun c => c.contains a || c.contains b
  let merged := with_.flatten
  let merged := (if merged.contains a then [] else [a]) ++ merged
  let merged := merged ++ (if merged.contains b then [] else [b])
  without ++ [merged]

/-- The chains of a set of dependencies. -/
def chains (deps : List Dependency) : List Chain :=
  let comps := deps.foldl (fun cs d => joinComponents cs d.cause d.consequence) []
  let members := comps.map fun c => c.mergeSort (· ≤ ·)
  let withDeps := members.map fun ms => (ms, Dependency.sort (deps.filter (ms.contains ·.cause)))
  let ordered := withDeps.mergeSort fun a b =>
    if a.1.length ≠ b.1.length then decide (a.1.length > b.1.length)
    else decide (a.1.head?.getD 0 ≤ b.1.head?.getD 0)
  (ordered.zipIdx).map fun ((ms, ds), i) => ⟨i, ms, ds⟩

end EventChart
