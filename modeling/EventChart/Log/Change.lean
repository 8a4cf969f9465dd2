/-!
# Changes of a log file

A reader compares the file on disk with what it saw at its last check and
classifies the difference as a `Change`.  The three named changes have the
codes 0, 1 and 2; a change can also be asked for by any other code, which is
then named `change(N)`.  Changes are ordered by code, so that the larger of a
pending change and a new one is the one to act on.
-/

namespace EventChart

/-- How the file on disk differs from the state seen at the last check. -/
inductive Change where
  | unchanged
  | appended
  | overwritten
  | other (code : Int)
deriving DecidableEq, Repr, Inhabited

namespace Change

/-- The number of a change. -/
def code : Change → Int
  | unchanged => 0
  | appended => 1
  | overwritten => 2
  | other n => n

/-- The change of a number; the named changes for 0, 1 and 2. -/
def ofCode (n : Int) : Change :=
  if n = 0 then unchanged else if n = 1 then appended else if n = 2 then overwritten else other n

/-- The lowercase name, or `change(N)` for other codes. -/
def name : Change → String
  | unchanged => "unchanged"
  | appended => "appended"
  | overwritten => "overwritten"
  | other n => "change(" ++ toString n ++ ")"

/-- The change with the larger code; `b` on a tie. -/
def larger (a b : Change) : Change := if b.code < a.code then a else b

theorem code_ofCode (n : Int) : (ofCode n).code = n := by
  unfold ofCode
  split
  · subst_vars; rfl
  · split
    · subst_vars; rfl
    · split
      · subst_vars; rfl
      · rfl

end Change

end EventChart
