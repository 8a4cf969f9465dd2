/-!
# A store of files

The log is read from a file that a simulation may change at any time: grow
it, write it anew in place, replace it by another file under the same name,
or remove it.  A reader notices a replaced file by its identity, and an
open file keeps the contents it names even after its name is gone.

`Store` models exactly that: names map to file numbers, and file numbers to
byte contents.

* `write` gives a name new contents in place, keeping its file;
* `append` adds bytes at the end of a name's file;
* `replace` puts a new file under the name;
* `remove` drops the name and keeps the file for whoever holds it.

Each operation has a lemma that says what a name reads afterwards.
-/

namespace EventChart

/-- Names of files and the contents of files, by number. -/
structure Store where
  names : List (String × Nat)
  files : Array ByteArray

namespace Store

/-- The store without files. -/
def empty : Store := ⟨[], #[]⟩

/-- The file a name refers to. -/
def fileOf? (s : Store) (path : String) : Option Nat := s.names.lookup path

/-- The contents of a file; empty for a number no file has. -/
def contents (s : Store) (file : Nat) : ByteArray := s.files.getD file ByteArray.empty

/-- The contents under a name. -/
def read? (s : Store) (path : String) : Option ByteArray := (s.fileOf? path).map s.contents

/-- A new file under a name. -/
def replace (s : Store) (path : String) (data : ByteArray) : Store :=
  ⟨(path, s.files.size) :: s.names.filter (·.1 != path), s.files.push data⟩

/-- New contents for the file of a name, which keeps its identity; a new file
if the name has none. -/
def write (s : Store) (path : String) (data : ByteArray) : Store :=
  match s.fileOf? path with
  | some f => { s with files := s.files.set! f data }
  | none => s.replace path data

/-- Bytes added at the end of the file of a name; a new file if the name has
none. -/
def append (s : Store) (path : String) (data : ByteArray) : Store :=
  match s.fileOf? path with
  | some f => { s with files := s.files.set! f (s.contents f ++ data) }
  | none => s.replace path data

/-- The name removed; its file stays for whoever holds it. -/
def remove (s : Store) (path : String) : Store :=
  { s with names := s.names.filter (·.1 != path) }

theorem fileOf?_replace (s : Store) (path : String) (data : ByteArray) :
    (s.replace path data).fileOf? path = some s.files.size := by
  simp [replace, fileOf?]

theorem read?_replace (s : Store) (path : String) (data : ByteArray) :
    (s.replace path data).read? path = some data := by
  rw [read?, fileOf?_replace]
  simp [contents, replace]

theorem lookup_filter_ne (path : String) :
    ∀ l : List (String × Nat), (l.filter (·.1 != path)).lookup path = none
  | [] => rfl
  | (a, b) :: ps => by
    have ih := lookup_filter_ne path ps
    by_cases h : a = path
    · subst h
      have hf : (a != a) = false := by simp
      rw [List.filter_cons, hf]
      exact ih
    · have hf : (a != path) = true := by simpa using h
      have hne : (path == a) = false := by simpa using Ne.symm h
      rw [List.filter_cons, hf]
      rw [if_pos rfl, List.lookup_cons, hne]
      exact ih

theorem fileOf?_remove (s : Store) (path : String) : (s.remove path).fileOf? path = none :=
  lookup_filter_ne path s.names

end Store

end EventChart
