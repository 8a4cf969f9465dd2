import EventChart.Log.Store
import EventChart.Fault
/-!
# Reading a log file by lines

A `Reader` holds a file of a `Store` open under a name and remembers what it
saw of it: the file's identity, its size and its first bytes (the
fingerprint, 4096 bytes unless asked otherwise).  Reads never go past the
remembered size.

* `Reader.check` compares the name's file with what was seen: another file,
  a closed reader, a smaller size or different first bytes are an
  overwrite; a larger size with the same first bytes an append.  What it
  finds becomes what was seen.
* `Reader.readLines` folds over the complete lines between two offsets.  A
  line is delivered without its line-end characters; a last line without a
  line feed is not delivered.  The visitor may stop the fold early, and the
  position where a later read should resume is returned with the state.
* `Reader.readEntryAt` reads the entry of the line at an offset.
-/

namespace EventChart

open EventChart.Text

/-- The start of a line: byte offset and 1-based line number. -/
structure Position where
  offset : Int
  line : Int
deriving DecidableEq, Repr, Inhabited

/-- The first line of a file. -/
def Position.start : Position := ⟨0, 1⟩

/-- The number of the line after line `n`.  Line numbers are 64-bit
integers, which wrap around past the largest one. -/
def Position.nextLine (n : Int) : Int := (Int64.ofInt n + 1).toInt

/-- A complete line without its line end, where it starts, its number and
the offset just past its line feed. -/
structure Line where
  text : String
  offset : Int
  number : Int
  endOffset : Int
deriving DecidableEq, Repr, Inhabited

/-- What a visitor of lines answers. -/
inductive Visit (σ : Type) where
  /-- Go on with the next line. -/
  | next (s : σ)
  /-- Stop before this line, without failure. -/
  | stop (s : σ)
  /-- Stop with a failure, keeping what was gathered. -/
  | fail (e : Fault) (s : σ)

/-- A file of a store held open under a name. -/
structure Reader where
  path : String
  /-- The open file; none once closed. -/
  handle : Option Nat
  /-- The file seen at the last check. -/
  file : Nat
  size : Nat
  head : ByteArray
  fingerprint : Nat
deriving Inhabited

/-- The default length of the compared first bytes. -/
def defaultFingerprint : Nat := 4096

/-- The bytes of `data` from `a` up to `b`, within its size. -/
def slice (data : ByteArray) (a b : Nat) : ByteArray := data.extract a (min b data.size)

/-- Whether two byte strings are equal. -/
def sameBytes (a b : ByteArray) : Bool := a.data == b.data

/-- The complete lines of a byte list, each with its line feed; bytes after
the last line feed are dropped. -/
def completeLines (acc : List UInt8) : List UInt8 → List (List UInt8)
  | [] => []
  | b :: bs => if b = 10 then (acc.reverse ++ [b]) :: completeLines [] bs else completeLines (b :: acc) bs

/-- A line's text: trailing carriage returns and line feeds dropped. -/
def lineText (bs : List UInt8) : String :=
  bytesToText (bs.reverse.dropWhile (fun b => b = 10 ∨ b = 13)).reverse

namespace Reader

/-- Opens a name of the store; a missing name fails. -/
def openFile (s : Store) (path : String) (fingerprint : Int) : Except Fault Reader :=
  let fp := if fingerprint ≤ 0 then defaultFingerprint else fingerprint.toNat
  match s.fileOf? path with
  | none => .error (.fileNotFound path)
  | some f =>
    let data := s.contents f
    .ok ⟨path, some f, f, data.size, slice data 0 fp, fp⟩

/-- Closes the file. -/
def close (r : Reader) : Reader := { r with handle := none }

/-- The change of the name's file since the last check, and the reader that
has seen it now.  A missing name leaves the reader as it was. -/
def check (r : Reader) (s : Store) : Reader × Except Fault Change :=
  match s.fileOf? r.path with
  | none => (r, .error (.fileNotFound r.path))
  | some f =>
    let reopened := r.handle.isNone || f != r.file
    let data := s.contents f
    let head := slice data 0 r.fingerprint
    let r' := { r with handle := some f, file := f, size := data.size, head := head }
    let change :=
      if reopened then Change.overwritten
      else if data.size < r.size then .overwritten
      else if head.size < r.head.size || !sameBytes (slice head 0 r.head.size) r.head then .overwritten
      else if data.size > r.size then .appended
      else .unchanged
    (r', .ok change)

/-- The lines of `lines` numbered from `pos`, folded by `visit` until it
stops or fails. -/
def foldLines {σ : Type} (visit : σ → Line → Visit σ) :
    List (List UInt8) → σ → Position → σ × Position × Option Fault
  | [], st, pos => (st, pos, none)
  | l :: ls, st, pos =>
    let stop := pos.offset + l.length
    match visit st ⟨lineText l, pos.offset, pos.line, stop⟩ with
    | .next st' => foldLines visit ls st' ⟨stop, Position.nextLine pos.line⟩
    | .stop st' => (st', pos, none)
    | .fail e st' => (st', pos, some e)

/-- Folds `visit` over the complete lines from `start` up to offset `upto`
(the size if negative or past it).  Returns the state, the position where a
later read resumes, and the failure if there was one.  A caller that has
given up (`canceled`) gets `interrupted` before any line is read. -/
def readLines {σ : Type} (r : Reader) (s : Store) (canceled : Bool) (start : Position) (upto : Int)
    (init : σ) (visit : σ → Line → Visit σ) : σ × Position × Option Fault :=
  match r.handle with
  | none => (init, start, some (.fileChanged .overwritten (some "file already closed")))
  | some f =>
    let stop : Int := if upto < 0 ∨ upto > r.size then r.size else upto
    if start.offset ≥ stop then (init, start, none)
    else if canceled then (init, start, some .interrupted)
    else if start.offset < 0 then
      (init, start, some (.fileChanged .overwritten (some ("readat " ++ r.path ++ ": negative offset"))))
    else
      let bytes := (slice (s.contents f) start.offset.toNat stop.toNat).toList
      foldLines visit (completeLines [] bytes) init start

/-- The entry of the line starting at `offset`; `line` is its number for
error messages.  A line that does not end before the seen size is a sign of
an overwrite. -/
def readEntryAt (r : Reader) (s : Store) (offset : Int) (line : Int) : Except Fault Entry :=
  match r.handle with
  | none => .error (.fileChanged .overwritten (some "file already closed"))
  | some f =>
    if offset < 0 ∨ offset ≥ r.size then
      .error (.fileChanged .overwritten (some ("offset " ++ toString offset ++ " beyond end of file")))
    else
      match completeLines [] (slice (s.contents f) offset.toNat r.size).toList with
      | [] => .error (.fileChanged .overwritten (some "EOF"))
      | l :: _ =>
        match Entry.parse (bytesToText l) line offset with
        | .ok e => .ok e
        | .error e => .error (.badLine e)

end Reader

end EventChart
