import EventChart.Proofs.Log.Detection
/-!
# The lines a read delivers

A read folds a visitor over the complete lines of a stretch of a file, from
a start position up to an end offset.  This module says what it delivers in
terms of the bytes alone, and that reading a stretch in two parts delivers
what reading it at once does.

* Line numbers.  A line number is a 64-bit integer: the line after line `n`
  is numbered `n + 1` wrapped to 64 bits (`Position.nextLine_eq`), so the
  `i`-th line after line `k` is numbered `k + i` wrapped
  (`Position.nextLine_iterate`).
* What is delivered.  `Delivered B e k Ls o i` says that `Ls` are the lines
  of the bytes `B` from offset `o` up to `e`: each starts where the one
  before ended, runs up to and with the first line feed from there, ends by
  `e`, has as text its bytes without their trailing line ends, and is
  numbered on from `k`; no line feed is left after the last one.  The lines
  `linesFrom` cuts from those bytes are delivered (`delivered_linesFrom`).
* How a visitor sees them.  `Reader.VisitsLines` says how a fold over lines
  ends: the visitor goes on at every line and the read resumes after the
  last one, or it stops or fails at some line and the read resumes at that
  line (`Reader.visitsLines_linesFrom`).
* Reads.  `Reader.readLines_eq_visitLines` opens a read into that fold, and
  `linesFrom_resume` cuts the lines up to an end into those up to an earlier
  end and those from where these stop.  `Reader.readLines_delivers` puts it
  together, and `Reader.line_number_wraps` shows the wrap at a start line
  next to the largest number.
-/

namespace EventChart

/-! ## Line numbers -/

theorem Position.nextLine_eq (n : Int) : Position.nextLine n = (n + 1).bmod (2 ^ 64) := by
  rw [Position.nextLine, Int64.toInt_add, Int64.toInt_ofInt]
  simp

/-- The `i`-th line after a line numbered by a 64-bit integer `k` is
numbered `k + i`, wrapped to 64 bits. -/
theorem Position.nextLine_iterate {k : Int} (hk : -2 ^ 63 ≤ k ∧ k < 2 ^ 63) (i : Nat) :
    Position.nextLine^[i] k = (k + i).bmod (2 ^ 64) := by
  induction i with
  | zero => simpa using (Int.bmod_eq_of_le hk.1 hk.2).symm
  | succ i ih =>
    rw [Function.iterate_succ_apply', ih, Position.nextLine_eq, Int.bmod_add_bmod]
    push_cast
    ring_nf

/-! ## What a read delivers -/

/-- The bytes of `B` from offset `a` up to offset `b`. -/
def bytesBetween (B : List UInt8) (a b : Int) : List UInt8 := (B.take b.toNat).drop a.toNat

theorem bytesBetween_natCast (B : List UInt8) (a b : Nat) : bytesBetween B a b = (B.take b).drop a := by
  simp [bytesBetween]

/-- Two stretches of bytes, one after the other, are the stretch from the
start of the first to the end of the second. -/
theorem bytesBetween_append (B : List UInt8) {a m b : Nat} (ham : a ≤ m) (hmb : m ≤ b) :
    bytesBetween B a m ++ bytesBetween B m b = bytesBetween B a b := by
  simp only [bytesBetween_natCast]
  have hsplit : B.take b = B.take m ++ (B.take b).drop m := by
    conv_lhs => rw [← List.take_append_drop m (B.take b)]
    rw [List.take_take, Nat.min_eq_left hmb]
  calc (B.take m).drop a ++ (B.take b).drop m = (B.take m ++ (B.take b).drop m).drop a := by
        rw [List.drop_append]
        by_cases hB : m ≤ B.length
        · rw [List.length_take, Nat.min_eq_left hB, Nat.sub_eq_zero_of_le ham, List.drop_zero]
        · -- the file ends before `m`: nothing lies after it
          have hempty : (B.take b).drop m = [] := List.drop_eq_nil_of_le (by simp; omega)
          simp [hempty]
    _ = (B.take b).drop a := by rw [← hsplit]

/-- The lines `Ls` are those of the bytes `B` from offset `o` up to offset
`e`, the first of them the `i`-th counted from the line number `k`: each
starts where the one before ended, its bytes run up to and with the first
line feed from there and end by `e`, its text is its bytes without their
trailing line ends, and it is numbered `k` plus its count, wrapped to 64
bits; after the last one, no line feed is left before `e`. -/
def Delivered (B : List UInt8) (e k : Int) : List Line → Int → Nat → Prop
  | [], o, _ => 10 ∉ bytesBetween B o e
  | l :: ls, o, i => l.offset = o ∧ l.endOffset ≤ e ∧ IsLine (bytesBetween B o l.endOffset) ∧
      l.text = lineText (bytesBetween B o l.endOffset) ∧ l.number = (k + i).bmod (2 ^ 64) ∧
      Delivered B e k ls l.endOffset (i + 1)

/-- The complete lines of the bytes from `o` up to `e`, read from `o` on as
the `i`-th line after line `k`, are delivered. -/
theorem delivered_of_completeLines (B : List UInt8) (e : Nat) (k : Int) :
    ∀ (L : List (List UInt8)) (o i : Nat), completeLines [] (bytesBetween B o e) = L →
      Delivered B e k (linesFrom L ⟨o, (k + i).bmod (2 ^ 64)⟩) o i
  | [], o, i, hL => by
    -- no complete line: no line feed is left
    obtain ⟨-, tail, ht, heq⟩ := bytes_eq_flatten (bytesBetween B o e)
    rw [hL, List.flatten_nil, List.nil_append] at heq
    show 10 ∉ bytesBetween B o e
    rw [heq]
    exact ht
  | l :: ls, o, i, hL => by
    obtain ⟨hlines, tail, ht, heq⟩ := bytes_eq_flatten (bytesBetween B o e)
    rw [hL] at hlines heq
    have hl : IsLine l := hlines l List.mem_cons_self
    have hD : (B.take e).drop o = l ++ (ls.flatten ++ tail) := by
      rw [← bytesBetween_natCast, heq, List.flatten_cons, List.append_assoc]
    -- the first line lies within the stretch
    have hend : o + l.length ≤ e := by
      have hpos : 0 < l.length := by
        obtain ⟨w, -, rfl⟩ := hl
        simp
      have hlen : ((B.take e).drop o).length = l.length + (ls.flatten.length + tail.length) := by
        rw [hD]
        simp
      simp only [List.length_drop, List.length_take] at hlen
      omega
    have hfirst : bytesBetween B o ((o + l.length : Nat) : Int) = l := by
      rw [bytesBetween_natCast, ← Nat.min_eq_left hend, ← List.take_take, List.drop_take, hD]
      simp
    have hrest : completeLines [] (bytesBetween B ((o + l.length : Nat) : Int) e) = ls := by
      rw [bytesBetween_natCast, ← List.drop_drop, hD, List.drop_left]
      exact completeLines_flatten_append (fun x hx => hlines x (List.mem_cons_of_mem _ hx)) ht
    have hcast : (o : Int) + l.length = ((o + l.length : Nat) : Int) := by push_cast; rfl
    have hnum : Position.nextLine ((k + i).bmod (2 ^ 64)) = (k + (i + 1 : Nat)).bmod (2 ^ 64) := by
      rw [Position.nextLine_eq, Int.bmod_add_bmod]
      push_cast
      ring_nf
    have ih := delivered_of_completeLines B e k ls (o + l.length) (i + 1) hrest
    refine ⟨rfl, by push_cast; omega, ?_, ?_, rfl, ?_⟩
    · show IsLine (bytesBetween B o ((o : Int) + l.length))
      rw [hcast, hfirst]
      exact hl
    · show lineText l = lineText (bytesBetween B o ((o : Int) + l.length))
      rw [hcast, hfirst]
    · show Delivered B e k (linesFrom ls ⟨(o : Int) + l.length, Position.nextLine ((k + i).bmod (2 ^ 64))⟩)
        ((o : Int) + l.length) (i + 1)
      rw [hnum, hcast]
      exact ih

/-- The lines cut from the bytes between `o` and `e`, read from line `k` (a
64-bit integer), are delivered. -/
theorem delivered_linesFrom (B : List UInt8) (e : Nat) {k : Int} (hk : -2 ^ 63 ≤ k ∧ k < 2 ^ 63) (o : Nat) :
    Delivered B e k (linesFrom (completeLines [] (bytesBetween B o e)) ⟨o, k⟩) o 0 := by
  have hk' : (k + (0 : Nat)).bmod (2 ^ 64) = k := by simpa using Int.bmod_eq_of_le hk.1 hk.2
  have h := delivered_of_completeLines B e k _ o 0 rfl
  rw [hk'] at h
  exact h

/-! ## How a visitor sees the lines -/

namespace Reader

/-- The visitor goes on at each of the lines in turn, from the state `st` to
the state `st'`. -/
def Passes {σ : Type} (visit : σ → Line → Visit σ) : List Line → σ → σ → Prop
  | [], st, st' => st' = st
  | l :: ls, st, st' => ∃ st₁, visit st l = .next st₁ ∧ Passes visit ls st₁ st'

/-- How a read that folds `visit` over the lines `Ls` from the state `init`
ends with the result `res`: the visitor goes on at every line, and the read
resumes at `after`; or it goes on at the lines before some line and stops or
fails at that one, and the read resumes at that line. -/
def VisitsLines {σ : Type} (visit : σ → Line → Visit σ) (Ls : List Line) (init : σ) (after : Position)
    (res : σ × Position × Option Fault) : Prop :=
  (∃ st', Passes visit Ls init st' ∧ res = (st', after, none)) ∨
    ∃ j, ∃ hj : j < Ls.length, ∃ st₁, Passes visit (Ls.take j) init st₁ ∧
      ((∃ st', visit st₁ Ls[j] = .stop st' ∧ res = (st', ⟨Ls[j].offset, Ls[j].number⟩, none)) ∨
        ∃ e st', visit st₁ Ls[j] = .fail e st' ∧ res = (st', ⟨Ls[j].offset, Ls[j].number⟩, some e))

/-- A fold over the lines read from `pos` ends as `VisitsLines` says, and
resumes after all of them at `posAfter`. -/
theorem visitsLines_linesFrom {σ : Type} (visit : σ → Line → Visit σ) (raw : List (List UInt8)) (init : σ)
    (pos : Position) :
    VisitsLines visit (linesFrom raw pos) init (posAfter raw pos) (visitLines visit (linesFrom raw pos) init pos) := by
  induction raw generalizing init pos with
  | nil => exact Or.inl ⟨init, rfl, by simp [linesFrom, visitLines]⟩
  | cons x raw ih =>
    simp only [linesFrom, visitLines]
    rcases hv : visit init ⟨lineText x, pos.offset, pos.line, pos.offset + x.length⟩ with st₁ | st' | ⟨e, st'⟩ <;>
      dsimp only
    · -- the first line passes: the rest decides, one line further on
      rcases ih st₁ ⟨pos.offset + x.length, Position.nextLine pos.line⟩ with ⟨st', hp, hres⟩ | ⟨j, hj, st₂, hp, hend⟩
      · exact Or.inl ⟨st', ⟨st₁, hv, hp⟩, by rw [hres, posAfter_cons]⟩
      · exact Or.inr ⟨j + 1, by simpa using hj, st₂, ⟨st₁, hv, hp⟩, hend⟩
    · exact Or.inr ⟨0, by simp, init, rfl, Or.inl ⟨st', hv, rfl⟩⟩
    · exact Or.inr ⟨0, by simp, init, rfl, Or.inr ⟨e, st', hv, rfl⟩⟩

/-- Once the visitor has gone on at every line read from `pos`, the fold
goes on with the lines after them from where those end. -/
theorem visitLines_of_passes {σ : Type} {visit : σ → Line → Visit σ} {raw : List (List UInt8)} {init st' : σ}
    {pos : Position} (h : Passes visit (linesFrom raw pos) init st') (L : List Line) :
    visitLines visit (linesFrom raw pos ++ L) init pos = visitLines visit L st' (posAfter raw pos) := by
  induction raw generalizing init pos with
  | nil =>
    simp only [linesFrom, Passes] at h
    subst h
    simp [linesFrom]
  | cons x raw ih =>
    obtain ⟨st₁, hv, hp⟩ := h
    simp only [linesFrom, List.cons_append, visitLines, hv]
    rw [ih hp, posAfter_cons]

end Reader

/-- Where a read from offset `o` and line `k` that delivered the lines `Ls`
resumes: after the last of them, numbered `k` plus their count, wrapped to
64 bits; where it started if it delivered none. -/
def resumeAt (Ls : List Line) (o k : Int) : Position :=
  ⟨(Ls.getLast?.map (·.endOffset)).getD o, (k + Ls.length).bmod (2 ^ 64)⟩

theorem endOffset_getLast_linesFrom (raw : List (List UInt8)) (pos : Position) :
    ((linesFrom raw pos).getLast?.map (·.endOffset)).getD pos.offset = (posAfter raw pos).offset := by
  induction raw generalizing pos with
  | nil => simp [linesFrom]
  | cons x raw ih =>
    have h := ih ⟨pos.offset + x.length, Position.nextLine pos.line⟩
    rw [posAfter_cons, ← h]
    -- after the first line the default offset is never taken
    cases raw with
    | nil => simp [linesFrom]
    | cons y raw => simp [linesFrom, List.getLast?_cons]

/-- The lines read from offset `o` and a 64-bit line number `k` end where
`resumeAt` says. -/
theorem posAfter_eq_resumeAt (raw : List (List UInt8)) (o : Int) {k : Int} (hk : -2 ^ 63 ≤ k ∧ k < 2 ^ 63) :
    posAfter raw ⟨o, k⟩ = resumeAt (linesFrom raw ⟨o, k⟩) o k := by
  have hoff := endOffset_getLast_linesFrom raw ⟨o, k⟩
  simp only [resumeAt, length_linesFrom, ← Position.nextLine_iterate hk]
  rw [hoff]
  rfl

/-- The lines up to `b` from `o` are those up to an earlier `a`, then those
from where these end up to `b`. -/
theorem linesFrom_resume (B : List UInt8) (o : Nat) (k : Int) {a b : Nat} (hab : a ≤ b) :
    linesFrom (completeLines [] (bytesBetween B o b)) ⟨o, k⟩ =
      linesFrom (completeLines [] (bytesBetween B o a)) ⟨o, k⟩ ++
        linesFrom (completeLines [] (bytesBetween B (posAfter (completeLines [] (bytesBetween B o a)) ⟨o, k⟩).offset b))
          (posAfter (completeLines [] (bytesBetween B o a)) ⟨o, k⟩) := by
  by_cases hoa : o ≤ a
  · -- the bytes up to `b` are those up to `a` and those after
    obtain ⟨tail, -, hF, hlines⟩ := completeLines_append (bytesBetween B o a) (bytesBetween B a b)
    set raw := completeLines [] (bytesBetween B o a)
    have htail : bytesBetween B ((o + raw.flatten.length : Nat) : Int) a = tail := by
      rw [bytesBetween_natCast, ← List.drop_drop, ← bytesBetween_natCast, hF, List.drop_left]
    have hp : o + raw.flatten.length ≤ a := by
      have hlen := congrArg List.length hF
      simp only [bytesBetween_natCast, List.length_drop, List.length_take, List.length_append] at hlen
      by_cases hraw : raw.flatten.length = 0
      · omega
      · omega
    have hoff : (posAfter raw ⟨o, k⟩).offset = ((o + raw.flatten.length : Nat) : Int) := by
      simp [posAfter]
    rw [← bytesBetween_append B hoa hab, hlines, linesFrom_append, hoff, ← htail,
      bytesBetween_append B hp hab]
  · -- nothing lies before `a`: the second read is the whole one
    have hnil : bytesBetween B o a = [] := by
      rw [bytesBetween_natCast]
      exact List.drop_eq_nil_of_le (by simp; omega)
    simp [hnil, completeLines, linesFrom]

namespace Reader

/-- Where a read up to `upto` ends: at the size the reader has seen when
`upto` is negative, else at `upto` or that size, whichever comes first. -/
def readEnd (r : Reader) (upto : Int) : Int := if upto < 0 then r.size else min upto r.size

theorem readEnd_nonneg (r : Reader) (upto : Int) : 0 ≤ r.readEnd upto := by
  unfold readEnd
  split <;> omega

theorem slice_toList (data : ByteArray) (a b : Nat) : (slice data a b).toList = bytesBetween data.data.toList a b := by
  have hlen : min b data.size = min b data.data.toList.length := by simp
  rw [byteArray_toList, slice, ByteArray.data_extract, Array.toList_extract, List.extract_eq_take_drop,
    ← List.drop_take, hlen, ← List.take_eq_take_min, bytesBetween_natCast]

/-- An uncanceled read of an open file from a position at a line start folds
the visitor over the complete lines of the bytes from there up to where the
read ends, numbered from the position's line. -/
theorem readLines_eq_visitLines {σ : Type} {r : Reader} {s : Store} {f : Nat} (hh : r.handle = some f)
    {o k : Int} (ho : 0 ≤ o) (upto : Int) (init : σ) (visit : σ → Line → Visit σ) :
    r.readLines s false ⟨o, k⟩ upto init visit =
      visitLines visit (linesFrom (completeLines [] (bytesBetween (s.contents f).data.toList o (r.readEnd upto))) ⟨o, k⟩)
        init ⟨o, k⟩ := by
  have hstop : (if upto < 0 ∨ upto > r.size then (r.size : Int) else upto) = r.readEnd upto := by
    unfold readEnd
    split_ifs <;> omega
  unfold readLines
  rw [hh]
  dsimp only
  rw [hstop]
  split
  · -- nothing before the end: no line
    rename_i hge
    have hnil : bytesBetween (s.contents f).data.toList o (r.readEnd upto) = [] :=
      List.drop_eq_nil_of_le (by simp; omega)
    rw [hnil]
    rfl
  · rw [if_neg Bool.false_ne_true, if_neg (by omega), foldLines_eq_visitLines, slice_toList]
    rfl

/-- What a read of an open file delivers, uncanceled, from a position `o` (an
offset) and `k` (a 64-bit line number), up to `upto` (the size the reader
has seen when negative, else at most that size): the visitor is called on
the lines of the file's bytes from `o` up to that end, each starting where
the one before ended, running up to and with the first line feed and ending
by the end, with its bytes less their trailing line ends as text, numbered
`k` and on, wrapped to 64 bits; no line feed is left after the last one.  The
read resumes after the last line, numbered one more, or where it started
when there is none, if the visitor went on at every line; else at the line
where it stopped or failed.  And after a read that went on at every line, a
read from where it resumes up to a later end delivers the rest of what one
read from the start up to that end delivers. -/
theorem readLines_delivers {σ : Type} {r : Reader} {s : Store} {f : Nat} (hh : r.handle = some f) {o k : Int}
    (ho : 0 ≤ o) (hk : -2 ^ 63 ≤ k ∧ k < 2 ^ 63) (upto : Int) (init : σ) (visit : σ → Line → Visit σ) :
    ∃ Ls, Delivered (s.contents f).data.toList (r.readEnd upto) k Ls o 0 ∧
      VisitsLines visit Ls init (resumeAt Ls o k) (r.readLines s false ⟨o, k⟩ upto init visit) ∧
      ∀ b, r.readEnd upto ≤ r.readEnd b → ∀ st', Passes visit Ls init st' →
        r.readLines s false (resumeAt Ls o k) b st' visit = r.readLines s false ⟨o, k⟩ b init visit := by
  set B := (s.contents f).data.toList
  obtain ⟨o', rfl⟩ : ∃ o' : Nat, o = o' := ⟨o.toNat, by omega⟩
  have hend := r.readEnd_nonneg upto
  obtain ⟨e', he⟩ : ∃ e' : Nat, r.readEnd upto = e' := ⟨(r.readEnd upto).toNat, by omega⟩
  set raw := completeLines [] (bytesBetween B o' e')
  refine ⟨linesFrom raw ⟨o', k⟩, ?_, ?_, ?_⟩
  · rw [he]
    exact delivered_linesFrom B e' hk o'
  · rw [readLines_eq_visitLines hh ho, he, ← posAfter_eq_resumeAt raw o' hk]
    exact visitsLines_linesFrom visit raw init ⟨o', k⟩
  · intro b hb st' hp
    obtain ⟨b', hb'⟩ : ∃ b' : Nat, r.readEnd b = b' := ⟨(r.readEnd b).toNat, by
      have := r.readEnd_nonneg b
      omega⟩
    have hab : e' ≤ b' := by omega
    have hres : 0 ≤ (resumeAt (linesFrom raw ⟨o', k⟩) o' k).offset := by
      rw [← posAfter_eq_resumeAt raw o' hk]
      show (0 : Int) ≤ (o' : Int) + (raw.flatten.length : Int)
      omega
    rw [readLines_eq_visitLines hh hres, readLines_eq_visitLines hh ho, hb', linesFrom_resume B o' k hab,
      visitLines_of_passes hp, ← posAfter_eq_resumeAt raw o' hk]

/-- The file \"log\" with the two lines \"a\" and \"b\". -/
def twoLineStore : Store := ⟨[("log", 0)], #[⟨#[97, 10, 98, 10]⟩]⟩

/-- The reader opened on it. -/
def twoLineReader : Reader := ⟨"log", some 0, 0, 4, ⟨#[97, 10, 98, 10]⟩, defaultFingerprint⟩

theorem openFile_twoLine : openFile twoLineStore "log" 0 = .ok twoLineReader := rfl

/-- A visitor that goes on at every line, gathering the line numbers. -/
def lineNumbers (acc : List Int) (l : Line) : Visit (List Int) := .next (acc ++ [l.number])

theorem readLines_delivers_from_largest :
    twoLineReader.handle = some 0 ∧ (0 : Int) ≤ 0 ∧ (-2 ^ 63 ≤ (2 ^ 63 - 1 : Int) ∧ (2 ^ 63 - 1 : Int) < 2 ^ 63) ∧
      ∃ Ls, Delivered (twoLineStore.contents 0).data.toList (twoLineReader.readEnd (-1)) (2 ^ 63 - 1) Ls 0 0 ∧
        VisitsLines lineNumbers Ls [] (resumeAt Ls 0 (2 ^ 63 - 1))
          (twoLineReader.readLines twoLineStore false ⟨0, 2 ^ 63 - 1⟩ (-1) [] lineNumbers) ∧
        ∀ b, twoLineReader.readEnd (-1) ≤ twoLineReader.readEnd b → ∀ st', Passes lineNumbers Ls [] st' →
          twoLineReader.readLines twoLineStore false (resumeAt Ls 0 (2 ^ 63 - 1)) b st' lineNumbers =
            twoLineReader.readLines twoLineStore false ⟨0, 2 ^ 63 - 1⟩ b [] lineNumbers :=
  ⟨rfl, le_refl 0, by decide, readLines_delivers rfl (le_refl 0) (by decide) (-1) [] lineNumbers⟩

theorem line_number_wraps :
    (twoLineReader.readLines twoLineStore false ⟨0, 2 ^ 63 - 1⟩ (-1) [] lineNumbers).1 = [2 ^ 63 - 1, -2 ^ 63] ∧
      (twoLineReader.readLines twoLineStore false ⟨0, 2 ^ 63 - 1⟩ (-1) [] lineNumbers).2.1 = ⟨4, -2 ^ 63 + 1⟩ := by
  decide +kernel

end Reader

end EventChart
