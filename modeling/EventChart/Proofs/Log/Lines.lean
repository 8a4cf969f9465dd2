import EventChart.Log.Basic
import Mathlib
/-!
# The lines of a file

A reader delivers the complete lines of a file: the bytes up to and with each
line feed, with what follows the last line feed held back until it is
completed.  This module describes that cut once, so that the index proofs
can talk about "the lines of the file" rather than about byte slices.

* The cut.  `IsLine` is a complete line.  Bytes are complete lines followed
  by a tail without a line feed, in exactly one way (`bytes_eq_flatten`,
  `completeLines_flatten_append`).  So the lines of `F ++ G` are the lines of
  `F` followed by further lines (`completeLines_append`), and the bytes from
  the start of a line on are cut into the lines from there on
  (`completeLines_drop`).
* Positions.  `linesFrom` numbers lines from a position and `posAfter` is the
  position after them; `Reader.foldLines` is a fold over `linesFrom`
  (`foldLines_eq_visitLines`).
* Reading.  `Reader.readLines_eq` says what an uncanceled read of an open
  file from a position delivers: the lines of the bytes from there.
-/

namespace EventChart

/-! ## Cutting bytes into lines -/

/-- A complete line: bytes without a line feed, then a line feed. -/
def IsLine (l : List UInt8) : Prop := ∃ w, 10 ∉ w ∧ l = w ++ [10]

/-- Bytes without a line feed complete no line. -/
theorem completeLines_of_not_mem (acc : List UInt8) :
    ∀ {bs : List UInt8}, 10 ∉ bs → completeLines acc bs = []
  | [], _ => rfl
  | b :: bs, h => by
    have hb : b ≠ 10 := fun hb => h (hb ▸ List.mem_cons_self)
    rw [completeLines, if_neg hb]
    exact completeLines_of_not_mem (b :: acc) (fun hm => h (List.mem_cons_of_mem _ hm))

/-- The first line feed completes the pending bytes and the bytes before it. -/
theorem completeLines_line (acc w rest : List UInt8) (hw : 10 ∉ w) :
    completeLines acc (w ++ 10 :: rest) = (acc.reverse ++ w ++ [10]) :: completeLines [] rest := by
  induction w generalizing acc with
  | nil => simp [completeLines]
  | cons b w ih =>
    have hb : b ≠ 10 := fun hb => hw (hb ▸ List.mem_cons_self)
    rw [List.cons_append, completeLines, if_neg hb,
      ih (b :: acc) (fun hm => hw (List.mem_cons_of_mem _ hm))]
    simp

/-- Complete lines followed by a tail without a line feed are cut back into
those lines. -/
theorem completeLines_flatten_append :
    ∀ {ls : List (List UInt8)} {tail : List UInt8}, (∀ l ∈ ls, IsLine l) → 10 ∉ tail →
      completeLines [] (ls.flatten ++ tail) = ls
  | [], _, _, ht => completeLines_of_not_mem [] ht
  | l :: ls, tail, hls, ht => by
    obtain ⟨w, hw, rfl⟩ := hls l List.mem_cons_self
    have hrest := @completeLines_flatten_append ls _
      (fun l hl => hls l (List.mem_cons_of_mem _ hl)) ht
    rw [List.flatten_cons, List.append_assoc, List.append_assoc, List.singleton_append,
      completeLines_line [] w _ hw, hrest]
    simp

/-- The cut with pending bytes: the pending bytes and the input are the lines
followed by a tail without a line feed. -/
private theorem completeLines_decompose :
    ∀ (acc bs : List UInt8), 10 ∉ acc →
      (∀ l ∈ completeLines acc bs, IsLine l) ∧
        ∃ tail, 10 ∉ tail ∧ acc.reverse ++ bs = (completeLines acc bs).flatten ++ tail
  | acc, [], hacc => by
    have h0 : completeLines acc [] = [] := rfl
    rw [h0]
    exact ⟨fun l hl => absurd hl List.not_mem_nil, acc.reverse, by simpa using hacc, by simp⟩
  | acc, b :: bs, hacc => by
    by_cases hb : b = 10
    · subst hb
      obtain ⟨hls, tail, ht, heq⟩ := completeLines_decompose [] bs (by simp)
      rw [completeLines, if_pos rfl]
      refine ⟨?_, tail, ht, ?_⟩
      · intro l hl
        rcases List.mem_cons.mp hl with rfl | hl
        · exact ⟨acc.reverse, by simpa using hacc, rfl⟩
        · exact hls l hl
      · simp only [List.reverse_nil, List.nil_append] at heq
        rw [List.flatten_cons]
        conv_lhs => rw [heq]
        simp
    · have hacc' : 10 ∉ b :: acc := by
        simp only [List.mem_cons, not_or]
        exact ⟨Ne.symm hb, hacc⟩
      obtain ⟨hls, tail, ht, heq⟩ := completeLines_decompose (b :: acc) bs hacc'
      rw [completeLines, if_neg hb]
      refine ⟨hls, tail, ht, ?_⟩
      simpa using heq

/-- Every byte list is its complete lines followed by a tail without a line
feed. -/
theorem bytes_eq_flatten (bs : List UInt8) :
    (∀ l ∈ completeLines [] bs, IsLine l) ∧
      ∃ tail, 10 ∉ tail ∧ bs = (completeLines [] bs).flatten ++ tail := by
  simpa using completeLines_decompose [] bs (by simp)

/-- Appended bytes extend the lines of a file: the lines of `F ++ G` are the
lines of `F` and then the lines of what follows them. -/
theorem completeLines_append (F G : List UInt8) :
    ∃ tail, 10 ∉ tail ∧ F = (completeLines [] F).flatten ++ tail ∧
      completeLines [] (F ++ G) = completeLines [] F ++ completeLines [] (tail ++ G) := by
  obtain ⟨hF, tail, ht, hFeq⟩ := bytes_eq_flatten F
  obtain ⟨hN, tail', ht', hNeq⟩ := bytes_eq_flatten (tail ++ G)
  refine ⟨tail, ht, hFeq, ?_⟩
  set LF := completeLines [] F
  set LN := completeLines [] (tail ++ G)
  have hsplit : F ++ G = (LF ++ LN).flatten ++ tail' :=
    calc F ++ G = LF.flatten ++ (tail ++ G) := by rw [← List.append_assoc, ← hFeq]
      _ = LF.flatten ++ (LN.flatten ++ tail') := by rw [← hNeq]
      _ = (LF ++ LN).flatten ++ tail' := by simp
  rw [hsplit]
  apply completeLines_flatten_append _ ht'
  intro l hl
  rcases List.mem_append.mp hl with hl | hl
  · exact hF l hl
  · exact hN l hl

/-- From the start of its `k`-th line on, a file is cut into its lines from
the `k`-th on. -/
theorem completeLines_drop (bs : List UInt8) (k : Nat) :
    completeLines [] (bs.drop ((completeLines [] bs).take k).flatten.length) =
      (completeLines [] bs).drop k := by
  obtain ⟨hls, tail, ht, heq⟩ := bytes_eq_flatten bs
  set L := completeLines [] bs
  have hdrop : bs.drop (L.take k).flatten.length = (L.drop k).flatten ++ tail := by
    have hbs : bs = (L.take k).flatten ++ ((L.drop k).flatten ++ tail) := by
      rw [← List.append_assoc, ← List.flatten_append, List.take_append_drop]
      exact heq
    rw [hbs, List.drop_left]
  rw [hdrop]
  exact completeLines_flatten_append (fun l hl => hls l (List.mem_of_mem_drop hl)) ht

/-! ## Positions -/

/-- Lines as delivered from `pos`: each with its text, where it starts, its
number and the offset after its line feed. -/
def linesFrom : List (List UInt8) → Position → List Line
  | [], _ => []
  | l :: ls, pos => ⟨lineText l, pos.offset, pos.line, pos.offset + l.length⟩ ::
      linesFrom ls ⟨pos.offset + l.length, Position.nextLine pos.line⟩

/-- The position after lines read from `pos`: past their bytes, with the
line number stepped once per line. -/
def posAfter (raw : List (List UInt8)) (pos : Position) : Position :=
  ⟨pos.offset + raw.flatten.length, Position.nextLine^[raw.length] pos.line⟩

@[simp] theorem posAfter_nil (pos : Position) : posAfter [] pos = pos := by
  simp [posAfter]

theorem posAfter_cons (l : List UInt8) (ls : List (List UInt8)) (pos : Position) :
    posAfter (l :: ls) pos = posAfter ls ⟨pos.offset + l.length, Position.nextLine pos.line⟩ := by
  simp only [posAfter, List.flatten_cons, List.length_append, List.length_cons, Position.mk.injEq,
    Function.iterate_succ_apply, and_true]
  omega

theorem posAfter_append (a b : List (List UInt8)) (pos : Position) :
    posAfter (a ++ b) pos = posAfter b (posAfter a pos) := by
  simp only [posAfter, List.flatten_append, List.length_append, Position.mk.injEq]
  constructor
  · omega
  · rw [Nat.add_comm, Function.iterate_add_apply]

theorem linesFrom_append (a b : List (List UInt8)) (pos : Position) :
    linesFrom (a ++ b) pos = linesFrom a pos ++ linesFrom b (posAfter a pos) := by
  induction a generalizing pos with
  | nil => simp [linesFrom]
  | cons l ls ih => simp [linesFrom, ih, posAfter_cons]

@[simp] theorem length_linesFrom (raw : List (List UInt8)) (pos : Position) :
    (linesFrom raw pos).length = raw.length := by
  induction raw generalizing pos with
  | nil => rfl
  | cons l ls ih => simp [linesFrom, ih]

namespace Reader

/-- A fold of `visit` over delivered lines until it stops or fails: the
state, the position where a later read resumes, and the failure. -/
def visitLines {σ : Type} (visit : σ → Line → Visit σ) :
    List Line → σ → Position → σ × Position × Option Fault
  | [], st, pos => (st, pos, none)
  | l :: ls, st, pos =>
    match visit st l with
    | .next st' => visitLines visit ls st' ⟨l.endOffset, Position.nextLine l.number⟩
    | .stop st' => (st', pos, none)
    | .fail e st' => (st', pos, some e)

theorem foldLines_eq_visitLines {σ : Type} (visit : σ → Line → Visit σ)
    (raw : List (List UInt8)) (st : σ) (pos : Position) :
    foldLines visit raw st pos = visitLines visit (linesFrom raw pos) st pos := by
  induction raw generalizing st pos with
  | nil => rfl
  | cons l ls ih =>
    simp only [foldLines, linesFrom, visitLines]
    split <;> simp_all

/-- A visitor that never stops early. -/
def NeverStops {σ : Type} (visit : σ → Line → Visit σ) : Prop := ∀ st l st', visit st l ≠ .stop st'

/-- For a visitor that never stops, a read in two parts: the lines of `a`,
then those of `b` from where `a` ended, unless `a` failed. -/
theorem visitLines_append {σ : Type} {visit : σ → Line → Visit σ} (hv : NeverStops visit)
    (a b : List Line) (st : σ) (pos : Position) :
    visitLines visit (a ++ b) st pos =
      match visitLines visit a st pos with
      | (st', pos', none) => visitLines visit b st' pos'
      | r => r := by
  induction a generalizing st pos with
  | nil => rfl
  | cons l ls ih =>
    simp only [List.cons_append, visitLines]
    cases h : visit st l with
    | next st' => exact ih st' _
    | stop st' => exact absurd h (hv st l st')
    | fail e st' => rfl

end Reader

/-! ## Reading -/

private theorem byteArray_toList_loop (bs : ByteArray) (i : Nat) (r : List UInt8) :
    ByteArray.toList.loop bs i r = r.reverse ++ bs.data.toList.drop i := by
  fun_induction ByteArray.toList.loop bs i r with
  | case1 i r hi ih =>
    rw [ih]
    have hi₀ : i < bs.data.toList.length := by simpa using hi
    have hget : bs.get! i = bs.data.toList[i] := by
      obtain ⟨data⟩ := bs
      have hi' : i < data.size := hi
      simp [ByteArray.get!, getElem!_pos data i hi']
    rw [hget]
    conv_rhs => rw [List.drop_eq_getElem_cons (by simpa using hi)]
    simp
  | case2 i r hi =>
    rw [List.drop_eq_nil_of_le (by simp; omega)]
    simp

/-- The bytes of a byte array, in order. -/
theorem byteArray_toList (bs : ByteArray) : bs.toList = bs.data.toList := by
  show ByteArray.toList.loop bs 0 [] = _
  simpa using byteArray_toList_loop bs 0 []

/-- The bytes of a file from an offset up to its end. -/
theorem slice_toList_size (data : ByteArray) (a : Nat) :
    (slice data a data.size).toList = data.data.toList.drop a := by
  rw [byteArray_toList, slice, ByteArray.data_extract, Nat.min_self, Array.toList_extract,
    List.extract_eq_take_drop]
  rw [List.take_of_length_le]
  simp

namespace Reader

/-- An uncanceled read of an open file from the start of a line, up to the
size the reader has seen, folds the visitor over the lines of the bytes from
there, numbered from there. -/
theorem readLines_eq {σ : Type} {r : Reader} {s : Store} {f : Nat} (hh : r.handle = some f)
    (hsize : r.size = (s.contents f).size) {start : Position} (hstart : 0 ≤ start.offset)
    (init : σ) (visit : σ → Line → Visit σ) :
    r.readLines s false start (-1) init visit =
      visitLines visit
        (linesFrom (completeLines [] ((s.contents f).data.toList.drop start.offset.toNat)) start)
        init start := by
  unfold readLines
  rw [hh]
  have hstop : (if (-1 : Int) < 0 ∨ (-1 : Int) > r.size then (r.size : Int) else -1) = r.size := by
    simp
  simp only [hstop]
  split
  · rename_i hge
    rw [List.drop_eq_nil_of_le (by simp; omega)]
    rfl
  · rename_i hlt
    rw [if_neg (by decide), if_neg (by omega), foldLines_eq_visitLines, ← slice_toList_size,
      ← hsize, Int.toNat_natCast]

end Reader

end EventChart
