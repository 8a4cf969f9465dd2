import Mathlib
import EventChart.Match.Glob
/-!
# The language of a glob pattern

A glob pattern is read left to right into elements (`Element`, `Reads`): a
backslash makes the next character literal, `**` is one element, `*` and
`?` are elements, `{` opens an element closed by the next `}` whose body is
an integer range if it holds `..` and otherwise a set of characters and
`a-b` ranges, negated by a leading `^` (`BraceBody`), and every other
character stands for itself.  The reading stops at a lone backslash at the
end, a `{` without a later `}`, an empty set, or a range bound that is not a
64-bit integer (`Broken`).

A text matches a pattern when it splits into consecutive stretches, one per
element (`Splits`), each matched by its element as `Piece.Matches` says.
Adjacent literal characters are single elements here; a run of them matches
exactly the concatenation of their stretches.

`Glob.accepts` does not search for a split: it carries, piece by piece, the
set of text positions a split of a prefix can reach.  `advance_iff` says
what one piece does to that set, `foldl_advance_iff` carries it over all
pieces, and `compile_matches_language` puts it together with
`readPieces_ok_iff` and `readPieces_error_iff`, which say that compiling
reads the pattern as above.
-/

namespace EventChart.Match

open EventChart.Text

/-! ## Numbers -/

/-- A non-empty run of ASCII digits. -/
def IsDigits (w : List Char) : Prop := w ≠ [] ∧ ∀ c ∈ w, c.isDigit = true

/-- The base-10 value of a run of digits. -/
def decimalValue (w : List Char) : Nat := w.foldl (fun a c => 10 * a + (c.toNat - 48)) 0

/-- A range bound as a 64-bit signed integer: digits with an optional sign,
whose value fits. -/
inductive IsBound : List Char → Int → Prop
  | plain {w : List Char} : IsDigits w → decimalValue w < 2 ^ 63 → IsBound w (decimalValue w)
  | plus {w : List Char} : IsDigits w → decimalValue w < 2 ^ 63 → IsBound ('+' :: w) (decimalValue w)
  | minus {w : List Char} : IsDigits w → decimalValue w ≤ 2 ^ 63 →
      IsBound ('-' :: w) (-(decimalValue w : Int))

/-! ## What a piece matches -/

/-- The stretches of text a piece matches. -/
inductive Piece.Matches : Piece → List Char → Prop
  | char (c : Char) : Piece.Matches (.char c) [c]
  | one {c : Char} : c ≠ '.' → Piece.Matches .one [c]
  | set {rs : List (Char × Char)} {neg : Bool} {c : Char} :
      ((∃ r ∈ rs, r.1 ≤ c ∧ c ≤ r.2) ↔ neg = false) → Piece.Matches (.set rs neg) [c]
  | anyNoDot {w : List Char} : '.' ∉ w → Piece.Matches .anyNoDot w
  | any (w : List Char) : Piece.Matches .any w
  | range {lo hi : Option Int} {w : List Char} : IsDigits w → decimalValue w < 2 ^ 63 →
      (∀ l ∈ lo, l ≤ decimalValue w) → (∀ h ∈ hi, (decimalValue w : Int) ≤ h) →
      Piece.Matches (.range lo hi) w

/-- A text splits into consecutive stretches, one matched by each piece. -/
inductive Splits : List Piece → List Char → Prop
  | nil : Splits [] []
  | cons {p : Piece} {w : List Char} {ps : List Piece} {s : List Char} :
      p.Matches w → Splits ps s → Splits (p :: ps) (w ++ s)

theorem splits_nil_iff {s : List Char} : Splits [] s ↔ s = [] := by
  constructor
  · rintro ⟨⟩
    rfl
  · rintro rfl
    exact .nil

theorem splits_cons_iff {p : Piece} {ps : List Piece} {s : List Char} :
    Splits (p :: ps) s ↔ ∃ w₁ w₂, s = w₁ ++ w₂ ∧ p.Matches w₁ ∧ Splits ps w₂ := by
  constructor
  · rintro ⟨⟩
    next w₁ w₂ hm hs => exact ⟨w₁, w₂, rfl, hm, hs⟩
  · rintro ⟨w₁, w₂, rfl, hm, hs⟩
    exact .cons hm hs

/-! ## Stretches of the text -/

section Slices

variable (t : List Char)

/-- The characters of `t` from position `r` up to, not including, `q`. -/
def slice (r q : Nat) : List Char := (t.drop r).take (q - r)

variable {t}

theorem length_slice {r q : Nat} (h : q ≤ t.length) : (slice t r q).length = q - r := by
  simp [slice]
  omega

theorem slice_append {r m q : Nat} (h₁ : r ≤ m) (h₂ : m ≤ q) :
    slice t r m ++ slice t m q = slice t r q := by
  simp only [slice]
  have : q - r = (m - r) + (q - m) := by omega
  rw [this, List.take_add, List.drop_drop, Nat.add_sub_cancel' h₁]

/-- A split of a stretch is a split at a position between its ends. -/
theorem slice_eq_append {r q : Nat} {w₁ w₂ : List Char} (hr : r ≤ q) (hq : q ≤ t.length)
    (h : slice t r q = w₁ ++ w₂) :
    r + w₁.length ≤ q ∧ w₁ = slice t r (r + w₁.length) ∧ w₂ = slice t (r + w₁.length) q := by
  have hlen : (slice t r q).length = q - r := length_slice hq
  rw [h, List.length_append] at hlen
  have hm : r + w₁.length ≤ q := by omega
  have hsplit := slice_append (t := t) (Nat.le_add_right r w₁.length) hm
  rw [h] at hsplit
  have hl₁ : (slice t r (r + w₁.length)).length = w₁.length := by
    rw [length_slice (by omega)]
    omega
  obtain ⟨e₁, e₂⟩ := List.append_inj hsplit hl₁
  exact ⟨hm, e₁.symm, e₂.symm⟩

theorem slice_eq_nil_iff {r q : Nat} (h : r ≤ q) (hq : q ≤ t.length) : slice t r q = [] ↔ r = q := by
  rw [← List.length_eq_zero_iff, length_slice hq]
  omega

theorem slice_eq_singleton_iff {r q : Nat} {c : Char} (hq : q ≤ t.length) :
    slice t r q = [c] ↔ q = r + 1 ∧ t[r]? = some c := by
  constructor
  · intro h
    have hlen := length_slice (r := r) hq
    rw [h] at hlen
    have hq' : q = r + 1 := by simp at hlen; omega
    subst hq'
    have hr : r < t.length := by omega
    simp only [slice, Nat.add_sub_cancel_left] at h
    rw [List.take_one, List.head?_drop] at h
    simpa using h
  · rintro ⟨rfl, hc⟩
    simp only [slice, Nat.add_sub_cancel_left, List.take_one, List.head?_drop, hc]
    rfl

theorem slice_all {r : Nat} : slice t r t.length = t.drop r := by
  simp only [slice]
  exact List.take_of_length_le (by simp)

end Slices

/-! ## One piece -/

section Advance

variable {t : List Char}

theorem getD_ofFn {n : Nat} (f : Fin (n + 1) → Bool) {q : Nat} (hq : q ≤ n) :
    (Array.ofFn f).getD q false = f ⟨q, by omega⟩ := by
  simp [Array.getD, show q < n + 1 by omega]

theorem getD_step {reach : Array Bool} (ok : Nat → Bool) {q : Nat} (hq : q ≤ t.length) :
    (Glob.advance.step t.toArray reach ok).getD q false = true ↔
      0 < q ∧ reach.getD (q - 1) false = true ∧ ok (q - 1) = true := by
  rw [Glob.advance.step, getD_ofFn _ (by simpa using hq)]
  simp [and_assoc]

/-- A piece that matches one character with property `P` reaches `q` from
`q - 1`. -/
theorem exists_single_iff {A : Nat → Prop} {P : Char → Prop} {q : Nat} (hq : q ≤ t.length) :
    (∃ r ≤ q, A r ∧ ∃ c, slice t r q = [c] ∧ P c) ↔
      0 < q ∧ A (q - 1) ∧ ∃ c, t[q - 1]? = some c ∧ P c := by
  constructor
  · rintro ⟨r, -, hA, c, hs, hc⟩
    obtain ⟨rfl, hr⟩ := (slice_eq_singleton_iff hq).mp hs
    exact ⟨by omega, by simpa using hA, c, by simpa using hr, hc⟩
  · rintro ⟨hpos, hA, c, hr, hc⟩
    refine ⟨q - 1, by omega, hA, c, (slice_eq_singleton_iff hq).mpr ⟨by omega, hr⟩, hc⟩

theorem matches_char_iff {c : Char} {w : List Char} : (Piece.char c).Matches w ↔ w = [c] := by
  constructor
  · rintro ⟨⟩
    rfl
  · rintro rfl
    exact .char c

theorem matches_one_iff {w : List Char} : Piece.one.Matches w ↔ ∃ c, w = [c] ∧ c ≠ '.' := by
  constructor
  · intro h
    cases h with
    | one hc => exact ⟨_, rfl, hc⟩
  · rintro ⟨c, rfl, hc⟩
    exact .one hc

theorem matches_set_iff {rs : List (Char × Char)} {neg : Bool} {w : List Char} :
    (Piece.set rs neg).Matches w ↔ ∃ c, w = [c] ∧ Glob.inSet rs neg c = true := by
  have key : ∀ c, Glob.inSet rs neg c = true ↔ ((∃ r ∈ rs, r.1 ≤ c ∧ c ≤ r.2) ↔ neg = false) := by
    intro c
    cases neg <;> simp [Glob.inSet]
  constructor
  · intro h
    cases h with
    | set hc => exact ⟨_, rfl, (key _).mpr hc⟩
  · rintro ⟨c, rfl, hc⟩
    exact .set ((key c).mp hc)

theorem matches_anyNoDot_iff {w : List Char} : Piece.anyNoDot.Matches w ↔ '.' ∉ w := by
  constructor
  · intro h
    cases h with
    | anyNoDot hw => exact hw
  · exact .anyNoDot

theorem matches_range_iff {lo hi : Option Int} {w : List Char} :
    (Piece.range lo hi).Matches w ↔ IsDigits w ∧ decimalValue w < 2 ^ 63 ∧
      (∀ l ∈ lo, l ≤ decimalValue w) ∧ (∀ h ∈ hi, (decimalValue w : Int) ≤ h) := by
  constructor
  · intro h
    cases h with
    | range hd hv hl hh => exact ⟨hd, hv, hl, hh⟩
  · rintro ⟨hd, hv, hl, hh⟩
    exact .range hd hv hl hh

/-! ### Reading digits -/

theorem digitsValue_foldl {w : List Char} (h : ∀ c ∈ w, c.isDigit = true) (a : Nat) :
    w.foldl (fun acc c => acc.bind fun v => if c.isDigit then some (10 * v + (c.toNat - 48)) else none)
        (some a) = some (w.foldl (fun a c => 10 * a + (c.toNat - 48)) a) := by
  induction w generalizing a with
  | nil => rfl
  | cons c w ih =>
    have hc : c.isDigit = true := h c List.mem_cons_self
    simp only [List.foldl_cons, Option.bind_some, hc, if_true]
    exact ih (fun d hd => h d (List.mem_cons_of_mem _ hd)) _

theorem digitsValue_eq {w : List Char} (h : ∀ c ∈ w, c.isDigit = true) :
    digitsValue w = some (decimalValue w) :=
  digitsValue_foldl h 0

theorem ne_of_isDigit {c d : Char} (h : c.isDigit = true) (hd : d.isDigit = false) : c ≠ d := by
  rintro rfl
  simp [hd] at h

/-- Reading a run of digits as a 64-bit integer gives its value when it fits. -/
theorem readInt_digits {w : List Char} (hw : IsDigits w) :
    readInt 64 (String.ofList w) =
      if decimalValue w < 2 ^ 63 then .ok (decimalValue w) else .error .outOfRange := by
  obtain ⟨hne, hdig⟩ := hw
  obtain ⟨c, r, rfl⟩ := List.exists_cons_of_ne_nil hne
  have hc := hdig c List.mem_cons_self
  have h1 : c ≠ '-' := ne_of_isDigit hc (by decide)
  have h2 : c ≠ '+' := ne_of_isDigit hc (by decide)
  have hnum : readNumeral (String.ofList (c :: r)) = some (decimalValue (c :: r) : Int) := by
    unfold readNumeral
    rw [String.toList_ofList]
    split
    next neg ds heq =>
      split at heq
      · next heq' => exact absurd (List.cons.inj heq').1 h1
      · next heq' => exact absurd (List.cons.inj heq').1 h2
      · cases heq
        simp [digitsValue_eq hdig]
  have hpow : Int.pow 2 (64 - 1) = 2 ^ 63 := rfl
  rw [readInt, hnum]
  simp only [hpow]
  split
  · next hv => rw [if_pos (by omega)]
  · next hv => rw [if_neg (by omega)]

theorem rangeMatches_iff {lo hi : Option Int} {r q : Nat} (hq : q ≤ t.length) :
    Glob.rangeMatches lo hi t.toArray r q = true ↔ (Piece.range lo hi).Matches (slice t r q) := by
  have hslice : (t.toArray.extract r q).toList = slice t r q := by simp [slice]
  rw [matches_range_iff]
  unfold Glob.rangeMatches Glob.digitValue
  rw [hslice, ← Array.all_toList, hslice]
  dsimp only
  by_cases hd : IsDigits (slice t r q)
  · rw [readInt_digits hd]
    have hrq : r < q := by
      have := length_slice (r := r) hq
      have hne := hd.1
      rw [← List.length_pos_iff] at hne
      omega
    have hall : (slice t r q).all Char.isDigit = true := List.all_eq_true.mpr hd.2
    by_cases hv : decimalValue (slice t r q) < 2 ^ 63
    · simp only [hv, if_true, hrq, hall, hd, decide_true, Bool.true_and, true_and]
      cases lo <;> cases hi <;> simp
    · rw [if_neg hv]
      refine ⟨fun h => ?_, fun h => absurd h.2.1 hv⟩
      simp at h
  · simp only [hd, false_and, iff_false]
    intro h
    simp only [Bool.and_eq_true, decide_eq_true_eq] at h
    obtain ⟨⟨hrq, hall⟩, -⟩ := h
    refine hd ⟨?_, List.all_eq_true.mp hall⟩
    rw [← List.length_pos_iff, length_slice hq]
    omega

/-- A piece that matches one character satisfying `P` reaches exactly the
positions right after such a character at a reached position. -/
theorem getD_step_iff {reach : Array Bool} {A : Nat → Prop}
    (hA : ∀ q ≤ t.length, reach.getD q false = true ↔ A q) {ok : Nat → Bool} {P : Char → Prop}
    (hok : ∀ r < t.length, ok r = true ↔ ∃ c, t[r]? = some c ∧ P c) {q : Nat} (hq : q ≤ t.length) :
    (Glob.advance.step t.toArray reach ok).getD q false = true ↔
      ∃ r ≤ q, A r ∧ ∃ c, slice t r q = [c] ∧ P c := by
  rw [getD_step ok hq, exists_single_iff hq]
  constructor
  · rintro ⟨hpos, hr, hc⟩
    exact ⟨hpos, (hA _ (by omega)).mp hr, (hok _ (by omega)).mp hc⟩
  · rintro ⟨hpos, hr, hc⟩
    exact ⟨hpos, (hA _ (by omega)).mpr hr, (hok _ (by omega)).mpr hc⟩

/-- The positions one piece reaches from the positions `A` (given as an
array of flags): those `q` with a reached `r ≤ q` such that the piece matches
the stretch between them. -/
theorem advance_iff {reach : Array Bool} {A : Nat → Prop}
    (hA : ∀ q ≤ t.length, reach.getD q false = true ↔ A q) (p : Piece) {q : Nat}
    (hq : q ≤ t.length) :
    (Glob.advance t.toArray reach p).getD q false = true ↔
      ∃ r ≤ q, A r ∧ p.Matches (slice t r q) := by
  have hq' : q ≤ t.toArray.size := by simpa using hq
  cases p with
  | char c =>
    simp only [Glob.advance, matches_char_iff]
    rw [getD_step_iff hA (P := (· = c)) (fun r hr => by simp [hr]) hq]
    simp
  | one =>
    simp only [Glob.advance, matches_one_iff]
    rw [getD_step_iff hA (P := (· ≠ '.')) (fun r hr => by simp [hr]) hq]
  | set rs neg =>
    simp only [Glob.advance, matches_set_iff]
    rw [getD_step_iff hA (P := (Glob.inSet rs neg · = true)) (fun r hr => by simp [hr]) hq]
  | any =>
    simp only [Glob.advance]
    rw [getD_ofFn _ hq']
    simp only [List.any_eq_true, List.mem_range]
    constructor
    · rintro ⟨r, hr, hreach⟩
      exact ⟨r, by omega, (hA r (by omega)).mp hreach, .any _⟩
    · rintro ⟨r, hr, hAr, -⟩
      exact ⟨r, by omega, (hA r (by omega)).mpr hAr⟩
  | anyNoDot =>
    simp only [Glob.advance, matches_anyNoDot_iff]
    rw [getD_ofFn _ hq']
    have hslice : ∀ r, (t.toArray.extract r q).toList = slice t r q := fun r => by simp [slice]
    simp only [List.any_eq_true, List.mem_range, Bool.and_eq_true, ← Array.all_toList, hslice,
      List.all_eq_true, bne_iff_ne, ne_eq]
    constructor
    · rintro ⟨r, hr, hreach, hdot⟩
      exact ⟨r, by omega, (hA r (by omega)).mp hreach, fun h => hdot _ h rfl⟩
    · rintro ⟨r, hr, hAr, hdot⟩
      exact ⟨r, by omega, (hA r (by omega)).mpr hAr, fun c hc hcd => hdot (hcd ▸ hc)⟩
  | range lo hi =>
    simp only [Glob.advance]
    rw [getD_ofFn _ hq']
    simp only [List.any_eq_true, List.mem_range, Bool.and_eq_true, rangeMatches_iff hq]
    constructor
    · rintro ⟨r, hr, hreach, hm⟩
      exact ⟨r, by omega, (hA r (by omega)).mp hreach, hm⟩
    · rintro ⟨r, hr, hAr, hm⟩
      -- a range matches no empty stretch, so `r < q`
      have hne := ((matches_range_iff.mp hm).1).1
      have hrq : r < q := by
        rw [← List.length_pos_iff, length_slice hq] at hne
        omega
      exact ⟨r, hrq, (hA r (by omega)).mpr hAr, hm⟩

end Advance

/-! ## All pieces -/

section Fold

variable {t : List Char}

/-- Carrying the reached positions over a list of pieces: position `q` is
reached when some start position `r ≤ q` is and the stretch between them
splits over the pieces. -/
theorem foldl_advance_iff (ps : List Piece) {reach : Array Bool} {A : Nat → Prop}
    (hA : ∀ q ≤ t.length, reach.getD q false = true ↔ A q) {q : Nat} (hq : q ≤ t.length) :
    (ps.foldl (Glob.advance t.toArray) reach).getD q false = true ↔
      ∃ r ≤ q, A r ∧ Splits ps (slice t r q) := by
  induction ps generalizing reach A q with
  | nil =>
    rw [List.foldl_nil, hA q hq]
    constructor
    · intro hAq
      exact ⟨q, Nat.le_refl q, hAq, splits_nil_iff.mpr ((slice_eq_nil_iff (Nat.le_refl q) hq).mpr rfl)⟩
    · rintro ⟨r, hr, hAr, hs⟩
      rwa [← (slice_eq_nil_iff hr hq).mp (splits_nil_iff.mp hs)]
  | cons p ps ih =>
    rw [List.foldl_cons, ih (fun m hm => advance_iff hA p hm) hq]
    constructor
    · rintro ⟨m, hm, ⟨r, hr, hAr, hp⟩, hs⟩
      refine ⟨r, by omega, hAr, ?_⟩
      rw [← slice_append hr hm]
      exact .cons hp hs
    · rintro ⟨r, hr, hAr, hs⟩
      obtain ⟨w₁, w₂, hw, hp, hs⟩ := splits_cons_iff.mp hs
      obtain ⟨hm, h₁, h₂⟩ := slice_eq_append hr hq hw
      exact ⟨r + w₁.length, hm, ⟨r, by omega, hAr, h₁ ▸ hp⟩, h₂ ▸ hs⟩

/-- A compiled pattern accepts a text exactly when the text splits over its
pieces. -/
theorem accepts_iff_splits (g : Glob) (text : String) :
    g.accepts text = true ↔ Splits g.pieces text.toList := by
  have hstart : ∀ q ≤ text.toList.length,
      (Array.ofFn (n := text.toList.toArray.size + 1) fun q => q.val == 0).getD q false = true ↔
        q = 0 := by
    intro q hq
    rw [getD_ofFn _ (by simpa using hq)]
    simp
  unfold Glob.accepts
  rw [foldl_advance_iff g.pieces hstart (by simp), List.size_toArray]
  constructor
  · rintro ⟨r, -, rfl, hs⟩
    rwa [slice_all, List.drop_zero] at hs
  · intro hs
    refine ⟨0, Nat.zero_le _, rfl, ?_⟩
    rwa [slice_all, List.drop_zero]

end Fold

/-! ## Reading a pattern -/

section Reading

/-- Whether `..` occurs in a text. -/
def HasDots (w : List Char) : Prop := ['.', '.'] <:+: w

/-- An optional range bound: absent when its text is empty. -/
def ReadsBound (w : List Char) : Option Int → Prop
  | none => w = []
  | some v => IsBound w v

/-- The ranges of a set body read left to right: `a-b` is a range, any other
character stands for itself. -/
inductive SetItems : List Char → List (Char × Char) → Prop
  | nil : SetItems [] []
  | range (a b : Char) {rest : List Char} {rs : List (Char × Char)} :
      SetItems rest rs → SetItems (a :: '-' :: b :: rest) ((a, b) :: rs)
  | single (a : Char) {rest : List Char} {rs : List (Char × Char)} :
      (∀ b r, rest ≠ '-' :: b :: r) → SetItems rest rs → SetItems (a :: rest) ((a, a) :: rs)

/-- The element a brace body stands for: an integer range when the body
holds `..` (split at its first occurrence), else a set, negated by a leading
`^`. -/
inductive BraceBody : List Char → Piece → Prop
  | range {lo hi : List Char} {l h : Option Int} : ¬ HasDots (lo ++ ['.']) →
      ReadsBound lo l → ReadsBound hi h → BraceBody (lo ++ '.' :: '.' :: hi) (.range l h)
  | set {body : List Char} {rs : List (Char × Char)} : ¬ HasDots body → body ≠ [] →
      body.head? ≠ some '^' → SetItems body rs → BraceBody body (.set rs false)
  | negated {body : List Char} {rs : List (Char × Char)} : ¬ HasDots body → body ≠ [] →
      SetItems body rs → BraceBody ('^' :: body) (.set rs true)

/-- The characters that open an element of their own. -/
def IsSpecial (c : Char) : Prop := c = '\\' ∨ c = '*' ∨ c = '?' ∨ c = '{'

/-- The element at the front of a pattern, and what follows it. -/
inductive Element : List Char → Piece → List Char → Prop
  | escape (c : Char) (rest : List Char) : Element ('\\' :: c :: rest) (.char c) rest
  | any (rest : List Char) : Element ('*' :: '*' :: rest) .any rest
  | anyNoDot {rest : List Char} : rest.head? ≠ some '*' → Element ('*' :: rest) .anyNoDot rest
  | one (rest : List Char) : Element ('?' :: rest) .one rest
  | braces {body rest : List Char} {p : Piece} : '}' ∉ body → BraceBody body p →
      Element ('{' :: (body ++ '}' :: rest)) p rest
  | literal {c : Char} {rest : List Char} : ¬ IsSpecial c → Element (c :: rest) (.char c) rest

/-- A pattern read as a sequence of elements. -/
inductive Reads : List Char → List Piece → Prop
  | nil : Reads [] []
  | cons {src rest : List Char} {p : Piece} {ps : List Piece} :
      Element src p rest → Reads rest ps → Reads src (p :: ps)

/-- A pattern whose reading stops: after some elements comes a lone
backslash at the end, a `{` without a later `}`, an empty (possibly negated)
set, or a range with a bound that is not a 64-bit integer. -/
inductive Broken : List Char → Prop
  | loneEscape : Broken ['\\']
  | unclosed {rest : List Char} : '}' ∉ rest → Broken ('{' :: rest)
  | emptySet {body rest : List Char} : '}' ∉ body → (body = [] ∨ body = ['^']) →
      Broken ('{' :: (body ++ '}' :: rest))
  | badBound {lo hi rest : List Char} : '}' ∉ lo ++ '.' :: '.' :: hi → ¬ HasDots (lo ++ ['.']) →
      ((lo ≠ [] ∧ ∀ v, ¬ IsBound lo v) ∨ (hi ≠ [] ∧ ∀ v, ¬ IsBound hi v)) →
      Broken ('{' :: ((lo ++ '.' :: '.' :: hi) ++ '}' :: rest))
  | after {src rest : List Char} {p : Piece} : Element src p rest → Broken rest → Broken src

/-! ### Results of a computation that can fail -/

theorem bind_eq_ok_iff {ε α β : Type} {x : Except ε α} {f : α → Except ε β} {b : β} :
    x >>= f = .ok b ↔ ∃ a, x = .ok a ∧ f a = .ok b := by
  cases x <;> simp [bind, Except.bind]

theorem bind_eq_error_iff {ε α β : Type} {x : Except ε α} {f : α → Except ε β} {e : ε} :
    x >>= f = .error e ↔ x = .error e ∨ ∃ a, x = .ok a ∧ f a = .error e := by
  cases x <;> simp [bind, Except.bind]

/-! ### `..` -/

theorem hasDots_cons {c : Char} {w : List Char} :
    HasDots (c :: w) ↔ (c = '.' ∧ w.head? = some '.') ∨ HasDots w := by
  unfold HasDots
  rw [List.infix_cons_iff]
  constructor
  · rintro (⟨u, hu⟩ | h)
    · simp only [List.cons_append, List.cons.injEq] at hu
      obtain ⟨rfl, rfl⟩ := hu
      exact .inl ⟨rfl, rfl⟩
    · exact .inr h
  · rintro (⟨rfl, hw⟩ | h)
    · obtain ⟨u, rfl⟩ : ∃ u, w = '.' :: u := by
        cases w with
        | nil => cases hw
        | cons d u => cases hw; exact ⟨u, rfl⟩
      exact .inl ⟨u, rfl⟩
    · exact .inr h

theorem not_hasDots_nil : ¬ HasDots [] := fun h => by
  have := h.length_le
  simp at this

theorem not_hasDots_singleton (c : Char) : ¬ HasDots [c] := fun h => by
  have := h.length_le
  simp at this

/-- The first `..` of a text is where `splitDots` cuts it. -/
theorem splitDots_append {lo hi : List Char} (h : ¬ HasDots (lo ++ ['.'])) :
    splitDots (lo ++ '.' :: '.' :: hi) = some (lo, hi) := by
  induction lo with
  | nil => rfl
  | cons c lo ih =>
    rw [List.cons_append, hasDots_cons, not_or] at h
    have hside : ∀ rest, c = '.' → lo ++ '.' :: '.' :: hi = '.' :: rest → False := by
      intro rest hc hrest
      apply h.1 ⟨hc, ?_⟩
      cases lo with
      | nil => rfl
      | cons d lo => simp only [List.cons_append, List.cons.injEq] at hrest; simp [hrest.1]
    rw [List.cons_append, splitDots.eq_2 _ _ hside, ih h.2]
    rfl

theorem splitDots_eq_some {w lo hi : List Char} (h : splitDots w = some (lo, hi)) :
    w = lo ++ '.' :: '.' :: hi ∧ ¬ HasDots (lo ++ ['.']) := by
  induction w using splitDots.induct generalizing lo hi with
  | case1 rest =>
    simp only [splitDots, Option.some.injEq, Prod.mk.injEq] at h
    obtain ⟨rfl, rfl⟩ := h
    exact ⟨rfl, not_hasDots_singleton '.'⟩
  | case2 c rest hside ih =>
    rw [splitDots.eq_2 _ _ hside] at h
    obtain ⟨⟨lo', hi'⟩, h', hlh⟩ := Option.map_eq_some_iff.mp h
    simp only [Prod.mk.injEq] at hlh
    obtain ⟨rfl, rfl⟩ := hlh
    obtain ⟨rfl, hnot⟩ := ih h'
    refine ⟨rfl, ?_⟩
    rw [List.cons_append, hasDots_cons]
    rintro (⟨rfl, hd⟩ | hd)
    · cases lo' with
      | nil => exact hside ('.' :: hi') rfl rfl
      | cons d lo' =>
        simp only [List.cons_append, List.head?_cons, Option.some.injEq] at hd
        subst hd
        exact hside _ rfl rfl
    · exact hnot hd
  | case3 => cases h

theorem splitDots_eq_none_iff {w : List Char} : splitDots w = none ↔ ¬ HasDots w := by
  induction w using splitDots.induct with
  | case1 rest =>
    simp only [splitDots, reduceCtorEq, false_iff]
    exact fun h => h ⟨[], rest, rfl⟩
  | case2 c rest hside ih =>
    rw [splitDots.eq_2 _ _ hside, Option.map_eq_none_iff, ih, hasDots_cons]
    constructor
    · rintro hnot (⟨rfl, hd⟩ | hd)
      · cases rest with
        | nil => cases hd
        | cons d rest => cases hd; exact hside rest rfl rfl
      · exact hnot hd
    · exact fun h hd => h (.inr hd)
  | case3 => exact ⟨fun _ => not_hasDots_nil, fun _ => rfl⟩

/-! ### Sets and bounds -/

theorem setItems_setRanges (body : List Char) : SetItems body (setRanges body) := by
  induction body using setRanges.induct with
  | case1 a b rest ih => exact .range a b ih
  | case2 a rest hside ih =>
    rw [setRanges.eq_2 _ _ hside]
    exact .single a (fun b r h => hside b r h) ih
  | case3 => exact .nil

theorem eq_setRanges {body : List Char} {rs : List (Char × Char)} (h : SetItems body rs) :
    rs = setRanges body := by
  induction h with
  | nil => rfl
  | range a b _ ih => rw [ih]; rfl
  | single a hside _ ih => rw [ih, setRanges.eq_2 _ _ (fun b r h => hside b r h)]

/-- The accumulator of `digitsValue` stays a value exactly while the
characters are digits. -/
theorem digitsValue_foldl_eq_some {w : List Char} {d : Nat} (acc : Option Nat)
    (h : w.foldl (fun acc c => acc.bind fun v =>
      if c.isDigit then some (10 * v + (c.toNat - 48)) else none) acc = some d) :
    (∀ c ∈ w, c.isDigit = true) ∧ ∃ a, acc = some a ∧
      d = w.foldl (fun a c => 10 * a + (c.toNat - 48)) a := by
  induction w generalizing acc with
  | nil => exact ⟨by simp, d, h, rfl⟩
  | cons c w ih =>
    rw [List.foldl_cons] at h
    obtain ⟨hdig, a', ha', hd⟩ := ih _ h
    cases acc with
    | none => cases ha'
    | some a =>
      by_cases hc : c.isDigit = true
      · simp only [Option.bind_some, hc, if_true, Option.some.injEq] at ha'
        subst ha'
        exact ⟨fun x hx => (List.mem_cons.mp hx).elim (· ▸ hc) (hdig x), a, rfl, hd⟩
      · simp [hc] at ha'

theorem digitsValue_eq_some {w : List Char} {d : Nat} (h : digitsValue w = some d) :
    (∀ c ∈ w, c.isDigit = true) ∧ d = decimalValue w := by
  obtain ⟨hdig, a, ha, hd⟩ := digitsValue_foldl_eq_some (some 0) h
  cases ha
  exact ⟨hdig, hd⟩

theorem ne_nil_of_isBound {w : List Char} {v : Int} (h : IsBound w v) : w ≠ [] := by
  cases h with
  | plain hd => exact hd.1
  | plus => simp
  | minus => simp

theorem signed_eq_some_iff {neg : Bool} {ds : List Char} {n : Int} :
    (if ds.isEmpty = true then none
      else (digitsValue ds).map fun v => if neg = true then -(v : Int) else v) = some n ↔
      IsDigits ds ∧ n = if neg = true then -(decimalValue ds : Int) else decimalValue ds := by
  constructor
  · intro h
    split at h
    · cases h
    · next hne =>
      obtain ⟨d, hd, rfl⟩ := Option.map_eq_some_iff.mp h
      obtain ⟨m, hm, rfl⟩ : ∃ m, digitsValue ds = some m ∧ (m : Int) = d := by
        simpa [Option.bind_eq_some_iff] using hd
      obtain ⟨hdig, rfl⟩ := digitsValue_eq_some hm
      exact ⟨⟨by simpa using hne, hdig⟩, rfl⟩
  · rintro ⟨⟨hne, hdig⟩, rfl⟩
    rw [if_neg (by simpa using hne), digitsValue_eq hdig]
    rfl

theorem isDigits_cons {c : Char} {r : List Char} (h : IsDigits (c :: r)) : c ≠ '-' ∧ c ≠ '+' := by
  have hc := h.2 c List.mem_cons_self
  exact ⟨ne_of_isDigit hc (by decide), ne_of_isDigit hc (by decide)⟩

/-- A numeral is a run of digits, signed or not. -/
theorem readNumeral_eq_some_iff {w : List Char} {n : Int} :
    readNumeral (String.ofList w) = some n ↔ ∃ ds, IsDigits ds ∧
      ((w = ds ∧ n = decimalValue ds) ∨ (w = '+' :: ds ∧ n = decimalValue ds) ∨
        (w = '-' :: ds ∧ n = -(decimalValue ds : Int))) := by
  unfold readNumeral
  rw [String.toList_ofList]
  split
  next neg ds heq =>
    rw [signed_eq_some_iff]
    split at heq
    · next _ r =>
      obtain ⟨rfl, rfl⟩ := Prod.mk.inj heq
      constructor
      · rintro ⟨hd, rfl⟩
        exact ⟨r, hd, .inr (.inr ⟨rfl, rfl⟩)⟩
      · rintro ⟨ds', hd, ⟨rfl, -⟩ | ⟨h, -⟩ | ⟨h, rfl⟩⟩
        · exact absurd rfl (isDigits_cons hd).1
        · simp at h
        · cases h
          exact ⟨hd, rfl⟩
    · next _ r =>
      obtain ⟨rfl, rfl⟩ := Prod.mk.inj heq
      constructor
      · rintro ⟨hd, rfl⟩
        exact ⟨r, hd, .inr (.inl ⟨rfl, rfl⟩)⟩
      · rintro ⟨ds', hd, ⟨rfl, -⟩ | ⟨h, rfl⟩ | ⟨h, -⟩⟩
        · exact absurd rfl (isDigits_cons hd).2
        · cases h
          exact ⟨hd, rfl⟩
        · simp at h
    · next _ hm hp =>
      cases heq
      constructor
      · rintro ⟨hd, rfl⟩
        exact ⟨w, hd, .inl ⟨rfl, rfl⟩⟩
      · rintro ⟨ds', hd, ⟨rfl, rfl⟩ | ⟨h, -⟩ | ⟨h, -⟩⟩
        · exact ⟨hd, rfl⟩
        · exact (hp _ h).elim
        · exact (hm _ h).elim

theorem readInt_eq_ok_iff {s : String} {v : Int} :
    readInt 64 s = .ok v ↔ readNumeral s = some v ∧ -2 ^ 63 ≤ v ∧ v < 2 ^ 63 := by
  have hpow : Int.pow 2 (64 - 1) = 2 ^ 63 := rfl
  unfold readInt
  split
  · next hn => simp [hn]
  · next n hn =>
    rw [hpow, hn]
    split
    · next hb =>
      simp only [Except.ok.injEq, Option.some.injEq]
      exact ⟨fun h => ⟨h, h ▸ hb⟩, fun h => h.1⟩
    · next hb => simp only [reduceCtorEq, false_iff, Option.some.injEq]; omega

/-- A text reads as a 64-bit integer exactly when it is a range bound. -/
theorem readInt_ok_iff {w : List Char} {v : Int} :
    readInt 64 (String.ofList w) = .ok v ↔ IsBound w v := by
  rw [readInt_eq_ok_iff, readNumeral_eq_some_iff]
  constructor
  · rintro ⟨⟨ds, hd, ⟨rfl, rfl⟩ | ⟨rfl, rfl⟩ | ⟨rfl, rfl⟩⟩, hlo, hhi⟩
    · exact .plain hd (by omega)
    · exact .plus hd (by omega)
    · exact .minus hd (by omega)
  · intro h
    cases h with
    | plain hd hb => exact ⟨⟨_, hd, .inl ⟨rfl, rfl⟩⟩, by omega, by omega⟩
    | plus hd hb => exact ⟨⟨_, hd, .inr (.inl ⟨rfl, rfl⟩)⟩, by omega, by omega⟩
    | minus hd hb => exact ⟨⟨_, hd, .inr (.inr ⟨rfl, rfl⟩)⟩, by omega, by omega⟩

/-! ### Brace bodies -/

/-- One bound of a range body as `readBraces` reads it: no text is no bound. -/
def readBound (pos : Nat) (cs : List Char) : Except (Nat × String) (Option Int) :=
  if cs.isEmpty then .ok none
  else match readInt 64 (String.ofList cs) with
    | .ok v => .ok (some v)
    | .error _ => .error (pos, "invalid range bound " ++ quote (String.ofList cs))

theorem readBraces_of_splitDots {pos : Nat} {body lo hi : List Char}
    (hs : splitDots body = some (lo, hi)) :
    readBraces pos body =
      readBound pos lo >>= fun l => readBound pos hi >>= fun h => pure (.range l h) := by
  unfold readBraces
  rw [hs]
  rfl

theorem readBraces_negated {pos : Nat} {r : List Char} (hs : ¬ HasDots ('^' :: r)) :
    readBraces pos ('^' :: r) =
      if r.isEmpty then .error (pos, "empty character set") else .ok (.set (setRanges r) true) := by
  unfold readBraces
  rw [splitDots_eq_none_iff.mpr hs]
  rfl

theorem readBraces_plain {pos : Nat} {body : List Char} (hs : ¬ HasDots body)
    (hc : body.head? ≠ some '^') :
    readBraces pos body =
      if body.isEmpty then .error (pos, "empty character set")
      else .ok (.set (setRanges body) false) := by
  unfold readBraces
  rw [splitDots_eq_none_iff.mpr hs]
  dsimp only
  split
  · exact absurd rfl hc
  · rfl

theorem readBound_eq_ok_iff {pos : Nat} {cs : List Char} {b : Option Int} :
    readBound pos cs = .ok b ↔ ReadsBound cs b := by
  unfold readBound
  split
  · next he =>
    rw [List.isEmpty_iff.mp he]
    cases b with
    | none => simp [ReadsBound]
    | some v => simpa [ReadsBound] using fun h => ne_nil_of_isBound h rfl
  · next hne =>
    have hne : cs ≠ [] := by simpa using hne
    split
    · next v hv =>
      cases b with
      | none => simpa [ReadsBound] using hne
      | some v' => simp only [Except.ok.injEq, Option.some.injEq, ReadsBound, ← readInt_ok_iff, hv]
    · next e hv =>
      cases b with
      | none => simpa [ReadsBound] using hne
      | some v' => simp [ReadsBound, ← readInt_ok_iff, hv]

theorem readBound_eq_error_iff {pos : Nat} {cs : List Char} :
    (∃ e, readBound pos cs = .error e) ↔ cs ≠ [] ∧ ∀ v, ¬ IsBound cs v := by
  unfold readBound
  split
  · next he => simp [List.isEmpty_iff.mp he]
  · next hne =>
    have hne : cs ≠ [] := by simpa using hne
    split
    · next v hv =>
      simp only [reduceCtorEq, exists_false, false_iff, not_and]
      exact fun _ h => h v (readInt_ok_iff.mp hv)
    · next e hv =>
      refine ⟨fun _ => ⟨hne, fun v hb => ?_⟩, fun _ => ⟨_, rfl⟩⟩
      rw [← readInt_ok_iff, hv] at hb
      cases hb

/-- A brace body that is neither a range nor a set: an empty set, or a
range with a bound that is not a 64-bit integer. -/
def BadBody (body : List Char) : Prop :=
  (body = [] ∨ body = ['^']) ∨ ∃ lo hi, body = lo ++ '.' :: '.' :: hi ∧ ¬ HasDots (lo ++ ['.']) ∧
    ((lo ≠ [] ∧ ∀ v, ¬ IsBound lo v) ∨ (hi ≠ [] ∧ ∀ v, ¬ IsBound hi v))

theorem readBraces_eq_ok_iff {pos : Nat} {body : List Char} {p : Piece} :
    readBraces pos body = .ok p ↔ BraceBody body p := by
  constructor
  · intro h
    cases hs : splitDots body with
    | some lh =>
      obtain ⟨lo, hi⟩ := lh
      obtain ⟨rfl, hnd⟩ := splitDots_eq_some hs
      rw [readBraces_of_splitDots hs] at h
      simp only [bind_eq_ok_iff, readBound_eq_ok_iff] at h
      obtain ⟨l, hl, h', hh, hp⟩ := h
      cases hp
      exact .range hnd hl hh
    | none =>
      have hnd := splitDots_eq_none_iff.mp hs
      by_cases hc : body.head? = some '^'
      · obtain ⟨r, rfl⟩ : ∃ r, body = '^' :: r := by
          cases body with
          | nil => cases hc
          | cons c r => cases hc; exact ⟨r, rfl⟩
        rw [readBraces_negated hnd] at h
        split at h
        · cases h
        · next hne =>
          cases h
          exact .negated (fun hd => hnd (hasDots_cons.mpr (.inr hd))) (by simpa using hne)
            (setItems_setRanges r)
      · rw [readBraces_plain hnd hc] at h
        split at h
        · cases h
        · next hne =>
          cases h
          exact .set hnd (by simpa using hne) hc (setItems_setRanges body)
  · intro h
    cases h with
    | range hnd hl hh =>
      rw [readBraces_of_splitDots (splitDots_append hnd), readBound_eq_ok_iff.mpr hl,
        readBound_eq_ok_iff.mpr hh]
      rfl
    | set hnd hne hc hitems =>
      rw [readBraces_plain hnd hc, if_neg (by simpa using hne), ← eq_setRanges hitems]
    | @negated body rs hnd hne hitems =>
      have hnd' : ¬ HasDots ('^' :: body) := by
        rw [hasDots_cons]
        rintro (⟨h, -⟩ | h)
        · cases h
        · exact hnd h
      rw [readBraces_negated hnd', if_neg (by simpa using hne), ← eq_setRanges hitems]

theorem readBraces_eq_error_iff {pos : Nat} {body : List Char} :
    (∃ e, readBraces pos body = .error e) ↔ BadBody body := by
  constructor
  · rintro ⟨e, h⟩
    cases hs : splitDots body with
    | some lh =>
      obtain ⟨lo, hi⟩ := lh
      obtain ⟨rfl, hnd⟩ := splitDots_eq_some hs
      rw [readBraces_of_splitDots hs, bind_eq_error_iff] at h
      refine .inr ⟨lo, hi, rfl, hnd, ?_⟩
      rcases h with hl | ⟨l, -, h⟩
      · exact .inl (readBound_eq_error_iff.mp ⟨e, hl⟩)
      · rw [bind_eq_error_iff] at h
        rcases h with hh | ⟨_, -, hp⟩
        · exact .inr (readBound_eq_error_iff.mp ⟨e, hh⟩)
        · cases hp
    | none =>
      have hnd := splitDots_eq_none_iff.mp hs
      refine .inl ?_
      by_cases hc : body.head? = some '^'
      · obtain ⟨r, rfl⟩ : ∃ r, body = '^' :: r := by
          cases body with
          | nil => cases hc
          | cons c r => cases hc; exact ⟨r, rfl⟩
        rw [readBraces_negated hnd] at h
        split at h
        · next he => exact .inr (by rw [List.isEmpty_iff.mp he])
        · cases h
      · rw [readBraces_plain hnd hc] at h
        split at h
        · next he => exact .inl (List.isEmpty_iff.mp he)
        · cases h
  · rintro ((rfl | rfl) | ⟨lo, hi, rfl, hnd, hbad⟩)
    · exact ⟨_, rfl⟩
    · exact ⟨_, rfl⟩
    · rw [readBraces_of_splitDots (splitDots_append hnd)]
      rcases hbad with hl | hh
      · obtain ⟨e, he⟩ := readBound_eq_error_iff.mpr hl
        exact ⟨e, by rw [he]; rfl⟩
      · obtain ⟨e, he⟩ := readBound_eq_error_iff.mpr hh
        cases hl : readBound pos lo with
        | error e' => exact ⟨e', rfl⟩
        | ok l => exact ⟨e, by rw [he]; rfl⟩

/-! ### Whole patterns -/

/-- The first `}` after a body without one closes it. -/
theorem idxOf?_close {body rest : List Char} (h : '}' ∉ body) :
    (body ++ '}' :: rest).idxOf? '}' = some body.length := by
  refine List.idxOf?_eq_some_iff.mpr ⟨by simp, by simp, fun j hj he => h ?_⟩
  rw [List.getElem_append_left (by simpa using hj)] at he
  exact he ▸ List.getElem_mem _

theorem split_of_idxOf? {rest : List Char} {k : Nat} (h : rest.idxOf? '}' = some k) :
    rest = rest.take k ++ '}' :: rest.drop (k + 1) ∧ '}' ∉ rest.take k := by
  obtain ⟨hk, hc, hbefore⟩ := List.idxOf?_eq_some_iff.mp h
  refine ⟨?_, fun hm => ?_⟩
  · calc rest = rest.take k ++ rest.drop k := (List.take_append_drop k rest).symm
      _ = rest.take k ++ '}' :: rest.drop (k + 1) := by rw [List.drop_eq_getElem_cons hk, hc]
  · obtain ⟨j, hj, he⟩ := List.getElem_of_mem hm
    rw [List.getElem_take] at he
    exact hbefore j (Nat.lt_of_lt_of_le hj (List.length_take_le k rest)) he

theorem take_drop_close (body rest : List Char) :
    (body ++ '}' :: rest).take body.length = body ∧
      (body ++ '}' :: rest).drop (body.length + 1) = rest := by
  simp

theorem broken_braces {body rest : List Char} (hc : '}' ∉ body) (hb : BadBody body) :
    Broken ('{' :: (body ++ '}' :: rest)) := by
  rcases hb with hempty | ⟨lo, hi, rfl, hnd, hbad⟩
  · exact .emptySet hc hempty
  · exact .badBound hc hnd hbad

/-- What reading a pattern gives, in terms of the grammar: the elements
read, or a pattern that breaks off. -/
def ReadsAs (src : List Char) : Except (Nat × String) (List Piece) → Prop
  | .ok ps => Reads src ps
  | .error _ => Broken src

theorem readsAs_cons {src rest : List Char} {p : Piece} (he : Element src p rest)
    {r : Except (Nat × String) (List Piece)} (h : ReadsAs rest r) :
    ReadsAs src ((p :: ·) <$> r) := by
  cases r with
  | ok ps => exact Reads.cons he h
  | error e => exact Broken.after he h

/-- Every outcome of `readPieces` is accounted for by the grammar. -/
theorem readPieces_readsAs (src : List Char) (pos : Nat) : ReadsAs src (readPieces src pos) := by
  induction src, pos using readPieces.induct with
  | case1 pos => rw [readPieces.eq_1]; exact Reads.nil
  | case2 pos => rw [readPieces.eq_2]; exact Broken.loneEscape
  | case3 pos c rest ih => rw [readPieces.eq_3]; exact readsAs_cons (.escape c rest) ih
  | case4 pos rest ih => rw [readPieces.eq_4]; exact readsAs_cons (.any rest) ih
  | case5 pos rest hside ih =>
    rw [readPieces.eq_5 _ _ hside]
    refine readsAs_cons (.anyNoDot fun hs => ?_) ih
    cases rest with
    | nil => cases hs
    | cons d r => cases hs; exact hside r rfl
  | case6 pos rest ih => rw [readPieces.eq_6]; exact readsAs_cons (.one rest) ih
  | case7 pos rest hnone =>
    rw [readPieces.eq_7, hnone]
    exact Broken.unclosed (List.idxOf?_eq_none_iff.mp hnone)
  | case8 pos rest k hk ih =>
    rw [readPieces.eq_7, hk]
    dsimp only
    obtain ⟨hsplit, hc⟩ := split_of_idxOf? hk
    -- the body is read first; only when it is good does the reading go on
    cases hb : readBraces pos (rest.take k) with
    | ok p =>
      have he := @Element.braces _ (rest.drop (k + 1)) _ hc (readBraces_eq_ok_iff.mp hb)
      rw [← hsplit] at he
      simp only [bind_pure_comp]
      exact readsAs_cons he ih
    | error e =>
      have hbroken := @broken_braces _ (rest.drop (k + 1)) hc
        (readBraces_eq_error_iff.mp ⟨e, hb⟩)
      rw [← hsplit] at hbroken
      exact hbroken
  | case9 pos c rest h1 h2 h3 h4 h5 h6 ih =>
    rw [readPieces.eq_8 _ _ _ h1 h2 h3 h4 h5 h6]
    refine readsAs_cons (.literal fun hs => ?_) ih
    rcases hs with rfl | rfl | rfl | rfl
    · cases rest with
      | nil => exact h1 rfl rfl
      | cons d r => exact h2 d r rfl rfl
    · exact h4 rfl
    · exact h5 rfl
    · exact h6 rfl

/-- Reading an element moves `readPieces` past it. -/
theorem readPieces_element {src rest : List Char} {p : Piece} (he : Element src p rest)
    (pos : Nat) : ∃ pos', readPieces src pos = (p :: ·) <$> readPieces rest pos' := by
  cases he with
  | escape c rest => exact ⟨pos + 2, readPieces.eq_3 pos c rest⟩
  | any rest => exact ⟨pos + 2, readPieces.eq_4 pos rest⟩
  | anyNoDot hs =>
    refine ⟨pos + 1, readPieces.eq_5 _ _ fun r hr => hs ?_⟩
    rw [hr]
    rfl
  | one rest => exact ⟨pos + 1, readPieces.eq_6 pos rest⟩
  | @braces body rest p hc hb =>
    refine ⟨pos + body.length + 2, ?_⟩
    rw [readPieces.eq_7, idxOf?_close hc]
    dsimp only
    rw [(take_drop_close body rest).1, (take_drop_close body rest).2,
      readBraces_eq_ok_iff.mpr hb]
    simp only [bind_pure_comp]
    rfl
  | @literal c rest hs =>
    refine ⟨pos + 1, readPieces.eq_8 _ _ _ ?_ ?_ ?_ ?_ ?_ ?_⟩ <;> intros <;>
      exact hs (by simp_all [IsSpecial])

theorem readPieces_of_reads {src : List Char} {ps : List Piece} (h : Reads src ps) (pos : Nat) :
    readPieces src pos = .ok ps := by
  induction h generalizing pos with
  | nil => exact readPieces.eq_1 pos
  | cons he _ ih =>
    obtain ⟨pos', hp⟩ := readPieces_element he pos
    rw [hp, ih]
    rfl

theorem readPieces_of_broken {src : List Char} (h : Broken src) (pos : Nat) :
    ∃ e, readPieces src pos = .error e := by
  induction h generalizing pos with
  | loneEscape => exact ⟨_, readPieces.eq_2 pos⟩
  | unclosed hc => exact ⟨_, by rw [readPieces.eq_7, List.idxOf?_eq_none_iff.mpr hc]⟩
  | @emptySet body rest hc hempty =>
    obtain ⟨e, hb⟩ := (@readBraces_eq_error_iff pos body).mpr (.inl hempty)
    refine ⟨e, ?_⟩
    rw [readPieces.eq_7, idxOf?_close hc]
    dsimp only
    rw [(take_drop_close _ rest).1, hb]
    rfl
  | @badBound lo hi rest hc hnd hbad =>
    obtain ⟨e, hb⟩ := (@readBraces_eq_error_iff pos (lo ++ '.' :: '.' :: hi)).mpr
      (.inr ⟨lo, hi, rfl, hnd, hbad⟩)
    refine ⟨e, ?_⟩
    rw [readPieces.eq_7, idxOf?_close hc]
    dsimp only
    rw [(take_drop_close _ rest).1, hb]
    rfl
  | after he _ ih =>
    obtain ⟨pos', hp⟩ := readPieces_element he pos
    obtain ⟨e, he'⟩ := ih pos'
    exact ⟨e, by rw [hp, he']; rfl⟩

theorem readPieces_ok_iff {src : List Char} {pos : Nat} {ps : List Piece} :
    readPieces src pos = .ok ps ↔ Reads src ps := by
  refine ⟨fun h => ?_, fun h => readPieces_of_reads h pos⟩
  have := readPieces_readsAs src pos
  rw [h] at this
  exact this

theorem readPieces_error_iff {src : List Char} {pos : Nat} :
    (∃ e, readPieces src pos = .error e) ↔ Broken src := by
  refine ⟨fun ⟨e, h⟩ => ?_, fun h => readPieces_of_broken h pos⟩
  have := readPieces_readsAs src pos
  rw [h] at this
  exact this

/-- A pattern reads in at most one way. -/
theorem reads_unique {src : List Char} {ps ps' : List Piece} (h : Reads src ps)
    (h' : Reads src ps') : ps = ps' := by
  have := (readPieces_of_reads h 0).symm.trans (readPieces_of_reads h' 0)
  exact Except.ok.inj this

end Reading

/-! ## Compiling -/

theorem compile_eq_ok_iff {src : String} {g : Glob} :
    Glob.compile src = .ok g ↔ g.source = src ∧ Reads src.toList g.pieces := by
  unfold Glob.compile
  split
  · next ps hps =>
    rw [Except.ok.injEq, ← readPieces_ok_iff, hps, Except.ok.injEq]
    constructor
    · rintro rfl
      exact ⟨rfl, rfl⟩
    · rintro ⟨rfl, rfl⟩
      rfl
  · next pos msg hps =>
    simp only [reduceCtorEq, false_iff, not_and]
    intro _ hr
    rw [readPieces_of_reads hr] at hps
    cases hps

theorem compile_error_iff {src : String} :
    (∃ e, Glob.compile src = .error e) ↔ Broken src.toList := by
  rw [← @readPieces_error_iff _ 0]
  unfold Glob.compile
  split
  · next ps hps => simp [hps]
  · next pos msg hps => exact ⟨fun _ => ⟨_, hps⟩, fun _ => ⟨_, rfl⟩⟩

end EventChart.Match
