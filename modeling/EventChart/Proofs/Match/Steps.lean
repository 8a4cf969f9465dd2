import EventChart.Proofs.Match.Reading
/-!
# Reading a filter text, step by step

The lemmas here let a proof follow the reader of filter expressions one rule at a
time on a given token list, and go between `Filter.parse` and its rules.

* `Step.Yields s v q` says a step reads the value `v` and leaves the cursor at
  position `q`; `noted`, `map` and `required` carry it through the combinators,
  and the `firstOf` lemmas through an alternative, also past an alternative
  that fails before it has read two tokens.
* The token lemmas say what `keyword`, `punct` and `ofKind` do on the token at
  the cursor, and `Input.HasAt` says that a list of tokens stands in the input
  from some position on.
* `Filter.parse_of_reads` and `Filter.reads_of_parse` are the two directions
  between a text that parses and its tokens read to their end by `orExpr`.
-/

namespace EventChart.Match

open EventChart.Text

/-! ## Steps that read to a position -/

section yields

variable {α β : Type}

/-- A step that reads the value `v` and ends at position `q`. -/
def Step.Yields (s : Step α) (v : α) (q : Nat) : Prop := ∃ d, s = .ok v d ∧ d.pos = q

theorem Step.Yields.noted {s : Step α} {v : α} {q : Nat} (h : s.Yields v q) : s.noted.Yields v q := by
  obtain ⟨d, rfl, hd⟩ := h
  exact ⟨d, rfl, hd⟩

theorem Step.Yields.map {s : Step α} {v : α} {q : Nat} (f : α → β) (h : s.Yields v q) :
    (s.map f).Yields (f v) q := by
  obtain ⟨d, rfl, hd⟩ := h
  exact ⟨d, rfl, hd⟩

theorem Step.Yields.of_eq {s : Step α} {v : α} {q q' : Nat} (h : s.Yields v q) (hq : q = q') : s.Yields v q' :=
  hq ▸ h

theorem Step.Yields.required {inp : Input} {c : Cursor} {x : String} {s : Step α} {v : α} {q : Nat}
    (h : s.Yields v q) : (inp.required c x s).Yields v q := by
  obtain ⟨d, rfl, hd⟩ := h
  exact ⟨d, rfl, hd⟩

namespace Input

variable {a : Cursor → Step α} {as : List (Cursor → Step α)} {c : Cursor} {first : Option ReadError}
  {deepest : Nat}

/-- The first alternative that reads a value decides. -/
theorem yields_firstOf_go_cons {v : α} {q : Nat} (h : (a c).Yields v q) :
    (firstOf.go c first deepest (a :: as)).Yields v q := by
  obtain ⟨d, hd, hq⟩ := h
  refine ⟨c.accept d, ?_, by simp [hq]⟩
  unfold firstOf.go
  rw [hd]

/-- An alternative that does not match is passed over. -/
theorem firstOf_go_cons_none (h : a c = .none) :
    firstOf.go c first deepest (a :: as) = firstOf.go c first deepest as := by
  conv_lhs => unfold firstOf.go
  rw [h]

/-- An alternative that fails within one token is passed over, its failure remembered. -/
theorem yields_firstOf_go_cons_fail {e : ReadError} {d : Cursor} {v : α} {q : Nat} (h : a c = .fail e d)
    (hd : d.pos ≤ c.pos + 1)
    (hrest : ∀ c' first deepest, c'.pos = c.pos → (firstOf.go c' first deepest as).Yields v q) :
    (firstOf.go c first deepest (a :: as)).Yields v q := by
  obtain ⟨c1, hab, hc1⟩ := Cursor.abandon_spec c d e
  have hlt : ¬c.pos + 1 < d.pos := by omega
  simp only [hlt, if_false] at hc1
  unfold firstOf.go
  rw [h]
  dsimp only
  rw [hab]
  simp only [hlt, decide_false, Bool.false_eq_true, if_false]
  split
  · exact hrest c1 _ _ hc1
  · exact hrest c1 _ _ hc1

/-- The alternatives after those passed over decide. -/
theorem yields_firstOf {c : Cursor} {l : List (Cursor → Step α)} {v : α} {q : Nat}
    (h : ∀ c' first deepest, c'.pos = c.pos → (firstOf.go c' first deepest l).Yields v q) :
    (firstOf c l).Yields v q :=
  h c none 0 rfl

theorem optional_of_ok {p : Cursor → Step α} {v : α} {d : Cursor} (h : p c = .ok v d) :
    optional c p = .ok (some v) (c.accept d) := by
  unfold optional
  rw [h]

theorem optional_of_none {p : Cursor → Step α} (h : p c = .none) : optional c p = .ok none c := by
  unfold optional
  rw [h]

end Input

end yields

/-! ## Tokens at a position -/

namespace Input

variable {inp : Input} {c : Cursor} {t : Token}

theorem keyword_of_token (h : inp.tokens[c.pos]? = some t) (hk : t.kind = .word) {kw : String}
    (hu : t.text.toUpper = kw) : inp.keyword kw c = some { c with pos := c.pos + 1 } := by
  simp [keyword, peek, h, hk, hu]

theorem keyword_of_token_ne (h : inp.tokens[c.pos]? = some t) {kw : String}
    (hne : t.kind = .word → t.text.toUpper ≠ kw) : inp.keyword kw c = none := by
  by_cases hk : t.kind = .word
  · simp [keyword, peek, h, hk, hne hk]
  · simp [keyword, peek, h, hk]

theorem keyword_of_end (h : inp.tokens[c.pos]? = none) {kw : String} : inp.keyword kw c = none := by
  simp [keyword, peek, h]

theorem punct_of_token {p : String} (h : inp.tokens[c.pos]? = some t) (htext : t.text = p)
    (hk : t.kind = .paren ∨ t.kind = .matchOp) : inp.punct p c = some (t.offset, { c with pos := c.pos + 1 }) := by
  rcases hk with hk | hk <;> simp [punct, peek, h, htext, hk]

theorem punct_of_token_ne {p : String} (h : inp.tokens[c.pos]? = some t)
    (hne : t.kind = .word ∨ t.kind = .quoted ∨ t.text ≠ p) : inp.punct p c = none := by
  rcases hne with hk | hk | hne
  · simp [punct, peek, h, hk]
  · simp [punct, peek, h, hk]
  · simp [punct, peek, h, hne]

theorem punct_of_end {p : String} (h : inp.tokens[c.pos]? = none) : inp.punct p c = none := by
  simp [punct, peek, h]

theorem ofKind_of_token {k : TokenKind} (h : inp.tokens[c.pos]? = some t) (hk : t.kind = k) :
    inp.ofKind k c = some (t, { c with pos := c.pos + 1 }) := by
  simp [ofKind, peek, h, hk]

theorem ofKind_of_token_ne {k : TokenKind} (h : inp.tokens[c.pos]? = some t) (hne : t.kind ≠ k) :
    inp.ofKind k c = none := by
  simp [ofKind, peek, h, hne]

/-- The tokens `us` stand in the input from position `q` on. -/
def HasAt (inp : Input) (q : Nat) (us : List Token) : Prop :=
  ∀ (i : Nat) (h : i < us.length), inp.tokens[q + i]? = some us[i]

variable {q : Nat} {us vs : List Token} {u : Token}

theorem hasAt_append : inp.HasAt q (us ++ vs) ↔ inp.HasAt q us ∧ inp.HasAt (q + us.length) vs := by
  constructor
  · intro h
    refine ⟨fun i hi => ?_, fun i hi => ?_⟩
    · have := h i (by simp; omega)
      rwa [List.getElem_append_left hi] at this
    · have := h (us.length + i) (by simp; omega)
      rw [List.getElem_append_right (by omega)] at this
      simpa [Nat.add_assoc] using this
  · rintro ⟨h1, h2⟩ i hi
    by_cases hlt : i < us.length
    · rw [List.getElem_append_left hlt]
      exact h1 i hlt
    · have := h2 (i - us.length) (by simp at hi; omega)
      rw [List.getElem_append_right (by omega)]
      rwa [show q + us.length + (i - us.length) = q + i by omega] at this

theorem hasAt_cons : inp.HasAt q (u :: us) ↔ inp.tokens[q]? = some u ∧ inp.HasAt (q + 1) us := by
  rw [← List.singleton_append, hasAt_append]
  refine and_congr ⟨fun h => by simpa using h 0 (by simp), fun h i hi => ?_⟩ (by simp)
  obtain rfl : i = 0 := by simpa using hi
  simpa using h

theorem HasAt.lt_size (h : inp.HasAt q us) {i : Nat} (hi : i < us.length) : q + i < inp.tokens.size := by
  have := h i hi
  exact (Array.getElem?_eq_some_iff.1 this).1

theorem hasAt_self (us : List Token) (e : Nat) : (⟨us.toArray, e⟩ : Input).HasAt 0 us := by
  intro i hi
  simp [hi]

end Input

/-- The tokens of a text in parentheses inside another input. -/
theorem Embeds.of_hasAt {ts : List Token} {e : Nat} {J : Input} {m k o : Nat}
    (h : J.HasAt m (ts.map (·.shift k))) (hclose : J.tokens[ts.length + m]? = some ⟨.paren, ")", o⟩) :
    Embeds ⟨ts.toArray, e⟩ J m k where
  tokens i hi := by
    have := h i (by simpa using hi)
    simpa [Nat.add_comm] using this
  past := Or.inr ⟨o, by simpa using hclose⟩

/-! ## Accepted filter texts -/

theorem dropBlank_eq_nil_iff : ∀ {l : List Char}, dropBlank l = [] ↔ ∀ c ∈ l, isBlank c = true
  | [] => by simp [dropBlank]
  | c :: cs => by
    by_cases hc : isBlank c = true
    · simp [dropBlank, hc, dropBlank_eq_nil_iff]
    · simp [dropBlank, hc]

theorem forall_dropBlank : ∀ {l : List Char}, (∀ c ∈ dropBlank l, isBlank c = true) ↔ ∀ c ∈ l, isBlank c = true
  | [] => by simp [dropBlank]
  | c :: cs => by
    by_cases hc : isBlank c = true
    · simp [dropBlank, hc, forall_dropBlank]
    · simp [dropBlank, hc]

/-- A text trims to nothing exactly when all its characters are blank. -/
theorem trimBlank_eq_empty_iff {s : String} : trimBlank s = "" ↔ ∀ c ∈ s.toList, isBlank c = true := by
  rw [trimBlank, ← String.toList_inj, String.toList_ofList, String.toList_empty, List.reverse_eq_nil_iff,
    dropBlank_eq_nil_iff]
  simp only [List.mem_reverse]
  exact forall_dropBlank

theorem Filter.parse_of_reads {src : String} {toks : List Token} {t : Tree} {c : Cursor} {e : Expr}
    (hblank : trimBlank src ≠ "") (hlex : tokenize src.toList 0 = .ok toks)
    (hread : (⟨toks.toArray, src.utf8ByteSize⟩ : Input).orExpr (8 * (toks.length + 2)) ⟨0, none, 0⟩ = .ok t c)
    (hend : c.pos = toks.length) (hbuild : t.build src = .ok e) : Filter.parse src = .ok ⟨src, e⟩ := by
  unfold Filter.parse
  have hb : (trimBlank src == "") = false := by simpa using hblank
  simp only [hb, Bool.false_eq_true, if_false, hlex, hread, hend, Nat.lt_irrefl, hbuild]
  rfl

/-- What reading an accepted text went through: its tokens, a tree read to their
end, and the tree built. -/
theorem Filter.reads_of_parse {src : String} {f : Filter} (h : Filter.parse src = .ok f) :
    f.source = src ∧ ∃ toks t c, tokenize src.toList 0 = .ok toks ∧
      (⟨toks.toArray, src.utf8ByteSize⟩ : Input).orExpr (8 * (toks.length + 2)) ⟨0, none, 0⟩ = .ok t c ∧
      c.pos = toks.length ∧ t.build src = .ok f.root := by
  unfold Filter.parse at h
  split at h
  · cases h
  · split at h
    · cases h
    · next toks hlex =>
      dsimp only at h
      split at h
      · cases h
      · cases h
      · next t c hread =>
        split at h
        · cases h
        · next hlt =>
          have hle := (@Input.reads_advance ⟨toks.toArray, src.utf8ByteSize⟩ (8 * (toks.length + 2))
            ⟨0, none, 0⟩ (Nat.zero_le _)).1
          rw [hread] at hle
          simp only [Step.endsIn_ok, List.size_toArray] at hle
          cases hb : t.build src with
          | error e =>
            rw [hb] at h
            cases h
          | ok e =>
            rw [hb] at h
            cases h
            exact ⟨rfl, toks, t, c, hlex, hread, by omega, hb⟩

end EventChart.Match
