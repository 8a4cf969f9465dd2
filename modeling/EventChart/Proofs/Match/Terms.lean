import EventChart.Proofs.Match.Steps
/-!
# Texts of one term

A filter text of one term reads as one pattern: a bare word that is no keyword
and a quoted string test the default attribute, `field(p)` and `field =~ p`
test the field.  Each text is tokenized by hand (`tokenize_call`,
`tokenize_matchText`), and its tokens are then read rule by rule down to
`termExpr`.

The call form has one exception: a field spelled `NOT` in any case is read as
the keyword, so `NOT(x)` is the negation of the pattern `x` and
`Filter.parse_call` excludes it.  The match form has none, since after `NOT`
the reader wants a term and `=~` is no term.
-/

namespace EventChart.Match

open EventChart.Text

/-! ## Patterns and fields -/

/-- The argument a word or quoted token stands for. -/
def Token.arg (t : Token) : Arg := ⟨t.offset, t.kind = .quoted, t.text⟩

theorem byteLength_toList (s : String) : byteLength s.toList = s.utf8ByteSize := by
  suffices h : ∀ l : List Char, byteLength l = (String.ofList l).utf8ByteSize by
    simpa using h s.toList
  intro l
  induction l with
  | nil => rfl
  | cons c l ih => rw [byteLength_cons, String.ofList_cons, String.utf8ByteSize_append, String.utf8ByteSize_singleton, ih]

/-- The characters of an identifier are word characters. -/
theorem endsWord_of_isIdentifier {s : String} (h : isIdentifier s = true) : ∀ c ∈ s.toList, endsWord c = false := by
  have hchar : ∀ c : Char, endsWord c = true → isLetter c = false ∧ c ≠ '_' ∧ isDecimalDigit c = false := by
    intro c h
    simp only [endsWord, isAsciiBlank, Bool.or_eq_true, beq_iff_eq] at h
    rcases h with (((((((rfl | rfl) | rfl) | rfl) | rfl) | rfl) | rfl) | rfl) | rfl <;> decide
  unfold isIdentifier at h
  split at h
  · cases h
  · next c cs hs =>
    simp only [Bool.and_eq_true, Bool.or_eq_true, beq_iff_eq, List.all_eq_true] at h
    intro d hd
    rw [hs] at hd
    cases hw : endsWord d
    · rfl
    · obtain ⟨hl, hu, hdig⟩ := hchar d hw
      rcases List.mem_cons.1 hd with rfl | hd
      · rcases h.1 with h | h <;> simp_all
      · rcases h.2 d hd with (h | h) | h <;> simp_all

theorem identifier_ne_nil {s : String} (h : isIdentifier s = true) : s.toList ≠ [] := by
  intro hs
  unfold isIdentifier at h
  rw [hs] at h
  cases h

/-- A quoted token comes from a quote in the text. -/
theorem quote_mem_of_tokenize {cs : List Char} {off : Nat} {ts : List Token} (h : tokenize cs off = .ok ts)
    {t : Token} (ht : t ∈ ts) (hq : t.kind = .quoted) : '"' ∈ cs := by
  induction cs, off using tokenize.induct generalizing ts with
  | case1 off =>
    rw [tokenize_nil] at h
    cases h
    cases ht
  | case2 off rest body after hq' => exact List.mem_cons_self
  | case3 off rest hq' =>
    rw [tokenize, hq'] at h
    cases h
  | case4 off rest ih =>
    rw [tokenize_matchOp] at h
    obtain ⟨ts', h', rfl⟩ := map_cons_eq_ok.1 h
    rcases List.mem_cons.1 ht with rfl | ht
    · cases hq
    · exact List.mem_cons_of_mem _ (List.mem_cons_of_mem _ (ih h' ht))
  | case5 off c rest _ _ hp ih =>
    rw [tokenize_paren (by simpa using hp)] at h
    obtain ⟨ts', h', rfl⟩ := map_cons_eq_ok.1 h
    rcases List.mem_cons.1 ht with rfl | ht
    · cases hq
    · exact List.mem_cons_of_mem _ (ih h' ht)
  | case6 off c rest _ _ _ hb ih =>
    rw [tokenize_blank hb] at h
    exact List.mem_cons_of_mem _ (ih h ht)
  | case7 off c rest hq' hm hp hb hw =>
    rw [tokenize_invalid hw hq' (by simpa using hp) (by simpa using hb)
      (fun h => h.2.elim fun r hr => hm r h.1 hr)] at h
    cases h
  | case8 off c rest _ _ _ _ hw =>
    rename_i ih
    rw [tokenize_word (by simpa using hw)] at h
    obtain ⟨ts', h', rfl⟩ := map_cons_eq_ok.1 h
    rcases List.mem_cons.1 ht with rfl | ht
    · cases hq
    · exact List.mem_cons_of_mem _ ((List.dropWhile_sublist _).subset (ih h' ht))

/-- The tokens of `field(p)`, for a text `p` of one token. -/
theorem tokenize_call {field p : String} {tok : Token} (hf : isIdentifier field = true)
    (hp : tokenize p.toList 0 = .ok [tok]) :
    tokenize (field ++ "(" ++ p ++ ")").toList 0 = .ok [⟨.word, field, 0⟩, ⟨.paren, "(", field.utf8ByteSize⟩,
      tok.shift (field.utf8ByteSize + 1), ⟨.paren, ")", field.utf8ByteSize + 1 + byteLength p.toList⟩] := by
  have hsplit : (field ++ "(" ++ p ++ ")").toList = field.toList ++ '(' :: (p.toList ++ ')' :: []) := by simp
  rw [hsplit, tokenize_word_append (endsWord_of_isIdentifier hf) (identifier_ne_nil hf) (by simp [endsWord])
    (tokenize_group hp (tokenize_nil _)), String.ofList_toList, byteLength_toList]
  simp

/-- The tokens of `field =~ p`, for a text `p` of one token. -/
theorem tokenize_matchText {field p : String} {tok : Token} (hf : isIdentifier field = true)
    (hp : tokenize p.toList 0 = .ok [tok]) :
    tokenize (field ++ " =~ " ++ p).toList 0 = .ok [⟨.word, field, 0⟩, ⟨.matchOp, "=~", field.utf8ByteSize + 1⟩,
      tok.shift (field.utf8ByteSize + 4)] := by
  have hsplit : (field ++ " =~ " ++ p).toList = field.toList ++ ' ' :: '=' :: '~' :: ' ' :: p.toList := by simp
  have hrest : tokenize (' ' :: '=' :: '~' :: ' ' :: p.toList) (0 + byteLength field.toList) =
      .ok [⟨.matchOp, "=~", field.utf8ByteSize + 1⟩, tok.shift (field.utf8ByteSize + 4)] := by
    rw [tokenize_blank (by decide), tokenize_matchOp, tokenize_blank (by decide),
      show 0 + byteLength field.toList + 1 + 2 + 1 = 0 + (field.utf8ByteSize + 4) by rw [byteLength_toList]; omega,
      tokenize_shift hp]
    simp [byteLength_toList]
  rw [hsplit, tokenize_word_append (endsWord_of_isIdentifier hf) (identifier_ne_nil hf) (by simp [endsWord, isAsciiBlank])
    hrest, String.ofList_toList]

/-! ### Reading a single term -/

namespace Input

variable {inp : Input} {c : Cursor} {t : Token}

theorem argExpr_of_token (h : inp.tokens[c.pos]? = some t) (hk : t.kind = .word ∨ t.kind = .quoted) :
    (inp.argExpr c).Yields t.arg (c.pos + 1) := by
  unfold argExpr
  refine Step.Yields.noted (yields_firstOf fun c' first deepest hc' => ?_)
  rw [← hc'] at h ⊢
  rcases hk with hk | hk
  · apply yields_firstOf_go_cons
    rw [ofKind_of_token h hk, show t.arg = ⟨t.offset, false, t.text⟩ by simp [Token.arg, hk]]
    exact ⟨_, rfl, rfl⟩
  · rw [firstOf_go_cons_none (by rw [ofKind_of_token_ne h (by rw [hk]; decide)])]
    apply yields_firstOf_go_cons
    rw [ofKind_of_token h hk, show t.arg = ⟨t.offset, true, t.text⟩ by simp [Token.arg, hk]]
    exact ⟨_, rfl, rfl⟩

/-- At the end of the tokens a word has no tail. -/
theorem termExpr_bare {f : String} {o : Nat} (h : inp.tokens[c.pos]? = some ⟨.word, f, o⟩)
    (hend : inp.tokens[c.pos + 1]? = none) : (inp.termExpr c).Yields ⟨o, f, .bare⟩ (c.pos + 1) := by
  unfold termExpr
  rw [ofKind_of_token h rfl]
  dsimp only
  have hnone : firstOf { c with pos := c.pos + 1 } [inp.callTail, inp.matchTail] = .none := by
    unfold firstOf
    rw [firstOf_go_cons_none (by unfold callTail; rw [punct_of_end hend]; rfl),
      firstOf_go_cons_none (by unfold matchTail; rw [punct_of_end hend])]
    rfl
  rw [optional_of_none (p := fun d => firstOf d [inp.callTail, inp.matchTail]) hnone]
  exact ⟨_, rfl, rfl⟩

/-- A word glued to a parenthesized argument is a call. -/
theorem termExpr_call {f : String} {o p o' : Nat} (h₀ : inp.tokens[c.pos]? = some ⟨.word, f, o⟩)
    (h₁ : inp.tokens[c.pos + 1]? = some ⟨.paren, "(", p⟩) (h₂ : inp.tokens[c.pos + 2]? = some t)
    (hk : t.kind = .word ∨ t.kind = .quoted) (h₃ : inp.tokens[c.pos + 3]? = some ⟨.paren, ")", o'⟩) :
    (inp.termExpr c).Yields ⟨o, f, .call p t.arg⟩ (c.pos + 4) := by
  unfold termExpr
  rw [ofKind_of_token h₀ rfl]
  dsimp only
  -- the call tail, tried first
  have hcall : ∀ c₁ : Cursor, c₁.pos = c.pos + 1 → (inp.callTail c₁).Yields (.call p t.arg) (c.pos + 4) := by
    intro c₁ hc₁
    unfold callTail
    rw [punct_of_token (p := "(") (by rw [hc₁]; exact h₁) rfl (.inl rfl)]
    dsimp only
    obtain ⟨d, hd, hdq⟩ := argExpr_of_token (c := { c₁ with pos := c₁.pos + 1 }) (by rw [hc₁]; exact h₂) hk
    rw [hd]
    dsimp only [required]
    rw [punct_of_token (p := ")") (by rw [hdq, hc₁]; exact h₃) rfl (.inl rfl)]
    exact ⟨_, rfl, by simp [hdq, hc₁]⟩
  obtain ⟨d, hd, hdq⟩ := yields_firstOf (c := { c with pos := c.pos + 1 }) (l := [inp.callTail, inp.matchTail])
    fun c' first deepest hc' => yields_firstOf_go_cons (hcall c' hc')
  rw [optional_of_ok (p := fun d => firstOf d [inp.callTail, inp.matchTail]) hd]
  exact ⟨_, rfl, by simp [hdq]⟩

/-- A word, the match operator and an argument is a match. -/
theorem termExpr_match {f : String} {o p : Nat} (h₀ : inp.tokens[c.pos]? = some ⟨.word, f, o⟩)
    (h₁ : inp.tokens[c.pos + 1]? = some ⟨.matchOp, "=~", p⟩) (h₂ : inp.tokens[c.pos + 2]? = some t)
    (hk : t.kind = .word ∨ t.kind = .quoted) : (inp.termExpr c).Yields ⟨o, f, .matchOp t.arg⟩ (c.pos + 3) := by
  unfold termExpr
  rw [ofKind_of_token h₀ rfl]
  dsimp only
  have hmatch : ∀ c₁ : Cursor, c₁.pos = c.pos + 1 → (inp.matchTail c₁).Yields (.matchOp t.arg) (c.pos + 3) := by
    intro c₁ hc₁
    unfold matchTail
    rw [punct_of_token (p := "=~") (by rw [hc₁]; exact h₁) rfl (.inr rfl)]
    rw [show c.pos + 3 = c₁.pos + 1 + 1 by omega]
    exact (argExpr_of_token (c := { c₁ with pos := c₁.pos + 1 }) (by rw [hc₁]; exact h₂) hk).required.map _
  obtain ⟨d, hd, hdq⟩ := yields_firstOf (c := { c with pos := c.pos + 1 }) (l := [inp.callTail, inp.matchTail])
    fun c' first deepest hc' => by
      rw [firstOf_go_cons_none (by unfold callTail; rw [punct_of_token_ne (by rw [hc']; exact h₁) (by simp)]; rfl)]
      exact yields_firstOf_go_cons (hmatch c' hc')
  rw [optional_of_ok (p := fun d => firstOf d [inp.callTail, inp.matchTail]) hd]
  exact ⟨_, rfl, by simp [hdq]⟩

/-- A word starts no group: its term is read. -/
theorem primaryExpr_term {g : Nat} {f : String} {o q : Nat} {tm : Term}
    (h : inp.tokens[c.pos]? = some ⟨.word, f, o⟩) (ht : ∀ c' : Cursor, c'.pos = c.pos → (inp.termExpr c').Yields tm q) :
    (inp.primaryExpr (g + 1) c).Yields (.term tm) q := by
  unfold primaryExpr
  refine Step.Yields.noted (yields_firstOf fun c' first deepest hc' => ?_)
  rw [firstOf_go_cons_none (by rw [punct_of_token_ne (by rwa [hc']) (.inl rfl)])]
  exact yields_firstOf_go_cons ((ht c' hc').map Tree.term)

/-- A quoted string is read as an argument. -/
theorem primaryExpr_quoted {g : Nat} (h : inp.tokens[c.pos]? = some t) (hk : t.kind = .quoted) :
    (inp.primaryExpr (g + 1) c).Yields (.quoted t.arg) (c.pos + 1) := by
  unfold primaryExpr
  refine Step.Yields.noted (yields_firstOf fun c' first deepest hc' => ?_)
  rw [← hc'] at h ⊢
  rw [firstOf_go_cons_none (by rw [punct_of_token_ne h (.inr (.inl hk))]),
    firstOf_go_cons_none (by unfold termExpr; rw [ofKind_of_token_ne h (by rw [hk]; decide)]; rfl)]
  exact yields_firstOf_go_cons ((argExpr_of_token h (.inr hk)).map Tree.quoted)

/-- A token that is no `NOT` starts a primary expression. -/
theorem unaryExpr_of_primary {g q : Nat} {tr : Tree} (h : inp.tokens[c.pos]? = some t)
    (hnot : t.kind = .word → t.text.toUpper ≠ "NOT")
    (hp : ∀ c' : Cursor, c'.pos = c.pos → (inp.primaryExpr g c').Yields tr q) :
    (inp.unaryExpr (g + 1) c).Yields tr q := by
  unfold unaryExpr
  refine Step.Yields.noted (yields_firstOf fun c' first deepest hc' => ?_)
  rw [firstOf_go_cons_none (by rw [keyword_of_token_ne (by rwa [hc']) hnot])]
  exact yields_firstOf_go_cons (hp c' hc')

/-- Nothing is read from the match operator. -/
theorem unaryExpr_at_matchOp {p : Nat} (h : inp.tokens[c.pos]? = some ⟨.matchOp, "=~", p⟩) :
    ∀ g, inp.unaryExpr g c = .none
  | 0 => rfl
  | g + 1 => by
    unfold unaryExpr
    have hprim : ∀ c' : Cursor, c'.pos = c.pos → inp.primaryExpr g c' = .none := by
      intro c' hc'
      rw [← hc'] at h
      cases g with
      | zero => rfl
      | succ g =>
        unfold primaryExpr argExpr
        unfold firstOf
        rw [firstOf_go_cons_none (by rw [punct_of_token_ne h (by simp)]),
          firstOf_go_cons_none (by unfold termExpr; rw [ofKind_of_token_ne h (by simp)]; rfl),
          firstOf_go_cons_none (by
            rw [firstOf_go_cons_none (by rw [ofKind_of_token_ne h (by simp)]),
              firstOf_go_cons_none (by rw [ofKind_of_token_ne h (by simp)])]
            rfl)]
        rfl
    unfold firstOf
    rw [firstOf_go_cons_none (by rw [keyword_of_token_ne h (by simp)]), firstOf_go_cons_none (hprim c rfl)]
    rfl

/-- A word before the match operator starts a term, even one spelled like
`NOT`: the negation reads nothing after its word and is abandoned. -/
theorem unaryExpr_field_match {g q : Nat} {f : String} {o p : Nat} {tr : Tree}
    (h₀ : inp.tokens[c.pos]? = some ⟨.word, f, o⟩) (h₁ : inp.tokens[c.pos + 1]? = some ⟨.matchOp, "=~", p⟩)
    (hp : ∀ c' : Cursor, c'.pos = c.pos → (inp.primaryExpr g c').Yields tr q) :
    (inp.unaryExpr (g + 1) c).Yields tr q := by
  unfold unaryExpr
  refine Step.Yields.noted (yields_firstOf fun c' first deepest hc' => ?_)
  by_cases hf : f.toUpper = "NOT"
  · refine yields_firstOf_go_cons_fail (e := ?e) (d := ?d) ?hfail ?hd fun c'' first' deepest' hc'' =>
      yields_firstOf_go_cons (hp c'' (hc''.trans hc'))
    case hfail =>
      -- `NOT` is read, then nothing: the failure is one token in
      rw [keyword_of_token (by rwa [hc']) rfl hf]
      dsimp only
      rw [unaryExpr_at_matchOp (by rwa [hc']) g]
      rfl
    case hd => exact Nat.le_refl _
  · rw [firstOf_go_cons_none (by rw [keyword_of_token_ne (by rwa [hc']) (fun _ => hf)])]
    exact yields_firstOf_go_cons (hp c' hc')

theorem andRest_at_end (h : inp.tokens[c.pos]? = none) : ∀ g, inp.andRest g c = .ok [] c
  | 0 => rfl
  | g + 1 => by
    unfold andRest optional
    dsimp only
    rw [keyword_of_end h]

theorem orRest_at_end (h : inp.tokens[c.pos]? = none) : ∀ g, inp.orRest g c = .ok [] c
  | 0 => rfl
  | g + 1 => by
    unfold orRest optional
    dsimp only
    rw [keyword_of_end h]

end Input

/-- A text whose tokens one unary expression reads whole. -/
theorem Filter.parse_of_unary {src : String} {toks : List Token} {r : Tree} {e : Expr} {g : Nat}
    (hblank : trimBlank src ≠ "") (hlex : tokenize src.toList 0 = .ok toks) (hg : g + 2 = 8 * (toks.length + 2))
    (hread : ∀ c : Cursor, c.pos = 0 → ((⟨toks.toArray, src.utf8ByteSize⟩ : Input).unaryExpr g c).Yields r toks.length)
    (hb : r.build src = .ok e) : Filter.parse src = .ok ⟨src, e⟩ := by
  have hend : ∀ c : Cursor, c.pos = toks.length → (⟨toks.toArray, src.utf8ByteSize⟩ : Input).tokens[c.pos]? = none := by
    intro c hc
    simp [hc]
  obtain ⟨d, hd, hdq⟩ := hread ⟨0, none, 0⟩ rfl
  have hand : ((⟨toks.toArray, src.utf8ByteSize⟩ : Input).andExpr (g + 1) ⟨0, none, 0⟩).Yields (.and r [])
      toks.length := by
    unfold Input.andExpr
    rw [hd]
    dsimp only
    rw [Input.andRest_at_end (hend d hdq)]
    exact ⟨d, rfl, hdq⟩
  obtain ⟨d₁, hd₁, hdq₁⟩ := hand
  refine Filter.parse_of_reads (t := .or (.and r []) []) (c := d₁) hblank hlex ?_ hdq₁ ?_
  · rw [← hg]
    unfold Input.orExpr
    rw [hd₁]
    dsimp only
    rw [Input.orRest_at_end (hend d₁ hdq₁)]
    rfl
  · simp only [Tree.build, Tree.buildChain, hb]
    rfl

theorem Expr.eval_field (f : String) (g : Glob) (s : Subject) :
    (Expr.pattern (some f) g).eval s = (s.lookup f).any g.accepts := by
  simp only [Expr.eval]
  cases s.lookup f <;> rfl

/-- A word that is no keyword is a pattern on the default attribute. -/
theorem Filter.parse_word {p : String} {g : Glob} (hw : ∀ c ∈ p.toList, endsWord c = false)
    (hblank : trimBlank p ≠ "") (hk : isKeyword p = false) (hg : Glob.compile p = .ok g) :
    Filter.parse p = .ok ⟨p, .pattern none g⟩ := by
  have hne : p.toList ≠ [] := fun h => hblank (by rw [trimBlank_eq_empty_iff, h]; simp)
  have hlex : tokenize p.toList 0 = .ok [⟨.word, p, 0⟩] := by
    have := @tokenize_word_append p.toList [] 0 [] hw hne (by simp) (tokenize_nil _)
    rwa [List.append_nil, String.ofList_toList] at this
  have hnot : p.toUpper ≠ "NOT" := by
    intro h
    simp [isKeyword, h] at hk
  refine Filter.parse_of_unary (r := .term ⟨0, p, .bare⟩) (g := 22) hblank hlex rfl (fun c hc => ?_) ?_
  · have h₀ : ∀ c' : Cursor, c'.pos = 0 →
        (⟨#[⟨.word, p, 0⟩], p.utf8ByteSize⟩ : Input).tokens[c'.pos]? = some ⟨.word, p, 0⟩ := by
      intro c' hc'
      simp [hc']
    refine Input.unaryExpr_of_primary (h₀ c hc) (fun _ => hnot) fun c' hc' =>
      Input.primaryExpr_term (h₀ c' (hc'.trans hc)) fun c'' hc'' => ?_
    have := Input.termExpr_bare (h₀ c'' (hc''.trans (hc'.trans hc))) (by simp [hc'', hc', hc])
    rwa [hc'', hc', hc] at this
  · simp only [Tree.build]
    exact (buildTerm_bare_eq_ok rfl).2 ⟨hk, g, hg, rfl⟩

/-- A text of one quoted string is a pattern on the default attribute: the
string without its quotes, escapes kept. -/
theorem Filter.parse_quoted {p : String} {tok : Token} {g : Glob} (hp : tokenize p.toList 0 = .ok [tok])
    (hk : tok.kind = .quoted) (hg : Glob.compile tok.arg.pattern = .ok g) :
    Filter.parse p = .ok ⟨p, .pattern none g⟩ := by
  have hblank : trimBlank p ≠ "" := by
    rw [Ne, trimBlank_eq_empty_iff]
    intro h
    exact absurd (h '"' (quote_mem_of_tokenize hp List.mem_cons_self hk)) (by decide)
  have h₀ : ∀ c : Cursor, c.pos = 0 → (⟨#[tok], p.utf8ByteSize⟩ : Input).tokens[c.pos]? = some tok := by
    intro c hc
    simp [hc]
  refine Filter.parse_of_unary (r := .quoted tok.arg) (g := 22) hblank hp rfl (fun c hc => ?_) ?_
  · refine Input.unaryExpr_of_primary (h₀ c hc) (fun h => absurd (hk.symm.trans h) (by decide)) fun c' hc' => ?_
    have := Input.primaryExpr_quoted (g := 20) (h₀ c' (hc'.trans hc)) hk
    rwa [hc', hc] at this
  · simp only [Tree.build]
    rw [(compileArg_eq_ok).2 hg]
    rfl

/-- `field(p)` for a field that is no spelling of `NOT` is a pattern on that
field. -/
theorem Filter.parse_call {field p : String} {tok : Token} {g : Glob} (hf : isIdentifier field = true)
    (hnot : field.toUpper ≠ "NOT") (hp : tokenize p.toList 0 = .ok [tok]) (hk : tok.kind = .word ∨ tok.kind = .quoted)
    (hg : Glob.compile tok.arg.pattern = .ok g) :
    Filter.parse (field ++ "(" ++ p ++ ")") = .ok ⟨field ++ "(" ++ p ++ ")", .pattern (some field) g⟩ := by
  have hblank : trimBlank (field ++ "(" ++ p ++ ")") ≠ "" := by
    rw [Ne, trimBlank_eq_empty_iff]
    intro h
    exact absurd (h '(' (by simp)) (by decide)
  set t := tok.shift (field.utf8ByteSize + 1)
  refine Filter.parse_of_unary (r := .term ⟨0, field, .call field.utf8ByteSize t.arg⟩) (g := 46) hblank
    (tokenize_call hf hp) rfl (fun c hc => ?_) ?_
  · refine Input.unaryExpr_of_primary (t := ⟨.word, field, 0⟩) (by simp [hc]) (fun _ => hnot) fun c' hc' =>
      Input.primaryExpr_term (f := field) (o := 0) (by simp [hc', hc]) fun c'' hc'' => ?_
    refine (@Input.termExpr_call _ c'' t field 0 field.utf8ByteSize (field.utf8ByteSize + 1 + byteLength p.toList)
      ?_ ?_ ?_ (by simpa [t] using hk) ?_).of_eq ?_ <;> simp [hc'', hc', hc, t]
  · simp only [Tree.build]
    exact (@buildTerm_call_eq_ok _ _ field.utf8ByteSize t.arg _ rfl).2 ⟨by simp, hf, g, hg, rfl⟩

/-- `field =~ p` is a pattern on that field. -/
theorem Filter.parse_match {field p : String} {tok : Token} {g : Glob} (hf : isIdentifier field = true)
    (hp : tokenize p.toList 0 = .ok [tok]) (hk : tok.kind = .word ∨ tok.kind = .quoted)
    (hg : Glob.compile tok.arg.pattern = .ok g) :
    Filter.parse (field ++ " =~ " ++ p) = .ok ⟨field ++ " =~ " ++ p, .pattern (some field) g⟩ := by
  have hblank : trimBlank (field ++ " =~ " ++ p) ≠ "" := by
    rw [Ne, trimBlank_eq_empty_iff]
    intro h
    exact absurd (h '=' (by simp)) (by decide)
  set t := tok.shift (field.utf8ByteSize + 4)
  refine Filter.parse_of_unary (r := .term ⟨0, field, .matchOp t.arg⟩) (g := 38) hblank
    (tokenize_matchText hf hp) rfl (fun c hc => ?_) ?_
  · refine Input.unaryExpr_field_match (f := field) (o := 0) (p := field.utf8ByteSize + 1) (by simp [hc])
      (by simp [hc]) fun c' hc' => Input.primaryExpr_term (f := field) (o := 0) (by simp [hc', hc]) fun c'' hc'' => ?_
    refine (@Input.termExpr_match _ c'' t field 0 (field.utf8ByteSize + 1) ?_ ?_ ?_
      (by simpa [t] using hk)).of_eq ?_ <;> simp [hc'', hc', hc, t]
  · simp only [Tree.build]
    exact (@buildTerm_matchOp_eq_ok _ _ t.arg _ rfl).2 ⟨hf, g, hg, rfl⟩

end EventChart.Match
