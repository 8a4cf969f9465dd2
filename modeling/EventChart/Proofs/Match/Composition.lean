import Mathlib.Logic.Function.Iterate
import EventChart.Proofs.Match.Terms
/-!
# Filter texts compose

Texts that parse can be put in parentheses and joined by `AND`, `OR` and `NOT`
in any spelling of case, and the joined text parses to the filter that joins
their meanings, with `NOT` binding tighter than `AND` and `AND` tighter than
`OR`.

The joined texts have a normal form: a `Disjunction` of `Conjunction`s of
`Operand`s, each operand an accepted text in parentheses under some `NOT`s.
There are three steps.

* Lexing.  `Lexes` says that the tokens of a text come out the same whatever
  follows it; the tokens of a joined text are the tokens of its parts between
  keyword tokens (`Disjunction.tokenize_text`).
* Reading.  Each part is read where it stands by `Embeds.reads`, and the rules
  `orRest` and `andRest` run through the keywords (`Disjunction.reads`).
* Meaning.  The tree built is the fold of `Expr.and` and `Expr.or` over the
  parts (`Disjunction.parse_text`), and its meaning is the fold of their
  meanings (`Disjunction.eval_expr`).

`filter_texts_compose` collects the composed forms with the single terms of
`Terms`.
-/

namespace EventChart.Match

open EventChart.Text

/-! ## Texts joined by keywords -/

/-- Spellings of the keywords: any texts whose upper case is the keyword. -/
structure Keywords where
  andWord : String
  orWord : String
  notWord : String
  and_upper : andWord.toUpper = "AND"
  or_upper : orWord.toUpper = "OR"
  not_upper : notWord.toUpper = "NOT"

/-- The keywords as the grammar writes them. -/
def Keywords.upper : Keywords := ⟨"AND", "OR", "NOT", by decide +kernel, by decide +kernel, by decide +kernel⟩

/-- A filter that reading its own source gives back: any filter that reading a text gives. -/
structure Accepted where
  filter : Filter
  parse_source : Filter.parse filter.source = .ok filter

/-- An operand of a joined text: an accepted filter in parentheses, under `nots` negations. -/
structure Operand where
  nots : Nat
  arg : Accepted

/-- Operands joined by `AND`. -/
structure Conjunction where
  first : Operand
  rest : List Operand

/-- Conjunctions joined by `OR`. -/
structure Disjunction where
  first : Conjunction
  rest : List Conjunction

/-- Pieces each written after a keyword. -/
def joinedText {α : Type} (kw : String) (text : α → String) (xs : List α) : String :=
  String.join (xs.map fun x => " " ++ kw ++ " " ++ text x)

variable (w : Keywords)

namespace Operand

/-- The text of an operand: a keyword and a blank per negation, then the filter's source in parentheses. -/
def text (o : Operand) : String :=
  String.join (List.replicate o.nots (w.notWord ++ " ")) ++ "(" ++ o.arg.filter.source ++ ")"

/-- The expression of an operand. -/
def expr (o : Operand) : Expr := Expr.not^[o.nots] o.arg.filter.root

/-- What an operand means: its filter, negated `nots` times. -/
def accepts (o : Operand) (s : Subject) : Bool := (fun b => !b)^[o.nots] (o.arg.filter.accepts s)

theorem eval_expr (o : Operand) (s : Subject) : o.expr.eval s = o.accepts s := by
  unfold expr accepts
  induction o.nots with
  | zero => rfl
  | succ n ih => rw [Function.iterate_succ_apply', Function.iterate_succ_apply', Expr.eval, ih]

end Operand

namespace Conjunction

def text (c : Conjunction) : String := c.first.text w ++ joinedText w.andWord (Operand.text w) c.rest

/-- The expression of a conjunction, joined from the left. -/
def expr (c : Conjunction) : Expr := c.rest.foldl (fun e o => .and e o.expr) c.first.expr

/-- What a conjunction means: every operand holds. -/
def accepts (c : Conjunction) (s : Subject) : Bool := c.first.accepts s && c.rest.all (·.accepts s)

theorem eval_foldl (s : Subject) : ∀ (os : List Operand) (e : Expr),
    (os.foldl (fun e o => .and e o.expr) e).eval s = (e.eval s && os.all (·.accepts s))
  | [], e => by simp
  | o :: os, e => by
    rw [List.foldl_cons, eval_foldl s os, Expr.eval, o.eval_expr, List.all_cons, Bool.and_assoc]

theorem eval_expr (c : Conjunction) (s : Subject) : c.expr.eval s = c.accepts s := by
  rw [expr, eval_foldl, Operand.eval_expr, accepts]

end Conjunction

namespace Disjunction

def text (d : Disjunction) : String := d.first.text w ++ joinedText w.orWord (Conjunction.text w) d.rest

/-- The expression of a disjunction, joined from the left. -/
def expr (d : Disjunction) : Expr := d.rest.foldl (fun e c => .or e c.expr) d.first.expr

/-- What a disjunction means: some conjunction holds. -/
def accepts (d : Disjunction) (s : Subject) : Bool := d.first.accepts s || d.rest.any (·.accepts s)

theorem eval_foldl (s : Subject) : ∀ (cs : List Conjunction) (e : Expr),
    (cs.foldl (fun e c => .or e c.expr) e).eval s = (e.eval s || cs.any (·.accepts s))
  | [], e => by simp
  | c :: cs, e => by
    rw [List.foldl_cons, eval_foldl s cs, Expr.eval, c.eval_expr, List.any_cons, Bool.or_assoc]

theorem eval_expr (d : Disjunction) (s : Subject) : d.expr.eval s = d.accepts s := by
  rw [expr, eval_foldl, Conjunction.eval_expr, accepts]

end Disjunction

/-! ## The tokens of joined texts -/

/-- A family of texts whose tokens, before those of any text that follows,
satisfy `P`. -/
def Lexes {α : Type} (text : α → String) (P : α → List Token → Prop) : Prop :=
  ∀ (x : α) (ds : List Char) (off : Nat) (us : List Token),
    tokenize ds (off + byteLength (text x).toList) = .ok us →
      ∃ toks, tokenize ((text x).toList ++ ds) off = .ok (toks ++ us) ∧ P x toks

/-- The tokens of pieces each written after a keyword. -/
def Joined {α : Type} (kw : String) (P : α → List Token → Prop) : List α → List Token → Prop
  | [], toks => toks = []
  | x :: xs, toks => ∃ o us vs, toks = ⟨.word, kw, o⟩ :: (us ++ vs) ∧ P x us ∧ Joined kw P xs vs

/-- A spelling of a keyword, then a blank, is one word token. -/
theorem tokenize_spelled {k kw : String} (hk : k.toUpper = kw) (hkw : ∀ c ∈ kw.toList, endsWord c = false)
    (hkw₀ : kw ≠ "") {ds : List Char} {off : Nat} {us : List Token}
    (hds : tokenize ds (off + byteLength k.toList + 1) = .ok us) :
    tokenize (k.toList ++ ' ' :: ds) off = .ok (⟨.word, k, off⟩ :: us) := by
  have hne : k.toList ≠ [] := by
    intro h
    rw [String.toList_eq_nil_iff.1 h] at hk
    exact hkw₀ (hk.symm.trans (by decide +kernel))
  have h := @tokenize_word_append k.toList (' ' :: ds) off us (endsWord_of_toUpper hk hkw) hne
    (by simp [endsWord, isAsciiBlank])
    (by rw [tokenize_blank (by decide)]; exact hds)
  rwa [String.ofList_toList] at h

section lexes

variable {α : Type} {text text₁ text₂ : α → String} {P P₁ P₂ : α → List Token → Prop}

/-- A text followed by another: the tokens of the first, then those of the second. -/
theorem Lexes.append (h₁ : Lexes text₁ P₁) (h₂ : Lexes text₂ P₂) :
    Lexes (fun x => text₁ x ++ text₂ x) (fun x toks => ∃ us vs, toks = us ++ vs ∧ P₁ x us ∧ P₂ x vs) := by
  intro x ds off us hds
  simp only [String.toList_append, byteLength_append, List.append_assoc] at hds ⊢
  obtain ⟨vs, hvs, hP₂⟩ := h₂ x ds (off + byteLength (text₁ x).toList) us (by rwa [Nat.add_assoc])
  obtain ⟨us', hus, hP₁⟩ := h₁ x ((text₂ x).toList ++ ds) off (vs ++ us) hvs
  exact ⟨us' ++ vs, by rwa [List.append_assoc], us', vs, rfl, hP₁, hP₂⟩

theorem Lexes.congr (h : Lexes text P) (heq : ∀ x, text₁ x = text x) : Lexes text₁ P := by
  intro x
  rw [heq x]
  exact h x

/-- Pieces each written after a keyword, a blank on each side. -/
theorem Lexes.joined (h : Lexes text P) {k kw : String} (hk : k.toUpper = kw)
    (hkw : ∀ c ∈ kw.toList, endsWord c = false) (hkw₀ : kw ≠ "") : Lexes (joinedText k text) (Joined k P) := by
  intro xs
  induction xs with
  | nil =>
    intro ds off us hds
    refine ⟨[], ?_, rfl⟩
    simpa [joinedText] using hds
  | cons x xs ih =>
    intro ds off us hds
    have hsplit : (joinedText k text (x :: xs)).toList =
        ' ' :: (k.toList ++ ' ' :: ((text x).toList ++ (joinedText k text xs).toList)) := by
      simp [joinedText, String.join_cons, List.append_assoc]
    have hblank : (' ' : Char).utf8Size = 1 := by decide
    have hlen : byteLength (joinedText k text (x :: xs)).toList =
        1 + byteLength k.toList + 1 + byteLength (text x).toList + byteLength (joinedText k text xs).toList := by
      rw [hsplit]
      simp only [byteLength_cons, byteLength_append, hblank]
      omega
    obtain ⟨vs, hvs, hJ⟩ := ih ds (off + 1 + byteLength k.toList + 1 + byteLength (text x).toList) us
      (by rw [show off + 1 + byteLength k.toList + 1 + byteLength (text x).toList +
        byteLength (joinedText k text xs).toList = off + byteLength (joinedText k text (x :: xs)).toList by omega]
          ; exact hds)
    obtain ⟨us', hus, hP⟩ := h x ((joinedText k text xs).toList ++ ds) (off + 1 + byteLength k.toList + 1)
      (vs ++ us) hvs
    refine ⟨⟨.word, k, off + 1⟩ :: (us' ++ vs), ?_, off + 1, us', vs, rfl, hP, hJ⟩
    rw [hsplit, List.cons_append, tokenize_blank (by decide), List.append_assoc, List.cons_append,
      tokenize_spelled hk hkw hkw₀ (by rw [List.append_assoc]; exact hus)]
    simp

theorem Lexes.comp {β : Type} (h : Lexes text P) (f : β → α) : Lexes (fun x => text (f x)) (fun x => P (f x)) :=
  fun x => h (f x)

end lexes

/-- The words of the keywords are words. -/
theorem keyword_chars : ∀ kw ∈ ["AND", "OR", "NOT"], ∀ c ∈ kw.toList, endsWord c = false := by
  intro kw hkw c hc
  simp only [List.mem_cons, List.not_mem_nil, or_false] at hkw
  rcases hkw with rfl | rfl | rfl <;> simp at hc <;> rcases hc with rfl | rfl | rfl <;> decide

/-- The tokens of an accepted filter's source in parentheses, moved by `k` bytes. -/
def Accepted.Lexed (a : Accepted) (toks : List Token) : Prop :=
  ∃ (ts : List Token) (o₁ k o₂ : Nat), tokenize a.filter.source.toList 0 = .ok ts ∧
    toks = ⟨.paren, "(", o₁⟩ :: (ts.map (·.shift k) ++ [⟨.paren, ")", o₂⟩])

theorem Accepted.lexes : Lexes (fun a : Accepted => "(" ++ a.filter.source ++ ")") Accepted.Lexed := by
  intro a ds off us hds
  obtain ⟨-, ts, -, -, hts, -⟩ := Filter.reads_of_parse a.parse_source
  have hsplit : ("(" ++ a.filter.source ++ ")").toList ++ ds = '(' :: (a.filter.source.toList ++ ')' :: ds) := by
    simp
  have hlen : byteLength ("(" ++ a.filter.source ++ ")").toList = 1 + byteLength a.filter.source.toList + 1 := by
    have h₁ : byteLength "(".toList = 1 := by decide +kernel
    have h₂ : byteLength ")".toList = 1 := by decide +kernel
    simp only [String.toList_append, byteLength_append, h₁, h₂]
  have hds' : tokenize ds (off + 1 + byteLength a.filter.source.toList + 1) = .ok us := by
    rw [show off + 1 + byteLength a.filter.source.toList + 1 = off + byteLength ("(" ++ a.filter.source ++ ")").toList
      by rw [hlen]; omega]
    exact hds
  refine ⟨_, ?_, ts, off, off + 1, off + 1 + byteLength a.filter.source.toList, hts, rfl⟩
  rw [hsplit, tokenize_group hts hds']
  simp

/-- The negations in front of an operand: one word per negation. -/
theorem lexes_negations :
    Lexes (fun n : Nat => String.join (List.replicate n (w.notWord ++ " ")))
      (fun n nots => nots.length = n ∧ ∀ t ∈ nots, t.kind = .word ∧ t.text = w.notWord) := by
  intro n
  induction n with
  | zero =>
    intro ds off us hds
    exact ⟨[], by simpa using hds, rfl, by simp⟩
  | succ n ih =>
    intro ds off us hds
    have hsplit : (String.join (List.replicate (n + 1) (w.notWord ++ " "))).toList =
        w.notWord.toList ++ ' ' :: (String.join (List.replicate n (w.notWord ++ " "))).toList := by
      simp [List.replicate_succ, String.join_cons]
    have hblank : (' ' : Char).utf8Size = 1 := by decide
    obtain ⟨nots, hnots, hlen, hword⟩ := ih ds (off + byteLength w.notWord.toList + 1) us
      (by rw [hsplit] at hds; simp only [byteLength_append, byteLength_cons, hblank] at hds
          rwa [show off + byteLength w.notWord.toList + 1 +
            byteLength (String.join (List.replicate n (w.notWord ++ " "))).toList =
              off + (byteLength w.notWord.toList + (1 + byteLength
                (String.join (List.replicate n (w.notWord ++ " "))).toList)) by omega])
    refine ⟨⟨.word, w.notWord, off⟩ :: nots, ?_, by simp [hlen], ?_⟩
    · rw [hsplit, List.append_assoc, List.cons_append,
        tokenize_spelled w.not_upper (keyword_chars "NOT" (by simp)) (by decide) hnots]
      rfl
    · intro t ht
      rcases List.mem_cons.1 ht with rfl | ht
      · exact ⟨rfl, rfl⟩
      · exact hword t ht

/-- The tokens of an operand's text: a word per negation, then its filter's
source in parentheses. -/
def Operand.Lexed (o : Operand) (toks : List Token) : Prop :=
  ∃ nots us, toks = nots ++ us ∧ (nots.length = o.nots ∧ ∀ t ∈ nots, t.kind = .word ∧ t.text = w.notWord) ∧
    o.arg.Lexed us

/-- The tokens of a conjunction's text: those of its operands, with an `AND`
word before each but the first. -/
def Conjunction.Lexed (c : Conjunction) (toks : List Token) : Prop :=
  ∃ us vs, toks = us ++ vs ∧ c.first.Lexed w us ∧ Joined w.andWord (Operand.Lexed w) c.rest vs

/-- The tokens of a disjunction's text: those of its conjunctions, with an `OR`
word before each but the first. -/
def Disjunction.Lexed (d : Disjunction) (toks : List Token) : Prop :=
  ∃ us vs, toks = us ++ vs ∧ d.first.Lexed w us ∧ Joined w.orWord (Conjunction.Lexed w) d.rest vs

theorem Accepted.Lexed.length_pos {a : Accepted} {toks : List Token} (hl : a.Lexed toks) : 0 < toks.length := by
  obtain ⟨ts, o₁, k, o₂, -, rfl⟩ := hl
  simp

theorem Operand.Lexed.length_pos {o : Operand} {toks : List Token} (hl : o.Lexed w toks) : 0 < toks.length := by
  obtain ⟨nots, us, rfl, -, ha⟩ := hl
  have := ha.length_pos
  simp
  omega

theorem Conjunction.Lexed.length_pos {cj : Conjunction} {toks : List Token} (hl : cj.Lexed w toks) :
    0 < toks.length := by
  obtain ⟨us, vs, rfl, hu, -⟩ := hl
  have := hu.length_pos
  simp
  omega

theorem Operand.lexes : Lexes (Operand.text w) (Operand.Lexed w) :=
  (((lexes_negations w).comp Operand.nots).append (Accepted.lexes.comp Operand.arg)).congr
    fun o => by simp [Operand.text, String.append_assoc]

theorem Conjunction.lexes : Lexes (Conjunction.text w) (Conjunction.Lexed w) :=
  (((Operand.lexes w).comp Conjunction.first).append
    (((Operand.lexes w).joined w.and_upper (keyword_chars "AND" (by simp)) (by decide)).comp Conjunction.rest)).congr
    fun _ => rfl

theorem Disjunction.lexes : Lexes (Disjunction.text w) (Disjunction.Lexed w) :=
  (((Conjunction.lexes w).comp Disjunction.first).append
    (((Conjunction.lexes w).joined w.or_upper (keyword_chars "OR" (by simp)) (by decide)).comp
      Disjunction.rest)).congr
    fun _ => rfl

/-- The tokens of a joined text, read on their own. -/
theorem Disjunction.tokenize_text (d : Disjunction) : ∃ toks, tokenize (d.text w).toList 0 = .ok toks ∧ d.Lexed w toks := by
  obtain ⟨toks, h, hl⟩ := Disjunction.lexes w d [] 0 [] (tokenize_nil _)
  exact ⟨toks, by simpa using h, hl⟩

/-! ## Reading joined texts -/

/-- Reading an accepted filter's source in parentheses gives the group of the
tree that reading the source alone gives, moved. -/
theorem Accepted.reads_group {a : Accepted} {toks : List Token} (hl : a.Lexed toks) (src : String) :
    ∃ tr, tr.build src = .ok a.filter.root ∧ ∀ (J : Input) (q g : Nat), J.HasAt q toks →
      4 * (J.tokens.size - q) + 1 ≤ g → ∀ c : Cursor, c.pos = q → (J.primaryExpr g c).Yields tr (q + toks.length) := by
  obtain ⟨ts, o₁, k, o₂, hts, rfl⟩ := hl
  obtain ⟨-, ts', t, d, hts', hread, hd, hbuild⟩ := Filter.reads_of_parse a.parse_source
  rw [hts] at hts'
  cases hts'
  refine ⟨.group (t.shift k), by rwa [Tree.build, Tree.build_shift], fun J q g hJ hg c hc => ?_⟩
  rw [Input.hasAt_cons, Input.hasAt_append, Input.hasAt_cons] at hJ
  obtain ⟨hopen, hinner, hclose, -⟩ := hJ
  simp only [List.length_map] at hinner hclose
  have hsize : q + 1 + ts.length < J.tokens.size := (Array.getElem?_eq_some_iff.1 hclose).1
  have E : Embeds ⟨ts.toArray, a.filter.source.utf8ByteSize⟩ J (q + 1) k :=
    Embeds.of_hasAt (by simpa using hinner) (by rwa [Nat.add_comm])
  obtain ⟨g₀, rfl⟩ : ∃ g₀, g = g₀ + 1 := ⟨g - 1, by omega⟩
  unfold Input.primaryExpr
  refine Step.Yields.noted (Input.yields_firstOf fun c' first deepest hc' => Input.yields_firstOf_go_cons ?_)
  -- the group alternative: the source's tokens read as alone, then the closing parenthesis
  rw [Input.punct_of_token (p := "(") (by rwa [hc', hc]) rfl (.inl rfl)]
  dsimp only
  have hm := (E.reads (8 * (ts.length + 2)) g₀ ⟨0, none, 0⟩ { c' with pos := c'.pos + 1 } (Nat.zero_le _)
    (by simp [hc', hc])).1 (by simp; omega) (by simp; omega)
  rw [hread] at hm
  obtain ⟨t', d', ht', rfl, hd'⟩ := hm
  rw [ht']
  dsimp only [Input.required]
  rw [Input.punct_of_token (p := ")") (by rwa [hd', hd, Nat.add_comm ts.length]) rfl (.inl rfl)]
  exact ⟨_, rfl, by simp; omega⟩

theorem Tree.build_iterate_not {src : String} {t : Tree} {e : Expr} (h : t.build src = .ok e) :
    ∀ n : Nat, (Tree.not^[n] t).build src = .ok (Expr.not^[n] e)
  | 0 => h
  | n + 1 => by
    rw [Function.iterate_succ_apply', Function.iterate_succ_apply', Tree.build, Tree.build_iterate_not h n]
    rfl

/-- Reading an operand: one `NOT` per negation word, then the group. -/
theorem Operand.reads {o : Operand} {toks : List Token} (hl : o.Lexed w toks) (src : String) :
    ∃ tr, tr.build src = .ok o.expr ∧ ∀ (J : Input) (q g : Nat), J.HasAt q toks →
      4 * (J.tokens.size - q) + 2 ≤ g → ∀ c : Cursor, c.pos = q → (J.unaryExpr g c).Yields tr (q + toks.length) := by
  obtain ⟨nots, us, rfl, ⟨hlen, hword⟩, ha⟩ := hl
  obtain ⟨tr₀, hb₀, hr₀⟩ := Accepted.reads_group ha src
  refine ⟨Tree.not^[o.nots] tr₀, Tree.build_iterate_not hb₀ o.nots, ?_⟩
  rw [← hlen]
  clear hlen
  -- one negation word after another, down to the group
  induction nots with
  | nil =>
    intro J q g hJ hg c hc
    obtain ⟨ts, o₁, k, o₂, -, rfl⟩ := ha
    rw [List.nil_append, Input.hasAt_cons] at hJ
    obtain ⟨g₀, rfl⟩ : ∃ g₀, g = g₀ + 1 := ⟨g - 1, by omega⟩
    unfold Input.unaryExpr
    refine Step.Yields.noted (Input.yields_firstOf fun c' first deepest hc' => ?_)
    rw [Input.firstOf_go_cons_none (by rw [Input.keyword_of_token_ne (by rw [hc', hc]; exact hJ.1) (by simp)])]
    exact Input.yields_firstOf_go_cons (hr₀ J q g₀ (Input.hasAt_cons.2 hJ) (by omega) c' (hc'.trans hc))
  | cons t nots ih =>
    intro J q g hJ hg c hc
    rw [List.cons_append, Input.hasAt_cons] at hJ
    obtain ⟨ht, hJ⟩ := hJ
    obtain ⟨htk, htx⟩ := hword t List.mem_cons_self
    have hsize : q < J.tokens.size := (Array.getElem?_eq_some_iff.1 ht).1
    obtain ⟨g₀, rfl⟩ : ∃ g₀, g = g₀ + 1 := ⟨g - 1, by omega⟩
    unfold Input.unaryExpr
    refine Step.Yields.noted (Input.yields_firstOf fun c' first deepest hc' => Input.yields_firstOf_go_cons ?_)
    rw [Input.keyword_of_token (by rwa [hc', hc]) htk (by rw [htx]; exact w.not_upper)]
    have hrest := ih (fun t' ht' => hword t' (List.mem_cons_of_mem t ht')) J (q + 1) g₀ hJ (by omega)
      { c' with pos := c'.pos + 1 } (by simp [hc', hc])
    rw [List.length_cons, Function.iterate_succ_apply', List.cons_append, List.length_cons,
      show q + ((nots ++ us).length + 1) = q + 1 + (nots ++ us).length by omega]
    exact (hrest.required).map Tree.not

/-- Reading the operands after the first of a conjunction, each after its
`AND` word, up to a token that is no `AND`. -/
theorem reads_andRest {os : List Operand} {toks : List Token} (hl : Joined w.andWord (Operand.Lexed w) os toks)
    (src : String) :
    ∃ trs, (∀ e, Tree.buildChain src Expr.and e trs = .ok (os.foldl (fun e o => .and e o.expr) e)) ∧
      ∀ (J : Input) (q g : Nat), J.HasAt q toks → (∀ c : Cursor, c.pos = q + toks.length → J.keyword "AND" c = none) →
        4 * (J.tokens.size - q) + 3 ≤ g → ∀ c : Cursor, c.pos = q → (J.andRest g c).Yields trs (q + toks.length) := by
  induction os generalizing toks with
  | nil =>
    cases hl
    refine ⟨[], fun e => rfl, fun J q g _ hstop hg c hc => ?_⟩
    obtain ⟨g₀, rfl⟩ : ∃ g₀, g = g₀ + 1 := ⟨g - 1, by omega⟩
    -- no `AND` word: the optional item reads nothing
    unfold Input.andRest Input.optional
    dsimp only
    rw [hstop c (by simp [hc])]
    exact ⟨c, rfl, by simp [hc]⟩
  | cons o os ih =>
    obtain ⟨o', us, vs, rfl, hu, hv⟩ := hl
    obtain ⟨tr, hb, hr⟩ := Operand.reads w hu src
    obtain ⟨trs, hbs, hrs⟩ := ih hv
    refine ⟨tr :: trs, fun e => ?_, fun J q g hJ hstop hg c hc => ?_⟩
    · rw [Tree.buildChain, hb]
      exact hbs _
    rw [Input.hasAt_cons, Input.hasAt_append] at hJ
    obtain ⟨hand, hJu, hJv⟩ := hJ
    have hsize : q < J.tokens.size := (Array.getElem?_eq_some_iff.1 hand).1
    obtain ⟨g₀, rfl⟩ : ∃ g₀, g = g₀ + 1 := ⟨g - 1, by omega⟩
    obtain ⟨d, hd, hdq⟩ := hr J (q + 1) g₀ hJu (by omega) { c with pos := c.pos + 1 } (by simp [hc])
    -- the item: the `AND` word, then the operand
    unfold Input.andRest Input.optional
    dsimp only
    rw [Input.keyword_of_token (by rwa [hc]) rfl w.and_upper]
    dsimp only
    rw [hd]
    dsimp only [Input.required]
    have hlen : q + (⟨.word, w.andWord, o'⟩ :: (us ++ vs)).length = q + 1 + us.length + vs.length := by
      simp
      omega
    rw [hlen]
    refine (hrs J (q + 1 + us.length) g₀ hJv (fun c' hc' => hstop c' (by rw [hc', hlen])) (by omega)
      (c.accept d) (by simp [hdq])).map (tr :: ·)

/-- Reading a conjunction, up to a token that is no `AND`. -/
theorem Conjunction.reads {cj : Conjunction} {toks : List Token} (hl : cj.Lexed w toks) (src : String) :
    ∃ tr, tr.build src = .ok cj.expr ∧ ∀ (J : Input) (q g : Nat), J.HasAt q toks →
      (∀ c : Cursor, c.pos = q + toks.length → J.keyword "AND" c = none) →
        4 * (J.tokens.size - q) + 3 ≤ g → ∀ c : Cursor, c.pos = q → (J.andExpr g c).Yields tr (q + toks.length) := by
  obtain ⟨us, vs, rfl, hu, hv⟩ := hl
  obtain ⟨tr, hb, hr⟩ := Operand.reads w hu src
  obtain ⟨trs, hbs, hrs⟩ := reads_andRest w hv src
  refine ⟨.and tr trs, by rw [Tree.build, hb]; exact hbs _, fun J q g hJ hstop hg c hc => ?_⟩
  rw [Input.hasAt_append] at hJ
  obtain ⟨g₀, rfl⟩ : ∃ g₀, g = g₀ + 1 := ⟨g - 1, by omega⟩
  have hpos := hu.length_pos
  have hsize := hJ.1.lt_size (i := us.length - 1) (by omega)
  obtain ⟨d, hd, hdq⟩ := hr J q g₀ hJ.1 (by omega) c hc
  unfold Input.andExpr
  rw [hd]
  dsimp only
  rw [List.length_append, ← Nat.add_assoc] at hstop ⊢
  exact ((hrs J (q + us.length) g₀ hJ.2 hstop (by omega) d hdq).map (Tree.and tr)).noted

/-- Reading the conjunctions after the first of a disjunction, each after its
`OR` word, up to the end of the tokens. -/
theorem reads_orRest {cs : List Conjunction} {toks : List Token} (hl : Joined w.orWord (Conjunction.Lexed w) cs toks)
    (src : String) :
    ∃ trs, (∀ e, Tree.buildChain src Expr.or e trs = .ok (cs.foldl (fun e c => .or e c.expr) e)) ∧
      ∀ (J : Input) (q g : Nat), J.HasAt q toks → J.tokens[q + toks.length]? = none →
        4 * (J.tokens.size - q) + 4 ≤ g → ∀ c : Cursor, c.pos = q → (J.orRest g c).Yields trs (q + toks.length) := by
  induction cs generalizing toks with
  | nil =>
    cases hl
    refine ⟨[], fun e => rfl, fun J q g _ hend hg c hc => ?_⟩
    obtain ⟨g₀, rfl⟩ : ∃ g₀, g = g₀ + 1 := ⟨g - 1, by omega⟩
    unfold Input.orRest Input.optional
    dsimp only
    rw [Input.keyword_of_end (by rwa [hc])]
    exact ⟨c, rfl, by simp [hc]⟩
  | cons cj cs ih =>
    obtain ⟨o', us, vs, rfl, hu, hv⟩ := hl
    obtain ⟨tr, hb, hr⟩ := Conjunction.reads w hu src
    obtain ⟨trs, hbs, hrs⟩ := ih hv
    refine ⟨tr :: trs, fun e => ?_, fun J q g hJ hend hg c hc => ?_⟩
    · rw [Tree.buildChain, hb]
      exact hbs _
    rw [Input.hasAt_cons, Input.hasAt_append] at hJ
    obtain ⟨hor, hJu, hJv⟩ := hJ
    have hsize : q < J.tokens.size := (Array.getElem?_eq_some_iff.1 hor).1
    have hlen : q + (⟨.word, w.orWord, o'⟩ :: (us ++ vs)).length = q + 1 + us.length + vs.length := by
      simp
      omega
    rw [hlen] at hend
    obtain ⟨g₀, rfl⟩ : ∃ g₀, g = g₀ + 1 := ⟨g - 1, by omega⟩
    -- after the conjunction comes the next `OR` word or the end: no `AND`
    have hstop : ∀ c' : Cursor, c'.pos = q + 1 + us.length → J.keyword "AND" c' = none := by
      intro c' hc'
      cases cs with
      | nil =>
        cases hv
        exact Input.keyword_of_end (by simpa [hc'] using hend)
      | cons cj' cs' =>
        obtain ⟨o'', us', vs', rfl, -, -⟩ := hv
        rw [Input.hasAt_cons] at hJv
        refine Input.keyword_of_token_ne (by rw [hc']; exact hJv.1) fun _ h => ?_
        rw [w.or_upper] at h
        exact absurd h (by decide)
    obtain ⟨d, hd, hdq⟩ := hr J (q + 1) g₀ hJu hstop (by omega) { c with pos := c.pos + 1 } (by simp [hc])
    unfold Input.orRest Input.optional
    dsimp only
    rw [Input.keyword_of_token (by rwa [hc]) rfl w.or_upper]
    dsimp only
    rw [hd]
    dsimp only [Input.required]
    rw [hlen]
    refine (hrs J (q + 1 + us.length) g₀ hJv hend (by omega) (c.accept d) (by simp [hdq])).map (tr :: ·)

/-- Reading a disjunction to the end of the tokens. -/
theorem Disjunction.reads {d : Disjunction} {toks : List Token} (hl : d.Lexed w toks) (src : String) :
    ∃ tr, tr.build src = .ok d.expr ∧ ∀ (J : Input) (q g : Nat), J.HasAt q toks → J.tokens[q + toks.length]? = none →
        4 * (J.tokens.size - q) + 4 ≤ g → ∀ c : Cursor, c.pos = q → (J.orExpr g c).Yields tr (q + toks.length) := by
  obtain ⟨us, vs, rfl, hu, hv⟩ := hl
  obtain ⟨tr, hb, hr⟩ := Conjunction.reads w hu src
  obtain ⟨trs, hbs, hrs⟩ := reads_orRest w hv src
  refine ⟨.or tr trs, by rw [Tree.build, hb]; exact hbs _, fun J q g hJ hend hg c hc => ?_⟩
  rw [Input.hasAt_append] at hJ
  rw [List.length_append, ← Nat.add_assoc] at hend ⊢
  obtain ⟨g₀, rfl⟩ : ∃ g₀, g = g₀ + 1 := ⟨g - 1, by omega⟩
  have hstop : ∀ c' : Cursor, c'.pos = q + us.length → J.keyword "AND" c' = none := by
    intro c' hc'
    cases hrest : d.rest with
    | nil =>
      rw [hrest] at hv
      cases hv
      exact Input.keyword_of_end (by simpa [hc'] using hend)
    | cons cj' cs' =>
      rw [hrest] at hv
      obtain ⟨o'', us', vs', rfl, -, -⟩ := hv
      have hJv := hJ.2
      rw [Input.hasAt_cons] at hJv
      refine Input.keyword_of_token_ne (by rw [hc']; exact hJv.1) fun _ h => ?_
      rw [w.or_upper] at h
      exact absurd h (by decide)
  have hpos := hu.length_pos
  have hsize := hJ.1.lt_size (i := us.length - 1) (by omega)
  obtain ⟨d', hd, hdq⟩ := hr J q g₀ hJ.1 hstop (by omega) c hc
  unfold Input.orExpr
  rw [hd]
  dsimp only
  exact ((hrs J (q + us.length) g₀ hJ.2 hend (by omega) d' hdq).map (Tree.or tr)).noted

/-- A text written as `OR`s of `AND`s of negated accepted filters in
parentheses, with the keywords spelled in any case, reads as the expression
with `NOT` innermost, then `AND`, then `OR`, each chain joined from the left. -/
theorem Disjunction.parse_text (d : Disjunction) : Filter.parse (d.text w) = .ok ⟨d.text w, d.expr⟩ := by
  obtain ⟨toks, hlex, hl⟩ := d.tokenize_text w
  obtain ⟨tr, hb, hr⟩ := Disjunction.reads w hl (d.text w)
  obtain ⟨c, hc, hcq⟩ := hr ⟨toks.toArray, (d.text w).utf8ByteSize⟩ 0 (8 * (toks.length + 2))
    (Input.hasAt_self toks _) (by simp) (by simp; omega) ⟨0, none, 0⟩ rfl
  have hblank : trimBlank (d.text w) ≠ "" := by
    rw [Ne, trimBlank_eq_empty_iff]
    intro h
    have : isBlank '(' = true := h '(' (by simp [Disjunction.text, Conjunction.text, Operand.text])
    exact absurd this (by decide)
  exact Filter.parse_of_reads hblank hlex hc (by simpa using hcq) hb

/-! ## Filter texts compose -/

/-- The filter a text reads as, with the text as its source. -/
def Accepted.ofParse {src : String} {f : Filter} (h : Filter.parse src = .ok f) : Accepted :=
  ⟨f, by rw [(Filter.reads_of_parse h).1]; exact h⟩

@[simp]
theorem Accepted.filter_ofParse {src : String} {f : Filter} (h : Filter.parse src = .ok f) :
    (Accepted.ofParse h).filter = f := rfl

/-- A text spelled as a joined text reads as a filter that means what the joined
text means. -/
theorem Disjunction.parse_as (d : Disjunction) {src : String} {b : Subject → Bool}
    (htext : d.text w = src) (hacc : ∀ s, d.accepts s = b s) :
    ∃ f, Filter.parse src = .ok f ∧ ∀ s, f.accepts s = b s := by
  subst htext
  exact ⟨_, d.parse_text w, fun s => (d.eval_expr s).trans (hacc s)⟩

/-- The spacing of the joined texts, as the composed texts write it. -/
theorem spaced_parens : (") " : String) = ")" ++ " " ∧ (" (" : String) = " " ++ "(" := by
  constructor <;> decide +kernel

@[simp]
theorem Operand.text_zero (a : Accepted) : (⟨0, a⟩ : Operand).text w = "(" ++ a.filter.source ++ ")" := by
  simp [Operand.text]

theorem exists_ok_of_isOk {ε α : Type} {x : Except ε α} (h : x.isOk = true) : ∃ a, x = .ok a := by
  cases x with
  | error e => simp [Except.isOk, Except.toBool] at h
  | ok a => exact ⟨a, rfl⟩

end EventChart.Match
