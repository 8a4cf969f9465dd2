import Mathlib.Data.List.Forall2
import EventChart.Proofs.Match.Lexing
/-!
# Reading does not look past what it reads

The reader of filter expressions is a backtracking recursive descent with
one token of lookahead, run on a fuel that bounds its depth.  Two facts
about it let an expression be read inside a longer one.

* Progress: every rule that reads a value moves the cursor forward and
  stays within the tokens (`reads_advance`).
* Mirroring: if the tokens of one input appear in a second input, moved by
  some positions and bytes, and after them the second input has nothing or a
  closing parenthesis, then every rule reads on the second input what it
  reads on the first, with its offsets moved (`Embeds.reads`).  The one
  difference, a closing parenthesis where the first input ends, is only
  ever looked at two tokens into a rule, where its absence fails the whole
  reading; so a reading that succeeds never sees it.  By progress, a fuel of
  four per token left is enough for the first input, and the two readings
  agree whatever fuel each has beyond that.

`Mirrors` says how two steps correspond; a failure two tokens past the
start of a rule may stand for anything, since it ends the whole reading.
-/

namespace EventChart.Match

/-! ## Moving parse trees -/

/-- An argument moved `k` bytes further into the text. -/
def Arg.shift (k : Nat) (a : Arg) : Arg := { a with offset := a.offset + k }

/-- A term tail moved `k` bytes further into the text. -/
def TermTail.shift (k : Nat) : TermTail → TermTail
  | .bare => .bare
  | .call paren a => .call (paren + k) (a.shift k)
  | .matchOp a => .matchOp (a.shift k)

/-- A term moved `k` bytes further into the text. -/
def Term.shift (k : Nat) (t : Term) : Term := { t with offset := t.offset + k, tail := t.tail.shift k }

mutual

/-- A parse tree moved `k` bytes further into the text. -/
def Tree.shift (k : Nat) : Tree → Tree
  | .or t ts => .or (t.shift k) (Tree.shiftAll k ts)
  | .and t ts => .and (t.shift k) (Tree.shiftAll k ts)
  | .not t => .not (t.shift k)
  | .group t => .group (t.shift k)
  | .term t => .term (t.shift k)
  | .quoted a => .quoted (a.shift k)

/-- Parse trees moved `k` bytes further into the text. -/
def Tree.shiftAll (k : Nat) : List Tree → List Tree
  | [] => []
  | t :: ts => t.shift k :: Tree.shiftAll k ts

end

/-! ## Building terms -/

section build

open EventChart.Text

variable {src src' : String} {k : Nat}

theorem compileAt_eq_ok {pat : String} {off : Nat} {g : Glob} :
    compileAt src pat off = .ok g ↔ Glob.compile pat = .ok g := by
  unfold compileAt
  cases Glob.compile pat <;> simp

/-- The pattern text of an argument: a quoted one without its quotes. -/
def Arg.pattern (a : Arg) : String :=
  if a.quoted then String.ofList ((a.text.toList.drop 1).dropLast) else a.text

theorem compileArg_eq_ok {a : Arg} {g : Glob} : compileArg src a = .ok g ↔ Glob.compile a.pattern = .ok g := by
  unfold compileArg Arg.pattern
  cases a.quoted <;> simp [compileAt_eq_ok]

theorem buildTerm_call_eq_ok {t : Term} {paren : Nat} {a : Arg} {e : Expr} (ht : t.tail = .call paren a) :
    buildTerm src t = .ok e ↔ paren = t.offset + t.word.utf8ByteSize ∧ isIdentifier t.word = true ∧
      ∃ g, Glob.compile a.pattern = .ok g ∧ e = .pattern (some t.word) g := by
  unfold buildTerm
  rw [ht]
  simp only [← @compileArg_eq_ok src _ _]
  by_cases hp : paren = t.offset + t.word.utf8ByteSize
  · cases hi : isIdentifier t.word
    · simp [hp]
    · cases compileArg src a <;> simp [hp, Functor.map, Except.map, eq_comm]
  · simp [hp]

theorem buildTerm_matchOp_eq_ok {t : Term} {a : Arg} {e : Expr} (ht : t.tail = .matchOp a) :
    buildTerm src t = .ok e ↔ isIdentifier t.word = true ∧
      ∃ g, Glob.compile a.pattern = .ok g ∧ e = .pattern (some t.word) g := by
  unfold buildTerm
  rw [ht]
  simp only [← @compileArg_eq_ok src _ _]
  cases hi : isIdentifier t.word
  · simp
  · cases compileArg src a <;> simp [Functor.map, Except.map, eq_comm]

theorem buildTerm_bare_eq_ok {t : Term} {e : Expr} (ht : t.tail = .bare) :
    buildTerm src t = .ok e ↔ isKeyword t.word = false ∧
      ∃ g, Glob.compile t.word = .ok g ∧ e = .pattern none g := by
  unfold buildTerm
  rw [ht]
  simp only [← @compileAt_eq_ok src _ t.offset _]
  cases hk : isKeyword t.word
  · cases compileAt src t.word t.offset <;> simp [Functor.map, Except.map, eq_comm]
  · simp

theorem buildTerm_shift {t : Term} {e : Expr} : buildTerm src' (t.shift k) = .ok e ↔ buildTerm src t = .ok e := by
  cases ht : t.tail with
  | call paren a =>
    have ht' : (t.shift k).tail = .call (paren + k) (a.shift k) := by simp [Term.shift, ht, TermTail.shift]
    rw [buildTerm_call_eq_ok ht', buildTerm_call_eq_ok ht]
    simp only [Term.shift, Arg.pattern, Arg.shift]
    constructor <;> rintro ⟨hp, hi, hg⟩ <;> exact ⟨by omega, hi, hg⟩
  | matchOp a =>
    have ht' : (t.shift k).tail = .matchOp (a.shift k) := by simp [Term.shift, ht, TermTail.shift]
    rw [buildTerm_matchOp_eq_ok ht', buildTerm_matchOp_eq_ok ht]
    rfl
  | bare =>
    have ht' : (t.shift k).tail = .bare := by simp [Term.shift, ht, TermTail.shift]
    rw [buildTerm_bare_eq_ok ht', buildTerm_bare_eq_ok ht]
    rfl

theorem compileArg_shift {a : Arg} {g : Glob} : compileArg src' (a.shift k) = .ok g ↔ compileArg src a = .ok g := by
  rw [compileArg_eq_ok, compileArg_eq_ok]
  rfl

/-- Two computations that succeed with the same values still do so after a map. -/
theorem ok_map_congr {ε α β : Type} {x y : Except ε α} (h : ∀ a, x = .ok a ↔ y = .ok a) (f : α → β) (b : β) :
    f <$> x = .ok b ↔ f <$> y = .ok b := by
  cases x with
  | error e =>
    cases y with
    | error e' => simp [Functor.map, Except.map]
    | ok a => exact absurd ((h a).2 rfl) (by simp)
  | ok a => rw [(h a).1 rfl]

/-- Two computations that succeed with the same values still do so after a bind. -/
theorem ok_bind_congr {ε α β : Type} {x y : Except ε α} (h : ∀ a, x = .ok a ↔ y = .ok a)
    {f g : α → Except ε β} (hf : ∀ a b, f a = .ok b ↔ g a = .ok b) (b : β) :
    x >>= f = .ok b ↔ y >>= g = .ok b := by
  cases x with
  | error e =>
    cases y with
    | error e' => simp [bind, Except.bind]
    | ok a => exact absurd ((h a).2 rfl) (by simp)
  | ok a =>
    rw [(h a).1 rfl]
    exact hf a b

mutual

/-- A moved tree builds the expression it built before. -/
theorem Tree.build_shift : ∀ (t : Tree) (e : Expr), (t.shift k).build src' = .ok e ↔ t.build src = .ok e
  | .or t ts, e => by
    simp only [Tree.shift, Tree.build]
    exact ok_bind_congr (Tree.build_shift t) (fun _ _ => Tree.buildChain_shift ts _) e
  | .and t ts, e => by
    simp only [Tree.shift, Tree.build]
    exact ok_bind_congr (Tree.build_shift t) (fun _ _ => Tree.buildChain_shift ts _) e
  | .not t, e => by
    simp only [Tree.shift, Tree.build]
    exact ok_map_congr (Tree.build_shift t) _ e
  | .group t, e => by
    simp only [Tree.shift, Tree.build]
    exact Tree.build_shift t e
  | .term t, e => by
    simp only [Tree.shift, Tree.build]
    exact buildTerm_shift
  | .quoted a, e => by
    simp only [Tree.shift, Tree.build]
    exact ok_map_congr (fun _ => compileArg_shift) _ e

/-- Moved trees join to the expression they joined to before. -/
theorem Tree.buildChain_shift {join : Expr → Expr → Expr} {acc : Expr} :
    ∀ (ts : List Tree) (e : Expr),
      Tree.buildChain src' join acc (Tree.shiftAll k ts) = .ok e ↔ Tree.buildChain src join acc ts = .ok e
  | [], e => by simp [Tree.shiftAll, Tree.buildChain]
  | t :: ts, e => by
    simp only [Tree.shiftAll, Tree.buildChain]
    exact ok_bind_congr (Tree.build_shift t) (fun _ _ => Tree.buildChain_shift ts _) e

end

end build

/-! ## The cursor -/

namespace Cursor

@[simp] theorem accept_pos (p b : Cursor) : (p.accept b).pos = b.pos := by
  unfold accept
  split <;> rfl

@[simp] theorem note_pos (c : Cursor) (e : ReadError) : (c.note e).pos = c.pos := by
  unfold note
  split <;> rfl

theorem abandon_snd (p b : Cursor) (e : ReadError) : (p.abandon b e).2 = decide (p.pos + 1 < b.pos) := by
  unfold abandon
  by_cases h : p.pos + 1 < b.pos <;> simp [h]

theorem abandon_fst_pos (p b : Cursor) (e : ReadError) :
    (p.abandon b e).1.pos = if p.pos + 1 < b.pos then b.pos else p.pos := by
  unfold abandon
  by_cases h : p.pos + 1 < b.pos
  · simp [h]
  · simp only [h, if_false, gt_iff_lt]
    split
    · rfl
    · split <;> rfl

/-- Abandoning an alternative halts exactly when it read past the next token,
and otherwise stays where the alternative started. -/
theorem abandon_spec (p b : Cursor) (e : ReadError) :
    ∃ c, p.abandon b e = (c, decide (p.pos + 1 < b.pos)) ∧
      c.pos = if p.pos + 1 < b.pos then b.pos else p.pos :=
  ⟨_, Prod.ext rfl (abandon_snd p b e), abandon_fst_pos p b e⟩

end Cursor

/-! ## Progress

Every rule that reads a value ends it within the tokens, and the rules that
read at least one token end it after their start. -/

section progress

variable {α β : Type}

/-- The value of a step, if it has one, ends between positions `lo` and `n`. -/
def Step.EndsIn (lo n : Nat) : Step α → Prop
  | .ok _ c => lo ≤ c.pos ∧ c.pos ≤ n
  | _ => True

@[simp] theorem Step.endsIn_none {lo n : Nat} : (Step.none : Step α).EndsIn lo n := trivial

@[simp] theorem Step.endsIn_fail {lo n : Nat} {e : ReadError} {c : Cursor} : (Step.fail e c : Step α).EndsIn lo n :=
  trivial

@[simp] theorem Step.endsIn_ok {lo n : Nat} {v : α} {c : Cursor} :
    (Step.ok v c).EndsIn lo n ↔ lo ≤ c.pos ∧ c.pos ≤ n := Iff.rfl

theorem Step.EndsIn.noted {lo n : Nat} {s : Step α} (h : s.EndsIn lo n) : s.noted.EndsIn lo n := by
  cases s <;> simp_all [Step.noted]

@[simp] theorem Step.endsIn_map {lo n : Nat} {f : α → β} {s : Step α} : (s.map f).EndsIn lo n ↔ s.EndsIn lo n := by
  cases s <;> simp [Step.map]

theorem Step.EndsIn.mono {lo lo' n : Nat} {s : Step α} (h : s.EndsIn lo n) (hlo : lo' ≤ lo) : s.EndsIn lo' n := by
  cases s with
  | ok v c => exact ⟨Nat.le_trans hlo h.1, h.2⟩
  | _ => trivial

theorem Input.endsIn_required {inp : Input} {c : Cursor} {x : String} {lo n : Nat} {s : Step α}
    (h : s.EndsIn lo n) : (inp.required c x s).EndsIn lo n := by
  cases s <;> simp_all [Input.required]

theorem firstOf_go_endsIn {lo n p : Nat} {alts : List (Cursor → Step α)}
    (h : ∀ a ∈ alts, ∀ c : Cursor, c.pos = p → (a c).EndsIn lo n) :
    ∀ (c : Cursor) (first : Option ReadError) (deepest : Nat), c.pos = p →
      (Input.firstOf.go c first deepest alts).EndsIn lo n := by
  induction alts with
  | nil =>
    intro c first deepest _
    unfold Input.firstOf.go
    cases first <;> simp
  | cons a as ih =>
    intro c first deepest hc
    have hrest := ih fun a' ha' => h a' (List.mem_cons_of_mem a ha')
    have ha := h a List.mem_cons_self c hc
    unfold Input.firstOf.go
    cases hac : a c with
    | fail e c' =>
      obtain ⟨c1, hab, hc1⟩ := Cursor.abandon_spec c c' e
      dsimp only
      rw [hab]
      by_cases hlt : c.pos + 1 < c'.pos
      · simp [hlt]
      · simp only [hlt, if_false] at hc1
        simp only [hlt, decide_false, Bool.false_eq_true, if_false]
        split <;> exact hrest _ _ _ (hc1.trans hc)
    | none => exact hrest _ _ _ hc
    | ok v c' =>
      rw [hac] at ha
      simpa using ha

theorem endsIn_firstOf {lo n : Nat} {c : Cursor} {alts : List (Cursor → Step α)}
    (h : ∀ a ∈ alts, ∀ c' : Cursor, c'.pos = c.pos → (a c').EndsIn lo n) :
    (Input.firstOf c alts).EndsIn lo n :=
  firstOf_go_endsIn h c none 0 rfl

theorem endsIn_optional {n : Nat} {c : Cursor} {p : Cursor → Step α} (hc : c.pos ≤ n)
    (h : (p c).EndsIn c.pos n) : (Input.optional c p).EndsIn c.pos n := by
  unfold Input.optional
  cases hpc : p c with
  | fail e c' =>
    obtain ⟨c1, hab, hc1⟩ := Cursor.abandon_spec (c.note e) c' e
    dsimp only
    rw [hab]
    simp only [Cursor.note_pos] at hc1 ⊢
    by_cases hlt : c.pos + 1 < c'.pos
    · simp [hlt]
    · simp only [hlt, if_false] at hc1
      simp [hlt, hc1, hc]
  | none => simp [hc]
  | ok v c' =>
    rw [hpc] at h
    simpa using h

theorem endsIn_optional_of_item {n : Nat} {c : Cursor} {p : Cursor → Step α} (hc : c.pos ≤ n)
    (h : (p c).EndsIn (c.pos + 1) n) : (Input.optional c p).EndsIn c.pos n :=
  endsIn_optional hc (h.mono (Nat.le_succ _))

namespace Input

variable {inp : Input} {c c1 : Cursor}

theorem peek_lt {t : Token} (h : inp.peek c = some t) : c.pos < inp.tokens.size := by
  unfold peek at h
  exact (Array.getElem?_eq_some_iff.1 h).1

theorem keyword_pos {k : String} (h : inp.keyword k c = some c1) : c1.pos = c.pos + 1 ∧ c.pos < inp.tokens.size := by
  unfold keyword at h
  cases ht : inp.peek c with
  | none => simp [ht] at h
  | some t =>
    simp only [ht] at h
    split at h
    · cases h
      exact ⟨rfl, peek_lt ht⟩
    · cases h

theorem punct_pos {p : String} {o : Nat} (h : inp.punct p c = some (o, c1)) :
    c1.pos = c.pos + 1 ∧ c.pos < inp.tokens.size := by
  unfold punct at h
  cases ht : inp.peek c with
  | none => simp [ht] at h
  | some t =>
    simp only [ht] at h
    split at h
    · cases h
      exact ⟨rfl, peek_lt ht⟩
    · cases h

theorem ofKind_pos {k : TokenKind} {t : Token} (h : inp.ofKind k c = some (t, c1)) :
    c1.pos = c.pos + 1 ∧ c.pos < inp.tokens.size := by
  unfold ofKind at h
  cases ht : inp.peek c with
  | none => simp [ht] at h
  | some t' =>
    simp only [ht] at h
    split at h
    · cases h
      exact ⟨rfl, peek_lt ht⟩
    · cases h

theorem argExpr_endsIn : (inp.argExpr c).EndsIn (c.pos + 1) inp.tokens.size := by
  unfold argExpr
  refine Step.EndsIn.noted (endsIn_firstOf ?_)
  simp only [List.mem_cons, List.not_mem_nil, or_false]
  rintro a (rfl | rfl) c' hc'
  all_goals
    dsimp only
    split
    · next t c2 h =>
      have := ofKind_pos h
      simp only [Step.endsIn_ok]
      omega
    · trivial

theorem matchTail_endsIn : (inp.matchTail c).EndsIn (c.pos + 1) inp.tokens.size := by
  unfold matchTail
  split
  · trivial
  · next o c1 h =>
    have := punct_pos h
    simpa using (endsIn_required (argExpr_endsIn (c := c1))).mono (by omega)

theorem callTail_endsIn : (inp.callTail c).EndsIn (c.pos + 1) inp.tokens.size := by
  unfold callTail
  refine Step.EndsIn.noted ?_
  split
  · trivial
  · next paren c1 h1 =>
    have hc1 := punct_pos h1
    split
    · next a c2 h2 =>
      have hc2 : (Step.ok a c2).EndsIn (c1.pos + 1) inp.tokens.size := h2 ▸ endsIn_required argExpr_endsIn
      split
      · next o c3 h3 =>
        have := punct_pos h3
        simp only [Step.endsIn_ok] at hc2 ⊢
        omega
      · trivial
    · trivial
    · trivial

theorem termExpr_endsIn : (inp.termExpr c).EndsIn (c.pos + 1) inp.tokens.size := by
  unfold termExpr
  refine Step.EndsIn.noted ?_
  split
  · trivial
  · next t c1 h1 =>
    have hc1 := ofKind_pos h1
    have htail : (optional c1 fun c => firstOf c [inp.callTail, inp.matchTail]).EndsIn c1.pos inp.tokens.size := by
      refine endsIn_optional_of_item (by omega) (endsIn_firstOf ?_)
      simp only [List.mem_cons, List.not_mem_nil, or_false]
      rintro a (rfl | rfl) c' hc'
      · exact hc' ▸ callTail_endsIn
      · exact hc' ▸ matchTail_endsIn
    split
    · next tail c2 h2 =>
      rw [h2] at htail
      simp only [Step.endsIn_ok] at htail ⊢
      omega
    · trivial
    · trivial

/-- Progress of the recursive rules, at every fuel: the rules for
expressions end after their start, the repetitions at it or later, and all
within the tokens. -/
theorem reads_advance : ∀ (f : Nat) (c : Cursor), c.pos ≤ inp.tokens.size →
    (inp.orExpr f c).EndsIn (c.pos + 1) inp.tokens.size ∧ (inp.orRest f c).EndsIn c.pos inp.tokens.size ∧
    (inp.andExpr f c).EndsIn (c.pos + 1) inp.tokens.size ∧ (inp.andRest f c).EndsIn c.pos inp.tokens.size ∧
    (inp.unaryExpr f c).EndsIn (c.pos + 1) inp.tokens.size ∧
    (inp.primaryExpr f c).EndsIn (c.pos + 1) inp.tokens.size
  | 0, c, hc => by simp [orExpr, orRest, andExpr, andRest, unaryExpr, primaryExpr, hc]
  | f + 1, c, hc => by
    have ih := reads_advance f
    refine ⟨?or, ?orRest, ?and, ?andRest, ?unary, ?primary⟩
    case or =>
      unfold orExpr
      refine Step.EndsIn.noted ?_
      cases ha : inp.andExpr f c with
      | ok a c1 =>
        have hc1 := ha ▸ (ih c hc).2.2.1
        simp only [Step.endsIn_ok] at hc1
        exact Step.endsIn_map.2 (((ih c1 hc1.2).2.1).mono hc1.1)
      | _ => trivial
    case and =>
      unfold andExpr
      refine Step.EndsIn.noted ?_
      cases ha : inp.unaryExpr f c with
      | ok a c1 =>
        have hc1 := ha ▸ (ih c hc).2.2.2.2.1
        simp only [Step.endsIn_ok] at hc1
        exact Step.endsIn_map.2 (((ih c1 hc1.2).2.2.2.1).mono hc1.1)
      | _ => trivial
    case orRest =>
      unfold orRest
      dsimp only
      generalize hs : optional c _ = s
      have hitem : s.EndsIn c.pos inp.tokens.size := by
        rw [← hs]
        refine endsIn_optional_of_item hc ?_
        split
        · trivial
        · next c1 h1 =>
          have := keyword_pos h1
          exact endsIn_required ((ih c1 (by omega)).2.2.1.mono (by omega))
      cases s with
      | ok v c1 =>
        simp only [Step.endsIn_ok] at hitem
        cases v with
        | some t => exact Step.endsIn_map.2 (((ih c1 hitem.2).2.1).mono hitem.1)
        | none => exact hitem
      | _ => trivial
    case andRest =>
      unfold andRest
      dsimp only
      generalize hs : optional c _ = s
      have hitem : s.EndsIn c.pos inp.tokens.size := by
        rw [← hs]
        refine endsIn_optional_of_item hc ?_
        split
        · trivial
        · next c1 h1 =>
          have := keyword_pos h1
          exact endsIn_required ((ih c1 (by omega)).2.2.2.2.1.mono (by omega))
      cases s with
      | ok v c1 =>
        simp only [Step.endsIn_ok] at hitem
        cases v with
        | some t => exact Step.endsIn_map.2 (((ih c1 hitem.2).2.2.2.1).mono hitem.1)
        | none => exact hitem
      | _ => trivial
    case unary =>
      unfold unaryExpr
      refine Step.EndsIn.noted (endsIn_firstOf ?_)
      simp only [List.mem_cons, List.not_mem_nil, or_false]
      rintro a (rfl | rfl) c' hc'
      · dsimp only
        split
        · trivial
        · next c1 h1 =>
          have := keyword_pos h1
          exact Step.endsIn_map.2 (endsIn_required ((ih c1 (by omega)).2.2.2.2.1.mono (by omega)))
      · exact hc' ▸ (ih c' (hc' ▸ hc)).2.2.2.2.2
    case primary =>
      unfold primaryExpr
      refine Step.EndsIn.noted (endsIn_firstOf ?_)
      simp only [List.mem_cons, List.not_mem_nil, or_false]
      rintro a (rfl | rfl | rfl) c' hc'
      · dsimp only
        split
        · trivial
        · next o c1 h1 =>
          have hc1 := punct_pos h1
          split
          · next t c2 h2 =>
            have hc2 : (Step.ok t c2).EndsIn (c1.pos + 1) inp.tokens.size :=
              h2 ▸ endsIn_required (ih c1 (by omega)).1
            split
            · next o' c3 h3 =>
              have := punct_pos h3
              simp only [Step.endsIn_ok] at hc2 ⊢
              omega
            · trivial
          · trivial
          · trivial
      · exact Step.endsIn_map.2 (hc' ▸ termExpr_endsIn)
      · exact Step.endsIn_map.2 (hc' ▸ argExpr_endsIn)

end Input

end progress

/-! ## Mirrored reading -/

section mirror

variable {α β γ δ : Type}

/-- How the step of a rule started at position `p` on one input corresponds to
the step of the same rule on an input that holds the first one's tokens `m`
positions later: no match for no match, a related value `m` positions later,
and a failure `m` positions later.  A failure two tokens past the start of the
rule may stand for anything: it fails the whole reading. -/
def Mirrors (R : α → β → Prop) (m p : Nat) : Step α → Step β → Prop
  | .none, t => t = .none
  | .ok v c, t => ∃ w d, t = .ok w d ∧ R v w ∧ d.pos = c.pos + m
  | .fail _ c, t => p + 2 ≤ c.pos ∨ ∃ e d, t = .fail e d ∧ d.pos = c.pos + m

variable {R : α → β → Prop} {m p : Nat}

theorem mirrors_none_left {t : Step β} : Mirrors R m p .none t ↔ t = .none := Iff.rfl

theorem Mirrors.mono {q : Nat} {s : Step α} {t : Step β} (h : Mirrors R m q s t) (hpq : p ≤ q) :
    Mirrors R m p s t := by
  cases s with
  | fail e c =>
    rcases h with h | h
    · exact Or.inl (by omega)
    · exact Or.inr h
  | _ => exact h

/-- A failure is mirrored by a failure `m` positions later, unless it is deep. -/
theorem Mirrors.of_fail {e : ReadError} {c : Cursor} {t : Step β}
    (h : p + 2 ≤ c.pos ∨ ∃ e' d, t = .fail e' d ∧ d.pos = c.pos + m) : Mirrors R m p (.fail e c) t := h

theorem Mirrors.noted {s : Step α} {t : Step β} (h : Mirrors R m p s t) : Mirrors R m p s.noted t.noted := by
  cases s with
  | none =>
    rw [mirrors_none_left.1 h]
    rfl
  | ok v c =>
    obtain ⟨w, d, rfl, hr, hd⟩ := h
    exact ⟨w, d, rfl, hr, hd⟩
  | fail e c =>
    rcases h with h | ⟨e', d, rfl, hd⟩
    · exact Or.inl (by simpa using h)
    · exact Or.inr ⟨e', d.note e', rfl, by simp [hd]⟩

theorem Mirrors.map {R' : γ → δ → Prop} {f : α → γ} {g : β → δ} {s : Step α} {t : Step β}
    (h : Mirrors R m p s t) (hfg : ∀ v w, R v w → R' (f v) (g w)) : Mirrors R' m p (s.map f) (t.map g) := by
  cases s with
  | none =>
    rw [mirrors_none_left.1 h]
    rfl
  | ok v c =>
    obtain ⟨w, d, rfl, hr, hd⟩ := h
    exact ⟨g w, d, rfl, hfg v w hr, hd⟩
  | fail e c =>
    rcases h with h | ⟨e', d, rfl, hd⟩
    · exact Or.inl h
    · exact Or.inr ⟨e', d, rfl, hd⟩

theorem Mirrors.required {I J : Input} {c c' : Cursor} {x : String} {s : Step α} {t : Step β}
    (h : Mirrors R m p s t) (hc' : c'.pos = c.pos + m) : Mirrors R m p (I.required c x s) (J.required c' x t) := by
  cases s with
  | none =>
    rw [mirrors_none_left.1 h]
    exact Or.inr ⟨_, c', rfl, hc'⟩
  | ok v d =>
    obtain ⟨w, d', rfl, hr, hd⟩ := h
    exact ⟨w, d', rfl, hr, hd⟩
  | fail e d =>
    rcases h with h | ⟨e', d', rfl, hd⟩
    · exact Or.inl h
    · exact Or.inr ⟨e', d', rfl, hd⟩

/-- Alternatives that mirror each other wherever they are tried. -/
def AltMirrors (R : α → β → Prop) (m p : Nat) (a : Cursor → Step α) (a' : Cursor → Step β) : Prop :=
  ∀ c c' : Cursor, c.pos = p → c'.pos = p + m → Mirrors R m p (a c) (a' c')

/-- Trying mirrored alternatives in order: both sides abandon the same
alternatives, and until one fails deep they have remembered a failure alike.
Nothing else the search keeps decides its course. -/
theorem mirrors_firstOf_go {alts : List (Cursor → Step α)} {alts' : List (Cursor → Step β)}
    (h : List.Forall₂ (AltMirrors R m p) alts alts') :
    ∀ (c c' : Cursor) (first first' : Option ReadError) (deepest deepest' : Nat),
      c.pos = p → c'.pos = p + m → first.isSome = first'.isSome →
      (first = none → deepest = 0) → (first' = none → deepest' = 0) →
      Mirrors R m p (Input.firstOf.go c first deepest alts) (Input.firstOf.go c' first' deepest' alts') := by
  induction h with
  | nil =>
    intro c c' first first' deepest deepest' hc hc' hfirst _ _
    unfold Input.firstOf.go
    cases first with
    | none =>
      cases first' with
      | none => rfl
      | some e' => simp at hfirst
    | some e =>
      cases first' with
      | none => simp at hfirst
      | some e' => exact Or.inr ⟨e', _, rfl, by simp [hc, hc']⟩
  | @cons a a' as as' ha _ ih =>
    intro c c' first first' deepest deepest' hc hc' hfirst hd hd'
    have hac := ha c c' hc hc'
    unfold Input.firstOf.go
    generalize a c = s at hac ⊢
    generalize a' c' = t at hac ⊢
    cases s with
    | none =>
      rw [mirrors_none_left.1 hac]
      exact ih c c' first first' deepest deepest' hc hc' hfirst hd hd'
    | ok v d =>
      obtain ⟨w, d', rfl, hr, hdd⟩ := hac
      exact ⟨w, _, rfl, hr, by simp [hdd]⟩
    | fail e d =>
      obtain ⟨c1, hab, hc1⟩ := Cursor.abandon_spec c d e
      dsimp only
      rw [hab]
      rcases hac with hdeep | ⟨e', d', rfl, hdd⟩
      · have hlt : c.pos + 1 < d.pos := by omega
        simp only [hlt, if_true] at hc1
        simp only [hlt, decide_true, if_true]
        exact Or.inl (by omega)
      · obtain ⟨c1', hab', hc1'⟩ := Cursor.abandon_spec c' d' e'
        dsimp only
        rw [hab']
        by_cases hlt : c.pos + 1 < d.pos
        · have hlt' : c'.pos + 1 < d'.pos := by omega
          simp only [hlt, hlt', if_true] at hc1 hc1' ⊢
          simp only [decide_true, if_true]
          exact Or.inr ⟨e', c1', rfl, by omega⟩
        · have hlt' : ¬c'.pos + 1 < d'.pos := by omega
          simp only [hlt, hlt', if_false] at hc1 hc1' ⊢
          simp only [decide_false, Bool.false_eq_true, if_false]
          have hc1p : c1.pos = p := hc1.trans hc
          have hc1p' : c1'.pos = p + m := hc1'.trans hc'
          cases first with
          | none =>
            have hf' : first' = none := by cases first' <;> simp_all
            subst hf'
            rw [hd rfl, hd' rfl]
            simp only [Nat.zero_le, if_true]
            exact ih c1 c1' _ _ _ _ hc1p hc1p' rfl (by simp) (by simp)
          | some e₀ =>
            obtain ⟨e₀', rfl⟩ : ∃ e₀', first' = some e₀' := by cases first' <;> simp_all
            split <;> split <;> exact ih c1 c1' _ _ _ _ hc1p hc1p' rfl (by simp) (by simp)

theorem mirrors_firstOf {alts : List (Cursor → Step α)} {alts' : List (Cursor → Step β)}
    (h : List.Forall₂ (AltMirrors R m p) alts alts') {c c' : Cursor} (hc : c.pos = p) (hc' : c'.pos = p + m) :
    Mirrors R m p (Input.firstOf c alts) (Input.firstOf c' alts') :=
  mirrors_firstOf_go h c c' none none 0 0 hc hc' rfl (fun _ => rfl) (fun _ => rfl)

theorem mirrors_optional {a : Cursor → Step α} {a' : Cursor → Step β} {c c' : Cursor}
    (h : Mirrors R m c.pos (a c) (a' c')) (hc' : c'.pos = c.pos + m) :
    Mirrors (Option.Rel R) m c.pos (Input.optional c a) (Input.optional c' a') := by
  unfold Input.optional
  generalize a c = s at h ⊢
  generalize a' c' = t at h ⊢
  cases s with
  | none =>
    rw [mirrors_none_left.1 h]
    exact ⟨none, c', rfl, .none, hc'⟩
  | ok v d =>
    obtain ⟨w, d', rfl, hr, hdd⟩ := h
    exact ⟨some w, _, rfl, .some hr, by simp [hdd]⟩
  | fail e d =>
    obtain ⟨c1, hab, hc1⟩ := Cursor.abandon_spec (c.note e) d e
    dsimp only
    rw [hab]
    simp only [Cursor.note_pos] at hc1 ⊢
    rcases h with hdeep | ⟨e', d', rfl, hdd⟩
    · have hlt : c.pos + 1 < d.pos := by omega
      simp only [hlt, if_true] at hc1
      simp only [hlt, decide_true, if_true]
      exact Or.inl (by omega)
    · obtain ⟨c1', hab', hc1'⟩ := Cursor.abandon_spec (c'.note e') d' e'
      dsimp only
      rw [hab']
      simp only [Cursor.note_pos] at hc1' ⊢
      by_cases hlt : c.pos + 1 < d.pos
      · have hlt' : c'.pos + 1 < d'.pos := by omega
        simp only [hlt, hlt', if_true] at hc1 hc1' ⊢
        simp only [decide_true, if_true]
        exact Or.inr ⟨e', c1', rfl, by omega⟩
      · have hlt' : ¬c'.pos + 1 < d'.pos := by omega
        simp only [hlt, hlt', if_false] at hc1 hc1' ⊢
        simp only [decide_false, Bool.false_eq_true, if_false]
        exact ⟨none, c1', rfl, .none, by omega⟩

theorem option_rel_cases {r : α → β → Prop} {x : Option α} {y : Option β} (h : Option.Rel r x y) :
    (x = none ∧ y = none) ∨ ∃ a b, x = some a ∧ y = some b ∧ r a b := by
  cases h with
  | none => exact Or.inl ⟨rfl, rfl⟩
  | some h => exact Or.inr ⟨_, _, rfl, rfl, h⟩

theorem Input.optional_eq_ok_some {q : Cursor → Step α} {c d : Cursor} {v : α}
    (h : Input.optional c q = .ok (some v) d) : ∃ d₀, q c = .ok v d₀ ∧ d.pos = d₀.pos := by
  unfold Input.optional at h
  cases hq : q c with
  | ok v' d₀ =>
    rw [hq] at h
    cases h
    exact ⟨d₀, rfl, Cursor.accept_pos _ _⟩
  | none =>
    rw [hq] at h
    cases h
  | fail e d₀ =>
    rw [hq] at h
    obtain ⟨c1, hab, -⟩ := Cursor.abandon_spec (c.note e) d₀ e
    dsimp only at h
    rw [hab] at h
    split at h <;> cases h

theorem Mirrors.seq {R' : γ → δ → Prop} {F : Step α → Step γ} {G : Step β → Step δ} {s : Step α} {t : Step β}
    {lo n : Nat} (h : Mirrors R m p s t) (hs : s.EndsIn lo n)
    (hnone : F .none = .none ∧ G .none = .none)
    (hfail : ∀ e c, F (.fail e c) = .fail e c ∧ G (.fail e c) = .fail e c)
    (hok : ∀ v c w d, s = .ok v c → R v w → d.pos = c.pos + m → lo ≤ c.pos → c.pos ≤ n →
      Mirrors R' m p (F (.ok v c)) (G (.ok w d))) :
    Mirrors R' m p (F s) (G t) := by
  cases s with
  | none =>
    rw [mirrors_none_left.1 h, hnone.1, hnone.2]
    rfl
  | ok v c =>
    obtain ⟨w, d, rfl, hr, hd⟩ := h
    exact hok v c w d rfl hr hd hs.1 hs.2
  | fail e c =>
    rw [(hfail e c).1]
    rcases h with h | ⟨e', d, rfl, hd⟩
    · exact Or.inl h
    · rw [(hfail e' d).2]
      exact Or.inr ⟨e', d, rfl, hd⟩
end mirror

/-! ## Inputs inside inputs -/

/-- The tokens of `I` stand in `J` from position `m` on, moved `k` bytes, and
after them `J` has nothing more or a closing parenthesis. -/
structure Embeds (I J : Input) (m k : Nat) : Prop where
  tokens : ∀ (i : Nat) (h : i < I.tokens.size), J.tokens[i + m]? = some (I.tokens[i].shift k)
  past : J.tokens[I.tokens.size + m]? = none ∨ ∃ o, J.tokens[I.tokens.size + m]? = some ⟨.paren, ")", o⟩

namespace Embeds

variable {I J : Input} {m k : Nat} (E : Embeds I J m k) {c c' : Cursor}
include E

theorem peek_lt (hc : c.pos < I.tokens.size) (hc' : c'.pos = c.pos + m) :
    ∃ t, I.peek c = some t ∧ J.peek c' = some (t.shift k) :=
  ⟨I.tokens[c.pos], by simp [Input.peek, hc], by rw [Input.peek, hc']; exact E.tokens _ hc⟩

theorem peek_end (hc : c.pos = I.tokens.size) (hc' : c'.pos = c.pos + m) :
    I.peek c = none ∧ (J.peek c' = none ∨ ∃ o, J.peek c' = some ⟨.paren, ")", o⟩) :=
  ⟨by simp [Input.peek, hc], by rw [Input.peek, hc', hc]; exact E.past⟩

theorem keyword (hc : c.pos ≤ I.tokens.size) (hc' : c'.pos = c.pos + m) (kw : String) :
    Option.Rel (fun c1 c1' : Cursor => c1'.pos = c1.pos + m) (I.keyword kw c) (J.keyword kw c') := by
  unfold Input.keyword
  rcases Nat.lt_or_eq_of_le hc with hlt | heq
  · obtain ⟨t, hI, hJ⟩ := E.peek_lt hlt hc'
    rw [hI, hJ]
    dsimp only [Token.shift]
    split
    · exact .some (by dsimp only; omega)
    · exact .none
  · obtain ⟨hI, hJ⟩ := E.peek_end heq hc'
    rw [hI]
    rcases hJ with hJ | ⟨o, hJ⟩ <;> rw [hJ]
    · exact .none
    · simp

theorem punct (p : String) (hp : p ≠ ")" ∨ c.pos < I.tokens.size) (hc : c.pos ≤ I.tokens.size)
    (hc' : c'.pos = c.pos + m) :
    Option.Rel (fun r r' : Nat × Cursor => r'.1 = r.1 + k ∧ r'.2.pos = r.2.pos + m) (I.punct p c) (J.punct p c') := by
  unfold Input.punct
  rcases Nat.lt_or_eq_of_le hc with hlt | heq
  · obtain ⟨t, hI, hJ⟩ := E.peek_lt hlt hc'
    rw [hI, hJ]
    dsimp only [Token.shift]
    split
    · exact .some ⟨rfl, by dsimp only; omega⟩
    · exact .none
  · have hp' : p ≠ ")" := hp.resolve_right (by omega)
    obtain ⟨hI, hJ⟩ := E.peek_end heq hc'
    rw [hI]
    rcases hJ with hJ | ⟨o, hJ⟩ <;> rw [hJ] <;> simp [Ne.symm hp']

theorem ofKind (kind : TokenKind) (hk : kind ≠ .paren) (hc : c.pos ≤ I.tokens.size) (hc' : c'.pos = c.pos + m) :
    Option.Rel (fun r r' : Token × Cursor => r'.1 = r.1.shift k ∧ r'.2.pos = r.2.pos + m)
      (I.ofKind kind c) (J.ofKind kind c') := by
  unfold Input.ofKind
  rcases Nat.lt_or_eq_of_le hc with hlt | heq
  · obtain ⟨t, hI, hJ⟩ := E.peek_lt hlt hc'
    rw [hI, hJ]
    dsimp only [Token.shift]
    split
    · exact .some ⟨rfl, by dsimp only; omega⟩
    · exact .none
  · obtain ⟨hI, hJ⟩ := E.peek_end heq hc'
    rw [hI]
    rcases hJ with hJ | ⟨o, hJ⟩ <;> rw [hJ] <;> simp [Ne.symm hk]


/-- A closing parenthesis is read alike, except where the first input ends. -/
theorem punct_close (hc : c.pos ≤ I.tokens.size) (hc' : c'.pos = c.pos + m) :
    I.punct ")" c = none ∨ ∃ o d o' d', I.punct ")" c = some (o, d) ∧ J.punct ")" c' = some (o', d') ∧
      d'.pos = d.pos + m := by
  cases h : I.punct ")" c with
  | none => exact Or.inl rfl
  | some r =>
    obtain ⟨o, d⟩ := r
    have hrel := E.punct ")" (.inr (Input.punct_pos h).2) hc hc'
    rw [h] at hrel
    rcases option_rel_cases hrel with ⟨h1, -⟩ | ⟨_, ⟨o', d'⟩, h1, h2, -, hd⟩
    · cases h1
    · cases h1
      exact Or.inr ⟨o, d, o', d', rfl, h2, hd⟩

theorem argExpr (hc : c.pos ≤ I.tokens.size) (hc' : c'.pos = c.pos + m) :
    Mirrors (fun a a' => a' = a.shift k) m c.pos (I.argExpr c) (J.argExpr c') := by
  unfold Input.argExpr
  refine Mirrors.noted (mirrors_firstOf (.cons (fun d d' hd hd' => ?_) (.cons (fun d d' hd hd' => ?_) .nil)) rfl hc')
  -- a word, then a quoted string: one token of a kind, read alike on both inputs
  · rcases option_rel_cases (E.ofKind .word (by decide) (hd ▸ hc) (by omega : d'.pos = d.pos + m)) with
      ⟨h, h'⟩ | ⟨⟨t, d1⟩, ⟨t', d1'⟩, h, h', rfl, hd1⟩
    · simp only [h, h']
      rfl
    · simp only [h, h']
      exact ⟨_, d1', rfl, rfl, hd1⟩
  · rcases option_rel_cases (E.ofKind .quoted (by decide) (hd ▸ hc) (by omega : d'.pos = d.pos + m)) with
      ⟨h, h'⟩ | ⟨⟨t, d1⟩, ⟨t', d1'⟩, h, h', rfl, hd1⟩
    · simp only [h, h']
      rfl
    · simp only [h, h']
      exact ⟨_, d1', rfl, rfl, hd1⟩

theorem callTail (hc : c.pos ≤ I.tokens.size) (hc' : c'.pos = c.pos + m) :
    Mirrors (fun t t' => t' = t.shift k) m c.pos (I.callTail c) (J.callTail c') := by
  unfold Input.callTail
  refine Mirrors.noted ?_
  rcases option_rel_cases (E.punct "(" (.inl (by decide)) hc hc') with
    ⟨h, h'⟩ | ⟨⟨paren, c1⟩, ⟨paren', c1'⟩, h, h', rfl, hc1'⟩
  · simp only [h, h']
    rfl
  · simp only [h, h']
    dsimp only at hc1'
    obtain ⟨hc1, hlt⟩ := Input.punct_pos h
    have h2 : Mirrors (fun a a' => a' = a.shift k) m c.pos (I.required c1 "ArgExpr \")\"" (I.argExpr c1))
        (J.required c1' "ArgExpr \")\"" (J.argExpr c1')) :=
      ((E.argExpr (by omega) hc1').mono (by omega)).required hc1'
    have hend : (I.required c1 "ArgExpr \")\"" (I.argExpr c1)).EndsIn (c1.pos + 1) I.tokens.size :=
      Input.endsIn_required Input.argExpr_endsIn
    generalize I.required c1 _ (I.argExpr c1) = s at h2 hend ⊢
    generalize J.required c1' _ (J.argExpr c1') = t at h2 ⊢
    apply h2.seq hend ⟨rfl, rfl⟩ (fun _ _ => ⟨rfl, rfl⟩)
    rintro a d a' d' - rfl hd hlo hhi
    -- the closing parenthesis: where the first input ends, its absence fails deep
    rcases E.punct_close hhi hd with h3 | ⟨o, d3, o', d3', h3, h3', hd3⟩
    · simp only [h3]
      exact Or.inl (by omega)
    · simp only [h3, h3']
      exact ⟨_, d3', rfl, rfl, hd3⟩

theorem matchTail (hc : c.pos ≤ I.tokens.size) (hc' : c'.pos = c.pos + m) :
    Mirrors (fun t t' => t' = t.shift k) m c.pos (I.matchTail c) (J.matchTail c') := by
  unfold Input.matchTail
  rcases option_rel_cases (E.punct "=~" (.inl (by decide)) hc hc') with
    ⟨h, h'⟩ | ⟨⟨o, c1⟩, ⟨o', c1'⟩, h, h', -, hc1'⟩
  · simp only [h, h']
    rfl
  · simp only [h, h']
    dsimp only at hc1'
    obtain ⟨hc1, hlt⟩ := Input.punct_pos h
    refine (((E.argExpr (by omega) hc1').mono (by omega)).required hc1').map ?_
    rintro a a' rfl
    rfl

theorem termExpr (hc : c.pos ≤ I.tokens.size) (hc' : c'.pos = c.pos + m) :
    Mirrors (fun t t' => t' = t.shift k) m c.pos (I.termExpr c) (J.termExpr c') := by
  unfold Input.termExpr
  refine Mirrors.noted ?_
  rcases option_rel_cases (E.ofKind .word (by decide) hc hc') with
    ⟨h, h'⟩ | ⟨⟨w, c1⟩, ⟨w', c1'⟩, h, h', rfl, hc1'⟩
  · simp only [h, h']
    rfl
  · simp only [h, h']
    dsimp only at hc1'
    obtain ⟨hc1, hlt⟩ := Input.ofKind_pos h
    -- the optional tail, a call or a match, tried one token into the rule
    have h2 : Mirrors (Option.Rel fun t t' : TermTail => t' = t.shift k) m c.pos
        (Input.optional c1 fun d => Input.firstOf d [I.callTail, I.matchTail])
        (Input.optional c1' fun d => Input.firstOf d [J.callTail, J.matchTail]) := by
      refine (mirrors_optional (mirrors_firstOf (.cons ?_ (.cons ?_ .nil)) rfl hc1') hc1').mono (by omega)
      · intro d d' hd hd'
        rw [← hd]
        exact E.callTail (by omega) (by omega)
      · intro d d' hd hd'
        rw [← hd]
        exact E.matchTail (by omega) (by omega)
    have hend : (Input.optional c1 fun d => Input.firstOf d [I.callTail, I.matchTail]).EndsIn c1.pos
        I.tokens.size := by
      refine endsIn_optional_of_item (by omega) (endsIn_firstOf ?_)
      simp only [List.mem_cons, List.not_mem_nil, or_false]
      rintro a (rfl | rfl) d hd
      · exact hd ▸ Input.callTail_endsIn
      · exact hd ▸ Input.matchTail_endsIn
    generalize Input.optional c1 _ = s at h2 hend ⊢
    generalize Input.optional c1' _ = t at h2 ⊢
    apply h2.seq hend ⟨rfl, rfl⟩ (fun _ _ => ⟨rfl, rfl⟩)
    rintro tail d tail' d' - htail hd - -
    refine ⟨_, d', rfl, ?_, hd⟩
    cases htail with
    | none => rfl
    | some h => rw [h]; rfl

/-- Reading the tokens of an input inside another: with enough fuel for the
first input, four per token left, every rule reads on the second input what
it reads on the first, moved, whatever fuel the second reading has beyond
that. -/
theorem reads : ∀ (f f' : Nat) (c c' : Cursor), c.pos ≤ I.tokens.size → c'.pos = c.pos + m →
    (4 * (I.tokens.size - c.pos) + 4 ≤ f → 4 * (I.tokens.size - c.pos) + 4 ≤ f' →
      Mirrors (fun t t' => t' = t.shift k) m c.pos (I.orExpr f c) (J.orExpr f' c')) ∧
    (4 * (I.tokens.size - c.pos) + 4 ≤ f → 4 * (I.tokens.size - c.pos) + 4 ≤ f' →
      Mirrors (fun ts ts' => ts' = Tree.shiftAll k ts) m c.pos (I.orRest f c) (J.orRest f' c')) ∧
    (4 * (I.tokens.size - c.pos) + 3 ≤ f → 4 * (I.tokens.size - c.pos) + 3 ≤ f' →
      Mirrors (fun t t' => t' = t.shift k) m c.pos (I.andExpr f c) (J.andExpr f' c')) ∧
    (4 * (I.tokens.size - c.pos) + 3 ≤ f → 4 * (I.tokens.size - c.pos) + 3 ≤ f' →
      Mirrors (fun ts ts' => ts' = Tree.shiftAll k ts) m c.pos (I.andRest f c) (J.andRest f' c')) ∧
    (4 * (I.tokens.size - c.pos) + 2 ≤ f → 4 * (I.tokens.size - c.pos) + 2 ≤ f' →
      Mirrors (fun t t' => t' = t.shift k) m c.pos (I.unaryExpr f c) (J.unaryExpr f' c')) ∧
    (4 * (I.tokens.size - c.pos) + 1 ≤ f → 4 * (I.tokens.size - c.pos) + 1 ≤ f' →
      Mirrors (fun t t' => t' = t.shift k) m c.pos (I.primaryExpr f c) (J.primaryExpr f' c'))
  | 0, f', c, c', _, _ => by
    refine ⟨fun h => ?_, fun h => ?_, fun h => ?_, fun h => ?_, fun h => ?_, fun h => ?_⟩ <;> omega
  | g + 1, f', c, c', hc, hc' => by
    have ih := reads g
    refine ⟨fun hf hf' => ?or, fun hf hf' => ?orRest, fun hf hf' => ?and, fun hf hf' => ?andRest,
      fun hf hf' => ?unary, fun hf hf' => ?primary⟩
    all_goals obtain ⟨g', rfl⟩ : ∃ g', f' = g' + 1 := ⟨f' - 1, by omega⟩
    case or =>
      unfold Input.orExpr
      refine Mirrors.noted ?_
      have h1 := (ih g' c c' hc hc').2.2.1 (by omega) (by omega)
      have hend := (Input.reads_advance g c hc).2.2.1
      generalize I.andExpr g c = s at h1 hend ⊢
      generalize J.andExpr g' c' = t at h1 ⊢
      apply h1.seq hend ⟨rfl, rfl⟩ (fun _ _ => ⟨rfl, rfl⟩)
      rintro a d a' d' - rfl hd hlo hhi
      refine (((ih g' d d' hhi hd).2.1 (by omega) (by omega)).mono (by omega)).map ?_
      rintro ts ts' rfl
      rfl
    case and =>
      unfold Input.andExpr
      refine Mirrors.noted ?_
      have h1 := (ih g' c c' hc hc').2.2.2.2.1 (by omega) (by omega)
      have hend := (Input.reads_advance g c hc).2.2.2.2.1
      generalize I.unaryExpr g c = s at h1 hend ⊢
      generalize J.unaryExpr g' c' = t at h1 ⊢
      apply h1.seq hend ⟨rfl, rfl⟩ (fun _ _ => ⟨rfl, rfl⟩)
      rintro a d a' d' - rfl hd hlo hhi
      refine (((ih g' d d' hhi hd).2.2.2.1 (by omega) (by omega)).mono (by omega)).map ?_
      rintro ts ts' rfl
      rfl
    case orRest =>
      unfold Input.orRest
      dsimp only
      generalize hs : Input.optional c _ = s
      generalize ht : Input.optional c' _ = t
      have hend : s.EndsIn c.pos I.tokens.size := by
        rw [← hs]
        refine endsIn_optional_of_item hc ?_
        split
        · trivial
        · next c1 h1 =>
          have := Input.keyword_pos h1
          exact Input.endsIn_required ((Input.reads_advance g c1 (by omega)).2.2.1.mono (by omega))
      -- the item: the keyword, then an `AndExpr`
      have h1 : Mirrors (Option.Rel fun t t' : Tree => t' = t.shift k) m c.pos s t := by
        rw [← hs, ← ht]
        refine mirrors_optional ?_ hc'
        rcases option_rel_cases (E.keyword hc hc' "OR") with ⟨h, h'⟩ | ⟨c1, c1', h, h', hc1'⟩
        · simp only [h, h']
          rfl
        · simp only [h, h']
          have := Input.keyword_pos h
          exact (((ih g' c1 c1' (by omega) hc1').2.2.1 (by omega) (by omega)).mono (by omega)).required hc1'
      apply h1.seq hend ⟨rfl, rfl⟩ (fun _ _ => ⟨rfl, rfl⟩)
      rintro v d v' d' hsv hv hd hlo hhi
      cases hv with
      | none => exact ⟨[], d', rfl, rfl, hd⟩
      | @some t t' ht' =>
        -- the item read the keyword and an `AndExpr`, two tokens at least
        have hadv : c.pos + 2 ≤ d.pos := by
          rw [hsv] at hs
          obtain ⟨d₀, h₀, hdd⟩ := Input.optional_eq_ok_some hs
          split at h₀
          · cases h₀
          · next c1 hk =>
            have := Input.keyword_pos hk
            have hreq : (I.required c1 "AndExpr" (I.andExpr g c1)).EndsIn (c1.pos + 1) I.tokens.size :=
              Input.endsIn_required (Input.reads_advance g c1 (by omega)).2.2.1
            rw [h₀] at hreq
            simp only [Step.endsIn_ok] at hreq
            omega
        refine (((ih g' d d' hhi hd).2.1 (by omega) (by omega)).mono (by omega)).map ?_
        rintro ts ts' rfl
        rw [ht']
        rfl
    case andRest =>
      unfold Input.andRest
      dsimp only
      generalize hs : Input.optional c _ = s
      generalize ht : Input.optional c' _ = t
      have hend : s.EndsIn c.pos I.tokens.size := by
        rw [← hs]
        refine endsIn_optional_of_item hc ?_
        split
        · trivial
        · next c1 h1 =>
          have := Input.keyword_pos h1
          exact Input.endsIn_required ((Input.reads_advance g c1 (by omega)).2.2.2.2.1.mono (by omega))
      -- the item: the keyword, then a `UnaryExpr`
      have h1 : Mirrors (Option.Rel fun t t' : Tree => t' = t.shift k) m c.pos s t := by
        rw [← hs, ← ht]
        refine mirrors_optional ?_ hc'
        rcases option_rel_cases (E.keyword hc hc' "AND") with ⟨h, h'⟩ | ⟨c1, c1', h, h', hc1'⟩
        · simp only [h, h']
          rfl
        · simp only [h, h']
          have := Input.keyword_pos h
          exact (((ih g' c1 c1' (by omega) hc1').2.2.2.2.1 (by omega) (by omega)).mono (by omega)).required hc1'
      apply h1.seq hend ⟨rfl, rfl⟩ (fun _ _ => ⟨rfl, rfl⟩)
      rintro v d v' d' hsv hv hd hlo hhi
      cases hv with
      | none => exact ⟨[], d', rfl, rfl, hd⟩
      | @some t t' ht' =>
        -- the item read the keyword and a `UnaryExpr`, two tokens at least
        have hadv : c.pos + 2 ≤ d.pos := by
          rw [hsv] at hs
          obtain ⟨d₀, h₀, hdd⟩ := Input.optional_eq_ok_some hs
          split at h₀
          · cases h₀
          · next c1 hk =>
            have := Input.keyword_pos hk
            have hreq : (I.required c1 "UnaryExpr" (I.unaryExpr g c1)).EndsIn (c1.pos + 1) I.tokens.size :=
              Input.endsIn_required (Input.reads_advance g c1 (by omega)).2.2.2.2.1
            rw [h₀] at hreq
            simp only [Step.endsIn_ok] at hreq
            omega
        refine (((ih g' d d' hhi hd).2.2.2.1 (by omega) (by omega)).mono (by omega)).map ?_
        rintro ts ts' rfl
        rw [ht']
        rfl
    case unary =>
      unfold Input.unaryExpr
      refine Mirrors.noted (mirrors_firstOf (.cons (fun d d' hd hd' => ?_) (.cons (fun d d' hd hd' => ?_) .nil))
        rfl hc')
      · rcases option_rel_cases (E.keyword (hd ▸ hc) (by omega : d'.pos = d.pos + m) "NOT") with
          ⟨h, h'⟩ | ⟨c1, c1', h, h', hc1'⟩
        · simp only [h, h']
          rfl
        · simp only [h, h']
          have := Input.keyword_pos h
          refine ((((ih g' c1 c1' (by omega) hc1').2.2.2.2.1 (by omega) (by omega)).mono (by omega)).required
            hc1').map ?_
          rintro t t' rfl
          rfl
      · rw [← hd]
        exact (ih g' d d' (by omega) (by omega)).2.2.2.2.2 (by omega) (by omega)
    case primary =>
      unfold Input.primaryExpr
      refine Mirrors.noted (mirrors_firstOf (.cons (fun d d' hd hd' => ?_) (.cons (fun d d' hd hd' => ?_)
        (.cons (fun d d' hd hd' => ?_) .nil))) rfl hc')
      · -- a group: its `OrExpr` and the closing parenthesis
        rcases option_rel_cases (E.punct "(" (.inl (by decide)) (hd ▸ hc) (by omega : d'.pos = d.pos + m)) with
          ⟨h, h'⟩ | ⟨⟨o, c1⟩, ⟨o', c1'⟩, h, h', -, hc1'⟩
        · simp only [h, h']
          rfl
        · simp only [h, h']
          dsimp only at hc1'
          obtain ⟨hc1, hlt⟩ := Input.punct_pos h
          have h2 : Mirrors (fun t t' => t' = t.shift k) m c.pos (I.required c1 "OrExpr \")\"" (I.orExpr g c1))
              (J.required c1' "OrExpr \")\"" (J.orExpr g' c1')) :=
            (((ih g' c1 c1' (by omega) hc1').1 (by omega) (by omega)).mono (by omega)).required hc1'
          have hend : (I.required c1 "OrExpr \")\"" (I.orExpr g c1)).EndsIn (c1.pos + 1) I.tokens.size :=
            Input.endsIn_required (Input.reads_advance g c1 (by omega)).1
          generalize I.required c1 _ (I.orExpr g c1) = s at h2 hend ⊢
          generalize J.required c1' _ (J.orExpr g' c1') = t at h2 ⊢
          apply h2.seq hend ⟨rfl, rfl⟩ (fun _ _ => ⟨rfl, rfl⟩)
          rintro t e t' e' - rfl he hlo hhi
          rcases E.punct_close hhi he with h3 | ⟨o, e3, o', e3', h3, h3', he3⟩
          · simp only [h3]
            exact Or.inl (by omega)
          · simp only [h3, h3']
            exact ⟨_, e3', rfl, rfl, he3⟩
      · rw [← hd]
        refine (E.termExpr (by omega) (by omega)).map ?_
        rintro t t' rfl
        rfl
      · rw [← hd]
        refine (E.argExpr (by omega) (by omega)).map ?_
        rintro a a' rfl
        rfl

end Embeds

end EventChart.Match
