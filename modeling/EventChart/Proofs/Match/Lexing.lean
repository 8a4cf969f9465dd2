import EventChart.Match.Grammar
/-!
# Tokens of joined texts

The lexer reads a text from left to right, and a token ends where the text
says it ends: a word at a character that ends words, a quoted string at its
closing quote.  So a text that splits into tokens keeps its tokens inside a
longer text, as long as what follows it cannot continue its last word.

* `tokenize_shift`: starting the same text further on only moves the
  offsets of its tokens.
* `tokenize_append`: a text that splits into tokens, followed by a text that
  starts with a character ending words, splits into its own tokens followed
  by those of the rest.
* `tokenize_word_append`, `tokenize_paren`, `tokenize_blank`: the single
  steps the joined texts of the filter language are made of.
-/

namespace EventChart.Match

open EventChart.Text

/-- A token moved `k` bytes further into the text. -/
def Token.shift (k : Nat) (t : Token) : Token := { t with offset := t.offset + k }

@[simp] theorem Token.shift_kind (k : Nat) (t : Token) : (t.shift k).kind = t.kind := rfl

@[simp] theorem Token.shift_text (k : Nat) (t : Token) : (t.shift k).text = t.text := rfl

@[simp] theorem Token.shift_offset (k : Nat) (t : Token) : (t.shift k).offset = t.offset + k := rfl

theorem Token.shift_shift (j k : Nat) (t : Token) : (t.shift j).shift k = t.shift (j + k) := by
  simp only [Token.shift, Nat.add_assoc]

/-! ## Byte lengths -/

theorem byteLength_foldl (cs : List Char) (n : Nat) :
    cs.foldl (fun n c => n + c.utf8Size) n = n + byteLength cs := by
  induction cs generalizing n with
  | nil => rfl
  | cons c cs ih =>
    simp only [byteLength, List.foldl_cons, ih (n + c.utf8Size), ih (0 + c.utf8Size)]
    omega

@[simp] theorem byteLength_nil : byteLength [] = 0 := rfl

@[simp] theorem byteLength_cons (c : Char) (cs : List Char) :
    byteLength (c :: cs) = c.utf8Size + byteLength cs := by
  rw [byteLength, List.foldl_cons, byteLength_foldl]
  omega

@[simp] theorem byteLength_append (as bs : List Char) :
    byteLength (as ++ bs) = byteLength as + byteLength bs := by
  induction as with
  | nil => simp
  | cons c as ih =>
    simp only [List.cons_append, byteLength_cons, ih]
    omega

/-- The characters that end words are ASCII, one byte each. -/
theorem utf8Size_of_endsWord {c : Char} (h : endsWord c = true) : c.utf8Size = 1 := by
  simp only [endsWord, isAsciiBlank, Bool.or_eq_true, beq_iff_eq] at h
  rcases h with (((((((rfl | rfl) | rfl) | rfl) | rfl) | rfl) | rfl) | rfl) | rfl <;> decide

/-! ## One step of the lexer -/

section steps

variable {c : Char} {rest : List Char} {off : Nat}

theorem tokenize_nil (off : Nat) : tokenize [] off = .ok [] := by
  rw [tokenize]

theorem tokenize_quoted {body : List Char} {after : { r : List Char // r.length < rest.length }}
    (h : scanQuoted rest = some (body, after)) :
    tokenize ('"' :: rest) off =
      (⟨.quoted, String.ofList ('"' :: body), off⟩ :: ·) <$> tokenize after.1 (off + byteLength ('"' :: body)) := by
  rw [tokenize]
  simp only [h]

theorem tokenize_matchOp : tokenize ('=' :: '~' :: rest) off = (⟨.matchOp, "=~", off⟩ :: ·) <$> tokenize rest (off + 2) := by
  rw [tokenize]

theorem tokenize_paren (hc : c = '(' ∨ c = ')') :
    tokenize (c :: rest) off = (⟨.paren, c.toString, off⟩ :: ·) <$> tokenize rest (off + 1) := by
  rcases hc with rfl | rfl <;> rw [tokenize] <;> simp

theorem tokenize_blank (hc : isAsciiBlank c = true) : tokenize (c :: rest) off = tokenize rest (off + 1) := by
  simp only [isAsciiBlank, Bool.or_eq_true, beq_iff_eq] at hc
  rcases hc with (((rfl | rfl) | rfl) | rfl) | rfl <;> rw [tokenize] <;> simp [isAsciiBlank]

theorem tokenize_word (hc : endsWord c = false) :
    tokenize (c :: rest) off =
      (⟨.word, String.ofList (c :: rest.takeWhile (fun d => !endsWord d)), off⟩ :: ·) <$>
        tokenize (rest.dropWhile (fun d => !endsWord d))
          (off + byteLength (c :: rest.takeWhile (fun d => !endsWord d))) := by
  have hq : c ≠ '"' := fun h => by simp [h, endsWord] at hc
  have he : c ≠ '=' := fun h => by simp [h, endsWord] at hc
  have hp : ¬(c = '(' ∨ c = ')') := by rintro (h | h) <;> simp [h, endsWord] at hc
  have hb : isAsciiBlank c = false := by
    simp only [endsWord, Bool.or_eq_false_iff] at hc
    exact hc.1.1.1.1
  rw [tokenize]
  simp [hp, hb, hc]
  · exact hq
  · intro r h
    exact absurd h he

/-- At a character that ends words but starts no token, the lexer fails. -/
theorem tokenize_invalid (hc : endsWord c = true) (hq : c ≠ '"') (hp : ¬(c = '(' ∨ c = ')'))
    (hb : isAsciiBlank c = false) (hm : ¬(c = '=' ∧ ∃ r, rest = '~' :: r)) :
    tokenize (c :: rest) off = .error (off, invalidText (c :: rest)) := by
  rw [tokenize]
  simp [hp, hb, hc]
  · exact hq
  · intro r h hr
    exact hm ⟨h, r, hr⟩

end steps

/-! ## Quoted strings -/

/-- A quoted string that closes within a text closes at the same place
within any longer text. -/
theorem scanQuoted_append {cs ds body : List Char} {after : { r : List Char // r.length < cs.length }}
    (h : scanQuoted cs = some (body, after)) :
    cs = body ++ after.1 ∧ ∃ after', scanQuoted (cs ++ ds) = some (body, after') ∧ after'.1 = after.1 ++ ds := by
  induction cs using scanQuoted.induct generalizing body with
  | case1 => simp [scanQuoted] at h
  | case2 rest =>
    simp only [scanQuoted, Option.some.injEq, Prod.mk.injEq] at h
    obtain ⟨rfl, rfl⟩ := h
    exact ⟨rfl, ⟨rest ++ ds, by simp⟩, by simp [scanQuoted], rfl⟩
  | case3 rest => simp [scanQuoted] at h
  | case4 c rest hc ih =>
    simp only [scanQuoted, hc, if_false, Option.map_eq_some_iff] at h
    obtain ⟨⟨a, b⟩, hab, heq⟩ := h
    simp only [Prod.mk.injEq] at heq
    obtain ⟨rfl, rfl⟩ := heq
    obtain ⟨hsplit, b', hb', hb'eq⟩ := ih hab
    refine ⟨by simp [hsplit], ⟨b'.1, by have := b'.2; simp only [List.length_append, List.length_cons] at this ⊢; omega⟩, ?_, hb'eq⟩
    simp [scanQuoted, hc, hb']
  | case5 rest _ hnot =>
    cases rest with
    | nil => simp [scanQuoted] at h
    | cons c rest => exact absurd rfl (hnot c rest rfl)
  | case6 c rest hq _ hbs ih =>
    have hq' : c ≠ '"' := hq
    simp only [scanQuoted, hbs, if_false, Option.map_eq_some_iff] at h
    · obtain ⟨⟨a, b⟩, hab, heq⟩ := h
      simp only [Prod.mk.injEq] at heq
      obtain ⟨rfl, rfl⟩ := heq
      obtain ⟨hsplit, b', hb', hb'eq⟩ := ih hab
      refine ⟨by simp [hsplit], ⟨b'.1, by have := b'.2; simp only [List.length_append, List.length_cons] at this ⊢; omega⟩, ?_, hb'eq⟩
      simp [scanQuoted, hbs, hb']

/-! ## Texts that split into tokens -/

theorem map_cons_eq_ok {t : Token} {x : Except (Nat × String) (List Token)} {ts : List Token} :
    (t :: ·) <$> x = .ok ts ↔ ∃ ts', x = .ok ts' ∧ ts = t :: ts' := by
  cases x <;> simp [Functor.map, Except.map, eq_comm]

/-- Starting a text `k` bytes further on moves its tokens by `k`. -/
theorem tokenize_shift {cs : List Char} {off : Nat} {ts : List Token} (h : tokenize cs off = .ok ts)
    (k : Nat) : tokenize cs (off + k) = .ok (ts.map (·.shift k)) := by
  induction cs, off using tokenize.induct generalizing ts with
  | case1 off =>
    rw [tokenize_nil] at h ⊢
    cases h
    rfl
  | case2 off rest body after hq =>
    rename_i ih
    rw [tokenize_quoted hq] at h ⊢
    obtain ⟨ts', h', rfl⟩ := map_cons_eq_ok.1 h
    rw [Nat.add_right_comm, ih h']
    rfl
  | case3 off rest hq =>
    rw [tokenize, hq] at h
    cases h
  | case4 off rest ih =>
    rw [tokenize_matchOp] at h ⊢
    obtain ⟨ts', h', rfl⟩ := map_cons_eq_ok.1 h
    rw [Nat.add_right_comm, ih h']
    rfl
  | case5 off c rest _ _ hp ih =>
    have hp' : c = '(' ∨ c = ')' := by simpa using hp
    rw [tokenize_paren hp'] at h ⊢
    obtain ⟨ts', h', rfl⟩ := map_cons_eq_ok.1 h
    rw [Nat.add_right_comm, ih h']
    rfl
  | case6 off c rest _ _ _ hb ih =>
    rw [tokenize_blank hb] at h ⊢
    rw [Nat.add_right_comm, ih h]
  | case7 off c rest hq hm hp hb hw =>
    rw [tokenize_invalid hw hq (by simpa using hp) (by simpa using hb)
      (fun ⟨he, r, hr⟩ => hm r he hr)] at h
    cases h
  | case8 off c rest _ _ _ _ hw =>
    rename_i ih
    have hw' : endsWord c = false := by simpa using hw
    rw [tokenize_word hw'] at h ⊢
    obtain ⟨ts', h', rfl⟩ := map_cons_eq_ok.1 h
    rw [Nat.add_right_comm, ih h']
    rfl

/-- Before a character that ends words, a word ends where it ends alone. -/
theorem takeWhile_dropWhile_append {rest ds : List Char} (hd : ∀ d ∈ ds.head?, endsWord d = true) :
    (rest ++ ds).takeWhile (fun d => !endsWord d) = rest.takeWhile (fun d => !endsWord d) ∧
      (rest ++ ds).dropWhile (fun d => !endsWord d) = rest.dropWhile (fun d => !endsWord d) ++ ds := by
  induction rest with
  | nil =>
    cases ds with
    | nil => simp
    | cons d ds => simp [hd d rfl]
  | cons c rest ih =>
    cases hc : endsWord c
    · simp [hc, ih.1, ih.2]
    · simp [hc]

/-- A text that splits into tokens, followed by a text that starts with a
character ending words, splits into its tokens and those of the rest. -/
theorem tokenize_append {cs ds : List Char} {off : Nat} {ts us : List Token}
    (hcs : tokenize cs off = .ok ts) (hd : ∀ d ∈ ds.head?, endsWord d = true)
    (hds : tokenize ds (off + byteLength cs) = .ok us) : tokenize (cs ++ ds) off = .ok (ts ++ us) := by
  induction cs, off using tokenize.induct generalizing ts with
  | case1 off =>
    rw [tokenize_nil] at hcs
    cases hcs
    simpa using hds
  | case2 off rest body after hq =>
    rename_i ih
    rw [tokenize_quoted hq] at hcs
    obtain ⟨ts', h', rfl⟩ := map_cons_eq_ok.1 hcs
    obtain ⟨hsplit, after', hq', hafter⟩ := @scanQuoted_append _ ds _ _ hq
    have hlen : off + byteLength ('"' :: rest) = off + byteLength ('"' :: body) + byteLength after.1 := by
      have hb := congrArg byteLength hsplit
      rw [byteLength_append] at hb
      simp only [byteLength_cons]
      omega
    rw [List.cons_append, tokenize_quoted hq', hafter, ih h' (by rwa [← hlen])]
    rfl
  | case3 off rest hq =>
    rw [tokenize, hq] at hcs
    cases hcs
  | case4 off rest ih =>
    rw [tokenize_matchOp] at hcs
    obtain ⟨ts', h', rfl⟩ := map_cons_eq_ok.1 hcs
    have hlen : off + byteLength ('=' :: '~' :: rest) = off + 2 + byteLength rest := by
      have h₁ : ('=' : Char).utf8Size = 1 := by decide
      have h₂ : ('~' : Char).utf8Size = 1 := by decide
      simp only [byteLength_cons, h₁, h₂]
      omega
    rw [List.cons_append, List.cons_append, tokenize_matchOp, ih h' (by rwa [← hlen])]
    rfl
  | case5 off c rest _ _ hp ih =>
    have hp' : c = '(' ∨ c = ')' := by simpa using hp
    rw [tokenize_paren hp'] at hcs
    obtain ⟨ts', h', rfl⟩ := map_cons_eq_ok.1 hcs
    have hlen : off + byteLength (c :: rest) = off + 1 + byteLength rest := by
      have hc : c.utf8Size = 1 := utf8Size_of_endsWord (by rcases hp' with rfl | rfl <;> rfl)
      simp only [byteLength_cons, hc]
      omega
    rw [List.cons_append, tokenize_paren hp', ih h' (by rwa [← hlen])]
    rfl
  | case6 off c rest _ _ _ hb ih =>
    rw [tokenize_blank hb] at hcs
    have hlen : off + byteLength (c :: rest) = off + 1 + byteLength rest := by
      have hc : c.utf8Size = 1 := utf8Size_of_endsWord (by simp [endsWord, hb])
      simp only [byteLength_cons, hc]
      omega
    rw [List.cons_append, tokenize_blank hb, ih hcs (by rwa [← hlen])]
  | case7 off c rest hq hm hp hb hw =>
    rw [tokenize_invalid hw hq (by simpa using hp) (by simpa using hb)
      (fun ⟨he, r, hr⟩ => hm r he hr)] at hcs
    cases hcs
  | case8 off c rest _ _ _ _ hw =>
    rename_i ih
    have hw' : endsWord c = false := by simpa using hw
    rw [tokenize_word hw'] at hcs
    obtain ⟨ts', h', rfl⟩ := map_cons_eq_ok.1 hcs
    obtain ⟨htake, hdrop⟩ := @takeWhile_dropWhile_append rest _ hd
    have hlen : off + byteLength (c :: rest) =
        off + byteLength (c :: rest.takeWhile (fun d => !endsWord d)) +
          byteLength (rest.dropWhile (fun d => !endsWord d)) := by
      have hb := congrArg byteLength (List.takeWhile_append_dropWhile (p := fun d => !endsWord d) (l := rest))
      rw [byteLength_append] at hb
      simp only [byteLength_cons]
      omega
    rw [List.cons_append, tokenize_word hw', htake, hdrop, ih h' (by rwa [← hlen])]
    rfl

/-! ## The pieces of joined filter texts -/

/-- Upper case leaves the characters that end words as they are. -/
theorem toUpper_of_endsWord {c : Char} (h : endsWord c = true) : c.toUpper = c := by
  simp only [endsWord, isAsciiBlank, Bool.or_eq_true, beq_iff_eq] at h
  rcases h with (((((((rfl | rfl) | rfl) | rfl) | rfl) | rfl) | rfl) | rfl) | rfl <;> decide

/-- A spelling of a word is a word: none of its characters ends words. -/
theorem endsWord_of_toUpper {k kw : String} (hk : k.toUpper = kw) (hkw : ∀ c ∈ kw.toList, endsWord c = false) :
    ∀ c ∈ k.toList, endsWord c = false := by
  intro c hc
  cases h : endsWord c
  · rfl
  · have hmem : c.toUpper ∈ kw.toList := by
      rw [← hk, String.toUpper, String.toList_map]
      exact List.mem_map_of_mem hc
    rw [toUpper_of_endsWord h] at hmem
    rw [hkw c hmem] at h
    cases h

/-- A run of word characters before a character that ends words is taken
whole. -/
theorem takeWhile_dropWhile_word {rest ds : List Char} (hw : ∀ d ∈ rest, endsWord d = false)
    (hd : ∀ d ∈ ds.head?, endsWord d = true) :
    (rest ++ ds).takeWhile (fun d => !endsWord d) = rest ∧ (rest ++ ds).dropWhile (fun d => !endsWord d) = ds := by
  induction rest with
  | nil =>
    cases ds with
    | nil => simp
    | cons d ds => simp [hd d rfl]
  | cons c rest ih =>
    have hc := hw c List.mem_cons_self
    obtain ⟨htake, hdrop⟩ := ih fun d hd' => hw d (List.mem_cons_of_mem c hd')
    simp [hc, htake, hdrop]

/-- A word followed by a character that ends words is one token. -/
theorem tokenize_word_append {w ds : List Char} {off : Nat} {us : List Token}
    (hw : ∀ c ∈ w, endsWord c = false) (hne : w ≠ []) (hd : ∀ d ∈ ds.head?, endsWord d = true)
    (hds : tokenize ds (off + byteLength w) = .ok us) :
    tokenize (w ++ ds) off = .ok (⟨.word, String.ofList w, off⟩ :: us) := by
  obtain ⟨c, rest, rfl⟩ := List.exists_cons_of_ne_nil hne
  obtain ⟨htake, hdrop⟩ := takeWhile_dropWhile_word (fun d hd' => hw d (List.mem_cons_of_mem c hd')) hd
  rw [List.cons_append, tokenize_word (hw c List.mem_cons_self), htake, hdrop, hds]
  rfl

/-- A parenthesized text that splits into tokens. -/
theorem tokenize_group {e ds : List Char} {off : Nat} {ts us : List Token} (he : tokenize e 0 = .ok ts)
    (hds : tokenize ds (off + 1 + byteLength e + 1) = .ok us) :
    tokenize ('(' :: (e ++ ')' :: ds)) off =
      .ok (⟨.paren, "(", off⟩ :: ts.map (·.shift (off + 1)) ++ ⟨.paren, ")", off + 1 + byteLength e⟩ :: us) := by
  have he' : tokenize e (off + 1) = .ok (ts.map (·.shift (off + 1))) := by
    simpa using tokenize_shift he (off + 1)
  have hclose : tokenize (')' :: ds) (off + 1 + byteLength e) =
      .ok (⟨.paren, ")", off + 1 + byteLength e⟩ :: us) := by
    rw [tokenize_paren (.inr rfl), hds]
    rfl
  rw [tokenize_paren (.inl rfl), tokenize_append he' (by simp [endsWord]) hclose]
  rfl

end EventChart.Match
