import EventChart.Entry.Line
/-!
# Reading back a written entry

`Entry.render` writes an entry as a line and `Entry.parse` reads a line.  This
module shows when the first undoes the second: an entry read from any line
is read back from its written form exactly as it was, provided

* each attribute name is a word: not empty, without space or tab, and not
  opening a quoted word (`IsWord`);
* no attribute value ends in a carriage return or line feed, which reading
  drops from the end of a line (`EndsInLineEnd`);
* a log message carries no attributes: a `-` tag reached through leading
  blanks is read as a log message with attributes, and the written form of a
  log message is its text alone.

Names are written without quotes, so the first condition is needed:
`render_splits_quoted_name` reads back `E # 0 t 0 m 1 "a b" x` as a line
with an odd word out.

The lemmas come in three groups: the written form as characters
(`render_toList`, `writtenAttrs`), reading those characters (`splitWords_*`,
`pairUp_pairWords`, `trimLineEnd_of_not_endsInLineEnd`), and what a
successful read yields (`parse_ok_cases`).  `parse_render` puts them
together.
-/

namespace EventChart

open EventChart.Text

/-! ## Words and line ends -/

/-- A character that separates words of a line. -/
def IsSeparator (c : Char) : Prop := c = ' ' ∨ c = '\t'

/-- Characters that a line reads back as one word: not empty, without a
separator, and not opening a quoted word. -/
def IsWord (w : List Char) : Prop :=
  w ≠ [] ∧ (∀ c ∈ w, ¬ IsSeparator c) ∧ w.head? ≠ some '"'

instance (c : Char) : Decidable (IsSeparator c) := inferInstanceAs (Decidable (c = ' ' ∨ c = '\t'))

instance (w : List Char) : Decidable (IsWord w) :=
  inferInstanceAs (Decidable (w ≠ [] ∧ (∀ c ∈ w, ¬ IsSeparator c) ∧ w.head? ≠ some '"'))

/-- Whether a text ends in a carriage return or line feed. -/
def EndsInLineEnd (s : List Char) : Prop := s.getLast? = some '\r' ∨ s.getLast? = some '\n'

instance (s : List Char) : Decidable (EndsInLineEnd s) :=
  inferInstanceAs (Decidable (s.getLast? = some '\r' ∨ s.getLast? = some '\n'))

theorem getLast?_append_of_ne_nil {l₁ l₂ : List Char} (h : l₂ ≠ []) :
    (l₁ ++ l₂).getLast? = l₂.getLast? := by
  rw [List.getLast?_append]
  cases h2 : l₂.getLast? with
  | none => exact absurd (List.getLast?_eq_none_iff.mp h2) h
  | some c => rfl

theorem endsInLineEnd_append {l₁ l₂ : List Char} (h : EndsInLineEnd l₂) :
    EndsInLineEnd (l₁ ++ l₂) := by
  have hne : l₂ ≠ [] := by
    rintro rfl
    simp [EndsInLineEnd] at h
  unfold EndsInLineEnd at *
  rwa [getLast?_append_of_ne_nil hne]

/-! ## The written form -/

/-- The characters of a value as written: quoted and escaped when needed. -/
def escapeChars (v : List Char) : List Char :=
  v.flatMap fun c => if c == '\\' || c == '"' then ['\\', c] else [c]

theorem quoteValue_toList (v : String) :
    (quoteValue v).toList =
      if needsQuotes v then '"' :: escapeChars v.toList ++ ['"'] else v.toList := by
  unfold quoteValue
  split <;> simp [escapeChars]

/-- The attributes of a line as written after the tag. -/
def writtenAttrs (attrs : List (String × String)) : List Char :=
  attrs.flatMap fun a => ' ' :: a.1.toList ++ ' ' :: (quoteValue a.2).toList

theorem foldl_render_toList (attrs : List (String × String)) (init : String) :
    (attrs.foldl (fun acc (n, v) => acc ++ " " ++ n ++ " " ++ quoteValue v) init).toList =
      init.toList ++ writtenAttrs attrs := by
  induction attrs generalizing init with
  | nil => simp [writtenAttrs]
  | cons a rest ih =>
    rw [List.foldl_cons, ih]
    simp [writtenAttrs]

theorem render_toList {e : Entry} (h : e.kind ≠ .logMessage) :
    e.render.toList = e.kind.tag.toList ++ writtenAttrs e.attrs := by
  simp only [Entry.render, h, if_false]
  exact foldl_render_toList e.attrs e.kind.tag

/-- The words of a line holding the attributes: each name, then its value. -/
def pairWords (attrs : List (String × String)) : List String :=
  attrs.flatMap fun a => [a.1, a.2]

/-! ## Reading the written form -/

theorem readQuotedWord_escapeChars (v rest : List Char) :
    readQuotedWord (escapeChars v ++ '"' :: rest) = some (v, rest) := by
  induction v with
  | nil => simp [escapeChars, readQuotedWord]
  | cons c v ih =>
    have hv : escapeChars (c :: v) =
        (if c == '\\' || c == '"' then ['\\', c] else [c]) ++ escapeChars v := by
      simp [escapeChars]
    rw [hv]
    by_cases hc : c = '\\' ∨ c = '"'
    · rcases hc with rfl | rfl <;> simp [readQuotedWord, ih]
    · have h1 : c ≠ '\\' := fun h => hc (.inl h)
      have h2 : c ≠ '"' := fun h => hc (.inr h)
      simp [h1, h2, readQuotedWord, ih]

theorem splitWords_separator {c : Char} (hc : IsSeparator c) (rest : List Char) :
    splitWords (c :: rest) = splitWords rest := by
  rw [splitWords]
  simp only [IsSeparator] at hc
  simp [hc]

theorem splitWords_quoted (v rest : List Char) :
    splitWords ('"' :: (escapeChars v ++ '"' :: rest)) = (String.ofList v :: ·) <$> splitWords rest := by
  rw [splitWords]
  simp only [show ¬ ('"' = ' ' ∨ '"' = '\t') by decide, if_false, if_true]
  split
  · next w after hq =>
    rw [readQuotedWord_escapeChars] at hq
    cases hq
    rfl
  · next hq =>
    rw [readQuotedWord_escapeChars] at hq
    cases hq

/-- A separator or nothing follows: the end of a word. -/
def EndsWord (rest : List Char) : Prop := ∀ c ∈ rest.head?, IsSeparator c

theorem takeWhile_word {w rest : List Char} (hw : ∀ c ∈ w, ¬ IsSeparator c) (hr : EndsWord rest) :
    (w ++ rest).takeWhile (fun d => d != ' ' && d != '\t') = w ∧
      (w ++ rest).dropWhile (fun d => d != ' ' && d != '\t') = rest := by
  induction w with
  | nil =>
    cases rest with
    | nil => simp
    | cons c r =>
      have hc : IsSeparator c := hr c rfl
      simp only [IsSeparator] at hc
      rcases hc with rfl | rfl <;> simp
  | cons c w ih =>
    have hc := hw c List.mem_cons_self
    have hc' : (c != ' ' && c != '\t') = true := by
      simp only [IsSeparator, not_or] at hc
      simp [hc.1, hc.2]
    obtain ⟨h1, h2⟩ := ih fun d hd => hw d (List.mem_cons_of_mem _ hd)
    simp [hc', h1, h2]

theorem splitWords_word {w rest : List Char} (hw : IsWord w) (hr : EndsWord rest) :
    splitWords (w ++ rest) = (String.ofList w :: ·) <$> splitWords rest := by
  obtain ⟨hne, hsep, hq⟩ := hw
  obtain ⟨c, w', rfl⟩ := List.exists_cons_of_ne_nil hne
  have hc : ¬ IsSeparator c := hsep c List.mem_cons_self
  have hc' : c ≠ '"' := fun h => hq (by simp [h])
  obtain ⟨ht, hd⟩ := takeWhile_word (fun d hd => hsep d (List.mem_cons_of_mem _ hd)) hr
  rw [List.cons_append, splitWords]
  simp only [IsSeparator] at hc
  simp only [hc, hc', if_false, ht, hd]

/-- A value written without quotes is a word. -/
theorem isWord_of_not_needsQuotes {v : String} (h : needsQuotes v = false) : IsWord v.toList := by
  simp only [needsQuotes, Bool.or_eq_false_iff, List.any_eq_false] at h
  obtain ⟨hne, hchars⟩ := h
  refine ⟨fun h0 => ?_, fun c hc => ?_, fun hh => ?_⟩
  · simp [String.toList_eq_nil_iff.mp h0] at hne
  · have := hchars c hc
    simp only [IsSeparator]
    simp_all
  · have hc : '"' ∈ v.toList := List.mem_of_mem_head? hh
    simpa using hchars '"' hc

theorem endsWord_writtenAttrs (attrs : List (String × String)) : EndsWord (writtenAttrs attrs) := by
  cases attrs with
  | nil => simp [EndsWord, writtenAttrs]
  | cons a rest => simp [EndsWord, writtenAttrs, IsSeparator]

theorem splitWords_writtenAttrs {attrs : List (String × String)}
    (hn : ∀ a ∈ attrs, IsWord a.1.toList) :
    splitWords (writtenAttrs attrs) = some (pairWords attrs) := by
  induction attrs with
  | nil => simp [writtenAttrs, pairWords, splitWords]
  | cons a rest ih =>
    have ih := ih fun b hb => hn b (List.mem_cons_of_mem _ hb)
    have hname : IsWord a.1.toList := hn a List.mem_cons_self
    have hw : writtenAttrs (a :: rest) =
        ' ' :: (a.1.toList ++ ' ' :: ((quoteValue a.2).toList ++ writtenAttrs rest)) := by
      simp [writtenAttrs]
    have hsp : IsSeparator ' ' := .inl rfl
    rw [hw, splitWords_separator hsp,
      splitWords_word hname (by simp [EndsWord, IsSeparator]), splitWords_separator hsp,
      quoteValue_toList]
    -- the value is read back as a quoted word or, written bare, as a word
    split
    · simp only [List.cons_append, List.append_assoc]
      rw [splitWords_quoted, List.nil_append, ih]
      simp [pairWords]
    · next hq =>
      rw [splitWords_word (isWord_of_not_needsQuotes (by simpa using hq))
        (endsWord_writtenAttrs rest), ih]
      simp [pairWords]

theorem pairUp_pairWords (attrs : List (String × String)) : pairUp (pairWords attrs) = .ok attrs := by
  induction attrs with
  | nil => rfl
  | cons a rest ih =>
    simp only [pairWords, List.flatMap_cons, List.cons_append, List.nil_append] at ih ⊢
    rw [pairUp, ih]
    rfl

/-! ## Tags -/

/-- The tag of a kind other than a log message is a word that does not start
with `-` and does not end a line. -/
theorem tag_isWord {k : Kind} (h : k ≠ .unknown) (hm : k ≠ .logMessage) :
    IsWord k.tag.toList ∧ k.tag.toList.head? ≠ some '-' ∧
      isBlank (k.tag.toList.head?.getD ' ') = false ∧ ¬ EndsInLineEnd k.tag.toList := by
  cases k <;> first | exact absurd rfl h | exact absurd rfl hm | simp [Kind.tag, IsWord, IsSeparator, EndsInLineEnd, isBlank]

/-! ## Line ends and blanks -/

theorem trimLineEnd_of_not_endsInLineEnd {s : String} (h : ¬ EndsInLineEnd s.toList) :
    trimLineEnd s = s := by
  unfold trimLineEnd
  cases hs : s.toList.reverse with
  | nil =>
    have : s = "" := String.toList_eq_nil_iff.mp (by simpa using hs)
    simp [this]
  | cons c r =>
    have hlast : s.toList.getLast? = some c := by
      rw [← List.head?_reverse, hs]
      rfl
    have hc : (c == '\r' || c == '\n') = false := by
      simp only [EndsInLineEnd, hlast, Option.some.injEq] at h
      simp [not_or.mp h]
    rw [List.dropWhile_cons_of_neg (by simp [hc]), ← hs, List.reverse_reverse, String.ofList_toList]

theorem not_endsInLineEnd_trimLineEnd (s : String) : ¬ EndsInLineEnd (trimLineEnd s).toList := by
  unfold trimLineEnd EndsInLineEnd
  rw [String.toList_ofList, List.getLast?_reverse]
  generalize s.toList.reverse = l
  induction l with
  | nil => simp
  | cons c r ih =>
    rw [List.dropWhile_cons]
    split
    · exact ih
    · next hc =>
      simp only [Bool.or_eq_true, beq_iff_eq, not_or] at hc
      simp [hc.1, hc.2]

theorem trimBlank_ne_empty {c : Char} (hc : isBlank c = false) (l : List Char) :
    trimBlank (String.ofList (c :: l)) ≠ "" := by
  unfold trimBlank
  rw [String.toList_ofList]
  simp only [dropBlank, hc, Bool.false_eq_true, if_false, List.reverse_cons]
  -- the non-blank `c` survives trimming at the end
  have key : ∀ r : List Char, dropBlank (r ++ [c]) ≠ [] := by
    intro r
    induction r with
    | nil => simp [dropBlank, hc]
    | cons d r ih =>
      simp only [List.cons_append, dropBlank]
      split
      · exact ih
      · simp
  intro h
  have h' := congrArg String.toList h
  simp only [String.toList_ofList, String.toList_empty, List.reverse_eq_nil_iff] at h'
  exact key _ h'

/-! ## What a successful read yields -/

/-- An entry read from a line is a log message without attributes whose text
does not end a line, or a record of a known kind whose attributes pass the
kind's check, with no text; either way it carries the line's number and
offset and no owning event. -/
theorem parse_ok_cases {line : String} {n o : Int} {e : Entry} (h : Entry.parse line n o = .ok e) :
    e.line = n ∧ e.offset = o ∧ e.eventNumber = -1 ∧
      ((e.kind = .logMessage ∧ e.attrs = [] ∧ ¬ EndsInLineEnd e.text.toList) ∨
        (e.kind ≠ .unknown ∧ e.text = "" ∧ validate e = none)) := by
  unfold Entry.parse at h
  simp only at h
  split at h
  · cases h
  · split at h
    · next rest hl =>
      cases h
      refine ⟨rfl, rfl, rfl, .inl ⟨rfl, rfl, ?_⟩⟩
      -- the text is a suffix of the trimmed line, which ends in no line end
      rw [String.toList_ofList]
      intro hend
      apply not_endsInLineEnd_trimLineEnd line
      rw [hl]
      split at hend
      · next t => exact @endsInLineEnd_append ['-', ' '] _ hend
      · exact @endsInLineEnd_append ['-'] _ hend
    · split at h
      · cases h
      · cases h
      · next tag words _ =>
        split at h
        · cases h
        · next hk =>
          split at h
          · cases h
          · next attrs _ =>
            split at h
            · cases h
            · next hv =>
              cases h
              exact ⟨rfl, rfl, rfl, .inr ⟨hk, rfl, hv⟩⟩

/-! ## Reading back -/

/-- An entry that its written line describes exactly. -/
structure Entry.Writable (e : Entry) : Prop where
  names : ∀ a ∈ e.attrs, IsWord a.1.toList
  values : ∀ a ∈ e.attrs, ¬ EndsInLineEnd a.2.toList
  message : e.kind = .logMessage → e.attrs = []

/-- The written line of a log message is `- ` and its text. -/
theorem parse_render_message {e : Entry} (hk : e.kind = .logMessage)
    (ht : ¬ EndsInLineEnd e.text.toList) (n o : Int) :
    Entry.parse e.render n o = .ok ⟨.logMessage, [], e.text, n, o, -1⟩ := by
  have hr : e.render = "- " ++ e.text := by simp [Entry.render, hk]
  have hend : ¬ EndsInLineEnd e.render.toList := by
    rw [hr, String.toList_append]
    intro h
    cases ht' : e.text.toList with
    | nil => simp [ht', EndsInLineEnd] at h
    | cons c r =>
      apply ht
      unfold EndsInLineEnd at h ⊢
      rwa [getLast?_append_of_ne_nil (by simp [ht'])] at h
  have hblank : trimBlank e.render ≠ "" := by
    rw [hr, ← String.ofList_toList (s := "- " ++ e.text), String.toList_append]
    exact trimBlank_ne_empty (c := '-') (by decide) _
  unfold Entry.parse
  simp only [trimLineEnd_of_not_endsInLineEnd hend, hblank, beq_iff_eq, if_false]
  rw [hr, String.toList_append]
  simp

/-- The last character of the written attributes: a quote or the last
character of a bare value. -/
theorem not_endsInLineEnd_writtenAttrs {attrs : List (String × String)}
    (hv : ∀ a ∈ attrs, ¬ EndsInLineEnd a.2.toList) (tag : List Char)
    (ht : ¬ EndsInLineEnd tag) : ¬ EndsInLineEnd (tag ++ writtenAttrs attrs) := by
  rcases List.eq_nil_or_concat attrs with rfl | ⟨rest, a, rfl⟩
  · simpa [writtenAttrs] using ht
  · rw [List.concat_eq_append] at hv ⊢
    have hw : tag ++ writtenAttrs (rest ++ [a]) =
        (tag ++ writtenAttrs rest ++ ' ' :: a.1.toList ++ [' ']) ++ (quoteValue a.2).toList := by
      simp [writtenAttrs]
    rw [hw, quoteValue_toList]
    intro hend
    split at hend
    · -- a quoted value ends in its closing quote
      have hq : ('"' :: escapeChars a.2.toList ++ ['"']).getLast? = some '"' := by
        rw [getLast?_append_of_ne_nil (by simp)]
        rfl
      unfold EndsInLineEnd at hend
      rw [getLast?_append_of_ne_nil (by simp), hq] at hend
      simp at hend
    · next hq =>
      exact hv a (by simp) (by
        have hne : a.2.toList ≠ [] := (isWord_of_not_needsQuotes (by simpa using hq)).1
        unfold EndsInLineEnd at hend ⊢
        rwa [getLast?_append_of_ne_nil hne] at hend)

/-- An entry read from a line is read back from its written form, unchanged,
when its names are words, its values do not end in a line end, and it is not
a log message with attributes. -/
theorem parse_render {line : String} {n o : Int} {e : Entry} (h : Entry.parse line n o = .ok e)
    (hw : e.Writable) : Entry.parse e.render n o = .ok e := by
  obtain ⟨hl, ho, hev, hcases⟩ := parse_ok_cases h
  have he : e = ⟨e.kind, e.attrs, e.text, n, o, -1⟩ := by
    cases e
    simp_all
  rcases hcases with ⟨hk, ha, ht⟩ | ⟨hk, ht, hv⟩
  · rw [parse_render_message hk ht, he, hk, ha]
  · by_cases hm : e.kind = .logMessage
    · have ha := hw.message hm
      have ht' : ¬ EndsInLineEnd e.text.toList := by simp [ht, EndsInLineEnd]
      rw [parse_render_message hm ht', he, hm, ha, ht]
    · obtain ⟨htag, hdash, hfirst, htagEnd⟩ := tag_isWord hk hm
      have hchars := render_toList hm
      have hend : ¬ EndsInLineEnd e.render.toList := by
        rw [hchars]
        exact not_endsInLineEnd_writtenAttrs hw.values _ htagEnd
      obtain ⟨c, r, hcr⟩ := List.exists_cons_of_ne_nil htag.1
      have hblank : trimBlank e.render ≠ "" := by
        rw [← String.ofList_toList (s := e.render), hchars, hcr, List.cons_append]
        exact trimBlank_ne_empty (by simpa [hcr] using hfirst) _
      have hsplit : splitWords e.render.toList = some (e.kind.tag :: pairWords e.attrs) := by
        rw [hchars, splitWords_word htag (endsWord_writtenAttrs _), splitWords_writtenAttrs hw.names,
          String.ofList_toList]
        rfl
      have hc : c ≠ '-' := fun h => hdash (by simp [hcr, h])
      unfold Entry.parse
      simp only [trimLineEnd_of_not_endsInLineEnd hend, hblank, beq_iff_eq, if_false]
      split
      · next rest hrest =>
        rw [hchars, hcr] at hrest
        cases hrest
        exact absurd rfl hc
      · rw [hsplit]
        have hv' : validate ⟨e.kind, e.attrs, "", n, o, -1⟩ = none := by
          rw [← ht, ← he]
          exact hv
        simp only [Kind.ofTag_tag _ hk, hk, if_false, pairUp_pairWords, hv']
        rw [ht] at he
        exact congrArg Except.ok he.symm

/-- The quoted name of the format's own example is read back as written. -/
theorem parse_render_quotedValue :
    Entry.parse "BS id 31 c cPacket n \"ping \\\"3\\\" \\\\ x\" pe 9" 3 0 =
        .ok ⟨.beginSend, [("id", "31"), ("c", "cPacket"), ("n", "ping \"3\" \\ x"), ("pe", "9")],
          "", 3, 0, -1⟩ ∧
      Entry.Writable ⟨.beginSend, [("id", "31"), ("c", "cPacket"), ("n", "ping \"3\" \\ x"), ("pe", "9")],
          "", 3, 0, -1⟩ ∧
      Entry.parse (Entry.render ⟨.beginSend,
          [("id", "31"), ("c", "cPacket"), ("n", "ping \"3\" \\ x"), ("pe", "9")], "", 3, 0, -1⟩) 3 0 =
        .ok ⟨.beginSend, [("id", "31"), ("c", "cPacket"), ("n", "ping \"3\" \\ x"), ("pe", "9")],
          "", 3, 0, -1⟩ := by
  have h : Entry.parse "BS id 31 c cPacket n \"ping \\\"3\\\" \\\\ x\" pe 9" 3 0 =
      .ok ⟨.beginSend, [("id", "31"), ("c", "cPacket"), ("n", "ping \"3\" \\ x"), ("pe", "9")],
        "", 3, 0, -1⟩ := by
    have ho : (Entry.parse "BS id 31 c cPacket n \"ping \\\"3\\\" \\\\ x\" pe 9" 3 0).toOption =
        some ⟨.beginSend, [("id", "31"), ("c", "cPacket"), ("n", "ping \"3\" \\ x"), ("pe", "9")],
          "", 3, 0, -1⟩ := by
      decide +kernel
    revert ho
    cases Entry.parse "BS id 31 c cPacket n \"ping \\\"3\\\" \\\\ x\" pe 9" 3 0 <;> simp [Except.toOption]
  have hw : Entry.Writable ⟨.beginSend,
      [("id", "31"), ("c", "cPacket"), ("n", "ping \"3\" \\ x"), ("pe", "9")], "", 3, 0, -1⟩ :=
    ⟨by simp [IsWord, IsSeparator], by simp [EndsInLineEnd], by simp⟩
  exact ⟨h, hw, parse_render h hw⟩

/-- A quoted name with a blank is written bare, and its written line has an
odd word out, so it does not read back. -/
theorem render_splits_quoted_name :
    ∃ e, Entry.parse "E # 0 t 0 m 1 \"a b\" x" 1 0 = .ok e ∧ ∀ e', Entry.parse e.render 1 0 ≠ .ok e' := by
  refine ⟨⟨.event, [("#", "0"), ("t", "0"), ("m", "1"), ("a b", "x")], "", 1, 0, -1⟩, ?_, ?_⟩
  · have h : (Entry.parse "E # 0 t 0 m 1 \"a b\" x" 1 0).toOption =
        some ⟨.event, [("#", "0"), ("t", "0"), ("m", "1"), ("a b", "x")], "", 1, 0, -1⟩ := by
      decide +kernel
    revert h
    cases Entry.parse "E # 0 t 0 m 1 \"a b\" x" 1 0 <;> simp [Except.toOption]
  · intro e' he'
    have h : (Entry.parse (Entry.render
        ⟨.event, [("#", "0"), ("t", "0"), ("m", "1"), ("a b", "x")], "", 1, 0, -1⟩) 1 0).isOk = false := by
      decide +kernel
    rw [he'] at h
    cases h

end EventChart
