/-!
# Blank characters

Two character classes of white space are used by the readers of this library:

* `isBlank` is the Unicode `White_Space` property, used when surrounding
  blanks are trimmed from a user's value;
* `isAsciiBlank` is the five-character class of tab, line feed, form feed,
  carriage return and space that the filter language separates words by.

`trimBlank` removes `isBlank` characters from both ends of a text.
-/

namespace EventChart.Text

/-- The Unicode `White_Space` property. -/
def isBlank (c : Char) : Bool :=
  let n := c.toNat
  (0x09 ≤ n && n ≤ 0x0D) || n == 0x20 || n == 0x85 || n == 0xA0 || n == 0x1680 ||
    (0x2000 ≤ n && n ≤ 0x200A) || n == 0x2028 || n == 0x2029 || n == 0x202F ||
    n == 0x205F || n == 0x3000

/-- Tab, line feed, form feed, carriage return and space. -/
def isAsciiBlank (c : Char) : Bool :=
  c == '\t' || c == '\n' || c == '\x0c' || c == '\r' || c == ' '

/-- Every character that core counts as white space is blank. -/
theorem isBlank_of_isWhitespace (c : Char) (h : c.isWhitespace = true) : isBlank c = true := by
  simp only [Char.isWhitespace, Bool.or_eq_true, decide_eq_true_eq] at h
  simp only [isBlank, Bool.or_eq_true, Bool.and_eq_true, beq_iff_eq, decide_eq_true_eq]
  rcases h with ((h | h) | h) | h <;> subst h <;> decide

/-- Drops blank characters from the front of a character list. -/
def dropBlank : List Char → List Char
  | [] => []
  | c :: cs => if isBlank c then dropBlank cs else c :: cs

/-- Removes blank characters from both ends. -/
def trimBlank (s : String) : String :=
  String.ofList (dropBlank (dropBlank s.toList).reverse).reverse

/-- Dropping a prefix never makes a list longer. -/
theorem length_dropWhile_le {α : Type} (p : α → Bool) : ∀ (l : List α), (l.dropWhile p).length ≤ l.length
  | [] => by simp
  | a :: l => by
    have := length_dropWhile_le p l
    simp only [List.dropWhile_cons]
    split <;> simp <;> omega

end EventChart.Text
