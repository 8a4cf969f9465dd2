/-!
# Quoted text

Messages show user text between double quotes, in the escaped form that a
reader can copy back into a string literal:

* a double quote and a backslash are preceded by a backslash;
* printable characters stand for themselves;
* bell, backspace, form feed, line feed, carriage return, tab and vertical tab
  are written `\a \b \f \n \r \t \v`;
* other control characters below `0x80` are written `\xNN`, other
  non-printable characters `\uNNNN` or `\UNNNNNNNN`, in lower-case hex.

Text that is a byte string (a line cut inside a multi-byte character) is
quoted byte-wise: a byte that does not start a valid UTF-8 sequence is written
`\xNN`.  `quoteBytes` handles that case and agrees with `quote` on valid text.
-/

namespace EventChart.Text

/-- The lower-case hex digit of `n < 16`. -/
def hexDigit (n : Nat) : Char :=
  if n < 10 then Char.ofNat (48 + n) else Char.ofNat (87 + n)

/-- `n` written with exactly `width` lower-case hex digits. -/
def hexWidth (n : Nat) : Nat → List Char
  | 0 => []
  | w + 1 => hexWidth (n / 16) w ++ [hexDigit (n % 16)]

/-- Characters that are not printed as themselves: controls, separators other
than the space, format characters, surrogates, private use and
non-characters. -/
def isHidden (c : Char) : Bool :=
  let n := c.toNat
  n < 0x20 || (0x7F ≤ n && n ≤ 0xA0) || n == 0xAD ||
    (0x378 ≤ n && n ≤ 0x379) || (0x380 ≤ n && n ≤ 0x383) || n == 0x38B || n == 0x38D ||
    n == 0x3A2 || n == 0x530 || (0x557 ≤ n && n ≤ 0x558) || (0x58B ≤ n && n ≤ 0x58C) ||
    (0x600 ≤ n && n ≤ 0x605) || n == 0x61C || n == 0x6DD || n == 0x70F ||
    (0x890 ≤ n && n ≤ 0x891) || n == 0x8E2 || n == 0x1680 || n == 0x180E ||
    (0x2000 ≤ n && n ≤ 0x200F) || (0x2028 ≤ n && n ≤ 0x202F) ||
    (0x205F ≤ n && n ≤ 0x206F) || n == 0x3000 || (0xD800 ≤ n && n ≤ 0xF8FF) ||
    n == 0xFEFF || (0xFFF0 ≤ n && n ≤ 0xFFFB) || (0xFFFE ≤ n && n ≤ 0xFFFF) ||
    n == 0x110BD || n == 0x110CD || (0x13430 ≤ n && n ≤ 0x1343F) ||
    (0x1BCA0 ≤ n && n ≤ 0x1BCA3) || (0x1D173 ≤ n && n ≤ 0x1D17A) ||
    (0xE0000 ≤ n && n ≤ 0xE0FFF) || 0xF0000 ≤ n ||
    n % 0x10000 == 0xFFFE || n % 0x10000 == 0xFFFF

/-- The escaped form of one character inside double quotes. -/
def escapeChar (c : Char) : List Char :=
  if c == '"' || c == '\\' then ['\\', c]
  else if !isHidden c then [c]
  else if c == '\x07' then ['\\', 'a']
  else if c == '\x08' then ['\\', 'b']
  else if c == '\x0c' then ['\\', 'f']
  else if c == '\n' then ['\\', 'n']
  else if c == '\r' then ['\\', 'r']
  else if c == '\t' then ['\\', 't']
  else if c == '\x0b' then ['\\', 'v']
  else if c.toNat < 0x20 || c.toNat == 0x7F then '\\' :: 'x' :: hexWidth c.toNat 2
  else if c.toNat < 0x10000 then '\\' :: 'u' :: hexWidth c.toNat 4
  else '\\' :: 'U' :: hexWidth c.toNat 8

/-- The text between double quotes, escaped. -/
def quote (s : String) : String :=
  String.ofList ('"' :: (s.toList.flatMap escapeChar ++ ['"']))

/-- The length of the UTF-8 sequence a lead byte announces, or none for a byte
that cannot start one. -/
def utf8SeqLength (b : UInt8) : Option Nat :=
  if b < 0x80 then some 1
  else if b < 0xC2 then none
  else if b < 0xE0 then some 2
  else if b < 0xF0 then some 3
  else if b < 0xF5 then some 4
  else none

/-- Whether `b` is a continuation byte. -/
def isContinuation (b : UInt8) : Bool := 0x80 ≤ b && b < 0xC0

/-- Decodes the first character of a byte list: the character and the bytes
after it, or none when the bytes do not start with a valid UTF-8 sequence. -/
def decodeFirst (bs : List UInt8) : Option (Char × List UInt8) :=
  match bs with
  | [] => none
  | b :: rest =>
    match utf8SeqLength b with
    | some 1 => some (Char.ofNat b.toNat, rest)
    | some 2 =>
      match rest with
      | c1 :: r =>
        if isContinuation c1 then
          some (Char.ofNat ((b.toNat % 32) * 64 + c1.toNat % 64), r)
        else none
      | _ => none
    | some 3 =>
      match rest with
      | c1 :: c2 :: r =>
        let n := (b.toNat % 16) * 4096 + (c1.toNat % 64) * 64 + c2.toNat % 64
        if isContinuation c1 && isContinuation c2 && 0x800 ≤ n && !(0xD800 ≤ n && n ≤ 0xDFFF) then
          some (Char.ofNat n, r)
        else none
      | _ => none
    | some 4 =>
      match rest with
      | c1 :: c2 :: c3 :: r =>
        let n := (b.toNat % 8) * 262144 + (c1.toNat % 64) * 4096 + (c2.toNat % 64) * 64 +
          c3.toNat % 64
        if isContinuation c1 && isContinuation c2 && isContinuation c3 &&
            0x10000 ≤ n && n ≤ 0x10FFFF then
          some (Char.ofNat n, r)
        else none
      | _ => none
    | _ => none

/-- Splits a byte list into characters; each byte that does not start a valid
sequence becomes `Sum.inr` of itself. -/
def decodeBytes (bs : List UInt8) : List (Sum Char UInt8) :=
  match h : decodeFirst bs with
  | some (c, rest) =>
    have : rest.length < bs.length := by
      unfold decodeFirst at h
      split at h
      · simp at h
      · rename_i b r
        split at h <;> (try split at h) <;> (try split at h) <;> simp_all <;> omega
    Sum.inl c :: decodeBytes rest
  | none =>
    match bs with
    | [] => []
    | b :: rest => Sum.inr b :: decodeBytes rest
termination_by bs.length

/-- The quoted form of a byte string: valid characters as in `quote`, other
bytes as `\xNN`. -/
def quoteBytes (bs : List UInt8) : String :=
  let body := (decodeBytes bs).flatMap fun
    | .inl c => escapeChar c
    | .inr b => '\\' :: 'x' :: hexWidth b.toNat 2
  String.ofList ('"' :: (body ++ ['"']))

/-- A byte string as text, with U+FFFD for each byte that does not start a
valid sequence. -/
def bytesToText (bs : List UInt8) : String :=
  String.ofList ((decodeBytes bs).map fun
    | .inl c => c
    | .inr _ => '�')

end EventChart.Text
