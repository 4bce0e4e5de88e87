/-
Texts. `encode` gives the UTF-8 bytes of a text and `decode?` reads bytes back; `decode?_eq_some_iff` says
that reading accepts exactly what writing produces. A slice of a text is named by what remains after it
(`before`), or by the offsets of its ends (`slice?`). The characters that readers ask about come in two
classes, each larger than its ASCII part: blanks, of which texts are trimmed, and decimal digits.
-/
import StyleScope.Byte

namespace StyleScope.Text

/-! ## Bytes -/

/-- The bytes of a text, in UTF-8. -/
def encode (s : String) : Bytes := s.toList.flatMap String.utf8EncodeChar

/-- The text with these bytes, if they are the bytes of a text. -/
def decode? (bs : Bytes) : Option String := String.fromUTF8? bs.toByteArray

theorem encode_toByteArray (s : String) : (encode s).toByteArray = s.toByteArray := by
  simp [encode, ← List.utf8Encode.eq_1]

theorem encode_append (s t : String) : encode (s ++ t) = encode s ++ encode t := by
  simp [encode]

theorem decode?_encode (s : String) : decode? (encode s) = some s := by
  simp [decode?, String.fromUTF8?, encode_toByteArray, s.isValidUTF8, String.fromUTF8]

theorem eq_encode_of_decode? {bs : Bytes} {s : String} (h : decode? bs = some s) : bs = encode s := by
  unfold decode? String.fromUTF8? at h
  split at h
  · next hv =>
    cases h
    rw [← List.toByteArray_inj, encode_toByteArray, String.fromUTF8]
  · cases h

/-- Reading accepts exactly what writing produces. -/
theorem decode?_eq_some_iff {bs : Bytes} {s : String} : decode? bs = some s ↔ bs = encode s :=
  ⟨eq_encode_of_decode?, fun h => h ▸ decode?_encode s⟩

/-! ## Slices -/

/-- The part of `whole` that stands before its suffix `rest`. -/
def before (whole rest : Bytes) : Bytes := whole.take (whole.length - rest.length)

@[simp] theorem before_append (taken rest : Bytes) : before (taken ++ rest) rest = taken := by
  simp [before]

theorem before_append_rest {whole rest : Bytes} (h : rest <:+ whole) :
    before whole rest ++ rest = whole := by
  obtain ⟨taken, rfl⟩ := h
  rw [before_append]

/-- Where a character may begin: at the end of a text, or before a byte that continues no character. -/
def isBoundary : Bytes → Bool
  | [] => true
  | b :: _ => b &&& 0xC0 != 0x80

/-- The slice between two offsets. There is none if they are out of order or out of the text, or if one of
them stands inside a character, even where the slice would be empty. -/
def slice? (whole : Bytes) (start stop : Nat) : Option String :=
  if start ≤ stop && stop ≤ whole.length &&
      isBoundary (whole.drop start) && isBoundary (whole.drop stop) then
    decode? ((whole.drop start).take (stop - start))
  else none

/-! ## Blanks

The characters with the property White_Space. A blank is more than a space byte (`Byte.isSpace`): texts are
trimmed of blanks, and scans stop at spaces. -/

/-- The code points of the blanks. -/
def blankCodes : List Nat :=
  [0x0009, 0x000A, 0x000B, 0x000C, 0x000D, 0x0020, 0x0085, 0x00A0, 0x1680, 0x2000, 0x2001, 0x2002, 0x2003,
   0x2004, 0x2005, 0x2006, 0x2007, 0x2008, 0x2009, 0x200A, 0x2028, 0x2029, 0x202F, 0x205F, 0x3000]

/-- The character is a blank. -/
def isBlank (c : Char) : Bool := blankCodes.contains c.toNat

/-- Characters without the blanks at their start. -/
def dropBlanks (cs : List Char) : List Char := cs.dropWhile isBlank

/-- Characters without the blanks at their end. -/
def dropEndBlanks (cs : List Char) : List Char := (dropBlanks cs.reverse).reverse

/-- A text without the blanks at its end. -/
def trimEnd (s : String) : String := String.ofList (dropEndBlanks s.toList)

/-- A text without the blanks at its start and end. -/
def trim (s : String) : String := String.ofList (dropEndBlanks (dropBlanks s.toList))

/-- What core takes for white space is a blank. -/
theorem isBlank_of_isWhitespace {c : Char} (h : c.isWhitespace) : isBlank c := by
  simp only [Char.isWhitespace, Bool.or_eq_true, decide_eq_true_eq] at h
  rcases h with ((rfl | rfl) | rfl) | rfl <;> decide

/-! ## Decimal digits

The characters of general category Nd in Unicode 16. Every script that has them has ten in a row, so the
table lists the zeros alone. -/

/-- The code points of the digits of value zero. -/
def decimalZeros : List Nat :=
  [0x0030, 0x0660, 0x06F0, 0x07C0, 0x0966, 0x09E6, 0x0A66, 0x0AE6, 0x0B66, 0x0BE6, 0x0C66, 0x0CE6, 0x0D66,
   0x0DE6, 0x0E50, 0x0ED0, 0x0F20, 0x1040, 0x1090, 0x17E0, 0x1810, 0x1946, 0x19D0, 0x1A80, 0x1A90, 0x1B50,
   0x1BB0, 0x1C40, 0x1C50, 0xA620, 0xA8D0, 0xA900, 0xA9D0, 0xA9F0, 0xAA50, 0xABF0, 0xFF10, 0x104A0,
   0x10D30, 0x10D40, 0x11066, 0x110F0, 0x11136, 0x111D0, 0x112F0, 0x11450, 0x114D0, 0x11650, 0x116C0,
   0x116D0, 0x116DA, 0x11730, 0x118E0, 0x11950, 0x11BF0, 0x11C50, 0x11D50, 0x11DA0, 0x11F50, 0x16130,
   0x16A60, 0x16AC0, 0x16B50, 0x16D70, 0x1CCF0, 0x1D7CE, 0x1D7D8, 0x1D7E2, 0x1D7EC, 0x1D7F6, 0x1E140,
   0x1E2F0, 0x1E4F0, 0x1E5F1, 0x1E950, 0x1FBF0]

/-- The character is a decimal digit of some script. -/
def isDecimalDigit (c : Char) : Bool := decimalZeros.any fun z => z ≤ c.toNat && c.toNat < z + 10

/-- The ten ASCII digits are decimal digits. -/
theorem isDecimalDigit_of_isDigit {c : Char} (h : c.isDigit) : isDecimalDigit c := by
  obtain ⟨hl, hu⟩ := Char.isDigit_iff_toNat.1 h
  have hl : 48 ≤ c.toNat := hl
  have hu : c.toNat ≤ 57 := hu
  refine List.any_eq_true.2 ⟨0x0030, by decide, ?_⟩
  simp only [Bool.and_eq_true, decide_eq_true_eq]
  omega

/-! ## Literals -/

/-- What remains after a literal, if the characters begin with it. -/
def afterLiteral? (literal : String) (cs : List Char) : Option (List Char) := literal.toList.isPrefixOf? cs

theorem isPrefixOf?_eq_some_iff {front cs rest : List Char} :
    front.isPrefixOf? cs = some rest ↔ cs = front ++ rest := by
  induction front generalizing cs with
  | nil => exact Option.some_inj
  | cons c front ih =>
    cases cs with
    | nil =>
      constructor
      · intro h
        cases h
      · intro h
        cases h
    | cons d cs =>
      have hstep : (c :: front).isPrefixOf? (d :: cs) = if c == d then front.isPrefixOf? cs else none := rfl
      rw [hstep, List.cons_append, List.cons.injEq]
      by_cases hc : c = d
      · rw [if_pos (beq_iff_eq.2 hc), ih]
        exact ⟨fun h => ⟨hc.symm, h⟩, fun h => h.2⟩
      · rw [if_neg fun h => hc (beq_iff_eq.1 h)]
        constructor
        · intro h
          cases h
        · intro h
          exact absurd h.1.symm hc

theorem afterLiteral?_eq_some_iff {literal : String} {cs rest : List Char} :
    afterLiteral? literal cs = some rest ↔ cs = literal.toList ++ rest :=
  isPrefixOf?_eq_some_iff

end StyleScope.Text
