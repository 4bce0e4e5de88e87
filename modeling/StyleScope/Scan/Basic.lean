/-
The steps of a scan. A text is read in units: a backslash with the byte it escapes, a comment, a quoted
string, or a single byte. Delimiters count only as single bytes, so whatever stands in one of the other
units is inert. Each function takes what remains of a text and gives what remains after its step, a suffix
of it; the text between the two is cut out only where it is kept.
-/
import StyleScope.Error
import StyleScope.Text

namespace StyleScope.Scan

open Byte

/-! ## Delimiters

Where no escape, string or comment can hide one: `seek` finds the next byte of a class, `after?` steps over
a delimiter if it is there, and `expect` steps over it or says that it is missing. -/

/-- What remains from the first byte that `stop` accepts; nothing, if there is none. -/
def seek (stop : UInt8 → Bool) (xs : Bytes) : Bytes := xs.dropWhile fun b => !stop b

/-- What remains after the delimiter, if the text begins with it. -/
def after? (delimiter : UInt8) : Bytes → Option Bytes
  | [] => none
  | b :: xs => if b = delimiter then some xs else none

/-- What remains after the delimiter, with which the text must begin. -/
def expect (delimiter : UInt8) (xs : Bytes) : Except Fault Bytes :=
  match after? delimiter xs with
  | some rest => .ok rest
  | none => .error (.missingDelimiter delimiter xs)

theorem seek_suffix (stop : UInt8 → Bool) (xs : Bytes) : seek stop xs <:+ xs :=
  List.dropWhile_suffix _

theorem after?_eq_some_iff {delimiter : UInt8} {xs rest : Bytes} :
    after? delimiter xs = some rest ↔ xs = delimiter :: rest := by
  cases xs with
  | nil => simp [after?]
  | cons b xs => by_cases h : b = delimiter <;> simp [after?, h]

theorem expect_eq_ok_iff {delimiter : UInt8} {xs rest : Bytes} :
    expect delimiter xs = .ok rest ↔ xs = delimiter :: rest := by
  rw [← after?_eq_some_iff]
  unfold expect
  split <;> simp_all

/-- A delimiter is a byte of the text, so less remains after it. -/
theorem length_lt_of_expect {delimiter : UInt8} {xs rest : Bytes} (h : expect delimiter xs = .ok rest) :
    rest.length < xs.length := by
  rw [expect_eq_ok_iff.1 h]
  exact Nat.lt_succ_self _

/-! ## Slices

Scans stop at ASCII bytes or at the end, so the bytes between two places are always a text; a slice that is
none is a fault of its own, so that no statement has to assume it away. -/

/-- The text that stands before what remains. -/
def textBefore (whole rest : Bytes) : Except Fault String :=
  match Text.decode? (Text.before whole rest) with
  | some text => .ok text
  | none => .error .invalidSlice

theorem textBefore_eq_ok {whole rest : Bytes} {text : String} (hs : rest <:+ whole)
    (h : textBefore whole rest = .ok text) : whole = Text.encode text ++ rest := by
  unfold textBefore at h
  split at h
  · next hd =>
    cases h
    rw [← Text.decode?_eq_some_iff.1 hd, Text.before_append_rest hs]
  · cases h

theorem textBefore_encode (text : String) (rest : Bytes) :
    textBefore (Text.encode text ++ rest) rest = .ok text := by
  simp [textBefore, Text.decode?_encode]

/-! ## The ends of units -/

/-- What remains after the byte that a backslash escapes, if there is one. -/
def afterEscape : Bytes → Bytes
  | [] => []
  | _ :: xs => xs

theorem afterEscape_suffix (xs : Bytes) : afterEscape xs <:+ xs := by
  cases xs with
  | nil => exact List.suffix_refl _
  | cons b xs => exact List.suffix_cons b xs

/-- What remains after the opening of a comment, if the text begins with one. -/
def afterCommentOpen? : Bytes → Option Bytes
  | a :: b :: xs => if a = slash ∧ b = star then some xs else none
  | _ => none

/-- What remains after the close of the comment the text is inside of; a comment that is never closed
runs to the end. -/
def afterComment : Bytes → Bytes
  | a :: b :: xs => if a = star ∧ b = slash then xs else afterComment (b :: xs)
  | _ => []

/-- What remains after the quote that closes the string the text is inside of, if one does. -/
def afterQuoted? (quote : UInt8) : Bytes → Option Bytes
  | [] => none
  | b :: xs =>
    if b = backslash then afterQuoted? quote (afterEscape xs)
    else if b = quote then some xs
    else afterQuoted? quote xs
termination_by xs => xs.length
decreasing_by
  · exact Nat.lt_succ_of_le (afterEscape_suffix xs).length_le
  · exact Nat.lt_succ_self _

/-- What remains after a string, given its opening quote and what follows that. -/
def afterString (quote : UInt8) (xs : Bytes) : Except Fault Bytes :=
  match afterQuoted? quote xs with
  | some rest => .ok rest
  | none => .error (.unterminatedQuote quote (quote :: xs))

/-! ## One unit -/

/-- The kinds of unit. -/
inductive Lexeme where
  /-- A backslash and the byte after it, or a backslash at the end of the text. -/
  | escape
  /-- A comment, with its opening and, unless the text ends first, its close. -/
  | comment
  /-- A string, with both its quotes. -/
  | quoted
  /-- Any other byte. -/
  | byte
deriving Repr, DecidableEq

/-- The kind of the unit that begins with `b`, followed by `xs`, and what remains after the unit. -/
def lexeme (b : UInt8) (xs : Bytes) : Except Fault (Lexeme × Bytes) :=
  if b = backslash then .ok (.escape, afterEscape xs)
  else
    match afterCommentOpen? (b :: xs) with
    | some inside => .ok (.comment, afterComment inside)
    | none =>
      if isQuote b then (afterString b xs).map (.quoted, ·)
      else .ok (.byte, xs)

/-! ## What remains is a suffix -/

theorem eq_of_afterCommentOpen? {xs rest : Bytes} (h : afterCommentOpen? xs = some rest) :
    xs = slash :: star :: rest := by
  unfold afterCommentOpen? at h
  split at h
  · split at h
    · next hab => cases h; rw [hab.1, hab.2]
    · cases h
  · cases h

theorem afterComment_suffix (xs : Bytes) : afterComment xs <:+ xs := by
  fun_induction afterComment xs with
  | case1 a b xs _ => exact ⟨[a, b], rfl⟩
  | case2 a b xs _ ih => exact ih.trans (List.suffix_cons a _)
  | case3 xs _ => exact List.nil_suffix

theorem afterQuoted?_suffix {quote : UInt8} {xs rest : Bytes} (h : afterQuoted? quote xs = some rest) :
    rest <:+ xs := by
  fun_induction afterQuoted? quote xs with
  | case1 => cases h
  | case2 xs ih => exact ((ih h).trans (afterEscape_suffix xs)).trans (List.suffix_cons _ _)
  | case3 xs _ => cases h; exact List.suffix_cons _ _
  | case4 b xs _ _ ih => exact (ih h).trans (List.suffix_cons _ _)

theorem afterString_suffix {quote : UInt8} {xs rest : Bytes} (h : afterString quote xs = .ok rest) :
    rest <:+ xs := by
  unfold afterString at h
  split at h
  · next hq => cases h; exact afterQuoted?_suffix hq
  · cases h

/-- **A unit is never empty**: what remains after it is a suffix of what follows its first byte. -/
theorem lexeme_suffix {b : UInt8} {xs rest : Bytes} {unit : Lexeme}
    (h : lexeme b xs = .ok (unit, rest)) : rest <:+ xs := by
  unfold lexeme at h
  split at h
  · cases h; exact afterEscape_suffix xs
  · split at h
    · next inside hc =>
      cases h
      have hx := eq_of_afterCommentOpen? hc
      injection hx with _ hx
      subst hx
      exact (afterComment_suffix inside).trans (List.suffix_cons _ _)
    · split at h
      · obtain ⟨r, hs, hr⟩ := map_eq_ok_iff.1 h
        cases hr
        exact afterString_suffix hs
      · cases h; exact List.suffix_refl _

/-- A single byte is a unit that leaves over all that follows it. -/
theorem rest_of_lexeme_byte {b : UInt8} {xs rest : Bytes} (h : lexeme b xs = .ok (.byte, rest)) :
    rest = xs := by
  unfold lexeme at h
  split at h
  · cases h
  · split at h
    · cases h
    · split at h
      · obtain ⟨r, -, hr⟩ := map_eq_ok_iff.1 h
        cases hr
      · cases h; rfl

/-! ## Gaps

Spaces, line breaks and comments, in any number and order. `skipGap` leaves a suffix that begins with neither
a space nor a comment, so skipping again changes nothing. -/

/-- What remains after the gap with which a text begins. -/
def skipGap : Bytes → Bytes
  | [] => []
  | b :: xs =>
    if isSpace b then skipGap xs
    else
      match _h : afterCommentOpen? (b :: xs) with
      | some inside => skipGap (afterComment inside)
      | none => b :: xs
termination_by xs => xs.length
decreasing_by
  · exact Nat.lt_succ_self _
  · have := (afterComment_suffix inside).length_le
    have := congrArg List.length (eq_of_afterCommentOpen? _h)
    simp only [List.length_cons] at *
    omega

theorem skipGap_suffix (xs : Bytes) : skipGap xs <:+ xs := by
  fun_induction skipGap xs with
  | case1 => exact List.suffix_refl _
  | case2 b xs _ ih => exact ih.trans (List.suffix_cons b xs)
  | case3 b xs _ inside h ih =>
    rw [eq_of_afterCommentOpen? h]
    exact (ih.trans (afterComment_suffix inside)).trans ⟨[slash, star], rfl⟩
  | case4 b xs _ _ => exact List.suffix_refl _

/-- A gap is skipped to its end: what remains begins with neither a space nor a comment. -/
theorem skipGap_eq_cons {xs rest : Bytes} {b : UInt8} (h : skipGap xs = b :: rest) :
    isSpace b = false ∧ afterCommentOpen? (b :: rest) = none := by
  fun_induction skipGap xs with
  | case1 => cases h
  | case2 c xs _ ih => exact ih h
  | case3 c xs _ inside _ ih => exact ih h
  | case4 c xs hs hc => cases h; exact ⟨by simpa using hs, hc⟩

theorem length_skipGap_le (xs : Bytes) : (skipGap xs).length ≤ xs.length :=
  (skipGap_suffix xs).length_le

end StyleScope.Scan
