/-
Blocks: from a brace to the brace that closes it, with all between kept as it is. The search for the brace
passes over escapes only; inside the block braces within escapes, comments and strings do not count.
-/
import StyleScope.Scan.Basic

namespace StyleScope.Scan

open Byte

/-- What remains from the first opening brace that no backslash escapes; nothing, if there is none. -/
def toOpenBrace : Bytes → Bytes
  | [] => []
  | b :: xs =>
    if b = openBrace then b :: xs
    else if b = backslash then toOpenBrace (afterEscape xs)
    else toOpenBrace xs
termination_by xs => xs.length
decreasing_by
  · exact Nat.lt_succ_of_le (afterEscape_suffix xs).length_le
  · exact Nat.lt_succ_self _

/-- What remains after the brace that closes a block, with `inner` more blocks open inside it. -/
def afterBlockFrom (inner : Nat) : Bytes → Except Fault Bytes
  | [] => .error (.missingDelimiter closeBrace [])
  | b :: xs =>
    match _h : lexeme b xs with
    | .error fault => .error fault
    | .ok (.byte, _) =>
      if b = openBrace then afterBlockFrom (inner + 1) xs
      else if b = closeBrace then
        match inner with
        | 0 => .ok xs
        | inner + 1 => afterBlockFrom inner xs
      else afterBlockFrom inner xs
    | .ok (_, rest) => afterBlockFrom inner rest
termination_by xs => xs.length
decreasing_by
  · exact Nat.lt_succ_self _
  · exact Nat.lt_succ_self _
  · exact Nat.lt_succ_self _
  · exact Nat.lt_succ_of_le (lexeme_suffix _h).length_le

/-- A block found in a text, as what remains from its opening brace and what remains after its closing one. -/
structure Span where
  /-- What remains from the opening brace. -/
  start : Bytes
  /-- What remains after the closing brace. -/
  rest : Bytes
deriving Repr, DecidableEq

/-- The first block of a text. -/
def block (xs : Bytes) : Except Fault Span := do
  let start := toOpenBrace xs
  let inside ← expect openBrace start
  let rest ← afterBlockFrom 0 inside
  return { start, rest }

theorem toOpenBrace_suffix (xs : Bytes) : toOpenBrace xs <:+ xs := by
  fun_induction toOpenBrace xs with
  | case1 => exact List.suffix_refl _
  | case2 => exact List.suffix_refl _
  | case3 xs _ ih => exact (ih.trans (afterEscape_suffix xs)).trans (List.suffix_cons _ _)
  | case4 b xs _ _ ih => exact ih.trans (List.suffix_cons _ _)

theorem afterBlockFrom_suffix {inner : Nat} {xs rest : Bytes} (h : afterBlockFrom inner xs = .ok rest) :
    rest <:+ xs := by
  fun_induction afterBlockFrom inner xs with
  | case1 => cases h
  | case2 => cases h
  | case3 _ _ _ _ ih => exact (ih h).trans (List.suffix_cons _ _)
  | case4 => cases h; exact List.suffix_cons _ _
  | case5 _ _ _ _ _ ih => exact (ih h).trans (List.suffix_cons _ _)
  | case6 _ _ _ _ _ _ _ ih => exact (ih h).trans (List.suffix_cons _ _)
  | case7 _ _ _ _ _ _ hl ih => exact ((ih h).trans (lexeme_suffix hl)).trans (List.suffix_cons _ _)

/-! ## Blocks by offset -/

/-- A block with the offsets of its ends. -/
structure Block where
  /-- From the opening brace through the closing one. -/
  text : String
  /-- The offset of the opening brace. -/
  start : Nat
  /-- The offset after the closing brace. -/
  stop : Nat
deriving Repr, DecidableEq

/-- The first block of a text from an offset on, or from its end if that comes first. -/
def Block.capture (text : String) (offset : Nat) : Except Error Block :=
  let read whole := do
    let span ← block (whole.drop offset)
    let text ← textBefore span.start span.rest
    return { text, start := offsetOf whole span.start, stop := offsetOf whole span.rest }
  locating read (Text.encode text)

end StyleScope.Scan
