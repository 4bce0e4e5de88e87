/-
The scans that count groups, which parentheses and brackets open and close. The top-level scan looks for a
byte of a stop set outside all groups; the scan of a value looks for the end of one value of a list.
-/
import StyleScope.Scan.Basic

namespace StyleScope.Scan

open Byte

/-! ## The top-level scan

It passes over escapes, comments and strings, and ends before the first byte of the stop set that stands
outside all groups. A brace in the stop set ends it inside a group as well, so an unclosed group cannot
swallow a block. -/

/-- The number of open groups after a byte; a closing byte with no group open changes nothing. -/
def nesting (depth : Nat) (b : UInt8) : Nat :=
  if opensGroup b then depth + 1 else if closesGroup b then depth - 1 else depth

/-- The scan ends before a byte of the stop set that is outside all groups or a brace. -/
def stopsAt (stops : Bytes) (depth : Nat) (b : UInt8) : Bool :=
  stops.contains b && (depth == 0 || isBrace b)

/-- What remains from the first top-level stop, with `depth` groups open; nothing, if there is none. -/
def topLevelFrom (stops : Bytes) (depth : Nat) : Bytes → Except Fault Bytes
  | [] => .ok []
  | b :: xs =>
    match _h : lexeme b xs with
    | .error fault => .error fault
    | .ok (.byte, _) =>
      if stopsAt stops depth b then .ok (b :: xs) else topLevelFrom stops (nesting depth b) xs
    | .ok (_, rest) => topLevelFrom stops depth rest
termination_by xs => xs.length
decreasing_by
  · exact Nat.lt_succ_self _
  · exact Nat.lt_succ_of_le (lexeme_suffix _h).length_le

/-- What remains from the first top-level stop of a text. -/
def topLevel (stops : Bytes) (xs : Bytes) : Except Fault Bytes := topLevelFrom stops 0 xs

theorem topLevelFrom_suffix {stops : Bytes} {depth : Nat} {xs rest : Bytes}
    (h : topLevelFrom stops depth xs = .ok rest) : rest <:+ xs := by
  fun_induction topLevelFrom stops depth xs with
  | case1 => cases h; exact List.suffix_refl _
  | case2 => cases h
  | case3 => cases h; exact List.suffix_refl _
  | case4 depth b xs _ _ _ ih => exact (ih h).trans (List.suffix_cons b xs)
  | case5 depth b xs _ _ _ hl ih => exact ((ih h).trans (lexeme_suffix hl)).trans (List.suffix_cons b xs)

theorem topLevel_suffix {stops xs rest : Bytes} (h : topLevel stops xs = .ok rest) : rest <:+ xs :=
  topLevelFrom_suffix h

/-! ## Values

A value that begins with a quote is that string and nothing more; any other runs to the first space or
following byte outside all groups. A quote begins a string only inside a group, and a comment is never
skipped: outside a group both are bytes of the value. -/

/-- What remains after a value that is no string, with `depth` groups open; `follow` holds the bytes other
than spaces that end it. -/
def afterBareFrom (follow : Bytes) (depth : Nat) : Bytes → Except Fault Bytes
  | [] => .ok []
  | b :: xs =>
    if b = backslash then afterBareFrom follow depth (afterEscape xs)
    else if depth == 0 && (isSpace b || follow.contains b) then .ok (b :: xs)
    else if depth != 0 && isQuote b then
      match _h : afterString b xs with
      | .error fault => .error fault
      | .ok rest => afterBareFrom follow depth rest
    else afterBareFrom follow (nesting depth b) xs
termination_by xs => xs.length
decreasing_by
  · exact Nat.lt_succ_of_le (afterEscape_suffix xs).length_le
  · exact Nat.lt_succ_of_le (afterString_suffix _h).length_le
  · exact Nat.lt_succ_self _

/-- What remains after the value with which a text begins. -/
def afterValue (follow : Bytes) : Bytes → Except Fault Bytes
  | [] => .ok []
  | b :: xs => if isQuote b then afterString b xs else afterBareFrom follow 0 (b :: xs)

theorem afterBareFrom_suffix {follow : Bytes} {depth : Nat} {xs rest : Bytes}
    (h : afterBareFrom follow depth xs = .ok rest) : rest <:+ xs := by
  fun_induction afterBareFrom follow depth xs with
  | case1 => cases h; exact List.suffix_refl _
  | case2 depth xs ih => exact ((ih h).trans (afterEscape_suffix xs)).trans (List.suffix_cons _ _)
  | case3 => cases h; exact List.suffix_refl _
  | case4 => cases h
  | case5 depth b xs _ _ _ _ hs ih =>
    exact ((ih h).trans (afterString_suffix hs)).trans (List.suffix_cons _ _)
  | case6 depth b xs _ _ _ ih => exact (ih h).trans (List.suffix_cons _ _)

theorem afterValue_suffix {follow xs rest : Bytes} (h : afterValue follow xs = .ok rest) :
    rest <:+ xs := by
  unfold afterValue at h
  split at h
  · cases h; exact List.suffix_refl _
  · split at h
    · exact (afterString_suffix h).trans (List.suffix_cons _ _)
    · exact afterBareFrom_suffix h

/-- **A value is not empty** where its first byte neither is a space nor ends it. -/
theorem length_afterValue_lt {follow : Bytes} {b : UInt8} {xs rest : Bytes}
    (hb : (isSpace b || follow.contains b) = false) (h : afterValue follow (b :: xs) = .ok rest) :
    rest.length < (b :: xs).length := by
  unfold afterValue at h
  split at h
  · next he => cases he
  · next c ys he =>
    cases he
    split at h
    · exact Nat.lt_succ_of_le (afterString_suffix h).length_le
    · rw [afterBareFrom] at h
      split at h
      · exact Nat.lt_succ_of_le ((afterBareFrom_suffix h).trans (afterEscape_suffix xs)).length_le
      · rw [hb] at h
        exact Nat.lt_succ_of_le (afterBareFrom_suffix h).length_le

end StyleScope.Scan
