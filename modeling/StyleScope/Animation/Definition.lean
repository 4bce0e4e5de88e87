/-
The value of the `animation` property: definitions set apart by commas, each a list of values set apart by
gaps. The whole value is split before anything is assigned, so a string that is never closed is reported
before any definition is looked at.
-/
import StyleScope.Animation.Assignment
import StyleScope.Scan.Nesting

namespace StyleScope.Animation

open Byte Scan

/-- One definition of an animation value, not assigned to slots yet. -/
structure Definition where
  /-- The definition as written, without the blanks at its end. -/
  text : String
  /-- Its values. -/
  tokens : List String
deriving Repr, DecidableEq

/-! ## Splitting -/

/-- The values up to the next comma or the end, and what remains from there. -/
def tokens (xs : Bytes) : Except Fault (List String × Bytes) :=
  match _hs : skipGap xs with
  | [] => .ok ([], [])
  | b :: ys =>
    if b = comma then .ok ([], b :: ys)
    else
      match _hv : afterValue [comma] (b :: ys) with
      | .error fault => .error fault
      | .ok rest => do
        let token ← textBefore (b :: ys) rest
        let (more, rest) ← tokens rest
        return (token :: more, rest)
termination_by xs.length
decreasing_by
  rename_i hb
  have hlt := length_afterValue_lt (by simp [(skipGap_eq_cons _hs).1, hb]) _hv
  have hle := length_skipGap_le xs
  rw [_hs] at hle
  omega

theorem tokens_suffix {xs rest : Bytes} {ts : List String} (h : tokens xs = .ok (ts, rest)) :
    rest <:+ xs := by
  fun_induction tokens xs generalizing ts with
  | case1 => cases h; exact List.nil_suffix
  | case2 xs ys hs => cases h; exact hs ▸ skipGap_suffix xs
  | case3 => cases h
  | case4 xs b ys hs hb after hv ih =>
    cases ht : textBefore (b :: ys) after with
    | error f => rw [ht] at h; cases h
    | ok token =>
      cases hm : tokens after with
      | error f => rw [ht, hm] at h; cases h
      | ok p =>
        rw [ht, hm] at h
        cases h
        exact ((ih hm).trans (afterValue_suffix hv)).trans (hs ▸ skipGap_suffix xs)

/-- The definitions of a value that begins with no gap. -/
def definitionsFrom (xs : Bytes) : Except Fault (List Definition) :=
  match _ht : tokens xs with
  | .error fault => .error fault
  | .ok (tokens, []) => do
    let text ← textBefore xs []
    return [⟨Text.trimEnd text, tokens⟩]
  | .ok (tokens, b :: rest) => do
    let text ← textBefore xs (b :: rest)
    let more ← definitionsFrom (skipGap rest)
    return ⟨Text.trimEnd text, tokens⟩ :: more
termination_by xs.length
decreasing_by
  have hle := (tokens_suffix _ht).length_le
  have hgap := length_skipGap_le rest
  simp only [List.length_cons] at hle
  omega

/-- The definitions of a value. There is always one, though it may be empty. -/
def definitions (xs : Bytes) : Except Fault (List Definition) := definitionsFrom (skipGap xs)

/-! ## Assigning -/

/-- The animation that a definition describes. -/
def Definition.assign (d : Definition) : Except Error Animation :=
  match Arity.ofCount? d.tokens.length with
  | none => .error (.animationArity d.text d.tokens.length)
  | some arity =>
    match (Assignment.empty arity).placeAll d.tokens with
    | .error token => .error (.animationSlot d.text token)
    | .ok assignment =>
      match assignment.build? with
      | some animation => .ok animation
      | none => .error (.animationIncomplete d.text)

/-- The animations that a value describes, one for each definition. -/
def ofValue (value : String) : Except Error (List Animation) := do
  let split ← locating definitions (Text.encode value)
  split.mapM Definition.assign

end StyleScope.Animation
