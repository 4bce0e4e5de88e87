/-
Strings and comments, and the places outside them. A scan that steps from unit to unit stands between two units
wherever it stops (`Aligned`), so never inside a string or a comment. A value is not read by units: it takes a comment
for bytes like any other, and a string as well, outside all groups. It still ends between two units, unless it goes on
into a comment or a string and breaks there (`Parts`): a space or a following byte in it ends the value, or in a group a
quote in it begins a string that goes on beyond.
-/
import StyleScope.Proofs.Scan.Fault

namespace StyleScope.Scan

open Byte

/-! ## Slices by their places -/

/-- A slice of a text, as what remains from its start and what remains after its end. -/
structure Extent where
  /-- What remains from the start. -/
  start : Bytes
  /-- What remains after the end. -/
  rest : Bytes
deriving Repr, DecidableEq

namespace Extent

/-- The text of the slice. -/
def text (e : Extent) : Except Fault String := textBefore e.start e.rest

/-- The place is strictly inside the slice. -/
def Holds (e : Extent) (place : Bytes) : Prop := e.rest.length < place.length ∧ place.length < e.start.length

instance (e : Extent) (place : Bytes) : Decidable (e.Holds place) :=
  inferInstanceAs (Decidable (_ ∧ _))

end Extent

/-- The strings and comments of a text, as the top-level scan steps over them. -/
def hidden : Bytes → List Extent
  | [] => []
  | b :: xs =>
    match _h : lexeme b xs with
    | .error _ => []
    | .ok (unit, rest) =>
      if unit = .comment ∨ unit = .quoted then ⟨b :: xs, rest⟩ :: hidden rest else hidden rest
termination_by xs => xs.length
decreasing_by all_goals exact Nat.lt_succ_of_le (lexeme_suffix _h).length_le

/-- The place is strictly inside a string or a comment of the text. -/
def Inside (xs place : Bytes) : Prop := ∃ e ∈ hidden xs, e.Holds place

instance (xs place : Bytes) : Decidable (Inside xs place) := inferInstanceAs (Decidable (∃ e ∈ hidden xs, _))

/-- What remains at a place between two units of a text, or at one of its ends. -/
inductive Aligned (rest : Bytes) : Bytes → Prop
  | refl : Aligned rest rest
  | unit {b : UInt8} {xs mid : Bytes} {kind : Lexeme} :
    lexeme b xs = .ok (kind, mid) → Aligned rest mid → Aligned rest (b :: xs)

variable {xs ys rest : Bytes} {b : UInt8} {kind : Lexeme} {d d' : Nat}

theorem hidden_cons (h : lexeme b xs = .ok (kind, rest)) :
    hidden (b :: xs) =
      if kind = .comment ∨ kind = .quoted then ⟨b :: xs, rest⟩ :: hidden rest else hidden rest := by
  rw [hidden]
  split
  · next hl => rw [h] at hl; cases hl
  · next hl => rw [h] at hl; cases hl; rfl

theorem suffix_of_mem_hidden {e : Extent} (he : e ∈ hidden xs) : e.start <:+ xs := by
  fun_induction hidden xs with
  | case1 => cases he
  | case2 => cases he
  | case3 b xs unit rest hl _ ih =>
    rcases List.mem_cons.1 he with rfl | he
    · exact List.suffix_refl _
    · exact ((ih he).trans (lexeme_suffix hl)).trans (List.suffix_cons b xs)
  | case4 b xs unit rest hl _ ih => exact ((ih he).trans (lexeme_suffix hl)).trans (List.suffix_cons b xs)

theorem inside_cons_iff {place : Bytes} (h : lexeme b xs = .ok (kind, rest)) :
    Inside (b :: xs) place ↔
      (kind = .comment ∨ kind = .quoted) ∧ (⟨b :: xs, rest⟩ : Extent).Holds place ∨ Inside rest place := by
  rw [Inside, hidden_cons h]
  split
  · next hk => simp only [List.mem_cons, exists_eq_or_imp, hk, true_and, Inside]
  · next hk => simp only [hk, false_and, false_or, Inside]

/-- A place inside a string or a comment is after the start of the text. -/
theorem length_lt_of_inside {place : Bytes} (h : Inside xs place) : place.length < xs.length := by
  obtain ⟨e, he, -, hstart⟩ := h
  exact Nat.lt_of_lt_of_le hstart (suffix_of_mem_hidden he).length_le

/-! ## Places between units -/

namespace Aligned

theorem suffix (h : Aligned rest xs) : rest <:+ xs := by
  induction h with
  | refl => exact List.suffix_refl _
  | unit hl _ ih => exact (ih.trans (lexeme_suffix hl)).trans (List.suffix_cons _ _)

theorem trans (h : Aligned rest ys) (h' : Aligned ys xs) : Aligned rest xs := by
  induction h' with
  | refl => exact h
  | unit hl _ ih => exact .unit hl ih

/-- What remains between two units is read by units as far as the text is. -/
theorem remaining (h : Aligned [] xs) (h' : Aligned rest xs) : Aligned [] rest := by
  induction h' with
  | refl => exact h
  | unit hl _ ih =>
    cases h with
    | unit hl' hm =>
      rw [hl] at hl'
      cases hl'
      exact ih hm

theorem hidden_subset (h : Aligned rest xs) : ∀ e ∈ hidden rest, e ∈ hidden xs := by
  induction h with
  | refl => exact fun _ he => he
  | unit hl _ ih =>
    intro e he
    rw [hidden_cons hl]
    split
    · exact List.mem_cons_of_mem _ (ih e he)
    · exact ih e he

/-- **Between two units a place is inside no string and no comment.** -/
theorem not_inside (h : Aligned rest xs) : ¬ Inside xs rest := by
  induction h with
  | refl => exact fun hin => Nat.lt_irrefl _ (length_lt_of_inside hin)
  | unit hl hm ih =>
    intro hin
    rcases (inside_cons_iff hl).1 hin with ⟨-, hrest, -⟩ | hin
    · exact Nat.not_lt_of_le hm.suffix.length_le hrest
    · exact ih hin

end Aligned

theorem single_of_inBlank (h : inBlank b) (xs : Bytes) : Single b xs := by
  have ho : isOrdinary [] b := isOrdinary_of_inBlank nofun h
  simp only [isOrdinary, Bool.and_eq_true] at ho
  exact single_of_isPlain ho.1.1.1 xs

/-- A gap is passed over by units. -/
theorem aligned_skipGap (xs : Bytes) : Aligned (skipGap xs) xs := by
  fun_induction skipGap xs with
  | case1 => exact .refl
  | case2 b xs hb ih => exact .unit (lexeme_eq_byte_iff.2 ⟨single_of_inBlank (by simp [inBlank, hb]) xs, rfl⟩) ih
  | case3 b xs _ inside hc ih =>
    obtain ⟨rfl, rfl⟩ := List.cons.inj (eq_of_afterCommentOpen? hc)
    have hl : lexeme slash (star :: inside) = .ok (.comment, afterComment inside) := by
      rw [lexeme, if_neg (by decide), hc]
    exact .unit hl ih
  | case4 => exact .refl

/-! ## Values -/

/-- With `d` groups open a value does not run on over `b` and all of `tail`: it ends at `b`, or `b` begins a string that
`tail` does not close. -/
inductive Breaks (follow : Bytes) : Nat → UInt8 → Bytes → Prop
  | ends {b : UInt8} {tail : Bytes} : isSpace b || follow.contains b → Breaks follow 0 b tail
  | opens {d : Nat} {b : UInt8} {tail : Bytes} :
    d ≠ 0 → isQuote b → afterQuoted? b tail = none → Breaks follow d b tail

/-- How far a value goes within the bytes. -/
inductive Extends (follow : Bytes) (d : Nat) (xs : Bytes) : Prop
  /-- Over all of them. -/
  | whole {d' : Nat} : RunsOn follow d xs d' → Extends follow d xs
  /-- To where it breaks. -/
  | breaks {n tail : Bytes} {b : UInt8} {d' : Nat} :
    xs = n ++ b :: tail → RunsOn follow d n d' → Breaks follow d' b tail → Extends follow d xs
  /-- To a backslash that is the last of them. -/
  | escapes {n : Bytes} {d' : Nat} : xs = n ++ [backslash] → RunsOn follow d n d' → Extends follow d xs

/-- A value runs on into a string or a comment of the text, and breaks before that ends. -/
inductive Parts (follow : Bytes) (d : Nat) (xs : Bytes) : Prop
  | mk {n tail : Bytes} {b : UInt8} {d' : Nat} {e : Extent} :
    e ∈ hidden xs → xs = n ++ b :: (tail ++ e.rest) → e.Holds (b :: (tail ++ e.rest)) → RunsOn follow d n d' →
      Breaks follow d' b tail → Parts follow d xs

/-- The value ends between two units of the text, or it parts. -/
def EndsOrParts (follow : Bytes) (d : Nat) (xs : Bytes) : Prop :=
  (∃ rest, afterBareFrom follow d xs = .ok rest ∧ Aligned rest xs) ∨ Parts follow d xs

theorem Extends.of_runsOn {n : Bytes} (h : Extends follow d' ys) (hn : RunsOn follow d n d') :
    Extends follow d (n ++ ys) := by
  cases h with
  | whole h => exact .whole (hn.append h)
  | breaks he hr hb => exact .breaks (by rw [he, List.append_assoc]) (hn.append hr) hb
  | escapes he hr => exact .escapes (by rw [he, List.append_assoc]) (hn.append hr)

theorem extends_bytes (follow : Bytes) (d : Nat) (xs : Bytes) : Extends follow d xs := by
  fun_induction afterBareFrom follow d xs with
  | case1 => exact .whole .nil
  | case2 d xs ih =>
    cases xs with
    | nil => exact .escapes (n := []) rfl .nil
    | cons c xs => exact ih.of_runsOn (.escape c .nil)
  | case3 d b xs _ he =>
    rw [Bool.and_eq_true, beq_iff_eq] at he
    obtain ⟨rfl, he⟩ := he
    exact .breaks (n := []) rfl .nil (.ends he)
  | case4 d b xs _ _ hq fault hs =>
    rw [Bool.and_eq_true, bne_iff_ne] at hq
    refine .breaks (n := []) rfl .nil (.opens hq.1 hq.2 ?_)
    cases hn : afterQuoted? b xs with
    | none => rfl
    | some r => simp [afterString, hn] at hs
  | case5 d b xs _ _ hq after hs ih =>
    obtain ⟨inside, hi, rfl⟩ := eq_of_afterString hs
    rw [Bool.and_eq_true, bne_iff_ne] at hq
    have hu := ih.of_runsOn (.quoted hq.1 hq.2 hi .nil)
    simpa using hu
  | case6 d b xs hb he hq ih => exact ih.of_runsOn (.byte hb (by simpa using he) (by simpa using hq) .nil)

/-- Before a string or a comment a value can only break where it ends, as the quote of the string is closed. -/
theorem EndsOrParts.of_breaks {tail : Bytes} (hl : lexeme b (tail ++ rest) = .ok (kind, rest)) (hb : b ≠ backslash)
    (h : Breaks follow d b tail) : EndsOrParts follow d (b :: (tail ++ rest)) := by
  cases h with
  | ends he => exact .inl ⟨_, by rw [afterBareFrom, if_neg hb, if_pos (by simpa using he)], .refl⟩
  | opens _ hq hn =>
    obtain ⟨inside, hi, he⟩ := eq_of_afterString (afterString_of_lexeme hq hl)
    obtain rfl : tail = inside ++ [b] := List.append_cancel_right (he.trans (by simp))
    rw [afterQuoted?_append (ne_backslash_of_isQuote hq) hi] at hn
    cases hn

theorem EndsOrParts.of_runsOn {n : Bytes} (h : EndsOrParts follow d' rest) (hn : RunsOn follow d n d')
    (hs : Aligned rest (n ++ rest)) : EndsOrParts follow d (n ++ rest) := by
  rcases h with ⟨last, hl, ha⟩ | ⟨hmem, he, hin, hr, hb⟩
  · exact .inl ⟨last, by rw [hn.afterBareFrom, hl], ha.trans hs⟩
  · refine .inr (.mk (hs.hidden_subset _ hmem) ?_ hin (hn.append hr) hb)
    rw [List.append_assoc, ← he]

/-- A comment or a string is run on over as a whole, or the value parts in it. -/
theorem EndsOrParts.of_hidden (hl : lexeme b xs = .ok (kind, rest)) (hk : kind = .comment ∨ kind = .quoted)
    (h : ∀ d, EndsOrParts follow d rest) (d : Nat) : EndsOrParts follow d (b :: xs) := by
  have hrest : Aligned rest (b :: xs) := .unit hl .refl
  have hmem : ⟨b :: xs, rest⟩ ∈ hidden (b :: xs) := by
    rw [hidden_cons hl, if_pos hk]
    exact List.mem_cons_self
  have hbackslash : b ≠ backslash := by
    rintro rfl
    rw [lexeme_backslash] at hl
    cases hl
    simp at hk
  obtain ⟨u, hu⟩ := hrest.suffix
  cases extends_bytes follow d u with
  | whole hrun =>
    rw [← hu] at hrest ⊢
    exact (h _).of_runsOn hrun hrest
  | @breaks n tail c d' he hn hb =>
    subst he
    cases n with
    | nil =>
      cases hn
      obtain ⟨rfl, rfl⟩ := List.cons.inj hu
      exact .of_breaks hl hbackslash hb
    | cons a n =>
      refine .inr (.mk hmem (by rw [← hu, List.append_assoc]; rfl) ?_ hn hb)
      rw [← hu]
      simp only [Extent.Holds, List.length_cons, List.length_append]
      omega
  | @escapes n d' he hn =>
    subst he
    rcases inert_of_lexeme hl (by rintro rfl; simp at hk) with ⟨v, hi, hv⟩ | rfl
    · -- what is closed ends in no backslash
      obtain rfl := List.append_cancel_right (hu.trans hv)
      exact absurd (endsInEscape_backslash hn.not_endsInEscape) hi.not_endsInEscape
    · refine .inl ⟨[], ?_, hrest⟩
      rw [← hu, List.append_nil, hn.afterBareFrom, afterBareFrom, if_pos rfl, afterEscape, afterBareFrom]

/-- **A value ends between two units**, unless it parts. -/
theorem endsOrParts (h : Aligned [] xs) (d : Nat) : EndsOrParts follow d xs := by
  induction h generalizing d with
  | refl => exact .inl ⟨[], by rw [afterBareFrom], .refl⟩
  | @unit b xs mid kind hl _ ih =>
    cases kind with
    | escape =>
      obtain ⟨rfl, rfl⟩ := eq_of_lexeme_escape hl
      cases xs with
      | nil => exact .inl ⟨[], by rw [afterBareFrom, if_pos rfl, afterEscape, afterBareFrom], .unit hl .refl⟩
      | cons c xs => exact (ih d).of_runsOn (.escape c .nil) (.unit hl .refl)
    | comment => exact .of_hidden hl (.inl rfl) ih d
    | quoted => exact .of_hidden hl (.inr rfl) ih d
    | byte =>
      obtain ⟨hs, rfl⟩ := lexeme_eq_byte_iff.1 hl
      by_cases hend : d = 0 ∧ (isSpace b || follow.contains b)
      · refine .inl ⟨b :: mid, ?_, .refl⟩
        rw [afterBareFrom, if_neg hs.1, if_pos (by simpa using hend)]
      · exact (ih _).of_runsOn (.byte hs.1 hend (by simp [hs.2.1]) .nil) (.unit hl .refl)

theorem aligned_afterValue (h : Aligned [] xs) :
    (∃ rest, afterValue follow xs = .ok rest ∧ Aligned rest xs) ∨ ¬ BeginsQuoted xs ∧ Parts follow 0 xs := by
  cases h with
  | refl => exact .inl ⟨[], rfl, .refl⟩
  | @unit b xs mid kind hl hm =>
    rw [afterValue]
    by_cases hq : isQuote b
    · rw [if_pos hq]
      exact .inl ⟨mid, afterString_of_lexeme hq hl, .unit hl .refl⟩
    · rw [if_neg hq]
      refine (endsOrParts (.unit hl hm) 0).imp_right fun hp => ⟨?_, hp⟩
      rintro ⟨c, hc, hc'⟩
      cases hc
      exact hq hc'

/-! ## Rows of units -/

section Passes

variable {stops w : Bytes}

/-- A row of units that the scan passes over is read by units, also without the blanks at its end. -/
theorem Passes.aligned (h : Passes stops d ys d') (he : ys = xs ++ w) (hw : ∀ b ∈ w, inBlank b) :
    Aligned [] xs := by
  induction h generalizing xs with
  | nil =>
    obtain ⟨rfl, -⟩ := List.append_eq_nil_iff.1 he.symm
    exact .refl
  | inert hu _ ih =>
    rcases hu.eq_append he hw with ⟨v, rfl, rfl⟩ | rfl
    · obtain ⟨b, tail, kind, rfl, -, hl⟩ := hu.lexeme
      exact .unit (hl v) (ih rfl)
    · exact .unit (lexeme_backslash []) .refl
  | byte hs _ _ ih =>
    cases xs with
    | nil => exact .refl
    | cons a xs =>
      obtain ⟨rfl, rfl⟩ := List.cons.inj he
      exact .unit (lexeme_eq_byte_iff.2 ⟨hs.of_append, rfl⟩) (ih rfl)

/-- **Its strings and comments are the same where more follows**: nothing that comes after the row is taken into one. -/
theorem Passes.inside_append_iff {place : Bytes} (h : Passes stops d ys d') (he : ys = xs ++ w)
    (hw : ∀ b ∈ w, inBlank b) (hr : rest.head? ≠ some star) :
    Inside (xs ++ (w ++ rest)) (place ++ (w ++ rest)) ↔ Inside xs place := by
  have hnone {zs : Bytes} (hz : zs.length ≤ (w ++ rest).length) : ¬ Inside zs (place ++ (w ++ rest)) := by
    intro hin
    have hlt := length_lt_of_inside hin
    simp only [List.length_append] at hz hlt
    omega
  have hnil : ¬ Inside [] place := fun hin => Nat.not_lt_zero _ (length_lt_of_inside hin)
  induction h generalizing xs with
  | nil =>
    obtain ⟨rfl, rfl⟩ := List.append_eq_nil_iff.1 he.symm
    exact iff_of_false (hnone (Nat.le_refl _)) hnil
  | inert hu _ ih =>
    rcases hu.eq_append he hw with ⟨v, rfl, rfl⟩ | rfl
    · obtain ⟨b, tail, kind, rfl, -, hl⟩ := hu.lexeme
      rw [List.append_assoc, List.cons_append, List.cons_append, inside_cons_iff (hl _), inside_cons_iff (hl v)]
      refine or_congr (and_congr_right fun _ => ?_) (ih rfl)
      simp only [Extent.Holds, List.length_cons, List.length_append]
      omega
    · rw [List.singleton_append, inside_cons_iff (lexeme_backslash _), inside_cons_iff (lexeme_backslash [])]
      exact or_congr (by simp) (iff_of_false (hnone (afterEscape_suffix _).length_le) hnil)
  | @byte d d' b zs hs _ _ ih =>
    cases xs with
    | nil => exact iff_of_false (hnone (Nat.le_refl _)) hnil
    | cons a xs =>
      obtain ⟨rfl, rfl⟩ := List.cons.inj he
      have hs' : Single b (xs ++ (w ++ rest)) := by
        rw [← List.append_assoc]
        exact hs.append hr
      rw [List.cons_append, inside_cons_iff (lexeme_eq_byte_iff.2 ⟨hs', rfl⟩),
        inside_cons_iff (lexeme_eq_byte_iff.2 ⟨hs.of_append, rfl⟩)]
      exact or_congr (by simp) (ih rfl)

end Passes

/-- Blanks before a text add neither a string nor a comment. -/
theorem inside_blank_append_iff {u place : Bytes} (hu : ∀ b ∈ u, inBlank b) :
    Inside (u ++ xs) place ↔ Inside xs place := by
  induction u with
  | nil => rfl
  | cons b u ih =>
    have hs := single_of_inBlank (hu b List.mem_cons_self) (u ++ xs)
    rw [List.cons_append, inside_cons_iff (lexeme_eq_byte_iff.2 ⟨hs, rfl⟩)]
    simpa using ih fun c hc => hu c (List.mem_cons_of_mem b hc)

end StyleScope.Scan
