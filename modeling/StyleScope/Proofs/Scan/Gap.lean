/-
Gaps, told without a scanner: spaces and closed comments in any number and order. Skipping takes away
exactly the gap a text begins with; what is left is flush, or nothing, where a comment stays open.
-/
import StyleScope.Proofs.Scan.Lexeme
import StyleScope.Proofs.Text.Ascii

namespace StyleScope.Scan

open Byte

/-- Spaces and closed comments. -/
inductive Gap : Bytes → Prop
  | nil : Gap []
  | space {b : UInt8} {g : Bytes} : isSpace b → Gap g → Gap (b :: g)
  | comment {inside g : Bytes} :
    CommentText inside → Gap g → Gap (slash :: star :: (inside ++ star :: slash :: g))

/-- A comment that runs to the end of the text. -/
def OpenComment (xs : Bytes) : Prop := ∃ inside, xs = slash :: star :: inside ∧ CommentText inside

/-- The text begins with neither a space nor a comment. -/
def Flush : Bytes → Prop
  | [] => True
  | b :: xs => isSpace b = false ∧ ¬ (b = slash ∧ xs.head? = some star)

instance : (xs : Bytes) → Decidable (Flush xs)
  | [] => isTrue trivial
  | b :: xs => inferInstanceAs (Decidable (isSpace b = false ∧ ¬ (b = slash ∧ xs.head? = some star)))

theorem Gap.append {g g' : Bytes} (h : Gap g) (h' : Gap g') : Gap (g ++ g') := by
  induction h with
  | nil => exact h'
  | space hb _ ih => exact .space hb ih
  | @comment inside g hi _ ih =>
    have he : slash :: star :: (inside ++ star :: slash :: g) ++ g' =
        slash :: star :: (inside ++ star :: slash :: (g ++ g')) := by simp
    rw [he]
    exact .comment hi ih

/-- A gap begins with a space or a slash. -/
theorem Gap.head?_ne_star {g : Bytes} (h : Gap g) : g.head? ≠ some star := by
  cases h with
  | nil => decide
  | space hb _ =>
    intro he
    cases he
    exact absurd hb (by decide)
  | comment _ _ => exact head?_cons_ne (by decide) _

/-- A gap ends with a space or a slash, so a text can be cut after it. -/
theorem Gap.getLast_lt {g : Bytes} (h : Gap g) (hne : g ≠ []) : ∃ g' b, g = g' ++ [b] ∧ b < 0x80 := by
  induction h with
  | nil => exact absurd rfl hne
  | @space b g hb hg ih =>
    cases g with
    | nil => exact ⟨[], b, rfl, Text.lt_of_isSpace hb⟩
    | cons c g =>
      obtain ⟨g', d, he, hd⟩ := ih (by simp)
      exact ⟨b :: g', d, by rw [he]; rfl, hd⟩
  | @comment inside g _ _ ih =>
    cases g with
    | nil => exact ⟨slash :: star :: (inside ++ [star]), slash, by simp, by decide⟩
    | cons c g =>
      obtain ⟨g', d, he, hd⟩ := ih (by simp)
      exact ⟨slash :: star :: (inside ++ star :: slash :: g'), d, by rw [he]; simp, hd⟩

/-! ## Flush texts -/

theorem flush_nil : Flush [] := trivial

theorem Flush.cons {b : UInt8} {xs : Bytes} (hs : isSpace b = false) (hb : b ≠ slash) : Flush (b :: xs) :=
  ⟨hs, fun h => hb h.1⟩

/-- What begins a text decides whether it is flush, except that a star makes a slash before it a comment. -/
theorem Flush.append_cons {xs rest : Bytes} {b : UInt8} (h : Flush xs) (hs : isSpace b = false)
    (hb : b ≠ slash) (hstar : b ≠ star) : Flush (xs ++ b :: rest) := by
  match xs, h with
  | [], _ => exact .cons hs hb
  | [c], h => exact ⟨h.1, fun hc => hstar (by simpa using hc.2)⟩
  | c :: d :: xs, h => exact h

theorem Flush.append {xs rest : Bytes} (h : Flush xs) (hx : xs ≠ []) (hr : rest.head? ≠ some star) :
    Flush (xs ++ rest) := by
  match xs, h with
  | [], _ => exact absurd rfl hx
  | [c], h => exact ⟨h.1, fun hc => hr hc.2⟩
  | c :: d :: xs, h => exact h

theorem Flush.of_append {xs ys : Bytes} (h : Flush (xs ++ ys)) : Flush xs := by
  match xs, h with
  | [], _ => exact trivial
  | [c], h => exact ⟨h.1, by simp⟩
  | c :: d :: xs, h => exact h

theorem skipGap_of_flush {xs : Bytes} (h : Flush xs) : skipGap xs = xs := by
  cases xs with
  | nil => rw [skipGap]
  | cons b xs =>
    rw [skipGap, if_neg (by simp [h.1])]
    have hn := afterCommentOpen?_eq_none_iff.2 h.2
    split
    · next inside hc => rw [hn] at hc; cases hc
    · rfl

/-! ## Skipping -/

/-- **A gap is skipped, whatever follows it.** -/
theorem skipGap_append {g : Bytes} (h : Gap g) (rest : Bytes) : skipGap (g ++ rest) = skipGap rest := by
  induction h with
  | nil => rfl
  | space hb _ ih => rw [List.cons_append, skipGap, if_pos hb, ih]
  | @comment inside g hi _ ih =>
    have he : slash :: star :: (inside ++ star :: slash :: g) ++ rest =
        slash :: star :: (inside ++ star :: slash :: (g ++ rest)) := by simp
    rw [he, skipGap, if_neg (by decide)]
    split
    · next i hc =>
      have hc' := eq_of_afterCommentOpen? hc
      simp only [List.cons.injEq, true_and] at hc'
      rw [← hc', afterComment_append hi, ih]
    · next hc => simp [afterCommentOpen?] at hc

theorem skipGap_append_flush {g rest : Bytes} (h : Gap g) (hr : Flush rest) : skipGap (g ++ rest) = rest := by
  rw [skipGap_append h, skipGap_of_flush hr]

theorem OpenComment.append {c xs : Bytes} (h : OpenComment c) (hx : slash ∉ xs) : OpenComment (c ++ xs) := by
  obtain ⟨inside, rfl, hi⟩ := h
  exact ⟨inside ++ xs, rfl, hi.append hx⟩

theorem skipGap_of_openComment {c : Bytes} (h : OpenComment c) : skipGap c = [] := by
  obtain ⟨inside, rfl, hi⟩ := h
  rw [skipGap, if_neg (by decide)]
  split
  · next i hc =>
    have hc' := eq_of_afterCommentOpen? hc
    simp only [List.cons.injEq, true_and] at hc'
    subst hc'
    rw [afterComment_eq_nil hi, skipGap]
  · next hc => simp [afterCommentOpen?] at hc

/-- **What is skipped is a gap**, and what follows it is flush; or a comment that is never closed follows it,
and nothing remains. -/
theorem skipGap_cases (xs : Bytes) :
    (∃ g, Gap g ∧ xs = g ++ skipGap xs ∧ Flush (skipGap xs)) ∨
      ∃ g c, Gap g ∧ OpenComment c ∧ xs = g ++ c ∧ skipGap xs = [] := by
  fun_induction skipGap xs with
  | case1 => exact .inl ⟨[], .nil, rfl, trivial⟩
  | case2 b xs hb ih =>
    rcases ih with ⟨g, hg, he, hf⟩ | ⟨g, c, hg, hc, he, hn⟩
    · exact .inl ⟨b :: g, .space hb hg, congrArg (b :: ·) he, hf⟩
    · exact .inr ⟨b :: g, c, .space hb hg, hc, congrArg (b :: ·) he, hn⟩
  | case3 b xs hb inside ho ih =>
    rw [eq_of_afterCommentOpen? ho]
    rcases afterComment_cases inside with ⟨i, hi, hx⟩ | ⟨hi, hn⟩
    · rcases ih with ⟨g, hg, he, hf⟩ | ⟨g, c, hg, hc, he, hn⟩
      · refine .inl ⟨_, .comment hi hg, ?_, hf⟩
        rw [he] at hx
        simpa using hx
      · refine .inr ⟨_, c, .comment hi hg, hc, ?_, hn⟩
        rw [he] at hx
        simpa using hx
    · exact .inr ⟨[], _, .nil, ⟨inside, rfl, hi⟩, rfl, by rw [hn, skipGap]⟩
  | case4 b xs hb hn =>
    exact .inl ⟨[], .nil, rfl, by simpa using hb, afterCommentOpen?_eq_none_iff.1 hn⟩

/-- What is left is flush. -/
theorem flush_skipGap (xs : Bytes) : Flush (skipGap xs) := by
  rcases skipGap_cases xs with ⟨_, _, _, hf⟩ | ⟨_, _, _, _, _, hn⟩
  · exact hf
  · rw [hn]
    exact flush_nil

theorem exists_gap_of_skipGap {xs rest : Bytes} {b : UInt8} (h : skipGap xs = b :: rest) :
    ∃ g, Gap g ∧ xs = g ++ b :: rest ∧ Flush (b :: rest) := by
  rcases skipGap_cases xs with ⟨g, hg, he, hf⟩ | ⟨_, _, _, _, _, hn⟩
  · rw [h] at he hf
    exact ⟨g, hg, he, hf⟩
  · rw [h] at hn
    cases hn

end StyleScope.Scan
