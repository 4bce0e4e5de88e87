/-
The units of a text, told without a scanner: which bytes make a closed comment, a closed string or an
escape, and that the scanner steps over such a unit whatever follows it. Only a slash looks ahead: it is a
byte by itself unless a star comes next. So a unit is found again wherever the same bytes stand.
-/
import StyleScope.Scan.Basic

namespace StyleScope.Scan

open Byte

/-! ## Comments -/

/-- What can stand inside a comment: anything that does not close it. -/
def CommentText (inside : Bytes) : Prop := ¬ [star, slash] <:+: inside

instance (inside : Bytes) : Decidable (CommentText inside) :=
  inferInstanceAs (Decidable (¬ [star, slash] <:+: inside))

theorem commentText_nil : CommentText [] := by simp [CommentText]

theorem commentText_cons {a : UInt8} {xs : Bytes} :
    CommentText (a :: xs) ↔ ¬ (a = star ∧ xs.head? = some slash) ∧ CommentText xs := by
  have hp : [star, slash] <+: a :: xs ↔ a = star ∧ xs.head? = some slash := by
    cases xs with
    | nil => simp
    | cons b xs =>
      simp only [List.cons_prefix_cons, List.nil_prefix, List.head?_cons, Option.some.injEq, and_true]
      exact ⟨fun ⟨h, h'⟩ => ⟨h.symm, h'.symm⟩, fun ⟨h, h'⟩ => ⟨h.symm, h'.symm⟩⟩
  rw [CommentText, List.infix_cons_iff, hp, not_or, CommentText]

/-- Without a slash nothing closes a comment. -/
theorem CommentText.append {inside xs : Bytes} (h : CommentText inside) (hx : slash ∉ xs) :
    CommentText (inside ++ xs) := by
  induction inside with
  | nil => exact fun hi => hx (hi.mem (by simp))
  | cons a inside ih =>
    obtain ⟨hne, h⟩ := commentText_cons.1 h
    refine commentText_cons.2 ⟨fun ⟨ha, hhead⟩ => ?_, ih h⟩
    cases inside with
    | nil => exact hx (List.mem_of_mem_head? hhead)
    | cons b inside => exact hne ⟨ha, hhead⟩

theorem afterComment_append {inside : Bytes} (h : CommentText inside) (rest : Bytes) :
    afterComment (inside ++ star :: slash :: rest) = rest := by
  induction inside with
  | nil => simp [afterComment]
  | cons a inside ih =>
    obtain ⟨hne, h⟩ := commentText_cons.1 h
    cases inside with
    | nil =>
      have hs : ¬ (a = star ∧ star = slash) := fun ⟨_, h⟩ => absurd h (by decide)
      simp [afterComment, hs]
    | cons b inside =>
      have hs : ¬ (a = star ∧ b = slash) := fun ⟨ha, hb⟩ => hne ⟨ha, by rw [hb]; rfl⟩
      rw [List.cons_append, List.cons_append, afterComment, if_neg hs]
      exact ih h

/-- A comment either closes or runs to the end. -/
theorem afterComment_cases (xs : Bytes) :
    (∃ inside, CommentText inside ∧ xs = inside ++ star :: slash :: afterComment xs) ∨
      CommentText xs ∧ afterComment xs = [] := by
  fun_induction afterComment xs with
  | case1 a b xs h =>
    obtain ⟨rfl, rfl⟩ := h
    exact .inl ⟨[], commentText_nil, rfl⟩
  | case2 a b xs h ih =>
    have hne : ¬ (a = star ∧ (b :: xs).head? = some slash) := by simpa using h
    rcases ih with ⟨inside, hi, he⟩ | ⟨hi, he⟩
    · refine .inl ⟨a :: inside, commentText_cons.2 ⟨?_, hi⟩, by rw [List.cons_append, ← he]⟩
      intro h
      obtain ⟨rfl, hh⟩ := h
      apply hne
      cases inside with
      | nil => cases hh
      | cons c inside =>
        rw [he]
        exact ⟨rfl, hh⟩
    · exact .inr ⟨commentText_cons.2 ⟨hne, hi⟩, he⟩
  | case3 xs h =>
    refine .inr ⟨?_, rfl⟩
    cases xs with
    | nil => exact commentText_nil
    | cons a xs =>
      cases xs with
      | nil => exact commentText_cons.2 ⟨by simp, commentText_nil⟩
      | cons b xs => exact absurd rfl (h a b xs)

/-- A comment that nothing closes runs to the end. -/
theorem afterComment_eq_nil {inside : Bytes} (h : CommentText inside) : afterComment inside = [] := by
  rcases afterComment_cases inside with ⟨i, -, he⟩ | ⟨-, hn⟩
  · exact absurd ⟨i, afterComment inside, by simpa using he.symm⟩ h
  · exact hn

/-! ## Strings -/

/-- What can stand between two quotes: anything but that quote, unless a backslash escapes it. -/
inductive QuotedText (quote : UInt8) : Bytes → Prop
  | nil : QuotedText quote []
  | escape {xs : Bytes} (b : UInt8) : QuotedText quote xs → QuotedText quote (backslash :: b :: xs)
  | byte {b : UInt8} {xs : Bytes} :
    b ≠ backslash → b ≠ quote → QuotedText quote xs → QuotedText quote (b :: xs)

theorem afterQuoted?_append {quote : UInt8} {inside : Bytes} (hq : quote ≠ backslash)
    (h : QuotedText quote inside) (rest : Bytes) : afterQuoted? quote (inside ++ quote :: rest) = some rest := by
  induction h with
  | nil => rw [List.nil_append, afterQuoted?, if_neg hq, if_pos rfl]
  | escape b _ ih => rw [List.cons_append, List.cons_append, afterQuoted?, if_pos rfl]; exact ih
  | byte hb hne _ ih => rw [List.cons_append, afterQuoted?, if_neg hb, if_neg hne]; exact ih

theorem eq_of_afterQuoted? {quote : UInt8} {xs rest : Bytes} (h : afterQuoted? quote xs = some rest) :
    ∃ inside, QuotedText quote inside ∧ xs = inside ++ quote :: rest := by
  fun_induction afterQuoted? quote xs with
  | case1 => cases h
  | case2 xs ih =>
    cases xs with
    | nil => rw [afterEscape, afterQuoted?] at h; cases h
    | cons b xs =>
      obtain ⟨inside, hi, he⟩ := ih h
      rw [afterEscape] at he
      exact ⟨backslash :: b :: inside, .escape b hi, by rw [he]; rfl⟩
  | case3 xs _ =>
    cases h
    exact ⟨[], .nil, rfl⟩
  | case4 b xs hb hne ih =>
    obtain ⟨inside, hi, he⟩ := ih h
    exact ⟨b :: inside, .byte hb hne hi, by rw [he]; rfl⟩

theorem isQuote_iff {b : UInt8} : isQuote b ↔ b = singleQuote ∨ b = doubleQuote := by
  simp [isQuote]

theorem ne_backslash_of_isQuote {b : UInt8} (h : isQuote b) : b ≠ backslash := by
  rcases isQuote_iff.1 h with rfl | rfl <;> decide

theorem lt_of_isQuote {b : UInt8} (h : isQuote b) : b < 0x80 := by
  rcases isQuote_iff.1 h with rfl | rfl <;> decide

theorem afterString_append {quote : UInt8} {inside : Bytes} (hq : isQuote quote)
    (h : QuotedText quote inside) (rest : Bytes) : afterString quote (inside ++ quote :: rest) = .ok rest := by
  rw [afterString, afterQuoted?_append (ne_backslash_of_isQuote hq) h]

theorem eq_of_afterString {quote : UInt8} {xs rest : Bytes} (h : afterString quote xs = .ok rest) :
    ∃ inside, QuotedText quote inside ∧ xs = inside ++ quote :: rest := by
  unfold afterString at h
  split at h
  · next hq => cases h; exact eq_of_afterQuoted? hq
  · cases h

/-! ## Units -/

/-- A unit that hides what it holds: an escaped byte, a closed comment or a closed string. -/
inductive Inert : Bytes → Prop
  | escape (b : UInt8) : Inert [backslash, b]
  | comment {inside : Bytes} : CommentText inside → Inert (slash :: star :: (inside ++ [star, slash]))
  | quoted {quote : UInt8} {inside : Bytes} :
    isQuote quote → QuotedText quote inside → Inert (quote :: (inside ++ [quote]))

/-- The byte is a unit by itself, before these bytes. -/
def Single (b : UInt8) (xs : Bytes) : Prop :=
  b ≠ backslash ∧ isQuote b = false ∧ ¬ (b = slash ∧ xs.head? = some star)

theorem head?_cons_ne {b c : UInt8} (h : b ≠ c) (xs : Bytes) : (b :: xs).head? ≠ some c :=
  fun he => h (Option.some.inj he)

theorem Single.append {b : UInt8} {xs rest : Bytes} (h : Single b xs) (hr : rest.head? ≠ some star) :
    Single b (xs ++ rest) := by
  refine ⟨h.1, h.2.1, fun hc => ?_⟩
  cases xs with
  | nil => exact hr hc.2
  | cons c xs => exact h.2.2 hc

theorem Single.of_append {b : UInt8} {xs rest : Bytes} (h : Single b (xs ++ rest)) : Single b xs := by
  refine ⟨h.1, h.2.1, fun hc => h.2.2 ⟨hc.1, ?_⟩⟩
  cases xs with
  | nil => cases hc.2
  | cons c xs => exact hc.2

theorem Single.append_of_ne_nil {b : UInt8} {xs : Bytes} (h : Single b xs) (hx : xs ≠ []) (rest : Bytes) :
    Single b (xs ++ rest) := by
  cases xs with
  | nil => exact absurd rfl hx
  | cons c xs => exact h

theorem afterCommentOpen?_eq_none_iff {b : UInt8} {xs : Bytes} :
    afterCommentOpen? (b :: xs) = none ↔ ¬ (b = slash ∧ xs.head? = some star) := by
  cases xs with
  | nil => simp [afterCommentOpen?]
  | cons c xs => simp [afterCommentOpen?]

theorem lexeme_eq_byte_iff {b : UInt8} {xs rest : Bytes} :
    lexeme b xs = .ok (.byte, rest) ↔ Single b xs ∧ rest = xs := by
  constructor
  · intro h
    refine ⟨?_, rest_of_lexeme_byte h⟩
    unfold lexeme at h
    split at h
    · cases h
    · next hb =>
      split at h
      · cases h
      · next hc =>
        split at h
        · obtain ⟨r, -, hr⟩ := map_eq_ok_iff.1 h
          cases hr
        · next hq => exact ⟨hb, by simpa using hq, afterCommentOpen?_eq_none_iff.1 hc⟩
  · intro h
    obtain ⟨⟨hb, hq, hc⟩, rfl⟩ := h
    rw [lexeme, if_neg hb, afterCommentOpen?_eq_none_iff.2 hc]
    simp [hq]

theorem lexeme_backslash (xs : Bytes) : lexeme backslash xs = .ok (.escape, afterEscape xs) := rfl

theorem eq_of_lexeme_escape {b : UInt8} {xs rest : Bytes} (h : lexeme b xs = .ok (.escape, rest)) :
    b = backslash ∧ rest = afterEscape xs := by
  unfold lexeme at h
  split at h
  · next hb => cases h; exact ⟨hb, rfl⟩
  · split at h
    · cases h
    · split at h
      · obtain ⟨_, -, hr⟩ := map_eq_ok_iff.1 h
        cases hr
      · cases h

/-- A unit that begins with a quote is the string. -/
theorem afterString_of_lexeme {b : UInt8} {xs rest : Bytes} {unit : Lexeme} (hq : isQuote b)
    (h : lexeme b xs = .ok (unit, rest)) : afterString b xs = .ok rest := by
  have hslash : b ≠ slash := by
    rintro rfl
    exact absurd hq (by decide)
  rw [lexeme, if_neg (ne_backslash_of_isQuote hq), afterCommentOpen?_eq_none_iff.2 fun hc => hslash hc.1] at h
  simp only [hq, if_true] at h
  obtain ⟨r, hs, hr⟩ := map_eq_ok_iff.1 h
  cases hr
  exact hs

/-- **A unit that hides what it holds is stepped over, whatever follows it.** -/
theorem Inert.lexeme {u : Bytes} (h : Inert u) :
    ∃ b tail unit, u = b :: tail ∧ unit ≠ Lexeme.byte ∧ ∀ rest, lexeme b (tail ++ rest) = .ok (unit, rest) := by
  cases h with
  | escape b =>
    refine ⟨backslash, [b], .escape, rfl, by decide, fun rest => ?_⟩
    simp [Scan.lexeme, afterEscape]
  | @comment inside hi =>
    refine ⟨slash, star :: (inside ++ [star, slash]), .comment, rfl, by decide, fun rest => ?_⟩
    have he : star :: (inside ++ [star, slash]) ++ rest = star :: (inside ++ star :: slash :: rest) := by simp
    rw [he, Scan.lexeme, if_neg (by decide)]
    simp [afterCommentOpen?, afterComment_append hi]
  | @quoted quote inside hq hi =>
    refine ⟨quote, inside ++ [quote], .quoted, rfl, by decide, fun rest => ?_⟩
    have hc : ¬ (quote = slash ∧ (inside ++ [quote] ++ rest).head? = some star) := by
      intro h
      obtain ⟨rfl, -⟩ := h
      revert hq
      decide
    rw [Scan.lexeme, if_neg (ne_backslash_of_isQuote hq), afterCommentOpen?_eq_none_iff.2 hc]
    have he : inside ++ [quote] ++ rest = inside ++ quote :: rest := by simp
    simp [hq, he, afterString_append hq hi, Except.map]

/-- A unit of more than one byte is closed, unless nothing remains after it. -/
theorem inert_of_lexeme {b : UInt8} {xs rest : Bytes} {unit : Lexeme} (h : lexeme b xs = .ok (unit, rest))
    (hu : unit ≠ .byte) : (∃ u, Inert u ∧ b :: xs = u ++ rest) ∨ rest = [] := by
  unfold lexeme at h
  split at h
  · next hb =>
    cases h
    cases xs with
    | nil => exact .inr rfl
    | cons c xs => exact .inl ⟨[backslash, c], .escape c, by rw [hb]; rfl⟩
  · split at h
    · next inside hc =>
      cases h
      obtain ⟨rfl, rfl⟩ := List.cons.inj (eq_of_afterCommentOpen? hc)
      rcases afterComment_cases inside with ⟨i, hi, he⟩ | ⟨_, he⟩
      · exact .inl ⟨_, .comment hi, by simpa using he⟩
      · exact .inr he
    · split at h
      · next hq =>
        obtain ⟨r, hs, hr⟩ := map_eq_ok_iff.1 h
        cases hr
        obtain ⟨inside, hi, he⟩ := eq_of_afterString hs
        exact .inl ⟨_, .quoted hq hi, by simp [he]⟩
      · cases h
        exact absurd rfl hu

end StyleScope.Scan
