/-
Reading by units, told without a scanner. `UnitText` says which bytes are one unit, and `lexeme` reads exactly these.
A walk goes from one unit to the next and counts single bytes as it goes (`Walks`): braces, groups, or nothing. What
remains at its end is a place between two units of the text. There is one way to walk, so two walks from the same place
differ only in how far they go (`Walks.onward`).
-/
import StyleScope.Proofs.Scan.Gap

namespace StyleScope.Scan

open Byte

/-! ## Units -/

/-- The bytes are one unit of the kind, before what remains. An escape or a comment may end with the text. -/
inductive UnitText : Lexeme → Bytes → Bytes → Prop
  | escape {rest : Bytes} (b : UInt8) : UnitText .escape [backslash, b] rest
  | lastBackslash : UnitText .escape [backslash] []
  | comment {inside rest : Bytes} :
    CommentText inside → UnitText .comment (slash :: star :: (inside ++ [star, slash])) rest
  | openComment {c : Bytes} : OpenComment c → UnitText .comment c []
  | quoted {quote : UInt8} {inside rest : Bytes} :
    isQuote quote → QuotedText quote inside → UnitText .quoted (quote :: (inside ++ [quote])) rest
  | byte {b : UInt8} {rest : Bytes} : Single b rest → UnitText .byte [b] rest

/-- The string that begins with the quote is never closed: no quote of its kind ends what can stand in a string. -/
def LeftOpen (quote : UInt8) (xs : Bytes) : Prop :=
  isQuote quote ∧ ∀ inside rest, xs = inside ++ quote :: rest → ¬ QuotedText quote inside

variable {xs ys zs rest : Bytes} {b : UInt8} {kind : Lexeme} {fault : Fault}

theorem UnitText.ne_nil {u : Bytes} (h : UnitText kind u rest) : u ≠ [] := by
  cases h with
  | openComment hc =>
    obtain ⟨inside, rfl, -⟩ := hc
    exact List.cons_ne_nil _ _
  | _ => exact List.cons_ne_nil _ _

theorem leftOpen_iff : LeftOpen b xs ↔ isQuote b ∧ afterQuoted? b xs = none := by
  refine and_congr_right fun hq => ⟨fun h => ?_, fun h inside rest he hi => ?_⟩
  · cases hn : afterQuoted? b xs with
    | none => rfl
    | some rest =>
      obtain ⟨inside, hi, he⟩ := eq_of_afterQuoted? hn
      exact absurd hi (h inside rest he)
  · rw [he, afterQuoted?_append (ne_backslash_of_isQuote hq) hi] at h
    cases h

theorem lexeme_slash (inside : Bytes) : lexeme slash (star :: inside) = .ok (.comment, afterComment inside) := by
  rw [lexeme, if_neg (by decide)]
  rfl

theorem lexeme_quote (hq : isQuote b) (xs : Bytes) : lexeme b xs = (afterString b xs).map (.quoted, ·) := by
  have hslash : b ≠ slash := by
    rintro rfl
    exact absurd hq (by decide)
  rw [lexeme, if_neg (ne_backslash_of_isQuote hq), afterCommentOpen?_eq_none_iff.2 fun hc => hslash hc.1]
  simp only [hq, if_true]

/-- **A unit is read where one stands**, and nothing else is. -/
theorem lexeme_eq_ok_iff :
    lexeme b xs = .ok (kind, rest) ↔ ∃ u, b :: xs = u ++ rest ∧ UnitText kind u rest := by
  constructor
  · intro h
    unfold lexeme at h
    split at h
    · next hb =>
      cases h
      subst hb
      cases xs with
      | nil => exact ⟨_, rfl, .lastBackslash⟩
      | cons c xs => exact ⟨_, rfl, .escape c⟩
    · next hb =>
      split at h
      · next inside hc =>
        cases h
        obtain ⟨rfl, rfl⟩ := List.cons.inj (eq_of_afterCommentOpen? hc)
        rcases afterComment_cases inside with ⟨i, hi, he⟩ | ⟨hi, he⟩
        · exact ⟨_, by simpa using he, .comment hi⟩
        · rw [he]
          exact ⟨_, (List.append_nil _).symm, .openComment ⟨inside, rfl, hi⟩⟩
      · next hc =>
        split at h
        · next hq =>
          obtain ⟨r, hs, hr⟩ := map_eq_ok_iff.1 h
          cases hr
          obtain ⟨inside, hi, he⟩ := eq_of_afterString hs
          exact ⟨_, by simp [he], .quoted hq hi⟩
        · next hq =>
          cases h
          exact ⟨_, rfl, .byte ⟨hb, by simpa using hq, afterCommentOpen?_eq_none_iff.1 hc⟩⟩
  · rintro ⟨u, he, hu⟩
    cases hu with
    | escape c =>
      cases he
      rfl
    | lastBackslash =>
      cases he
      rfl
    | comment hi =>
      simp only [List.cons_append, List.append_assoc, List.nil_append, List.cons.injEq] at he
      obtain ⟨rfl, rfl⟩ := he
      rw [lexeme_slash, afterComment_append hi]
    | openComment hc =>
      obtain ⟨inside, rfl, hi⟩ := hc
      simp only [List.append_nil, List.cons.injEq] at he
      obtain ⟨rfl, rfl⟩ := he
      rw [lexeme_slash, afterComment_eq_nil hi]
    | quoted hq hi =>
      simp only [List.cons_append, List.append_assoc, List.nil_append, List.cons.injEq] at he
      obtain ⟨rfl, rfl⟩ := he
      rw [lexeme_quote hq, afterString_append hq hi]
      rfl
    | byte hs =>
      obtain ⟨rfl, rfl⟩ := List.cons.inj he
      exact lexeme_eq_byte_iff.2 ⟨hs, rfl⟩

/-- No unit begins with the quote of a string that is never closed, and with no other byte. -/
theorem lexeme_eq_error_iff :
    lexeme b xs = .error fault ↔ LeftOpen b xs ∧ fault = .unterminatedQuote b (b :: xs) := by
  rw [leftOpen_iff]
  constructor
  · intro h
    unfold lexeme at h
    split at h
    · cases h
    · split at h
      · cases h
      · split at h
        · next hq =>
          cases hn : afterQuoted? b xs with
          | some r => simp [afterString, hn, Except.map] at h
          | none =>
            simp only [afterString, hn, Except.map, Except.error.injEq] at h
            exact ⟨⟨hq, rfl⟩, h.symm⟩
        · cases h
  · rintro ⟨⟨hq, hn⟩, rfl⟩
    rw [lexeme_quote hq, afterString, hn]
    rfl

/-! ## Walks -/

/-- From one place of a text and one count, going over whole units comes to the other place and count. Only single bytes
change the count. -/
inductive Walks {α : Type} (step : α → UInt8 → α) : α → Bytes → α → Bytes → Prop
  | refl {n : α} {xs : Bytes} : Walks step n xs n xs
  | whole {n m : α} {kind : Lexeme} {u rest ys : Bytes} :
    UnitText kind u rest → kind ≠ .byte → Walks step n rest m ys → Walks step n (u ++ rest) m ys
  | byte {n m : α} {b : UInt8} {rest ys : Bytes} :
    Single b rest → Walks step (step n b) rest m ys → Walks step n (b :: rest) m ys

variable {α : Type} {step : α → UInt8 → α} {n m k : α}

/-- The count after a unit that begins with the byte. -/
def Lexeme.count (step : α → UInt8 → α) (n : α) (b : UInt8) : Lexeme → α
  | .byte => step n b
  | .escape | .comment | .quoted => n

theorem Lexeme.count_of_ne (hk : kind ≠ .byte) : kind.count step n b = n := by
  cases kind with
  | byte => exact absurd rfl hk
  | _ => rfl

namespace Walks

theorem suffix (h : Walks step n xs m ys) : ys <:+ xs := by
  induction h with
  | refl => exact List.suffix_refl _
  | whole _ _ _ ih => exact ih.trans (List.suffix_append _ _)
  | byte _ _ ih => exact ih.trans (List.suffix_cons _ _)

/-- A walk that does not go on is at its start. -/
theorem eq_of_length_le (h : Walks step n xs m ys) (hlen : xs.length ≤ ys.length) : m = n ∧ ys = xs := by
  cases h with
  | refl => exact ⟨rfl, rfl⟩
  | @whole _ _ _ u _ _ hu _ hw =>
    have hpos := List.length_pos_iff.2 hu.ne_nil
    have := hw.suffix.length_le
    rw [List.length_append] at hlen
    omega
  | byte _ hw =>
    have := hw.suffix.length_le
    rw [List.length_cons] at hlen
    omega

/-- **How a walk goes on**: not at all, or over the unit with which the text begins. -/
theorem cons_iff (hl : lexeme b xs = .ok (kind, rest)) :
    Walks step n (b :: xs) m ys ↔ (m = n ∧ ys = b :: xs) ∨ Walks step (kind.count step n b) rest m ys := by
  constructor
  · intro h
    generalize hx : b :: xs = ws at h
    cases h with
    | refl => exact .inl ⟨rfl, rfl⟩
    | whole hu hk hw =>
      have hl' := lexeme_eq_ok_iff.2 ⟨_, hx, hu⟩
      rw [hl] at hl'
      cases hl'
      rw [Lexeme.count_of_ne hk]
      exact .inr hw
    | byte hs hw =>
      obtain ⟨rfl, rfl⟩ := List.cons.inj hx
      have hl' := lexeme_eq_byte_iff.2 ⟨hs, rfl⟩
      rw [hl] at hl'
      cases hl'
      exact .inr hw
  · rintro (⟨rfl, rfl⟩ | hw)
    · exact .refl
    · obtain ⟨u, he, hu⟩ := lexeme_eq_ok_iff.1 hl
      by_cases hk : kind = .byte
      · subst hk
        obtain ⟨hs, rfl⟩ := lexeme_eq_byte_iff.1 hl
        exact .byte hs hw
      · rw [Lexeme.count_of_ne hk] at hw
        rw [he]
        exact .whole hu hk hw

/-- A walk does not go beyond the quote of a string that is never closed. -/
theorem eq_of_leftOpen (h : Walks step n (b :: xs) m ys) (ho : LeftOpen b xs) : m = n ∧ ys = b :: xs := by
  have hl := lexeme_eq_error_iff.2 ⟨ho, rfl⟩
  generalize hx : b :: xs = ws at h
  cases h with
  | refl => exact ⟨rfl, rfl⟩
  | whole hu _ _ =>
    rw [lexeme_eq_ok_iff.2 ⟨_, hx, hu⟩] at hl
    cases hl
  | byte hs _ =>
    obtain ⟨rfl, rfl⟩ := List.cons.inj hx
    rw [lexeme_eq_byte_iff.2 ⟨hs, rfl⟩] at hl
    cases hl

/-- **There is one way to walk**: of two walks from the same place, the one that goes further passes the other's end,
with the same count. -/
theorem onward (h : Walks step n xs m ys) (h' : Walks step n xs k zs) (hlen : zs.length ≤ ys.length) :
    Walks step m ys k zs := by
  induction h with
  | refl => exact h'
  | @whole n m kind u rest ys hu hk hw ih =>
    obtain ⟨b, us, rfl⟩ := List.exists_cons_of_ne_nil hu.ne_nil
    have hl : lexeme b (us ++ rest) = .ok (kind, rest) := lexeme_eq_ok_iff.2 ⟨b :: us, rfl, hu⟩
    rw [List.cons_append, cons_iff hl, Lexeme.count_of_ne hk] at h'
    rcases h' with ⟨-, rfl⟩ | hw'
    · have := hw.suffix.length_le
      rw [List.length_cons, List.length_append] at hlen
      omega
    · exact ih hw' hlen
  | @byte n m b rest ys hs hw ih =>
    rw [cons_iff (lexeme_eq_byte_iff.2 ⟨hs, rfl⟩)] at h'
    rcases h' with ⟨-, rfl⟩ | hw'
    · have := hw.suffix.length_le
      rw [List.length_cons] at hlen
      omega
    · exact ih hw' hlen

end Walks

end StyleScope.Scan
