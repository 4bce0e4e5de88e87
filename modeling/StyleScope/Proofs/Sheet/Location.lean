/-
Where errors stand. The offset of an error is a place of the sheet, and the sheet is there as the error says
(`Error.Located`). The one exception is a string that is never closed within an animation value: its offset counts from
the start of the value without the blanks before it, and at that place of the sheet no string is left open
(`unterminatedQuote_of_parse`).
-/
import StyleScope.Proofs.Animation.Fault
import StyleScope.Proofs.Sheet.Fault

namespace StyleScope

open Byte Scan Text

variable {xs rest : Bytes}

theorem offsetOf_le (whole rest : Bytes) : offsetOf whole rest ≤ whole.length := Nat.sub_le ..

/-! ## Delimiters and at-rules -/

/-- The text is as the error says, at the offset that it gives. Errors in an animation definition give none, and that of
a string that nothing closes may count from elsewhere. -/
def Error.Located (text : Bytes) : Error → Prop
  | .missingDelimiter expected offset => offset ≤ text.length ∧ text[offset]? ≠ some expected
  | .unexpectedCharacter found offset => text[offset]? = some found ∧ found ∈ [openBrace, closeBrace]
  | .unsupportedAtRule name offset => ∃ front rest, text = front ++ (encode name ++ rest) ∧ front.length = offset ∧
    (∃ s, name = "@" ++ s) ∧ name ∉ ["@media", "@supports", "@keyframes"] ∧
    ∀ b ∈ rest.head?, isSpace b ∨ isQuote b ∨ b ∈ [openBrace, openParen, semicolon]
  | .animationArity .. | .animationSlot .. | .animationIncomplete .. | .unterminatedQuote .. | .invalidSlice => True

theorem exists_eq_atSign_append {name : String} (h : (encode name).head? = some atSign) : ∃ s, name = "@" ++ s := by
  obtain ⟨ys, hys⟩ := List.head?_eq_some_iff.1 h
  obtain ⟨cs, hcs, -⟩ := encode_eq_cons (by decide) hys
  refine ⟨String.ofList cs, String.toList_injective ?_⟩
  simp only [hcs, String.toList_append, String.toList_ofList]
  rfl

theorem not_mem_keywords {name : String} (hc : ConditionalKind.ofKeyword? name = none) (hk : name ≠ "@keyframes") :
    name ∉ ["@media", "@supports", "@keyframes"] := by
  unfold ConditionalKind.ofKeyword? at hc
  split at hc
  · cases hc
  · split at hc
    · cases hc
    · simp [*]

theorem endsKeyword_iff {b : UInt8} :
    Sheet.endsKeyword b ↔ isSpace b ∨ isQuote b ∨ b ∈ [openBrace, openParen, semicolon] := by
  simp [Sheet.endsKeyword, or_assoc]

/-- An error in an animation value names no place of the sheet, except as one in a string. -/
theorem located_of_ofValue {value : String} {e : Error} (h : Animation.ofValue value = .error e) (text : Bytes) :
    e.Located text := by
  rcases Animation.of_ofValue_eq_error h with ⟨_, _, _, -, -, -, -, rfl⟩ | rfl | hkind
  · trivial
  · trivial
  · cases e with
    | unsupportedAtRule | missingDelimiter | unexpectedCharacter => cases hkind
    | _ => trivial

theorem Fault.Justified.located {fault : Fault} (h : fault.Justified xs) : (fault.locate xs).Located xs := by
  cases h with
  | @unsupportedAtRule name rest hs ha hc hk he =>
    obtain ⟨front, rfl⟩ := hs
    exact ⟨front, rest, rfl, (offsetOf_append_left front _).symm, exists_eq_atSign_append ha, not_mem_keywords hc hk,
      fun b hb => endsKeyword_iff.1 (he b hb)⟩
  | unclosed _ hu =>
    obtain ⟨-, -, -⟩ := hu
    trivial
  | missingDelimiter hs hn => exact ⟨offsetOf_le .., by rw [getElem?_offsetOf hs]; exact hn⟩
  | unexpectedCharacter hs hb =>
    refine ⟨getElem?_offsetOf hs, ?_⟩
    simpa [isBrace] using hb
  | invalidSlice => trivial
  | animation _ hv => exact located_of_ofValue hv xs

namespace Sheet

/-- **Errors stand where they say.** At the offset of a missing delimiter the sheet ends or goes on with another byte;
at that of an unexpected character it has this character, which is a brace; and at that of an at-rule it has the name
of the at-rule, which cannot be scoped, up to a byte that ends it. -/
theorem located_of_parse {css : String} {e : Error} (h : parse css = .error e) : e.Located (encode css) := by
  obtain ⟨fault, hf, rfl⟩ := locating_eq_error_iff.1 h
  exact (justified_of_read hf).located

/-- An at-rule deep in a sheet is named with the comment that stands directly after its keyword. -/
theorem located_of_parse_media :
    parse "@media x \x7b a \x7b\x7d @media/**/(y) \x7b\x7d \x7d" = .error (.unsupportedAtRule "@media/**/" 16) ∧
      (Error.unsupportedAtRule "@media/**/" 16).Located (encode "@media x \x7b a \x7b\x7d @media/**/(y) \x7b\x7d \x7d") :=
  have h : parse "@media x \x7b a \x7b\x7d @media/**/(y) \x7b\x7d \x7d" =
      .error (.unsupportedAtRule "@media/**/" 16) := by decide +kernel
  ⟨h, located_of_parse h⟩

end Sheet

/-! ## Strings that nothing closes -/

/-- The quote stands in the text at the offset, and after it only where a backslash escapes it; escapes are read as
pairs from that offset on. -/
def NeverClosed (quote : UInt8) (offset : Nat) (text : Bytes) : Prop :=
  text[offset]? = some quote ∧
    ∀ inside rest, text.drop (offset + 1) = inside ++ quote :: rest → EndsInEscape inside

theorem neverClosed_of_suffix {quote : UInt8} {inside : Bytes} (hq : isQuote quote) (hs : quote :: inside <:+ xs)
    (hn : afterQuoted? quote inside = none) : NeverClosed quote (offsetOf xs (quote :: inside)) xs := by
  refine ⟨getElem?_offsetOf hs, fun y z he => ?_⟩
  rw [← List.drop_drop, drop_offsetOf hs] at he
  exact endsInEscape_of_afterQuoted? (ne_backslash_of_isQuote hq) hn he

/-- What stands before an animation value leaves no escape open. -/
theorem AnimationAt.not_endsInEscape {value : String} {front : Bytes} (h : AnimationAt value front xs) :
    ¬ EndsInEscape front := by
  obtain ⟨⟨before, property, g, u, rfl, -, hg, hu⟩, -⟩ := h
  have hcolon : ¬ EndsInEscape (before ++ encode property ++ [colon]) := by
    rw [EndsInEscape, foldl_escaping_append_of_ne (by decide)]
    exact Bool.false_ne_true
  have hblank : ¬ EndsInEscape (encode u) :=
    not_endsInEscape_of_ne fun b hb => ne_of_inBlank (inBlank_of_mem_encode hu b hb) (by decide)
  have hall := not_endsInEscape_append hcolon (not_endsInEscape_append hg.not_endsInEscape hblank)
  simpa using hall

theorem AnimationAt.front_ne_nil {value : String} {front : Bytes} (h : AnimationAt value front xs) : front ≠ [] := by
  obtain ⟨⟨before, property, g, u, rfl, -, -, -⟩, -⟩ := h
  simp

/-- A place before a quote is none where that quote is never closed, though the same quote may stand there too. -/
theorem not_neverClosed {quote : UInt8} {offset : Nat} {front : Bytes} (hq : quote ≠ backslash)
    (hf : ¬ EndsInEscape front) (hlt : offset < front.length) : ¬ NeverClosed quote offset (front ++ quote :: rest) := by
  intro h
  obtain ⟨hat, hall⟩ := h
  rw [List.getElem?_append_left hlt] at hat
  have hdrop : (front ++ quote :: rest).drop (offset + 1) = front.drop (offset + 1) ++ quote :: rest :=
    List.drop_append_of_le_length hlt
  have hescape := hall _ _ hdrop
  -- the quote at the offset resets the reading of escapes
  have hsplit : front = front.take offset ++ [quote] ++ front.drop (offset + 1) := by
    obtain ⟨hi, hget⟩ := List.getElem?_eq_some_iff.1 hat
    rw [List.append_assoc, List.singleton_append, ← hget, ← List.drop_eq_getElem_cons hi, List.take_append_drop]
  apply hf
  rw [hsplit, EndsInEscape, List.foldl_append, foldl_escaping_append_of_ne hq]
  exact hescape

/-- A quote of an animation value stands further on in the sheet, so its offset in the value is that of another byte. -/
theorem AnimationAt.not_neverClosed_before {value : String} {front before inside : Bytes} {quote : UInt8}
    (h : AnimationAt value front xs) (hq : quote ≠ backslash) (hv : encode value = before ++ quote :: inside)
    (hb : ¬ EndsInEscape before) : ¬ NeverClosed quote before.length xs := by
  have hf := h.not_endsInEscape
  have hpos := List.length_pos_of_ne_nil h.front_ne_nil
  obtain ⟨-, w, b, rest, rfl, -, -⟩ := h
  have he : front ++ (encode value ++ (encode w ++ b :: rest)) =
      (front ++ before) ++ quote :: (inside ++ (encode w ++ b :: rest)) := by simp [hv]
  rw [he]
  exact not_neverClosed hq (not_endsInEscape_append hf hb) (by rw [List.length_append]; omega)

namespace Sheet

/-- **A string that nothing closes is placed in the sheet, or in an animation value.** The offset of the error is that
of a quote of the sheet that is never closed, if the sheet itself cannot be read on. But if the value of an `animation`
declaration cannot be split, then the offset is that of a quote of this value which the value never closes: it counts
from the start of the value, and there is no such quote at that offset of the sheet. -/
theorem unterminatedQuote_of_parse {css : String} {quote : UInt8} {offset : Nat}
    (h : parse css = .error (.unterminatedQuote quote offset)) :
    isQuote quote ∧
      ((∃ rest, read (encode css) = .error (.unterminatedQuote quote rest)) ∧ NeverClosed quote offset (encode css) ∨
        read (encode css) = .error (.animation (.unterminatedQuote quote offset)) ∧
          ¬ NeverClosed quote offset (encode css) ∧
          ∃ value front, AnimationAt value front (encode css) ∧
            Animation.ofValue value = .error (.unterminatedQuote quote offset) ∧
            NeverClosed quote offset (encode value)) := by
  obtain ⟨fault, hf, hl⟩ := locating_eq_error_iff.1 h
  cases justified_of_read hf with
  | unsupportedAtRule | missingDelimiter | unexpectedCharacter | invalidSlice => cases hl
  | unclosed hs hu =>
    obtain ⟨-, hq, hn⟩ := hu
    cases hl
    exact ⟨hq, .inl ⟨⟨_, hf⟩, neverClosed_of_suffix hq ((List.suffix_append _ _).trans hs) hn⟩⟩
  | @animation value front error ha hv =>
    cases hl
    rcases Animation.of_ofValue_eq_error hv with ⟨before, inside, q, he, hb, hq, hn, hoff⟩ | hoff | hkind
    · cases hoff
      refine ⟨hq, .inr ⟨hf, ?_, value, front, ha, hv, ?_⟩⟩
      · exact ha.not_neverClosed_before (ne_backslash_of_isQuote hq) he hb
      · have hclosed := neverClosed_of_suffix hq ⟨before, he.symm⟩ hn
        rwa [he, offsetOf_append_left, ← he] at hclosed
    · cases hoff
    · cases hkind

/-- The quote of the comment stands at offset 16 of the sheet and at offset 4 of the value. -/
theorem unterminatedQuote_of_parse_comment :
    parse "a\x7banimation:f(/*'*/) 1s\x7d" = .error (.unterminatedQuote singleQuote 4) ∧
      (encode "a\x7banimation:f(/*'*/) 1s\x7d")[16]? = some singleQuote ∧
      ¬ NeverClosed singleQuote 4 (encode "a\x7banimation:f(/*'*/) 1s\x7d") := by
  have h : parse "a\x7banimation:f(/*'*/) 1s\x7d" = .error (.unterminatedQuote singleQuote 4) := by decide +kernel
  have hread : read (encode "a\x7banimation:f(/*'*/) 1s\x7d") =
      .error (.animation (.unterminatedQuote singleQuote 4)) := by decide +kernel
  refine ⟨h, by decide +kernel, ?_⟩
  rcases (unterminatedQuote_of_parse h).2 with ⟨⟨rest, hr⟩, -⟩ | ⟨-, hn, -⟩
  · rw [hread] at hr
    cases hr
  · exact hn

end Sheet

end StyleScope
