/-
Where faults stand, and what stands there. A reader that fails does so at a suffix of what it was given, so the offset
of an error counts from the start of the text however the reader got there; and the text itself bears the fault out
(`Fault.Justified`): the delimiter that is missing does not stand there, the one that should not be there does, the
at-rule is not one that can be scoped, the string is never closed. An error within an animation value is the error of
that value alone. It counts from the start of the value, and says nothing of the place of the value in the sheet.
-/
import StyleScope.Proofs.Scan.Fault
import StyleScope.Proofs.Sheet.Soundness
import StyleScope.Proofs.Text.Trim

namespace StyleScope

open Byte Scan Text

/-- The fault stands in the text: what remains at it is a suffix. -/
def Fault.Within (xs : Bytes) : Fault → Prop
  | .unsupportedAtRule _ rest | .unterminatedQuote _ rest | .missingDelimiter _ rest
  | .unexpectedCharacter _ rest => rest <:+ xs
  | .invalidSlice | .animation _ => True

/-- The value of an `animation` declaration, without the blanks around it, stands in the text after `front`. -/
structure AnimationAt (value : String) (front xs : Bytes) : Prop where
  /-- A property and a colon stand before the value. -/
  declared : ∃ before property g u, front = before ++ (encode property ++ colon :: (g ++ encode u)) ∧
    trim property = "animation" ∧ Gap g ∧ Blank u
  /-- The value runs to the semicolon after it, or the closing brace. -/
  stands : ∃ w b rest, xs = front ++ (encode value ++ (encode w ++ b :: rest)) ∧ Blank w ∧ b ∈ [semicolon, closeBrace]

/-- The text bears the fault out. -/
inductive Fault.Justified (xs : Bytes) : Fault → Prop
  | unsupportedAtRule {name : String} {rest : Bytes} :
    encode name ++ rest <:+ xs → (encode name).head? = some atSign → ConditionalKind.ofKeyword? name = none →
      name ≠ "@keyframes" → (∀ b ∈ rest.head?, Sheet.endsKeyword b) →
      Justified xs (.unsupportedAtRule name (encode name ++ rest))
  | unclosed {ys : Bytes} {fault : Fault} : ys <:+ xs → Unclosed ys fault → Justified xs fault
  | missingDelimiter {expected : UInt8} {rest : Bytes} :
    rest <:+ xs → rest.head? ≠ some expected → Justified xs (.missingDelimiter expected rest)
  | unexpectedCharacter {found : UInt8} {rest : Bytes} :
    found :: rest <:+ xs → isBrace found → Justified xs (.unexpectedCharacter found (found :: rest))
  | invalidSlice : Justified xs .invalidSlice
  | animation {value : String} {front : Bytes} {error : Error} :
    AnimationAt value front xs → Animation.ofValue value = .error error → Justified xs (.animation error)

section

variable {xs ys : Bytes} {fault : Fault}

theorem AnimationAt.mono {value : String} {front : Bytes} (h : AnimationAt value front xs) (hs : xs <:+ ys) :
    ∃ front', AnimationAt value front' ys := by
  obtain ⟨⟨before, property, g, u, rfl, hp, hg, hu⟩, w, b, rest, rfl, hw, hb⟩ := h
  obtain ⟨pre, rfl⟩ := hs
  refine ⟨pre ++ (before ++ (encode property ++ colon :: (g ++ encode u))), ?_, w, b, rest, ?_, hw, hb⟩
  · exact ⟨pre ++ before, property, g, u, (List.append_assoc ..).symm, hp, hg, hu⟩
  · exact (List.append_assoc ..).symm

/-- What is borne out by what remains of a text is borne out by the text. -/
theorem Fault.Justified.mono (h : fault.Justified xs) (hs : xs <:+ ys) : fault.Justified ys := by
  cases h with
  | unsupportedAtRule hr ha hc hk he => exact .unsupportedAtRule (hr.trans hs) ha hc hk he
  | unclosed hr hu => exact .unclosed (hr.trans hs) hu
  | missingDelimiter hr hn => exact .missingDelimiter (hr.trans hs) hn
  | unexpectedCharacter hr hb => exact .unexpectedCharacter (hr.trans hs) hb
  | invalidSlice => exact .invalidSlice
  | animation ha he =>
    obtain ⟨front', ha'⟩ := ha.mono hs
    exact .animation ha' he

theorem Fault.Justified.within (h : fault.Justified xs) : fault.Within xs := by
  cases h with
  | unclosed hr hu =>
    obtain ⟨-, -, -⟩ := hu
    exact (List.suffix_append _ _).trans hr
  | invalidSlice | animation => trivial
  | _ => assumption

end

namespace Scan

variable {xs : Bytes} {fault : Fault}

theorem justified_of_expect {delimiter : UInt8} (h : expect delimiter xs = .error fault) : fault.Justified xs := by
  obtain ⟨rfl, hn⟩ := of_expect_eq_error h
  exact .missingDelimiter (List.suffix_refl _) hn

theorem justified_of_textBefore {whole rest : Bytes} (h : textBefore whole rest = .error fault) :
    fault.Justified xs := by
  rw [of_textBefore_eq_error h]
  exact .invalidSlice

theorem justified_of_block (h : block xs = .error fault) : fault.Justified xs := by
  simp only [block, bind_eq_error_iff] at h
  have hs := toOpenBrace_suffix xs
  rcases h with h | ⟨inside, ho, h | ⟨_, _, h⟩⟩
  · exact (justified_of_expect h).mono hs
  · rw [expect_eq_ok_iff.1 ho] at hs
    rcases unclosed_of_afterBlockFrom h with hu | rfl
    · exact .unclosed ((List.suffix_cons _ _).trans hs) hu
    · exact .missingDelimiter List.nil_suffix (by decide)
  · cases h

end Scan

namespace Sheet

variable {xs rest : Bytes} {fault : Fault}

theorem suffix_of_expect {delimiter : UInt8} (h : expect delimiter xs = .ok rest) : rest <:+ xs := by
  rw [expect_eq_ok_iff.1 h]
  exact List.suffix_cons _ _

/-! ## Style rules -/

theorem justified_of_afterSemicolon (h : afterSemicolon xs = .error fault) : fault.Justified xs := by
  unfold afterSemicolon at h
  split at h
  · cases h
    exact .missingDelimiter (List.suffix_refl _) (by decide)
  · cases h

/-- What is refused as an animation value is the value of an `animation` property. -/
theorem of_ofProperty_eq_error {property value : String} {e : Error}
    (h : Declaration.ofProperty property value = .error e) :
    property = "animation" ∧ Animation.ofValue value = .error e := by
  unfold Declaration.ofProperty at h
  split at h
  · next hp =>
    cases hv : Animation.ofValue value with
    | ok as => rw [hv] at h; cases h
    | error e' => rw [hv] at h; cases h; exact ⟨hp, rfl⟩
  · split at h <;> cases h

/-- Where a declaration is read, its trimmed value stands after the property, the colon, a gap and blanks. -/
theorem animationAt_of_declaration {property value : String} {inside stop after : Bytes}
    (hp : textBefore xs (colon :: inside) = .ok property) (hc : seek endsProperty xs = colon :: inside)
    (ht : topLevel [semicolon, closeBrace] (skipGap inside) = .ok stop)
    (hv : textBefore (skipGap inside) stop = .ok value) (ha : afterSemicolon stop = .ok after)
    (han : trim property = "animation") : ∃ front, AnimationAt (trim value) front xs := by
  have hxs := textBefore_eq_ok (hc ▸ seek_suffix endsProperty xs) hp
  have hstart := textBefore_eq_ok (topLevel_suffix ht) hv
  cases stop with
  | nil => cases ha
  | cons b rest =>
    obtain ⟨_, _, -, -, hb, -⟩ := passes_of_topLevelFrom ht
    obtain ⟨c, ws, hw⟩ : ∃ c ws, skipGap inside = c :: ws := by
      rw [hstart]
      exact List.exists_cons_of_ne_nil (by simp)
    obtain ⟨g, hg, hin, -⟩ := exists_gap_of_skipGap hw
    obtain ⟨u, w, hu, hw', hraw⟩ := exists_pad value
    have hbytes : encode value = encode u ++ (encode (trim value) ++ encode w) := by
      rw [← List.append_assoc, ← encode_append, ← encode_append, ← hraw]
    refine ⟨encode property ++ colon :: (g ++ encode u), ⟨[], property, g, u, rfl, han, hg, hu⟩, w, b, rest, ?_,
      hw', ?_⟩
    · rw [hxs, hin, ← hw, hstart, hbytes]
      simp
    · simpa using eq_of_stopsAt hb

theorem justified_of_declaration (h : declaration xs = .error fault) : fault.Justified xs := by
  simp only [declaration, bind_eq_error_iff] at h
  have hs := seek_suffix endsProperty xs
  rcases h with h | ⟨property, hp, h | ⟨inside, hc, h | ⟨stop, ht, h | ⟨value, hv, h | ⟨after, ha, h | ⟨_, _, h⟩⟩⟩⟩⟩⟩
  · exact justified_of_textBefore h
  · exact (justified_of_expect h).mono hs
  · exact .unclosed (((skipGap_suffix _).trans (suffix_of_expect hc)).trans hs) (unclosed_of_topLevelFrom h)
  · exact justified_of_textBefore h
  · exact (justified_of_afterSemicolon h).mono
      (((topLevel_suffix ht).trans (skipGap_suffix _)).trans ((suffix_of_expect hc).trans hs))
  · obtain ⟨e, ho, rfl⟩ := mapError_eq_error_iff.1 h
    obtain ⟨han, he⟩ := of_ofProperty_eq_error ho
    rw [expect_eq_ok_iff] at hc
    obtain ⟨front, hat⟩ := animationAt_of_declaration (hc ▸ hp) hc ht hv ha han
    exact .animation hat he
  · cases h

theorem declaration_suffix {d : Declaration} (h : declaration xs = .ok (d, rest)) : rest <:+ xs := by
  simp only [declaration, bind_eq_ok_iff] at h
  obtain ⟨_, _, inside, hc, stop, ht, _, _, after, ha, _, _, hr⟩ := h
  cases hr
  exact ((((afterSemicolon_suffix ha).trans (topLevel_suffix ht)).trans (skipGap_suffix _)).trans
    (suffix_of_expect hc)).trans (seek_suffix endsProperty xs)

theorem justified_of_declarations (h : declarations xs = .error fault) : fault.Justified xs := by
  fun_induction declarations xs with
  | case1 => cases h; exact .missingDelimiter List.nil_suffix (by decide)
  | case2 => cases h
  | case3 xs ys hg _ ih => exact (ih h).mono ((List.suffix_cons _ _).trans (hg ▸ skipGap_suffix xs))
  | case4 xs b ys hg _ _ f hd => cases h; exact (justified_of_declaration hd).mono (hg ▸ skipGap_suffix xs)
  | case5 xs b ys hg _ _ first after hd ih =>
    simp only [bind_eq_error_iff] at h
    rcases h with h | ⟨_, _, h⟩
    · exact (ih h).mono ((declaration_suffix hd).trans (hg ▸ skipGap_suffix xs))
    · cases h

theorem justified_of_selectors (h : selectors xs = .error fault) : fault.Justified xs := by
  fun_induction selectors xs with
  | case1 xs f ht => cases h; exact .unclosed (List.suffix_refl _) (unclosed_of_topLevelFrom ht)
  | case2 =>
    simp only [bind_eq_error_iff] at h
    rcases h with h | ⟨_, _, h⟩
    · exact justified_of_textBefore h
    · cases h
  | case3 xs stop ht after hc ih =>
    have hs := topLevel_suffix ht
    rw [after?_eq_some_iff.1 hc] at hs
    simp only [bind_eq_error_iff] at h
    rcases h with h | ⟨_, _, h | ⟨_, _, h⟩⟩
    · exact justified_of_textBefore h
    · exact (ih h).mono (((skipGap_suffix after).trans (List.suffix_cons _ _)).trans hs)
    · cases h

theorem selectors_suffix {ss : List String} (h : selectors xs = .ok (ss, rest)) : rest <:+ xs := by
  fun_induction selectors xs generalizing ss with
  | case1 => cases h
  | case2 xs stop ht hc =>
    simp only [bind_eq_ok_iff] at h
    obtain ⟨_, _, hr⟩ := h
    cases hr
    exact topLevel_suffix ht
  | case3 xs stop ht after hc ih =>
    have hs := topLevel_suffix ht
    rw [after?_eq_some_iff.1 hc] at hs
    simp only [bind_eq_ok_iff] at h
    obtain ⟨_, _, ⟨more, r⟩, hm, hr⟩ := h
    cases hr
    exact (((ih hm).trans (skipGap_suffix after)).trans (List.suffix_cons _ _)).trans hs

theorem justified_of_style (h : style xs = .error fault) : fault.Justified xs := by
  simp only [style, bind_eq_error_iff] at h
  rcases h with h | ⟨⟨ss, r⟩, hs, h | ⟨inside, ho, h | ⟨_, _, h⟩⟩⟩
  · exact justified_of_selectors h
  · exact (justified_of_expect h).mono (selectors_suffix hs)
  · exact (justified_of_declarations h).mono ((suffix_of_expect ho).trans (selectors_suffix hs))
  · cases h

/-! ## At-rules -/

theorem justified_of_condition {kind : ConditionalKind} (h : condition kind xs = .error fault) :
    fault.Justified xs := by
  simp only [condition, bind_eq_error_iff] at h
  rcases h with h | ⟨_, _, h | ⟨_, _, h⟩⟩
  · exact justified_of_textBefore h
  · exact (justified_of_expect h).mono (seek_suffix _ xs)
  · cases h

/-- A name is empty only at the end of the text and before a block. -/
theorem justified_of_noName (hf : Flush xs) (hv : afterValue [openBrace] xs = .ok xs) :
    (noName xs).Justified xs := by
  cases xs with
  | nil => exact .missingDelimiter (List.suffix_refl _) (by decide)
  | cons b xs =>
    have hb : b = openBrace := by
      by_contra hne
      exact absurd (length_afterValue_lt (by simp [hf.1, hne]) hv) (Nat.lt_irrefl _)
    exact .unexpectedCharacter (List.suffix_refl _) (by rw [hb]; decide)

theorem justified_of_keyframesName (hf : Flush xs) (h : keyframesName xs = .error fault) : fault.Justified xs := by
  simp only [keyframesName, bind_eq_error_iff] at h
  rcases h with h | ⟨r, hv, h | ⟨name, hn, h⟩⟩
  · exact .unclosed (List.suffix_refl _) (unclosed_of_afterValue h)
  · exact justified_of_textBefore h
  · split at h
    · next he =>
      cases h
      have hx := textBefore_eq_ok (afterValue_suffix hv) hn
      rw [String.isEmpty_iff.1 he, encode_empty, List.nil_append] at hx
      rw [← hx] at hv
      exact justified_of_noName hf hv
    · cases h

theorem justified_of_keyframes (hf : Flush xs) (h : keyframes xs = .error fault) : fault.Justified xs := by
  simp only [keyframes, bind_eq_error_iff] at h
  rcases h with h | ⟨⟨name, r⟩, hn, h | ⟨_, _, h | ⟨_, _, h⟩⟩⟩
  · exact justified_of_keyframesName hf h
  · exact (justified_of_block h).mono ((skipGap_suffix r).trans (keyframesName_suffix hn))
  · exact justified_of_textBefore h
  · cases h

/-- The keyword of an at-rule runs from its at sign to a byte that ends it, or to the end of the text. -/
theorem keyword_of_textBefore {keyword : String}
    (h : textBefore (atSign :: xs) (seek endsKeyword (atSign :: xs)) = .ok keyword) :
    atSign :: xs = encode keyword ++ seek endsKeyword (atSign :: xs) ∧ (encode keyword).head? = some atSign ∧
      ∀ b ∈ (seek endsKeyword (atSign :: xs)).head?, endsKeyword b := by
  have he := textBefore_eq_ok (seek_suffix _ _) h
  refine ⟨he, ?_, fun b hb => ?_⟩
  · have hseek : seek endsKeyword (atSign :: xs) = seek endsKeyword xs := rfl
    cases hk : encode keyword with
    | nil =>
      rw [hk, List.nil_append, hseek] at he
      have hlen := (seek_suffix endsKeyword xs).length_le
      rw [← he] at hlen
      exact absurd hlen (Nat.not_succ_le_self _)
    | cons c cs =>
      rw [hk] at he
      exact congrArg some (List.cons.inj he).1.symm
  · obtain ⟨ys, hys⟩ := List.head?_eq_some_iff.1 hb
    obtain ⟨-, -, -, hstop⟩ := exists_of_seek hys
    exact hstop

theorem justified_of_atRule (h : atRule (atSign :: xs) = .error fault) : fault.Justified (atSign :: xs) := by
  simp only [atRule, bind_eq_error_iff] at h
  have hs := (skipGap_suffix (seek endsKeyword (atSign :: xs))).trans (seek_suffix endsKeyword (atSign :: xs))
  rcases h with h | ⟨keyword, hk, h⟩
  · exact justified_of_textBefore h
  · split at h
    · exact (justified_of_condition h).mono hs
    · next hc =>
      split at h
      · exact (justified_of_keyframes (flush_skipGap _) h).mono hs
      · next hne =>
        cases h
        obtain ⟨he, hat, hend⟩ := keyword_of_textBefore hk
        have hj := Fault.Justified.unsupportedAtRule (List.suffix_refl _) hat hc hne hend
        rwa [← he] at hj

theorem justified_of_item {b : UInt8} (h : item b xs = .error fault) : fault.Justified (b :: xs) := by
  unfold item at h
  split at h
  · next hb =>
    subst hb
    exact justified_of_atRule h
  · cases hs : style (b :: xs) with
    | ok p => rw [hs] at h; cases h
    | error f => rw [hs] at h; cases h; exact justified_of_style hs

/-! ## Sheets -/

/-- **A sheet bears out the fault for which it is refused.** -/
theorem justified_of_rulesFrom {outer : List Frame} {done : List Rule} (h : rulesFrom outer done xs = .error fault) :
    fault.Justified xs := by
  fun_induction rulesFrom outer done xs with
  | case1 => cases h
  | case2 => cases h; exact .missingDelimiter List.nil_suffix (by decide)
  | case3 done xs ys hg => cases h; exact .unexpectedCharacter (hg ▸ skipGap_suffix xs) (by decide)
  | case4 done xs ys frame outer hg ih => exact (ih h).mono ((List.suffix_cons _ _).trans (hg ▸ skipGap_suffix xs))
  | case5 outer done xs b ys hg _ f hi =>
    cases h
    exact (justified_of_item hi).mono (hg ▸ skipGap_suffix xs)
  | case6 outer done xs b ys hg _ rule rest hi ih =>
    obtain ⟨g, -, rfl, hf⟩ := exists_gap_of_skipGap hg
    obtain ⟨x, he, -⟩ := item_sound hi hf
    exact (ih h).mono (List.IsSuffix.trans ⟨x, he.symm⟩ (List.suffix_append g _))
  | case7 outer done xs b ys hg _ kind text rest hi ih =>
    obtain ⟨g, -, rfl, hf⟩ := exists_gap_of_skipGap hg
    obtain ⟨x, he, -⟩ := item_sound hi hf
    exact (ih h).mono (List.IsSuffix.trans ⟨x, he.symm⟩ (List.suffix_append g _))

theorem justified_of_read (h : read xs = .error fault) : fault.Justified xs := justified_of_rulesFrom h

end Sheet

end StyleScope
