/-
The two scans that an animation value goes through. The top-level scan finds where the value ends in the sheet, and
steps over its strings and comments as it goes; splitting then reads the value again, and looks for strings at fewer
places and for comments only between values. It agrees with the first scan, so that it finds every string closed and
ends nothing inside a string or a comment, unless a value goes on into a string or a comment and breaks there
(`definitions_agree`).
-/
import StyleScope.Proofs.Animation.Fault
import StyleScope.Proofs.Checked.Animation
import StyleScope.Proofs.Scan.Hidden

namespace StyleScope.Animation

open Byte Scan Text

/-! ## Where definitions and values stand -/

/-- Where the values up to the next comma or the end stand, and what remains from there. -/
def tokenExtents (xs : Bytes) : Except Fault (List Extent × Bytes) :=
  match _hs : skipGap xs with
  | [] => .ok ([], [])
  | b :: ys =>
    if b = comma then .ok ([], b :: ys)
    else
      match _hv : afterValue [comma] (b :: ys) with
      | .error fault => .error fault
      | .ok rest => do
        let (more, last) ← tokenExtents rest
        return (⟨b :: ys, rest⟩ :: more, last)
termination_by xs.length
decreasing_by
  rename_i hb
  have hlt := length_afterValue_lt (by simp [(skipGap_eq_cons _hs).1, hb]) _hv
  have hle := length_skipGap_le xs
  rw [_hs] at hle
  omega

theorem tokenExtents_suffix {xs rest : Bytes} {es : List Extent} (h : tokenExtents xs = .ok (es, rest)) :
    rest <:+ xs := by
  fun_induction tokenExtents xs generalizing es with
  | case1 => cases h; exact List.nil_suffix
  | case2 xs ys hs => cases h; exact hs ▸ skipGap_suffix xs
  | case3 => cases h
  | case4 xs b ys hs hb after hv ih =>
    simp only [bind_eq_ok_iff] at h
    obtain ⟨⟨more, last⟩, hm, hr⟩ := h
    cases hr
    exact ((ih hm).trans (afterValue_suffix hv)).trans (hs ▸ skipGap_suffix xs)

/-- Where a definition stands, and its values. -/
structure DefinitionExtent where
  /-- From the first value, or from where it would stand, to the comma or the end. -/
  whole : Extent
  /-- The values. -/
  values : List Extent
deriving Repr, DecidableEq

/-- The definition and its values. -/
def DefinitionExtent.extents (d : DefinitionExtent) : List Extent := d.whole :: d.values

/-- Where the definitions of a value that begins with no gap stand. -/
def definitionExtentsFrom (xs : Bytes) : Except Fault (List DefinitionExtent) :=
  match _ht : tokenExtents xs with
  | .error fault => .error fault
  | .ok (values, []) => .ok [⟨⟨xs, []⟩, values⟩]
  | .ok (values, b :: rest) => do
    let more ← definitionExtentsFrom (skipGap rest)
    return ⟨⟨xs, b :: rest⟩, values⟩ :: more
termination_by xs.length
decreasing_by
  have hle := (tokenExtents_suffix _ht).length_le
  have hgap := length_skipGap_le rest
  simp only [List.length_cons] at hle
  omega

/-- Where the definitions of a value stand. -/
def definitionExtents (xs : Bytes) : Except Fault (List DefinitionExtent) := definitionExtentsFrom (skipGap xs)

/-- The definition that stands there. -/
def DefinitionExtent.read (d : DefinitionExtent) : Except Fault Definition := do
  let tokens ← d.values.mapM Extent.text
  let text ← d.whole.text
  return ⟨trimEnd text, tokens⟩

section Reading

variable {xs rest : Bytes} {fault : Fault}

theorem tokens_of_extents {es : List Extent} (h : tokenExtents xs = .ok (es, rest)) :
    tokens xs = (es.mapM Extent.text).map (·, rest) := by
  fun_induction tokenExtents xs generalizing es with
  | case1 xs hs =>
    cases h
    rw [tokens_eq, hs]
    rfl
  | case2 xs ys hs =>
    cases h
    rw [tokens_eq, hs]
    rfl
  | case3 => cases h
  | case4 xs b ys hs hb after hv ih =>
    simp only [bind_eq_ok_iff] at h
    obtain ⟨⟨more, last⟩, hm, hr⟩ := h
    cases hr
    rw [tokens_eq, hs]
    simp only [if_neg hb, hv, ih hm, List.mapM_cons, Extent.text, bind, Except.bind]
    cases textBefore (b :: ys) after with
    | error f => rfl
    | ok token => cases more.mapM Extent.text <;> rfl

/-- **Splitting reads what stands where the extents say**, in their order. -/
theorem definitionsFrom_of_extents {es : List DefinitionExtent} (h : definitionExtentsFrom xs = .ok es) :
    definitionsFrom xs = es.mapM DefinitionExtent.read := by
  fun_induction definitionExtentsFrom xs generalizing es with
  | case1 => cases h
  | case2 xs values he =>
    cases h
    rw [definitionsFrom_eq, tokens_of_extents he, List.mapM_cons, List.mapM_nil, DefinitionExtent.read]
    cases values.mapM Extent.text with
    | error f => rfl
    | ok ts =>
      simp only [Extent.text, bind, Except.bind, Except.map]
      cases textBefore xs [] <;> rfl
  | case3 xs values b rest he ih =>
    simp only [bind_eq_ok_iff] at h
    obtain ⟨more, hm, hr⟩ := h
    cases hr
    rw [definitionsFrom_eq, tokens_of_extents he, List.mapM_cons, DefinitionExtent.read]
    cases values.mapM Extent.text with
    | error f => rfl
    | ok ts =>
      simp only [Extent.text, ih hm, bind, Except.bind, Except.map]
      cases textBefore xs (b :: rest) <;> rfl

theorem eq_of_mapM_eq_error {α β : Type} {f : α → Except Fault β} (hf : ∀ a g, f a = .error g → g = fault)
    {as : List α} {g : Fault} (h : as.mapM f = .error g) : g = fault := by
  induction as with
  | nil => cases h
  | cons a as ih =>
    rw [List.mapM_cons] at h
    simp only [bind_eq_error_iff] at h
    rcases h with h | ⟨_, -, h | ⟨_, -, h⟩⟩
    · exact hf a g h
    · exact ih h
    · cases h

/-- A definition that stands in a text can only fail to be read as a slice that is no text. -/
theorem DefinitionExtent.eq_of_read_eq_error {d : DefinitionExtent} (h : d.read = .error fault) :
    fault = .invalidSlice := by
  simp only [DefinitionExtent.read, bind_eq_error_iff] at h
  rcases h with h | ⟨_, -, h | ⟨_, -, h⟩⟩
  · exact eq_of_mapM_eq_error (fun _ _ he => of_textBefore_eq_error he) h
  · exact of_textBefore_eq_error h
  · cases h

/-- A text of which the extents are found is split. -/
theorem exists_definitions {value : String} {es : List DefinitionExtent}
    (h : definitionExtents (encode value) = .ok es) :
    ∃ ds, locating definitions (encode value) = .ok ds ∧ es.mapM DefinitionExtent.read = .ok ds := by
  have hd : definitions (encode value) = es.mapM DefinitionExtent.read := definitionsFrom_of_extents h
  cases hm : es.mapM DefinitionExtent.read with
  | ok ds => exact ⟨ds, locating_eq_ok_iff.2 (hd.trans hm), rfl⟩
  | error fault =>
    -- no slice of a text is missing
    obtain rfl := eq_of_mapM_eq_error (fun _ _ he => DefinitionExtent.eq_of_read_eq_error he) hm
    have hv : ofValue value = .error .invalidSlice := by
      rw [ofValue, locating_eq_error_iff.2 ⟨_, hd.trans hm, rfl⟩]
      rfl
    exact absurd hv (Checked.agrees_ofValue value).answers.noInvalidSlice

end Reading

/-! ## Where the scans part -/

/-- While a text is split, a value begins at `start`. -/
inductive ValueAt (start : Bytes) : Bytes → Prop
  | here {xs : Bytes} {b : UInt8} {ys : Bytes} : start = b :: ys → skipGap xs = b :: ys → b ≠ comma → ValueAt start xs
  | value {xs ys rest : Bytes} {b : UInt8} :
    skipGap xs = b :: ys → b ≠ comma → afterValue [comma] (b :: ys) = .ok rest → ValueAt start rest → ValueAt start xs
  | comma {xs ys : Bytes} : skipGap xs = comma :: ys → ValueAt start (skipGap ys) → ValueAt start xs

/-- Splitting comes to a value, between two units of the text, that begins with no quote, runs on into a string or a
comment, and breaks there. -/
def Parts (xs : Bytes) : Prop :=
  ∃ start, ValueAt start xs ∧ Aligned start xs ∧ ¬ BeginsQuoted start ∧ Scan.Parts [comma] 0 start

section Parts

variable {xs ys rest : Bytes} {b : UInt8}

theorem Parts.of_value (h : Parts rest) (hs : skipGap xs = b :: ys) (hb : b ≠ comma)
    (hv : afterValue [comma] (b :: ys) = .ok rest) (ha : Aligned rest xs) : Parts xs := by
  obtain ⟨start, hat, hstart, hq, hp⟩ := h
  exact ⟨start, .value hs hb hv hat, hstart.trans ha, hq, hp⟩

theorem ValueAt.of_tokens {start : Bytes} {es : List Extent} (h : ValueAt start (skipGap rest))
    (ht : tokenExtents xs = .ok (es, b :: rest)) : ValueAt start xs := by
  fun_induction tokenExtents xs generalizing es with
  | case1 => cases ht
  | case2 xs ys hs => cases ht; exact .comma hs h
  | case3 => cases ht
  | case4 xs c ys hs hc after hv ih =>
    simp only [bind_eq_ok_iff] at ht
    obtain ⟨⟨more, last⟩, hm, hr⟩ := ht
    cases hr
    exact .value hs hc hv (ih hm)

theorem Parts.of_tokens {es : List Extent} (h : Parts (skipGap rest)) (ht : tokenExtents xs = .ok (es, b :: rest))
    (ha : Aligned (skipGap rest) xs) : Parts xs := by
  obtain ⟨start, hat, hstart, hq, hp⟩ := h
  exact ⟨start, hat.of_tokens ht, hstart.trans ha, hq, hp⟩

theorem Parts.of_skipGap (h : Parts (skipGap xs)) : Parts xs := by
  obtain ⟨start, hat, hstart, hq, hp⟩ := h
  have hidem := skipGap_of_flush (flush_skipGap xs)
  refine ⟨start, ?_, hstart.trans (aligned_skipGap xs), hq, hp⟩
  cases hat with
  | here he hs hb => exact .here he (hidem ▸ hs) hb
  | value hs hb hv hat => exact .value (hidem ▸ hs) hb hv hat
  | comma hs hat => exact .comma (hidem ▸ hs) hat

/-- Both ends stand between two units of the text. -/
def Placed (xs : Bytes) (e : Extent) : Prop := Aligned e.start xs ∧ Aligned e.rest xs

theorem Placed.trans {e : Extent} (h : Placed ys e) (ha : Aligned ys xs) : Placed xs e :=
  ⟨h.1.trans ha, h.2.trans ha⟩

theorem placed_tokenExtents (h : Aligned [] xs) :
    (∃ es rest, tokenExtents xs = .ok (es, rest) ∧ Aligned rest xs ∧ ∀ e ∈ es, Placed xs e) ∨ Parts xs := by
  fun_induction tokenExtents xs with
  | case1 xs hs => exact .inl ⟨[], [], rfl, h, nofun⟩
  | case2 xs ys hs => exact .inl ⟨[], _, rfl, hs ▸ aligned_skipGap xs, nofun⟩
  | case3 xs b ys hs hb fault hv =>
    have hgap : Aligned (b :: ys) xs := hs ▸ aligned_skipGap xs
    rcases aligned_afterValue (h.remaining hgap) with ⟨rest, hr, -⟩ | ⟨hq, hp⟩
    · rw [hv] at hr
      cases hr
    · exact .inr ⟨_, .here rfl hs hb, hgap, hq, hp⟩
  | case4 xs b ys hs hb after hv ih =>
    have hgap : Aligned (b :: ys) xs := hs ▸ aligned_skipGap xs
    rcases aligned_afterValue (h.remaining hgap) with ⟨rest, hr, ha⟩ | ⟨hq, hp⟩
    · rw [hv] at hr
      cases hr
      have hafter := ha.trans hgap
      rcases ih (h.remaining hafter) with ⟨es, rest, he, hrest, hplaced⟩ | hp
      · refine .inl ⟨⟨b :: ys, after⟩ :: es, rest, by rw [he]; rfl, hrest.trans hafter, fun e hm => ?_⟩
        rcases List.mem_cons.1 hm with rfl | hm
        · exact ⟨hgap, hafter⟩
        · exact (hplaced e hm).trans hafter
      · exact .inr (hp.of_value hs hb hv hafter)
    · exact .inr ⟨_, .here rfl hs hb, hgap, hq, hp⟩

theorem eq_comma_of_tokenExtents {es : List Extent} (h : tokenExtents xs = .ok (es, b :: rest)) : b = comma := by
  fun_induction tokenExtents xs generalizing es with
  | case1 => cases h
  | case2 => cases h; rfl
  | case3 => cases h
  | case4 xs c ys hs hc after hv ih =>
    simp only [bind_eq_ok_iff] at h
    obtain ⟨⟨more, last⟩, hm, hr⟩ := h
    cases hr
    exact ih hm

/-- **Unless the scans part, every definition and every value begins and ends between two units.** -/
theorem placed_definitionExtentsFrom (h : Aligned [] xs) :
    (∃ es, definitionExtentsFrom xs = .ok es ∧ ∀ d ∈ es, ∀ e ∈ d.extents, Placed xs e) ∨ Parts xs := by
  fun_induction definitionExtentsFrom xs with
  | case1 xs fault ht =>
    rcases placed_tokenExtents h with ⟨_, _, he, -⟩ | hp
    · rw [ht] at he
      cases he
    · exact .inr hp
  | case2 xs values ht =>
    rcases placed_tokenExtents h with ⟨_, _, he, hrest, hplaced⟩ | hp
    · rw [ht] at he
      cases he
      refine .inl ⟨_, rfl, fun d hd e he => ?_⟩
      obtain rfl := List.mem_singleton.1 hd
      rcases List.mem_cons.1 he with rfl | he
      · exact ⟨.refl, hrest⟩
      · exact hplaced e he
    · exact .inr hp
  | case3 xs values b rest ht ih =>
    rcases placed_tokenExtents h with ⟨_, _, he, hrest, hplaced⟩ | hp
    · rw [ht] at he
      cases he
      obtain rfl := eq_comma_of_tokenExtents ht
      have hcomma : lexeme comma rest = .ok (.byte, rest) :=
        lexeme_eq_byte_iff.2 ⟨single_of_isPlain (by decide) rest, rfl⟩
      have hnext := ((aligned_skipGap rest).trans (.unit hcomma .refl)).trans hrest
      rcases ih (h.remaining hnext) with ⟨more, hm, hmore⟩ | hp
      · refine .inl ⟨⟨⟨xs, comma :: rest⟩, values⟩ :: more, by rw [hm]; rfl, fun d hd e he => ?_⟩
        rcases List.mem_cons.1 hd with rfl | hd
        · rcases List.mem_cons.1 he with rfl | he
          · exact ⟨.refl, hrest⟩
          · exact hplaced e he
        · exact (hmore d hd e he).trans hnext
      · exact .inr (hp.of_tokens ht hnext)
    · exact .inr hp

theorem placed_definitionExtents (h : Aligned [] xs) :
    (∃ es, definitionExtents xs = .ok es ∧ ∀ d ∈ es, ∀ e ∈ d.extents, Placed xs e) ∨ Parts xs := by
  have hgap := aligned_skipGap xs
  rcases placed_definitionExtentsFrom (h.remaining hgap) with ⟨es, he, hplaced⟩ | hp
  · exact .inl ⟨es, he, fun d hd e hm => (hplaced d hd e hm).trans hgap⟩
  · exact .inr hp.of_skipGap

end Parts

/-! ## Values as they stand in a sheet -/

/-- The value, before `after` in the text, is split, and none of its definitions and values begins or ends inside a
string or a comment of the text. -/
def SplitsOutside (text after : Bytes) (value : String) : Prop :=
  ∃ es ds, definitionExtents (encode value) = .ok es ∧ es.mapM DefinitionExtent.read = .ok ds ∧
    locating definitions (encode value) = .ok ds ∧
    ∀ d ∈ es, ∀ e ∈ d.extents, ¬ Inside text (e.start ++ after) ∧ ¬ Inside text (e.rest ++ after)

/-- **The scans agree, unless they part within a value.** Where the top-level scan finds the value of a declaration, as
far as a semicolon or a closing brace, the value without the blanks around it is split, with every string closed and
nothing that begins or ends inside a string or a comment which the top-level scan stepped over; or else a value in it
runs on into a string or a comment, and breaks there. -/
theorem definitions_agree {inside rest : Bytes} {b : UInt8} {raw : String}
    (ht : topLevel [semicolon, closeBrace] (skipGap inside) = .ok (b :: rest))
    (hv : textBefore (skipGap inside) (b :: rest) = .ok raw) :
    ∃ u w, Blank u ∧ Blank w ∧ skipGap inside = encode u ++ (encode (trim raw) ++ (encode w ++ b :: rest)) ∧
      (SplitsOutside (skipGap inside) (encode w ++ b :: rest) (trim raw) ∨ Parts (encode (trim raw))) := by
  obtain ⟨ys, d, hys, hp, hb, -⟩ := passes_of_topLevelFrom ht
  obtain rfl : ys = encode raw := List.append_cancel_right (hys.symm.trans (textBefore_eq_ok (topLevel_suffix ht) hv))
  obtain ⟨u, w, hu, hw, hraw⟩ := exists_pad raw
  have hbytes : encode raw = encode u ++ (encode (trim raw) ++ encode w) := by
    rw [← List.append_assoc, ← encode_append, ← encode_append, ← hraw]
  have hin : skipGap inside = encode u ++ (encode (trim raw) ++ (encode w ++ b :: rest)) := by
    rw [hys, hbytes, List.append_assoc, List.append_assoc]
  have hvalue := (hbytes ▸ hp).of_blank_append (inBlank_of_mem_encode hu)
  have hblank := inBlank_of_mem_encode hw
  have hstar : (b :: rest).head? ≠ some star := by
    intro hs
    cases hs
    have hno : ([semicolon, closeBrace] : Bytes).contains star = false := by decide
    rw [stopsAt, hno, Bool.false_and] at hb
    cases hb
  refine ⟨u, w, hu, hw, hin, ?_⟩
  obtain ⟨es, he, hplaced⟩ | hparts := placed_definitionExtents (hvalue.aligned rfl hblank)
  case inr => exact .inr hparts
  obtain ⟨ds, hd, hread⟩ := exists_definitions he
  have houtside {place : Bytes} (ha : Aligned place (encode (trim raw))) :
      ¬ Inside (skipGap inside) (place ++ (encode w ++ b :: rest)) := by
    rw [hin, inside_blank_append_iff (inBlank_of_mem_encode hu), hvalue.inside_append_iff rfl hblank hstar]
    exact ha.not_inside
  exact .inl ⟨es, ds, he, hread, hd, fun d hm e hme =>
    ⟨houtside (hplaced d hm e hme).1, houtside (hplaced d hm e hme).2⟩⟩

/-- In a function a comment is read as bytes of the value, so the apostrophe in it begins a string, which nothing closes;
the top-level scan steps over the comment. -/
theorem definitions_agree_comment :
    let value := "steps(4, /* don't */ end) 1s x 2s"
    skipGap (encode (value ++ "\x7d")) = encode (value ++ "\x7d") ∧
      topLevel [semicolon, closeBrace] (skipGap (encode (value ++ "\x7d"))) = .ok [closeBrace] ∧
      textBefore (skipGap (encode (value ++ "\x7d"))) [closeBrace] = .ok value ∧ trim value = value ∧
      locating definitions (encode value) = .error (.unterminatedQuote singleQuote 15) ∧ Parts (encode value) := by
  intro value
  have ht : topLevel [semicolon, closeBrace] (skipGap (encode (value ++ "\x7d"))) = .ok [closeBrace] := by
    decide +kernel
  have hv : textBefore (skipGap (encode (value ++ "\x7d"))) [closeBrace] = .ok value := by decide +kernel
  have htrim : trim value = value := by decide +kernel
  have hfail : locating definitions (encode value) = .error (.unterminatedQuote singleQuote 15) := by decide +kernel
  refine ⟨by decide +kernel, ht, hv, htrim, hfail, ?_⟩
  obtain ⟨_, _, -, -, -, ⟨_, ds, -, -, hd, -⟩ | hp⟩ := definitions_agree ht hv
  · rw [htrim, hfail] at hd
    cases hd
  · exact htrim ▸ hp

/-- Outside all groups a quote within a value is a byte like any other, and a space between two of them ends it. -/
example :
    definitionExtents (encode "a'b c'") =
        .ok [⟨⟨encode "a'b c'", []⟩, [⟨encode "a'b c'", encode " c'"⟩, ⟨encode "c'", []⟩]⟩] ∧
      Inside (encode "a'b c'") (encode " c'") := by
  decide +kernel

end StyleScope.Animation
