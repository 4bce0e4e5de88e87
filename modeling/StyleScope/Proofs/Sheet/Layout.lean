/-
Layouts of a tree: all the ways to write it that differ only in gaps, in blanks that are trimmed, in stray
semicolons, and in the semicolon after the last declaration of a block. A canonical tree is read from every one
of its layouts (`parse_of_layout`), so layout carries no meaning. The printed text is one layout.
-/
import StyleScope.Proofs.Animation.Layout
import StyleScope.Proofs.Sheet.Canonical
import StyleScope.Proofs.Sheet.Completeness
import StyleScope.Proofs.Sheet.Printing

namespace StyleScope.Sheet

open Byte Scan Text

/-! ## Layouts -/

/-- Selectors set apart by commas, each between blanks, with a gap before any but the first. -/
inductive SelectorsLayout : List String → Bytes → Prop
  | last {s x : String} : Padded s x → SelectorsLayout [s] (encode x)
  | cons {s x : String} {ss : List String} {g y : Bytes} :
    Padded s x → Gap g → SelectorsLayout ss y → SelectorsLayout (s :: ss) (encode x ++ comma :: (g ++ y))

/-- The property of a declaration, and a text that may stand as its value. -/
inductive ValueLayout : Declaration → String → String → Prop
  | other {property value : String} : ValueLayout (.other property value) property value
  | animationName {value : String} : ValueLayout (.animationName value) "animation-name" value
  | animation {animations : List Animation} {value : String} :
    Trimmed value → Animation.DefinitionsLayout animations (encode value) →
      ValueLayout (.animation animations) "animation" value

/-- A property and a value, each between blanks, with a gap before the value. -/
inductive DeclarationLayout : Declaration → Bytes → Prop
  | mk {d : Declaration} {property value p v : String} {g : Bytes} :
    ValueLayout d property value → Padded property p → Gap g → Padded value v →
      DeclarationLayout d (encode p ++ colon :: (g ++ encode v))

/-- The declarations of a block through its closing brace, with gaps and semicolons between them. The last may
lack its semicolon. -/
inductive BlockLayout : List Declaration → Bytes → Prop
  | nil {g : Bytes} : Gap g → BlockLayout [] (g ++ [closeBrace])
  | semicolon {ds : List Declaration} {g x : Bytes} :
    Gap g → BlockLayout ds x → BlockLayout ds (g ++ semicolon :: x)
  | cons {d : Declaration} {ds : List Declaration} {g x y : Bytes} :
    Gap g → DeclarationLayout d x → BlockLayout ds y → BlockLayout (d :: ds) (g ++ (x ++ semicolon :: y))
  | last {d : Declaration} {g x : Bytes} :
    Gap g → DeclarationLayout d x → BlockLayout [d] (g ++ (x ++ [closeBrace]))

/-- The gap begins with a space, so that it is not taken for part of the word before it. -/
def SpacedGap (g : Bytes) : Prop := Gap g ∧ ∃ b ∈ g.head?, isSpace b

/-- Rules with a gap before each and at the end. -/
inductive SheetLayout : List Rule → Bytes → Prop
  | nil {g : Bytes} : Gap g → SheetLayout [] g
  | style {ss : List String} {ds : List Declaration} {rules : List Rule} {g x y z : Bytes} :
    Gap g → SelectorsLayout ss x → BlockLayout ds y → SheetLayout rules z →
      SheetLayout (.style ss ds :: rules) (g ++ ((x ++ openBrace :: y) ++ z))
  | keyframes {name body : String} {rules : List Rule} {g k j z : Bytes} :
    Gap g → SpacedGap k → Gap j → (BeginsQuoted (encode name) ∨ j = [] ∨ SpacedGap j) → SheetLayout rules z →
      SheetLayout (.keyframes name body :: rules)
        (g ++ ((encode "@keyframes" ++ (k ++ (encode name ++ (j ++ encode body)))) ++ z))
  | conditional {kind : ConditionalKind} {condition : String} {inner rules : List Rule} {g k y z : Bytes} :
    Gap g → SpacedGap k → SheetLayout inner y → SheetLayout rules z →
      SheetLayout (.conditional kind condition inner :: rules)
        (g ++ ((encode kind.keyword ++ (k ++ (encode condition ++ [openBrace]))) ++ (y ++ closeBrace :: z)))

/-! ## Layouts are texts of the grammar -/

theorem Padded.pieceText {stops : Bytes} {s x : String} {d : Nat} (h : Padded s x) (ht : Trimmed s)
    (hf : Flush (encode s)) (hs : ∀ c ∈ stops, inBlank c = false) (hp : Passes stops 0 (encode s) d) :
    PieceText stops s (encode x) d :=
  .mk (h.trim_eq ht) (h.flush hf) (h.passes hs hp)

theorem SelectorsLayout.selectorsText {ss : List String} {x : Bytes} (h : SelectorsLayout ss x)
    (hc : ∀ s ∈ ss, Clean [comma, openBrace, closeBrace] comma s) : SelectorsText ss x := by
  have hpiece {s x : String} (hp : Padded s x) (hs : Clean [comma, openBrace, closeBrace] comma s) :
      PieceText [comma, openBrace, closeBrace] s (encode x) 0 :=
    Padded.pieceText hp hs.trimmed hs.flush (by decide) (hs.passes_zero (by decide))
  induction h with
  | last hp => exact .last (hpiece hp (hc _ (by simp)))
  | cons hp hg _ ih => exact .cons (hpiece hp (hc _ (by simp))) hg (ih fun s hs => hc s (List.mem_cons_of_mem _ hs))

theorem SelectorsLayout.head?_ne {ss : List String} {x : Bytes} (h : SelectorsLayout ss x)
    (ha : ∀ s ∈ ss.head?, (encode s).head? ≠ some atSign) : x.head? ≠ some atSign := by
  cases h with
  | last hp => exact hp.head?_ne (by decide) (ha _ rfl)
  | @cons s x ss g y hp _ _ =>
    have hx := hp.head?_ne (by decide) (ha _ rfl)
    cases he : encode x with
    | nil => exact head?_cons_ne (by decide) _
    | cons b xs => rwa [he] at hx

/-- What a canonical declaration may have as its value is clean, and is read as that declaration. -/
theorem ValueLayout.spec {d : Declaration} {property value : String} (h : ValueLayout d property value)
    (hc : d.Canonical) :
    Trimmed property ∧ Flush (encode property) ∧ (∀ b ∈ encode property, endsProperty b = false) ∧
      Trimmed value ∧ Flush (encode value) ∧ Passes [semicolon, closeBrace] 0 (encode value) 0 ∧
      Declaration.ofProperty property value = .ok d := by
  cases h with
  | other =>
    obtain ⟨ht, hn, hp, ha, han, hv⟩ := hc
    refine ⟨ht, flush_encode ht hn, hp, hv.trimmed, hv.flush, hv.passes_zero (by decide), ?_⟩
    rw [Declaration.ofProperty, if_neg ha, if_neg han]
  | animationName =>
    exact ⟨by decide, by decide, by decide, hc.trimmed, hc.flush, hc.passes_zero (by decide), rfl⟩
  | animation ht hl =>
    obtain ⟨-, hall⟩ := hc
    have htok := fun a ha t hta => ((hall a ha).2 t hta).2
    have hpass := fun a ha t hta => ((hall a ha).2 t hta).1.passes_zero (by decide)
    refine ⟨by decide, by decide, by decide, ht, hl.flush htok, hl.passes (by decide) (by decide) hpass, ?_⟩
    rw [Declaration.ofProperty, if_pos rfl, Animation.ofValue_of_layout hl (fun a ha => (hall a ha).1) htok]
    rfl

theorem endsProperty_of_inBlank {b : UInt8} (h : inBlank b) : endsProperty b = false := by
  have hne (c : UInt8) (hc : inBlank c = false) : b ≠ c := ne_of_inBlank h hc
  simp [endsProperty, isBrace, hne colon (by decide), hne semicolon (by decide), hne openBrace (by decide),
    hne closeBrace (by decide)]

theorem DeclarationLayout.declarationText {d : Declaration} {x : Bytes} (h : DeclarationLayout d x)
    (hc : d.Canonical) : DeclarationText d x 0 := by
  obtain ⟨hl, hp, hg, hv⟩ := h
  obtain ⟨htp, hfp, hends, htv, hfv, hpass, ho⟩ := hl.spec hc
  have hends' : ∀ b ∈ encode _, endsProperty b = false := fun b hb =>
    (hp.mem hb).elim (hends b) endsProperty_of_inBlank
  exact .mk (hp.flush hfp) hends' hg (Padded.pieceText hv htv hfv (by decide) hpass) (by rwa [hp.trim_eq htp])

theorem BlockLayout.declarationsText {ds : List Declaration} {x : Bytes} (h : BlockLayout ds x)
    (hc : ∀ d ∈ ds, d.Canonical) : DeclarationsText ds x := by
  induction h with
  | nil hg => exact .nil hg
  | semicolon hg _ ih => exact .semicolon hg (ih hc)
  | cons hg hd _ ih =>
    exact .cons hg (hd.declarationText (hc _ (by simp))) (ih fun d hd => hc d (List.mem_cons_of_mem _ hd))
  | last hg hd => exact .last hg (hd.declarationText (hc _ (by simp)))

theorem SpacedGap.endsKeyword {g : Bytes} (h : SpacedGap g) (rest : Bytes) : EndsKeyword (g ++ rest) := by
  obtain ⟨-, b, hb, hs⟩ := h
  refine EndsKeyword.append ⟨b, hb, ?_⟩ rest
  simp [Sheet.endsKeyword, hs]

theorem SpacedGap.endsValue {g : Bytes} (h : SpacedGap g) (follow rest : Bytes) : EndsValue follow (g ++ rest) := by
  obtain ⟨-, b, hb, hs⟩ := h
  cases g with
  | nil => cases hb
  | cons c g =>
    cases hb
    intro a ha
    cases ha
    simp [hs]

theorem blockText_of_whole {x : Bytes} (h : block x = .ok ⟨x, []⟩) : BlockText x := by
  obtain ⟨k, b, -, hb, -, hs⟩ := blockText_of_block h
  rw [List.append_nil] at hs
  obtain rfl : x = b := hs
  exact hb

theorem itemText_of_keyframesLayout {name body : String} {k j : Bytes} (hn : Token openBrace name)
    (hb : block (encode body) = .ok ⟨encode body, []⟩) (hk : SpacedGap k) (hj : Gap j)
    (hjn : BeginsQuoted (encode name) ∨ j = [] ∨ SpacedGap j) :
    ItemText (.keyframes name body) (encode "@keyframes" ++ (k ++ (encode name ++ (j ++ encode body)))) := by
  have hbody := blockText_of_whole hb
  have hend : BeginsQuoted (encode name) ∨ EndsValue [openBrace] (j ++ ([] ++ encode body)) := by
    rcases hjn with hq | rfl | hj
    · exact .inl hq
    · obtain ⟨inside, he, -⟩ := hbody
      refine .inr fun b hb => ?_
      rw [he] at hb
      cases hb
      rfl
    · exact .inr (hj.endsValue _ _)
  exact ItemText.keyframes (k := []) hk.1 (hk.endsKeyword _) (hn.flush (by decide) (by decide)) hn.valueText hj
    flush_nil .nil hbody hend

/-- **A layout of a canonical tree is a text of the grammar for that tree.** -/
theorem SheetLayout.rulesText {rules : List Rule} {x : Bytes} (h : SheetLayout rules x) (hc : Canonical rules) :
    RulesText rules x := by
  induction h with
  | nil hg => exact .nil hg
  | style hg hs hd _ ih =>
    cases hc with
    | style _ hclean hat hds hrest =>
      have hss := hs.selectorsText fun s hm => (hclean s hm).2
      exact .item hg (.style hss (hs.head?_ne hat) (hd.declarationsText hds)) (ih hrest)
  | keyframes hg hk hj hjn _ ih =>
    cases hc with
    | keyframes hn hb hrest => exact .item hg (itemText_of_keyframesLayout hn hb hk hj hjn) (ih hrest)
  | conditional hg hk _ _ ihi ih =>
    cases hc with
    | conditional hb hf hinner hrest =>
      exact .conditional hg (.mk hk.1 (hk.endsKeyword _) hf hb) (ihi hinner) (ih hrest)

/-! ## The layout that is printed -/

theorem selectorsLayout_intercalate {ss : List String} (hne : ss ≠ []) (ht : ∀ s ∈ ss, Trimmed s) :
    SelectorsLayout ss (encode (",".intercalate ss)) := by
  induction ss with
  | nil => exact absurd rfl hne
  | cons s ss ih =>
    cases ss with
    | nil => exact .last (Padded.self (ht s (by simp)))
    | cons t ss =>
      rw [encode_intercalate_cons]
      exact .cons (Padded.self (ht s (by simp))) .nil
        (ih (List.cons_ne_nil t ss) fun r hr => ht r (List.mem_cons_of_mem s hr))

theorem valueLayout_print {d : Declaration} (hc : d.Canonical) : ValueLayout d d.property d.value := by
  cases d with
  | other property value => exact .other
  | animationName value => exact .animationName
  | animation animations =>
    obtain ⟨hne, hall⟩ := hc
    have hprint : ∀ s ∈ animations.map Animation.print, Trimmed s ∧ s ≠ "" := by
      intro s hs
      obtain ⟨a, ha, rfl⟩ := List.mem_map.1 hs
      have htexts : ∀ t ∈ a.texts, Trimmed t ∧ t ≠ "" := fun t ht =>
        ⟨((hall a ha).2 t ht).1.trimmed, ((hall a ha).2 t ht).2.ne_empty⟩
      rw [Animation.print_eq]
      exact ⟨Trimmed.intercalate htexts a.texts_ne_nil,
        intercalate_ne_empty (fun t ht => (htexts t ht).2) a.texts_ne_nil⟩
    have htrim : Trimmed (",".intercalate (animations.map Animation.print)) :=
      .intercalate hprint (by simpa using hne)
    exact .animation htrim (Animation.definitionsLayout_print hne)

theorem declarationLayout_print {d : Declaration} (hc : d.Canonical) :
    DeclarationLayout d d.bytes := by
  have hl := valueLayout_print hc
  obtain ⟨htp, -, -, htv, -⟩ := hl.spec hc
  exact .mk hl (Padded.self htp) .nil (Padded.self htv)

theorem blockLayout_print {ds : List Declaration} (hc : ∀ d ∈ ds, d.Canonical) :
    BlockLayout ds (encode (String.join (ds.map Declaration.print)) ++ [closeBrace]) := by
  induction ds with
  | nil => exact .nil .nil
  | cons d ds ih =>
    have hd := declarationLayout_print (hc d (by simp))
    have := BlockLayout.cons .nil hd (ih fun d' hd => hc d' (List.mem_cons_of_mem d hd))
    rw [encode_join_cons, List.append_assoc, List.cons_append]
    exact this

theorem SheetLayout.gap {rules : List Rule} {g x : Bytes} (hg : Gap g) (h : SheetLayout rules x) :
    SheetLayout rules (g ++ x) := by
  cases h with
  | nil hg' => exact .nil (hg.append hg')
  | style hg' hs hd hr => rw [← List.append_assoc]; exact .style (hg.append hg') hs hd hr
  | keyframes hg' hk hj hjn hr => rw [← List.append_assoc]; exact .keyframes (hg.append hg') hk hj hjn hr
  | conditional hg' hk hi hr => rw [← List.append_assoc]; exact .conditional (hg.append hg') hk hi hr

theorem gap_lineFeed : Gap [0x0A] := .space (by decide) .nil

theorem spacedGap_space : SpacedGap [0x20] := ⟨.space (by decide) .nil, 0x20, rfl, by decide⟩

/-- **What is printed is a layout.** -/
theorem sheetLayout_print {rules : List Rule} (hc : Canonical rules) : SheetLayout rules (encode (print rules)) := by
  induction hc with
  | nil => exact .nil .nil
  | @style ss ds rules hne hclean _ hds _ ih =>
    have hss := selectorsLayout_intercalate hne fun s hs => (hclean s hs).2.trimmed
    rw [encode_print_style]
    exact .style .nil hss (blockLayout_print hds) (ih.gap gap_lineFeed)
  | @keyframes name body rules _ _ _ ih =>
    rw [encode_print_keyframes]
    exact SheetLayout.keyframes (g := []) (j := []) .nil spacedGap_space .nil (.inr (.inl rfl)) (ih.gap gap_lineFeed)
  | @conditional kind condition inner rules _ _ _ _ ihi ih =>
    rw [encode_print_conditional]
    exact .conditional .nil spacedGap_space (ihi.gap gap_lineFeed) (ih.gap gap_lineFeed)

/-- **Layout carries no meaning.** A canonical tree is read from every one of its layouts, and what is printed is
one of them. -/
theorem parse_of_layout {rules : Sheet} (hc : Canonical rules) :
    SheetLayout rules (encode (print rules)) ∧
      ∀ text, SheetLayout rules (encode text) → parse text = .ok rules :=
  ⟨sheetLayout_print hc, fun _ hl => parse_of_rulesText (hl.rulesText hc)⟩

/-- A comment may hold quotes, braces and commas; a semicolon may stand by itself, and the last may be missing. -/
theorem parse_of_layout_comment :
    Canonical [.style ["a"] [.other "b" "c"]] ∧
      SheetLayout [.style ["a"] [.other "b" "c"]] (encode "/*'\x7b,*/a \x7b;b:\tc \x7d") ∧
      parse "/*'\x7b,*/a \x7b;b:\tc \x7d" = .ok [.style ["a"] [.other "b" "c"]] := by
  have hc : Canonical [.style ["a"] [.other "b" "c"]] :=
    .style (by decide) (by decide +kernel) (by decide) (by decide +kernel) .nil
  have hcomment : Gap (encode "/*'\x7b,*/") := Gap.comment (show CommentText (encode "'\x7b,") by decide) .nil
  have htab : Gap [0x09] := .space (by decide) .nil
  have hblank {s : String} (hs : ∀ b ∈ (encode (s ++ " ")).head?, isSpace b = false) : Padded s ("" ++ s ++ " ") :=
    .mk blank_empty (by decide) (by simpa using hs)
  have hvalue : DeclarationLayout (.other "b" "c") (encode "b" ++ colon :: ([0x09] ++ encode ("" ++ "c" ++ " "))) :=
    .mk .other (Padded.self (by decide)) htab (hblank (by decide))
  have hblock := BlockLayout.semicolon .nil (BlockLayout.last .nil hvalue)
  have hl := SheetLayout.style hcomment (.last (hblank (s := "a") (by decide))) hblock (.nil .nil)
  exact ⟨hc, hl, (parse_of_layout hc).2 _ hl⟩

end StyleScope.Sheet
