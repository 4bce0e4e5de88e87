/-
A scoped sheet means what scoping meant: what is printed of it is read as the scoped tree. Scoping keeps a tree
canonical, as a name under a harmless scope is the same kind of text as before, with one exception. A name such
as `1e` under a scope that begins with a digit becomes a number, and then its animation has no name any more; so
the scoped tree is read back exactly when every name is still a name.
-/
import StyleScope.Proofs.Scope.NameList
import StyleScope.Proofs.Sheet.Layout
import StyleScope.Proofs.Sheet.Soundness
import StyleScope.Scope.Basic

namespace StyleScope

open Byte Scan Text

/-! ## Lists of names -/

/-- The list of names is split into tokens. -/
def Declaration.Listed : Declaration → Prop
  | .animationName value => ∃ items, items? value = some items ∧ ∀ item ∈ items, Token comma item
  | .animation _ | .other .. => True

/-- Items set apart by top-level commas, as they are written. -/
inductive ItemsText : List String → Bytes → Prop
  | last {raw : String} : ItemsText [trim raw] (encode raw)
  | cons {raw : String} {items : List String} {y : Bytes} :
    Passes [comma] 0 (encode raw) 0 → ItemsText items y → ItemsText (trim raw :: items) (encode raw ++ comma :: y)

theorem Separate.itemsText {raws : List String} (h : Separate raws) :
    ItemsText (raws.map trim) (encode (",".intercalate raws)) := by
  induction h with
  | last =>
    rw [String.intercalate_singleton]
    exact .last
  | cons hp hr ih =>
    rw [encode_intercalate_separate hr]
    exact .cons hp ih

theorem itemsText_of_itemsOf {xs : Bytes} {items : List String} (h : itemsOf xs = .ok items) :
    ItemsText items xs := by
  obtain ⟨raws, hr, rfl, rfl⟩ := exists_separate h
  exact hr.itemsText

theorem head?_comma_ne_star (xs : Bytes) : (comma :: xs).head? ≠ some star := head?_cons_ne (by decide) xs

/-- A token is clean if what it was trimmed from is passed over. -/
theorem clean_trim {raw : String} (hp : Passes [semicolon, closeBrace] 0 (encode raw) 0)
    (ht : Token comma (trim raw)) : Clean [semicolon, closeBrace] semicolon (trim raw) := by
  obtain ⟨u, w, hu, hw, he⟩ := exists_pad raw
  rw [he, encode_append, encode_append, List.append_assoc] at hp
  have hp := hp.of_blank_append (inBlank_of_mem_encode hu)
  have hp := hp.cut rfl (inBlank_of_mem_encode hw) ht.valueText.not_endsInEscape
  exact .of_passes (trimmed_trim raw) ht.noComment hp (by decide) (by decide) (by decide)

/-- The items of a clean list are clean. -/
theorem ItemsText.clean {xs : Bytes} {items : List String} (h : ItemsText items xs)
    (hx : topLevelFrom [semicolon, closeBrace] 0 (xs ++ [semicolon]) = .ok [semicolon])
    (ht : ∀ item ∈ items, Token comma item) :
    ∀ item ∈ items, Clean [semicolon, closeBrace] semicolon item := by
  induction h with
  | last =>
    obtain ⟨d, hp, hd⟩ := passes_of_topLevelFrom_end hx
    obtain rfl := eq_zero_of_stopsAt hd (by decide)
    intro item hi
    obtain rfl := List.mem_singleton.1 hi
    exact clean_trim hp (ht _ (by simp))
  | cons hp _ ih =>
    rw [List.append_assoc, List.cons_append] at hx
    have hp := hp.restop (head?_comma_ne_star _) hx (by simp)
    rw [hp.topLevelFrom_append (head?_comma_ne_star _), topLevelFrom_byte (single_of_isPlain (by decide) _),
      if_neg (by decide)] at hx
    intro item hi
    rcases List.mem_cons.1 hi with rfl | hi
    · exact clean_trim hp (ht _ (by simp))
    · exact ih hx (fun i hi => ht i (List.mem_cons_of_mem _ hi)) item hi

theorem flush_intercalate {ss : List String} (hne : ss ≠ []) (h : ∀ s ∈ ss, s ≠ "" ∧ Flush (encode s)) :
    Flush (encode (",".intercalate ss)) := by
  cases ss with
  | nil => exact absurd rfl hne
  | cons s ss =>
    obtain ⟨hs0, hs⟩ := h s List.mem_cons_self
    cases ss with
    | nil => simpa using hs
    | cons t ss =>
      rw [Sheet.encode_intercalate_cons]
      exact hs.append (encode_ne_nil hs0) (head?_comma_ne_star _)

theorem passes_intercalate {stops : Bytes} {ss : List String} (hcomma : isOrdinary stops comma) (hne : ss ≠ [])
    (h : ∀ s ∈ ss, Passes stops 0 (encode s) 0) : Passes stops 0 (encode (",".intercalate ss)) 0 := by
  induction ss with
  | nil => exact absurd rfl hne
  | cons s ss ih =>
    have hs := h s List.mem_cons_self
    cases ss with
    | nil => simpa using hs
    | cons t ss =>
      have hrest := ih (List.cons_ne_nil t ss) fun r hr => h r (List.mem_cons_of_mem s hr)
      rw [Sheet.encode_intercalate_cons]
      exact hs.append (.ordinary hcomma hrest) (head?_comma_ne_star _)

theorem clean_intercalate_comma {ss : List String} (hne : ss ≠ [])
    (h : ∀ s ∈ ss, s ≠ "" ∧ Clean [semicolon, closeBrace] semicolon s) :
    Clean [semicolon, closeBrace] semicolon (",".intercalate ss) := by
  have htrim : Trimmed (",".intercalate ss) := .intercalate (fun s hs => ⟨(h s hs).2.trimmed, (h s hs).1⟩) hne
  have hflush := flush_intercalate hne fun s hs => ⟨(h s hs).1, (h s hs).2.flush⟩
  have hpass : Passes [semicolon, closeBrace] 0 (encode (",".intercalate ss)) 0 :=
    passes_intercalate (by decide) hne fun s hs => (h s hs).2.passes_zero (by decide)
  exact .of_passes htrim (not_beginsWithComment_of_flush hflush) hpass (by decide) (by decide) (by decide)

/-- **A list of names is clean under the scope**, whether it is renamed item by item or as a whole. -/
theorem clean_renameEach {scope value : String} (hs : Harmless scope)
    (hv : Clean [semicolon, closeBrace] semicolon value) (hl : (Declaration.animationName value).Listed) :
    Clean [semicolon, closeBrace] semicolon (renameEach scope value) := by
  obtain ⟨items, hitems, ht⟩ := hl
  have htext : ItemsText items (encode value) := itemsText_of_itemsOf (items?_eq_some_iff.1 hitems)
  have hclean := htext.clean hv.stop ht
  have hrename (item : String) (hi : item ∈ items) :
      Clean [semicolon, closeBrace] semicolon (rename scope item) :=
    (hclean item hi).rename (ht item hi) hs (by decide) (by decide) (by decide) (by decide) (by decide)
  unfold renameEach
  rw [hitems]
  split
  · next first second more he =>
    cases he
    refine clean_intercalate_comma (by simp) fun s hm => ?_
    obtain ⟨item, hi, rfl⟩ := List.mem_map.1 hm
    exact ⟨rename_ne_empty scope item, hrename item hi⟩
  · next hfew =>
    -- a list of one name is that name
    generalize hx : encode value = xs at htext
    cases htext with
    | @last raw =>
      obtain rfl := encode_inj hx
      rw [hv.trimmed] at hrename
      exact hrename value (by simp)
    | cons _ hy => cases hy <;> exact (hfew _ _ _ rfl).elim

/-! ## Scoping keeps a tree canonical -/

theorem encode_selector (scope : Scope) (s : String) :
    encode (scope.selector s) =
      openBracket :: (encode (scope.options.attributePrefix ++ scope.name) ++ closeBracket :: 0x20 :: encode s) := by
  simp only [Scope.selector, encode_append, List.append_assoc]
  rfl

theorem clean_selector {scope : Scope} {s : String} (hs : Harmless scope.name)
    (hp : Harmless scope.options.attributePrefix) (hne : s ≠ "")
    (h : Clean [comma, openBrace, closeBrace] comma s) :
    Clean [comma, openBrace, closeBrace] comma (scope.selector s) := by
  have he := encode_selector scope s
  have htrim : Trimmed (scope.selector s) := by
    have : scope.selector s = "[" ++ (scope.options.attributePrefix ++ scope.name ++ "] ") ++ s := by
      simp only [Scope.selector, String.append_assoc]
    rw [this]
    exact Trimmed.append (by decide) h.trimmed (by decide) hne _
  have hflush : Flush (encode (scope.selector s)) := he ▸ .cons (by decide) (by decide)
  have hpass : Passes [comma, openBrace, closeBrace] 0 (encode (scope.selector s)) 0 := by
    rw [he]
    refine .byte (single_of_isPlain (by decide) _) (by decide) ?_
    refine .ordinary_append ((hp.append hs).isOrdinary (by decide)) ?_
    refine .byte (single_of_isPlain (by decide) _) (by decide) ?_
    exact .ordinary (by decide) (h.passes_zero (by decide))
  exact .of_passes htrim (not_beginsWithComment_of_flush hflush) hpass (by decide) (by decide) (by decide)

/-- The texts of an animation under a scope are its texts, and the name under the scope. -/
theorem mem_texts_animation {scope : Scope} {a : Animation} {text : String}
    (h : text ∈ (scope.animation a).texts) : text ∈ a.texts ∨ text = rename scope.name a.name := by
  obtain ⟨slot, hslot⟩ := Animation.mem_texts.1 h
  by_cases hs : slot = .name
  · subst hs
    rw [Animation.get?_name, Scope.animation, Animation.name_withName] at hslot
    exact .inr (Option.some.inj hslot).symm
  · rw [Scope.animation, Animation.get?_withName_of_ne _ _ hs] at hslot
    exact .inl (Animation.mem_texts.2 ⟨slot, hslot⟩)

theorem fits_animation {scope : Scope} {a : Animation} (h : a.Fits)
    (hn : Animation.Slot.name.accepts (rename scope.name a.name)) : (scope.animation a).Fits := by
  intro slot text ht
  by_cases hs : slot = .name
  · subst hs
    rw [Animation.get?_name, Scope.animation, Animation.name_withName] at ht
    cases ht
    exact hn
  · rw [Scope.animation, Animation.get?_withName_of_ne _ _ hs] at ht
    exact h slot text ht

theorem canonical_declaration {scope : Scope} {d : Declaration} (h : d.Canonical) (hl : d.Listed)
    (hs : Harmless scope.name)
    (hn : ∀ a ∈ d.animations, Animation.Slot.name.accepts (rename scope.name a.name)) :
    (scope.declaration d).Canonical := by
  cases d with
  | other property value => exact h
  | animationName value => exact clean_renameEach hs h hl
  | animation animations =>
    obtain ⟨hne, hall⟩ := h
    refine ⟨by simpa using hne, fun b hb => ?_⟩
    obtain ⟨a, ha, rfl⟩ := List.mem_map.1 hb
    obtain ⟨hfit, htexts⟩ := hall a ha
    refine ⟨fits_animation hfit (hn a ha), fun text ht => ?_⟩
    rcases mem_texts_animation ht with ht | rfl
    · exact htexts text ht
    · obtain ⟨hc, htok⟩ := htexts a.name (Animation.mem_texts.2 ⟨.name, a.get?_name⟩)
      exact ⟨hc.rename htok hs (by decide) (by decide) (by decide) (by decide) (by decide),
        htok.rename hs (by decide) (by decide) (by decide)⟩

/-- **Scoping keeps a tree canonical**, if it leaves every name of an animation a name. -/
theorem canonical_sheet {scope : Scope} {rules : Sheet} (h : Sheet.Canonical rules)
    (hl : ∀ d ∈ Sheet.allDeclarations rules, d.Listed) (hs : Harmless scope.name)
    (hp : Harmless scope.options.attributePrefix)
    (hn : ∀ a ∈ Sheet.animations rules, Animation.Slot.name.accepts (rename scope.name a.name)) :
    Sheet.Canonical (scope.sheet rules) := by
  induction h with
  | nil => exact .nil
  | @style ss ds rules hne hclean hat hds _ ih =>
    simp only [Sheet.allDeclarations, Rule.allDeclarations, Sheet.animations, List.flatMap_append,
      List.mem_append] at hl hn ih
    refine .style (by simpa using hne) ?_ ?_ ?_ (ih (fun d hd => hl d (.inr hd)) fun a ha => hn a (.inr ha))
    · intro s hs'
      obtain ⟨r, hr, rfl⟩ := List.mem_map.1 hs'
      obtain ⟨hr0, hrc⟩ := hclean r hr
      exact ⟨by simp [Scope.selector], clean_selector hs hp hr0 hrc⟩
    · intro s hs'
      rw [List.head?_map, Option.mem_def, Option.map_eq_some_iff] at hs'
      obtain ⟨r, -, rfl⟩ := hs'
      rw [encode_selector]
      exact head?_cons_ne (by decide) _
    · intro d hd
      obtain ⟨e, he, rfl⟩ := List.mem_map.1 hd
      exact canonical_declaration (hds e he) (hl e (.inl he)) hs fun a ha =>
        hn a (.inl (List.mem_flatMap.2 ⟨e, he, ha⟩))
  | keyframes ht hb _ ih =>
    simp only [Sheet.allDeclarations, Rule.allDeclarations, Sheet.animations, List.nil_append] at hl hn ih
    exact .keyframes (ht.rename hs (by decide) (by decide) (by decide)) hb (ih hl hn)
  | conditional hb hf _ _ ihi ih =>
    simp only [Sheet.allDeclarations, Rule.allDeclarations, Sheet.animations, List.flatMap_append,
      List.mem_append] at hl hn ihi ih
    exact .conditional hb hf (ihi (fun d hd => hl d (.inl hd)) fun a ha => hn a (.inl ha))
      (ih (fun d hd => hl d (.inr hd)) fun a ha => hn a (.inr ha))

/-! ## What was read fits -/

namespace Sheet

theorem fits_of_declarationsText {ds : List Declaration} {x : Bytes} (h : DeclarationsText ds x) :
    ∀ d ∈ ds, ∀ a ∈ d.animations, a.Fits := by
  have hdecl {d : Declaration} {y : Bytes} {depth : Nat} (hd : DeclarationText d y depth) :
      ∀ a ∈ d.animations, a.Fits := by
    obtain ⟨-, -, -, -, ho⟩ := hd
    intro a ha
    unfold Declaration.ofProperty at ho
    split at ho
    · cases hv : Animation.ofValue _ with
      | error e => rw [hv] at ho; cases ho
      | ok as => rw [hv] at ho; cases ho; exact Animation.fits_of_ofValue hv ha
    · split at ho <;> cases ho <;> cases ha
  induction h with
  | nil => nofun
  | semicolon _ _ ih => exact ih
  | cons _ hd _ ih =>
    intro e he
    rcases List.mem_cons.1 he with rfl | he
    · exact hdecl hd
    · exact ih e he
  | last _ hd =>
    intro e he
    obtain rfl := List.mem_singleton.1 he
    exact hdecl hd

/-- **Every animation of a sheet that was read has each value in a slot that accepts it.** -/
theorem RulesText.fits {rules : Sheet} {x : Bytes} (h : RulesText rules x) : ∀ a ∈ animations rules, a.Fits := by
  induction h with
  | nil => nofun
  | item _ hi _ ih =>
    cases hi with
    | style _ _ hd =>
      simp only [animations, allDeclarations, Rule.allDeclarations, List.flatMap_append, List.mem_append] at ih ⊢
      intro a h
      rcases h with ha | ha
      · obtain ⟨d, hm, ha⟩ := List.mem_flatMap.1 ha
        exact fits_of_declarationsText hd d hm a ha
      · exact ih a ha
    | keyframes => exact ih
  | conditional _ _ _ _ ihi ih =>
    simp only [animations, allDeclarations, Rule.allDeclarations, List.flatMap_append, List.mem_append] at ihi ih ⊢
    intro a h
    rcases h with ha | ha
    · exact ihi a ha
    · exact ih a ha

theorem fits_of_parse {text : String} {rules : Sheet} (h : parse text = .ok rules) :
    ∀ a ∈ animations rules, a.Fits := by
  obtain ⟨x, c, -, hx, -⟩ := parse_eq_ok_iff.1 h
  exact hx.fits

end Sheet

/-! ## Reading a scoped sheet -/

mutual

theorem Scope.allDeclarations_rule (scope : Scope) :
    (rule : Rule) → (scope.rule rule).allDeclarations = rule.allDeclarations.map scope.declaration
  | .style .. => rfl
  | .keyframes .. => rfl
  | .conditional _ _ rules => scope.allDeclarations_sheet rules

theorem Scope.allDeclarations_sheet (scope : Scope) :
    (rules : List Rule) →
      Sheet.allDeclarations (scope.sheet rules) = (Sheet.allDeclarations rules).map scope.declaration
  | [] => rfl
  | rule :: rules => by
    simp only [Scope.sheet, Sheet.allDeclarations, scope.allDeclarations_rule rule,
      scope.allDeclarations_sheet rules, List.map_append]

end

theorem Scope.animation_mem {scope : Scope} {rules : Sheet} {a : Animation} (h : a ∈ Sheet.animations rules) :
    scope.animation a ∈ Sheet.animations (scope.sheet rules) := by
  obtain ⟨d, hd, ha⟩ := List.mem_flatMap.1 h
  rw [Sheet.animations, scope.allDeclarations_sheet]
  refine List.mem_flatMap.2 ⟨scope.declaration d, List.mem_map_of_mem hd, ?_⟩
  cases d with
  | other | animationName => cases ha
  | animation as => exact List.mem_map_of_mem ha

/-- **Scoped output means what scoping meant.** A canonical tree whose lists of names are lists of tokens, scoped
with a name and an attribute prefix free of blanks and delimiters, is read back from what is printed exactly when
every name of an animation is still a name; and so it is whenever the scope does not begin with a digit. -/
theorem parse_print_sheet {scope : Scope} {rules : Sheet} (h : Sheet.Canonical rules)
    (hl : ∀ d ∈ Sheet.allDeclarations rules, d.Listed) (hs : Harmless scope.name)
    (hp : Harmless scope.options.attributePrefix) :
    (Sheet.parse (Sheet.print (scope.sheet rules)) = .ok (scope.sheet rules) ↔
        ∀ a ∈ Sheet.animations rules, Animation.Slot.name.accepts (rename scope.name a.name)) ∧
      ((∀ c ∈ scope.name.toList.head?, isDecimalDigit c = false) →
        Sheet.parse (Sheet.print (scope.sheet rules)) = .ok (scope.sheet rules)) := by
  have hread (hn : ∀ a ∈ Sheet.animations rules, Animation.Slot.name.accepts (rename scope.name a.name)) :
      Sheet.parse (Sheet.print (scope.sheet rules)) = .ok (scope.sheet rules) := by
    obtain ⟨hprint, hall⟩ := Sheet.parse_of_layout (canonical_sheet h hl hs hp hn)
    exact hall _ hprint
  refine ⟨⟨fun hparse a ha => ?_, hread⟩, fun hd => hread fun a ha => ?_⟩
  · have hfit := Sheet.fits_of_parse hparse _ (Scope.animation_mem ha)
    have hname : (scope.animation a).get? .name = some (rename scope.name a.name) := by
      rw [Animation.get?_name, Scope.animation, Animation.name_withName]
    exact hfit .name _ hname
  · have htok := h.token ha a.name (Animation.mem_texts.2 ⟨.name, a.get?_name⟩)
    exact isKeyframesName_rename htok.ne_empty hs hd

/-- Keyframes are found under the scope wherever they are named. -/
theorem parse_print_sheet_fade :
    Sheet.Canonical [.keyframes "fade" "\x7b\x7d", .style ["a"] [.animationName "fade, b", .animation [.two "1s" "fade"]]] ∧
      Harmless "s" ∧ Harmless Options.standard.attributePrefix ∧
      Sheet.parse (Sheet.print ((Scope.mk "s" Options.standard).sheet
        [.keyframes "fade" "\x7b\x7d", .style ["a"] [.animationName "fade, b", .animation [.two "1s" "fade"]]])) =
      .ok [.keyframes "fade-s" "\x7b\x7d",
        .style ["[data-s] a"] [.animationName "fade-s,b-s", .animation [.two "1s" "fade-s"]]] := by
  have hc : Sheet.Canonical
      [.keyframes "fade" "\x7b\x7d", .style ["a"] [.animationName "fade, b", .animation [.two "1s" "fade"]]] :=
    .keyframes (by decide +kernel) (by decide +kernel)
      (.style (by decide) (by decide +kernel) (by decide) (by decide +kernel) .nil)
  have hl : ∀ d ∈ [Declaration.animationName "fade, b", .animation [.two "1s" "fade"]], d.Listed := by
    intro d hd
    rcases List.mem_cons.1 hd with rfl | hd
    · exact ⟨["fade", "b"], by decide +kernel, by decide +kernel⟩
    · obtain rfl := List.mem_singleton.1 hd
      trivial
  have hs : Harmless "s" := by decide
  have hp : Harmless Options.standard.attributePrefix := by decide
  have hsheet : (Scope.mk "s" Options.standard).sheet
      [.keyframes "fade" "\x7b\x7d", .style ["a"] [.animationName "fade, b", .animation [.two "1s" "fade"]]] =
      [.keyframes "fade-s" "\x7b\x7d",
        .style ["[data-s] a"] [.animationName "fade-s,b-s", .animation [.two "1s" "fade-s"]]] := by decide +kernel
  obtain ⟨-, hread⟩ := @parse_print_sheet ⟨"s", Options.standard⟩ _ hc hl hs hp
  exact ⟨hc, hs, hp, (hread (by decide +kernel)).trans (congrArg Except.ok hsheet)⟩

/-- Under a scope that begins with a digit a name may become a number, and a delimiter in a scope is read as one. -/
theorem parse_print_sheet_number :
    (Sheet.Canonical [.style ["a"] [.animation [.two "1s" "1e"]]] ∧
      (Scope.mk "5" Options.standard).sheet [.style ["a"] [.animation [.two "1s" "1e"]]] =
        [.style ["[data-5] a"] [.animation [.two "1s" "1e-5"]]] ∧
      Sheet.parse (Sheet.print [.style ["[data-5] a"] [.animation [.two "1s" "1e-5"]]]) ≠
        .ok [.style ["[data-5] a"] [.animation [.two "1s" "1e-5"]]]) ∧
    (Sheet.Canonical [.style ["a"] []] ∧
      Sheet.parse (Sheet.print ((Scope.mk "\x7d" Options.standard).sheet [.style ["a"] []])) ≠
        .ok ((Scope.mk "\x7d" Options.standard).sheet [.style ["a"] []])) :=
  ⟨⟨.style (by decide) (by decide +kernel) (by decide) (by decide +kernel) .nil, by decide +kernel, by decide +kernel⟩,
    .style (by decide) (by decide +kernel) (by decide) (by decide) .nil, by decide +kernel⟩

end StyleScope
