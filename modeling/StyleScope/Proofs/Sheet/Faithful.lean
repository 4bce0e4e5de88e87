/-
When a printed tree is read back. Reading trims a text only after it has found where the text ends, and so an
escaped blank at the end of a selector is cut in two; a comment that stood after a blank moves to where a gap is
skipped; a value that a closing brace ended may have groups open, and then a semicolon does not end it. Such a
tree prints to a text that is read differently or not at all. `Faithful` rules out just these: it looks at each
text with the delimiter that is printed after it, one by one. A tree that was read is faithful exactly when what
is printed of it is read as the same tree (`parse_print_iff`).
-/
import StyleScope.Proofs.Sheet.Soundness
import StyleScope.Proofs.Sheet.Weight

namespace StyleScope

open Byte Scan Text

/-! ## Faithful trees -/

/-- The declaration is read back where its property and its value stand before their delimiters. -/
structure Declaration.Faithful (d : Declaration) : Prop where
  property : ¬ BeginsWithComment d.property
  value : ¬ BeginsWithComment d.value
  stop : topLevel [semicolon, closeBrace] (encode d.value ++ [semicolon]) = .ok [semicolon]
  kept : Declaration.ofProperty d.property (trim d.value) = .ok d

instance (d : Declaration) : Decidable d.Faithful :=
  decidable_of_iff
    (¬ BeginsWithComment d.property ∧ ¬ BeginsWithComment d.value ∧
      topLevel [semicolon, closeBrace] (encode d.value ++ [semicolon]) = .ok [semicolon] ∧
      Declaration.ofProperty d.property (trim d.value) = .ok d)
    ⟨fun ⟨h, h', h'', h'''⟩ => ⟨h, h', h'', h'''⟩, fun ⟨h, h', h'', h'''⟩ => ⟨h, h', h'', h'''⟩⟩

namespace Sheet

/-- Each selector is clean before what is printed after it: a comma, or the brace after the last. The first does
not begin as an at-rule does. -/
structure FaithfulSelectors (ss : List String) : Prop where
  first : ∀ s ∈ ss.head?, (encode s).head? ≠ some atSign
  inner : ∀ s ∈ ss.dropLast, Clean [comma, openBrace, closeBrace] comma s
  last : ∀ s ∈ ss.getLast?, Clean [comma, openBrace, closeBrace] openBrace s

instance (ss : List String) : Decidable (FaithfulSelectors ss) :=
  decidable_of_iff
    ((∀ s ∈ ss.head?, (encode s).head? ≠ some atSign) ∧
      (∀ s ∈ ss.dropLast, Clean [comma, openBrace, closeBrace] comma s) ∧
      ∀ s ∈ ss.getLast?, Clean [comma, openBrace, closeBrace] openBrace s)
    ⟨fun ⟨h, h', h''⟩ => ⟨h, h', h''⟩, fun ⟨h, h', h''⟩ => ⟨h, h', h''⟩⟩

end Sheet

mutual

/-- The texts of the rule are read back. Keyframes and conditions always are. -/
def Rule.Faithful : Rule → Prop
  | .style selectors declarations => Sheet.FaithfulSelectors selectors ∧ ∀ d ∈ declarations, d.Faithful
  | .keyframes .. => True
  | .conditional _ _ rules => Sheet.Faithful rules

/-- The texts of all rules are read back. -/
def Sheet.Faithful : List Rule → Prop
  | [] => True
  | rule :: rules => rule.Faithful ∧ Sheet.Faithful rules

end

mutual

/-- Whether a rule is read back can be computed. -/
def Rule.decFaithful : (rule : Rule) → Decidable rule.Faithful
  | .style selectors declarations =>
    inferInstanceAs (Decidable (Sheet.FaithfulSelectors selectors ∧ ∀ d ∈ declarations, d.Faithful))
  | .keyframes .. => inferInstanceAs (Decidable True)
  | .conditional _ _ rules => Sheet.decFaithful rules

/-- Whether rules are read back can be computed. -/
def Sheet.decFaithful : (rules : List Rule) → Decidable (Sheet.Faithful rules)
  | [] => inferInstanceAs (Decidable True)
  | rule :: rules =>
    have := rule.decFaithful
    have := Sheet.decFaithful rules
    inferInstanceAs (Decidable (rule.Faithful ∧ Sheet.Faithful rules))

end

instance (rules : List Rule) : Decidable (Sheet.Faithful rules) := Sheet.decFaithful rules

namespace Sheet

/-! ## Single texts -/

theorem pieceText_of_clean {stops : Bytes} {delimiter : UInt8} {s : String} (h : Clean stops delimiter s) :
    ∃ d, PieceText stops s (encode s) d ∧ stopsAt stops d delimiter := by
  obtain ⟨d, hp, hs⟩ := h.passes
  exact ⟨d, .mk h.trimmed h.flush hp, hs⟩

theorem DeclarationsText.kept {ds : List Declaration} {x : Bytes} (h : DeclarationsText ds x) :
    ∀ d ∈ ds, Kept d := by
  induction h with
  | nil => nofun
  | semicolon _ _ ih => exact ih
  | cons _ hd _ ih =>
    intro e he
    rcases List.mem_cons.1 he with rfl | he
    · exact hd.kept
    · exact ih e he
  | last _ hd =>
    intro e he
    obtain rfl := List.mem_singleton.1 he
    exact hd.kept

/-! ## Faithful trees are read back -/

theorem selectorsText_intercalate {ss : List String} (hne : ss ≠ [])
    (hi : ∀ s ∈ ss.dropLast, Clean [comma, openBrace, closeBrace] comma s)
    (hl : ∀ s ∈ ss.getLast?, Clean [comma, openBrace, closeBrace] openBrace s) :
    SelectorsText ss (encode (",".intercalate ss)) := by
  induction ss with
  | nil => exact absurd rfl hne
  | cons s ss ih =>
    cases ss with
    | nil =>
      obtain ⟨d, hp, -⟩ := pieceText_of_clean (hl s rfl)
      exact .last hp
    | cons t ss =>
      obtain ⟨d, hp, hs⟩ := pieceText_of_clean (hi s (by simp))
      obtain rfl := eq_zero_of_stopsAt hs (by decide)
      have hrest := ih (List.cons_ne_nil t ss) (fun r hr => hi r (by simp [hr])) fun r hr => hl r (by simpa using hr)
      rw [encode_intercalate_cons]
      exact SelectorsText.cons (g := []) hp .nil hrest

theorem declarationText_of_faithful {d : Declaration} (h : d.Faithful) (hk : Kept d) :
    DeclarationText d d.bytes 0 := by
  obtain ⟨depth, hp, hs⟩ := passes_of_topLevelFrom_end h.stop
  obtain rfl := eq_zero_of_stopsAt hs (by decide)
  have hflush : Flush (encode d.value) := flush_of_head hk.unspaced h.value
  have hof : Declaration.ofProperty (trim d.property) (trim d.value) = .ok d := by
    rw [hk.trimmed]
    exact h.kept
  exact DeclarationText.mk (g := []) (flush_encode hk.trimmed h.property) hk.inside .nil (.mk rfl hflush hp) hof

theorem declarationsText_join {ds : List Declaration} (hk : ∀ d ∈ ds, Kept d) (h : ∀ d ∈ ds, d.Faithful) :
    DeclarationsText ds (encode (String.join (ds.map Declaration.print)) ++ [closeBrace]) := by
  induction ds with
  | nil => exact DeclarationsText.nil (g := []) .nil
  | cons d ds ih =>
    have hd := declarationText_of_faithful (h d List.mem_cons_self) (hk d List.mem_cons_self)
    have hrest := ih (fun e he => hk e (List.mem_cons_of_mem d he)) fun e he => h e (List.mem_cons_of_mem d he)
    have := DeclarationsText.cons .nil hd hrest
    rw [encode_join_cons, List.append_assoc, List.cons_append]
    exact this

theorem endsKeyword_space (rest : Bytes) : EndsKeyword ([0x20] ++ rest) := ⟨0x20, rfl, by decide⟩

/-- **What is printed of a faithful tree that was read is a text for the same tree.** -/
theorem RulesText.reprint {rules : List Rule} {x : Bytes} (h : RulesText rules x) (hf : Faithful rules) :
    RulesText rules (encode (print rules)) := by
  have hspace : Gap [0x20] := .space (by decide) .nil
  have hline : Gap [0x0A] := .space (by decide) .nil
  induction h with
  | nil => exact .nil .nil
  | item hg hi _ ih =>
    obtain ⟨hrule, hrules⟩ := hf
    have hrest := (ih hrules).gap hline
    cases hi with
    | @style ss ds x y hs hat hd =>
      obtain ⟨⟨hfirst, hinner, hlast⟩, hds⟩ := hrule
      have hne : ss ≠ [] := by
        rintro rfl
        cases hs
      have hss := selectorsText_intercalate hne hinner hlast
      have hhead : (encode (",".intercalate ss)).head? ≠ some atSign := by
        obtain ⟨s, ss, rfl⟩ := List.exists_cons_of_ne_nil hne
        exact fun hb => hfirst s rfl ((head?_intercalate (by decide) ss).1 hb)
      rw [encode_print_style]
      exact RulesText.item (g := []) .nil (.style hss hhead (declarationsText_join hd.kept hds)) hrest
    | @keyframes name body g j k _ _ hn hv _ _ _ hb _ =>
      have hend : EndsValue [openBrace] ([] ++ ([] ++ encode body)) := by
        obtain ⟨inside, he, -⟩ := hb
        intro b hb
        rw [he] at hb
        cases hb
        rfl
      have hitem := ItemText.keyframes hspace (endsKeyword_space _) hn hv .nil flush_nil .nil hb (.inr hend)
      rw [encode_print_keyframes]
      exact RulesText.item (g := []) .nil hitem hrest
  | @conditional kind condition inner rules g x y z hg hc _ _ ihi ih =>
    obtain ⟨hinner, hrules⟩ := hf
    have hrest := (ih hrules).gap hline
    have hi := (ihi hinner).gap hline
    obtain ⟨-, -, hfl, hb⟩ := hc
    rw [encode_print_conditional]
    exact RulesText.conditional (g := []) .nil (.mk hspace (endsKeyword_space _) hfl hb) hi hrest

end Sheet

end StyleScope
