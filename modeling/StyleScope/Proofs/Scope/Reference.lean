/-
Whether a reference to keyframes still resolves under a scope. A string and an identifier may denote the same
keyframes, but scoping puts a space before the scope in the one and a hyphen in the other. So what denoted the same
still does exactly when both names are strings or both are identifiers, and the scope may stand in them. Where a name
stands makes no difference: every name of a sheet is renamed alike (`Scope.relabelled`).
-/
import StyleScope.Proofs.Scope.Effect
import StyleScope.Proofs.Scope.Name
import StyleScope.Proofs.Text.Identifier

namespace StyleScope

open Text

/-! ## What a name denotes -/

/-- The name is a string without escapes, in these quotes. -/
def IsString (q : Char) (name content : String) : Prop :=
  name = q.toString ++ content ++ q.toString ∧ q ∉ content.toList ∧ '\\' ∉ content.toList

instance (q : Char) (name content : String) : Decidable (IsString q name content) :=
  inferInstanceAs (Decidable (_ ∧ _))

/-- The keyframes that a name without escapes denotes: an identifier denotes itself, a string what it holds. -/
inductive Denotes (name keyframes : String) : Prop
  | identifier : Identifier name → keyframes = name → Denotes name keyframes
  | string {q : Char} : (q = '\'' ∨ q = '"') → IsString q name keyframes → Denotes name keyframes

theorem denotes_iff {name keyframes : String} : Denotes name keyframes ↔
    (Identifier name ∧ keyframes = name) ∨ ∃ q, (q = '\'' ∨ q = '"') ∧ IsString q name keyframes := by
  constructor
  · rintro (⟨h, he⟩ | ⟨hq, h⟩)
    · exact .inl ⟨h, he⟩
    · exact .inr ⟨_, hq, h⟩
  · rintro (⟨h, he⟩ | ⟨q, hq, h⟩)
    · exact .identifier h he
    · exact .string hq h

instance (name keyframes : String) : Decidable (Denotes name keyframes) :=
  decidable_of_iff
    ((Identifier name ∧ keyframes = name) ∨ IsString '\'' name keyframes ∨ IsString '"' name keyframes)
    (by simp [denotes_iff])

/-- Both names denote the same keyframes. -/
def SameKeyframes (a b : String) : Prop := ∃ name, Denotes a name ∧ Denotes b name

/-- The quotes of a name, if it has any. -/
def quote? (name : String) : Option Char := (quotedContent? name).map (·.1)

/-- The scope may stand in a name with these quotes, or in an identifier. -/
def FitsIn (scope : String) : Option Char → Prop
  | none => ∀ c ∈ scope.toList, isNameChar c
  | some q => q ∉ scope.toList ∧ '\\' ∉ scope.toList

instance (scope : String) : (quote : Option Char) → Decidable (FitsIn scope quote)
  | none => decidable_of_iff (scope.toList.all isNameChar) List.all_eq_true
  | some _ => inferInstanceAs (Decidable (_ ∧ _))

/-- What stands between a name with these quotes and the scope. -/
def separator : Option Char → String
  | none => "-"
  | some _ => " "

theorem not_isNameChar_quote {q : Char} (hq : q = '\'' ∨ q = '"') : ¬ isNameChar q := by
  rcases hq with rfl | rfl <;> decide

theorem quotedContent?_of_identifier {name : String} (h : Identifier name) : quotedContent? name = none := by
  cases hc : quotedContent? name with
  | none => rfl
  | some p =>
    obtain ⟨hq, rfl⟩ := of_quotedContent? hc
    exact absurd (h.inside p.1 (by simp)) (not_isNameChar_quote hq)

/-- No identifier begins with a quote. -/
theorem not_identifier_quoted {q : Char} (hq : q = '\'' ∨ q = '"') (content : String) :
    ¬ Identifier (q.toString ++ content ++ q.toString) :=
  fun h => not_isNameChar_quote hq (h.inside q (by simp))

/-! ## What a name denotes under a scope -/

variable {scope a b name other : String}

theorem denotes_rename_identifier_iff (h : Identifier a) :
    Denotes (rename scope a) other ↔ FitsIn scope none ∧ other = a ++ "-" ++ scope := by
  have hhyphen : Identifier (a ++ "-") := h.append_iff.2 (by decide)
  rw [rename_of_none (quotedContent?_of_identifier h), ← String.append_assoc, denotes_iff, hhyphen.append_iff]
  constructor
  · rintro (hid | ⟨q, hq, he, -⟩)
    · exact hid
    · -- the name begins as the identifier does, so with no quote
      obtain ⟨c, cs, hc⟩ := List.exists_cons_of_ne_nil h.toList_ne_nil
      have hl := congrArg String.toList he
      simp only [String.toList_append, hc, List.cons_append, Char.toString, String.toList_singleton,
        List.cons.injEq] at hl
      exact absurd (h.inside q (by simp [hc, hl.1])) (not_isNameChar_quote hq)
  · exact .inl

theorem denotes_rename_quoted_iff {q : Char} (hq : q = '\'' ∨ q = '"') (hn : q ∉ name.toList)
    (hb : '\\' ∉ name.toList) : Denotes (rename scope (q.toString ++ name ++ q.toString)) other ↔
      FitsIn scope (some q) ∧ other = name ++ " " ++ scope := by
  have hspace : q ≠ ' ' := by rcases hq with rfl | rfl <;> decide
  rw [rename_quoted hq, denotes_iff]
  constructor
  · rintro (⟨hid, -⟩ | ⟨r, -, he, hn', hb'⟩)
    · exact absurd hid (not_identifier_quoted hq _)
    · obtain ⟨rfl, rfl⟩ := eq_of_quoted he
      simp only [String.toList_append, List.mem_append, not_or] at hn' hb'
      exact ⟨⟨hn'.2, hb'.2⟩, rfl⟩
  · rintro ⟨⟨hq', hb'⟩, rfl⟩
    exact .inr ⟨q, hq, rfl, by simp [hn, hq', hspace], by simp [hb, hb']⟩

/-- **What a name denotes under a scope**: what it denoted, with the scope behind it; nothing, if the scope does not
fit in. -/
theorem denotes_rename_iff (h : Denotes a name) :
    Denotes (rename scope a) other ↔ FitsIn scope (quote? a) ∧ other = name ++ separator (quote? a) ++ scope := by
  cases h with
  | identifier h he =>
    rw [quote?, quotedContent?_of_identifier h, he]
    exact denotes_rename_identifier_iff h
  | string hq h =>
    obtain ⟨rfl, hn, hb⟩ := h
    rw [quote?, quotedContent?_quoted hq]
    exact denotes_rename_quoted_iff hq hn hb

/-! ## Where names stand -/

/-- The names of keyframes that a label holds. -/
def Label.names : Label → List String
  | .selector _ => []
  | .keyframes name | .animation name => [name]
  | .nameList value =>
    match items? value with
    | some (first :: second :: more) => first :: second :: more
    | _ => [value]

/-- The label inside the scope: a selector in its place, and every name renamed. -/
def Scope.relabelled (scope : Scope) : Label → Label
  | .selector text => .selector (scope.selector text)
  | label => label.withText (",".intercalate (label.names.map (rename scope.name)))

theorem Scope.relabelled_eq (scope : Scope) (label : Label) :
    scope.relabelled label = label.withText (scope.text label) := by
  cases label with
  | selector | keyframes | animation => simp [relabelled, Label.names, text, Label.withText]
  | nameList value =>
    simp only [relabelled, Label.names, text, renameEach]
    rcases items? value with _ | _ | ⟨first, _ | ⟨second, more⟩⟩
    · simp
    · simp
    · simp
    · rfl

theorem separator_inj {p q : Option Char} : separator p = separator q ↔ p.isSome = q.isSome := by
  cases p <;> cases q <;> simp [separator]

theorem append_separator_inj {p q : Option Char} :
    name ++ separator p ++ scope = name ++ separator q ++ scope ↔ p.isSome = q.isSome := by
  rw [← separator_inj, String.append_left_inj, String.append_right_inj]

/-- Two names that denote the same keyframes still do under a scope if both are strings or both are identifiers and
the scope fits in both, and only then. -/
theorem sameKeyframes_rename (h : SameKeyframes a b) : SameKeyframes (rename scope a) (rename scope b) ↔
    (quote? a).isSome = (quote? b).isSome ∧ FitsIn scope (quote? a) ∧ FitsIn scope (quote? b) := by
  obtain ⟨name, ha, hb⟩ := h
  simp only [SameKeyframes, denotes_rename_iff ha, denotes_rename_iff hb]
  constructor
  · rintro ⟨_, ⟨hfa, rfl⟩, hfb, he⟩
    exact ⟨append_separator_inj.1 he, hfa, hfb⟩
  · rintro ⟨hs, hfa, hfb⟩
    exact ⟨_, ⟨hfa, rfl⟩, hfb, append_separator_inj.2 hs⟩

/-- **When references still resolve.** Every name of a sheet is renamed, wherever it stands. Of two names that denote
the same keyframes, the renamed names denote the same keyframes exactly when both are strings or both are identifiers,
and the scope fits in both. -/
theorem sameKeyframes_rename_iff (scope : Scope) (rules : Sheet) {a b : String} (h : SameKeyframes a b) :
    Sheet.labels (scope.sheet rules) = (Sheet.labels rules).map scope.relabelled ∧
      (SameKeyframes (rename scope.name a) (rename scope.name b) ↔
        (quote? a).isSome = (quote? b).isSome ∧ FitsIn scope.name (quote? a) ∧ FitsIn scope.name (quote? b)) := by
  refine ⟨?_, sameKeyframes_rename h⟩
  rw [scope.sheet_eq_relabel, Sheet.labels_relabel]
  exact List.map_congr_left fun label _ => (scope.relabelled_eq label).symm

/-- A string in single quotes still refers to one in double quotes, under a conditional. -/
theorem sameKeyframes_rename_iff_quotes :
    SameKeyframes "'fade out'" "\"fade out\"" ∧
      Sheet.labels (Scope.sheet ⟨"s", Options.standard⟩
          [.keyframes "'fade out'" "\x7b\x7d",
            .conditional .media "" [.style ["a"] [.animationName "b,\"fade out\""]]]) =
        [.keyframes "'fade out s'", .selector "[data-s] a", .nameList "b-s,\"fade out s\""] ∧
      SameKeyframes "'fade out s'" "\"fade out s\"" := by
  have h : SameKeyframes "'fade out'" "\"fade out\"" := ⟨"fade out", by decide +kernel⟩
  have hs := sameKeyframes_rename_iff ⟨"s", Options.standard⟩
    [.keyframes "'fade out'" "\x7b\x7d", .conditional .media "" [.style ["a"] [.animationName "b,\"fade out\""]]] h
  have hr : rename "s" "'fade out'" = "'fade out s'" ∧ rename "s" "\"fade out\"" = "\"fade out s\"" := by
    decide +kernel
  refine ⟨h, ?_, ?_⟩
  · rw [hs.1]
    decide +kernel
  · rw [← hr.1, ← hr.2]
    exact hs.2.2 (by decide +kernel)

/-- References that no longer resolve: an identifier to a string, a string to one whose quote the scope holds, and an
identifier to itself under a scope that does not belong in one. -/
theorem not_sameKeyframes_rename :
    (SameKeyframes "fade" "\"fade\"" ∧ ¬ SameKeyframes (rename "s" "fade") (rename "s" "\"fade\"")) ∧
    (SameKeyframes "'fade'" "\"fade\"" ∧ ¬ SameKeyframes (rename "'" "'fade'") (rename "'" "\"fade\"")) ∧
    (SameKeyframes "fade" "fade" ∧ ¬ SameKeyframes (rename "\x7d" "fade") (rename "\x7d" "fade")) := by
  have hstring : SameKeyframes "fade" "\"fade\"" := ⟨"fade", by decide +kernel⟩
  have hquotes : SameKeyframes "'fade'" "\"fade\"" := ⟨"fade", by decide +kernel⟩
  have hbare : SameKeyframes "fade" "fade" := ⟨"fade", by decide +kernel⟩
  rw [sameKeyframes_rename hstring, sameKeyframes_rename hquotes, sameKeyframes_rename hbare]
  exact ⟨⟨hstring, by decide +kernel⟩, ⟨hquotes, by decide +kernel⟩, hbare, by decide +kernel⟩

end StyleScope
