/-
Canonical trees: trees whose texts are each read whole where they stand. Selectors and values are clean before
their delimiters, values of animations are tokens that their slots accept, bodies of keyframes are whole blocks.
These are the trees that can be written in any layout and read back (see the module on layouts). The conditions
are on single texts and can be computed; no condition is on how the texts stand together.
-/
import StyleScope.Proofs.Animation.Assignment
import StyleScope.Proofs.Scan.Clean
import StyleScope.Sheet.Reader

namespace StyleScope

open Byte Scan Text

/-- The texts of the declaration are read whole. Its property is not read as another kind of declaration. -/
def Declaration.Canonical : Declaration → Prop
  | .other property value =>
    Trimmed property ∧ ¬ BeginsWithComment property ∧
      (∀ b ∈ encode property, Sheet.endsProperty b = false) ∧
      property ≠ "animation" ∧ property ≠ "animation-name" ∧ Clean [semicolon, closeBrace] semicolon value
  | .animationName value => Clean [semicolon, closeBrace] semicolon value
  | .animation animations =>
    animations ≠ [] ∧ ∀ a ∈ animations, a.Fits ∧
      ∀ text ∈ a.texts, Clean [semicolon, closeBrace] semicolon text ∧ Token comma text

instance : (d : Declaration) → Decidable d.Canonical
  | .other property _ => inferInstanceAs (Decidable (Trimmed property ∧ _))
  | .animationName value => inferInstanceAs (Decidable (Clean _ _ value))
  | .animation animations => inferInstanceAs (Decidable (animations ≠ [] ∧ _))

/-- The animations that the declaration sets. -/
def Declaration.animations : Declaration → List Animation
  | .animation animations => animations
  | .animationName _ | .other .. => []

mutual

/-- The declarations of a rule, at every depth. -/
def Rule.allDeclarations : Rule → List Declaration
  | .style _ declarations => declarations
  | .keyframes .. => []
  | .conditional _ _ rules => Sheet.allDeclarations rules

/-- The declarations of a sheet, at every depth. -/
def Sheet.allDeclarations : List Rule → List Declaration
  | [] => []
  | rule :: rules => rule.allDeclarations ++ Sheet.allDeclarations rules

end

/-- The animations of a sheet, at every depth. -/
def Sheet.animations (rules : Sheet) : List Animation := (Sheet.allDeclarations rules).flatMap (·.animations)

namespace Sheet

/-- The texts of all rules, at every depth, are read whole. -/
inductive Canonical : List Rule → Prop
  | nil : Canonical []
  | style {ss : List String} {ds : List Declaration} {rules : List Rule} :
    ss ≠ [] → (∀ s ∈ ss, s ≠ "" ∧ Clean [comma, openBrace, closeBrace] comma s) →
      (∀ s ∈ ss.head?, (encode s).head? ≠ some atSign) → (∀ d ∈ ds, d.Canonical) → Canonical rules →
      Canonical (.style ss ds :: rules)
  | keyframes {name body : String} {rules : List Rule} :
    Token openBrace name → block (encode body) = .ok ⟨encode body, []⟩ → Canonical rules →
      Canonical (.keyframes name body :: rules)
  | conditional {kind : ConditionalKind} {condition : String} {inner rules : List Rule} :
    openBrace ∉ encode condition → Flush (encode condition) → Canonical inner → Canonical rules →
      Canonical (.conditional kind condition inner :: rules)

theorem Canonical.declaration {rules : Sheet} (h : Canonical rules) : ∀ d ∈ allDeclarations rules, d.Canonical := by
  induction h with
  | nil => nofun
  | style _ _ _ hds _ ih =>
    simp only [allDeclarations, Rule.allDeclarations, List.mem_append]
    intro d h
    rcases h with hd | hd
    · exact hds d hd
    · exact ih d hd
  | keyframes _ _ _ ih => exact ih
  | conditional _ _ _ _ ihi ih =>
    simp only [allDeclarations, Rule.allDeclarations, List.mem_append]
    intro d h
    rcases h with hd | hd
    · exact ihi d hd
    · exact ih d hd

theorem Canonical.token {rules : Sheet} (h : Canonical rules) {a : Animation} (ha : a ∈ animations rules) :
    ∀ text ∈ a.texts, Token comma text := by
  obtain ⟨d, hd, ha⟩ := List.mem_flatMap.1 ha
  have hc := h.declaration d hd
  cases d with
  | other | animationName => cases ha
  | animation as => exact fun text ht => ((hc.2 a ha).2 text ht).2

end Sheet

end StyleScope
