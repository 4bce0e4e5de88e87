/-
A sheet put into conditional rules. The rules inside are read from the same text as the rule around them, so the
reader has to stop at exactly the brace that was put there, whatever braces the sheet holds in strings, escapes,
comments or blocks. It does: a sheet that leaves no comment open is a piece of the grammar, and such a piece is
read whole whatever follows it. So scoping a sheet and putting it into conditional rules can be done in either
order, and at every depth.
-/
import StyleScope.Proofs.Sheet.Concatenation

namespace StyleScope

open Byte Scan Text

/-- A conditional rule without its rules. -/
structure Condition where
  /-- The kind of the rule. -/
  kind : ConditionalKind
  /-- The condition, as it is written. -/
  text : String
deriving Repr, DecidableEq

namespace Condition

/-- The condition can be told from what stands around it: it holds no opening brace, and it begins with neither a
space nor a comment. -/
structure Plain (c : Condition) : Prop where
  unbraced : openBrace ∉ encode c.text
  flush : Flush (encode c.text)

/-- The text of the rule, given the text of its rules. -/
def around (c : Condition) (body : String) : String :=
  c.kind.keyword ++ " " ++ c.text ++ "\x7b" ++ body ++ "\x7d"

/-- The sheet of the rule alone, given its rules. -/
def holding (c : Condition) (rules : Sheet) : Sheet := [.conditional c.kind c.text rules]

/-- What is printed of the rule alone, given what is printed of its rules. -/
def printed (c : Condition) (body : String) : String :=
  c.kind.keyword ++ " " ++ c.text ++ "\x7b\n" ++ body ++ "\x7d\n"

/-! ## One conditional rule -/

theorem encode_around (c : Condition) (body : String) :
    encode (c.around body) =
      (encode c.kind.keyword ++ ([0x20] ++ (encode c.text ++ [openBrace]))) ++ (encode body ++ [closeBrace]) := by
  have hs : encode " " = [0x20] := rfl
  have ho : encode "\x7b" = [openBrace] := rfl
  have hc : encode "\x7d" = [closeBrace] := rfl
  simp only [around, encode_append, hs, ho, hc, List.append_assoc]

theorem Plain.conditionText {c : Condition} (h : c.Plain) :
    Sheet.ConditionText c.kind c.text
      (encode c.kind.keyword ++ ([0x20] ++ (encode c.text ++ [openBrace]))) :=
  .mk (.space (by decide) .nil) ⟨0x20, rfl, by decide⟩ h.flush h.unbraced

theorem Plain.rulesText {c : Condition} {rules : Sheet} {body : String} (h : c.Plain)
    (hb : Sheet.RulesText rules (encode body)) : Sheet.RulesText (c.holding rules) (encode (c.around body)) := by
  rw [encode_around]
  exact .conditional (g := []) .nil h.conditionText hb (.nil .nil)

theorem print_holding (c : Condition) (rules : Sheet) :
    Sheet.print (c.holding rules) = c.printed (Sheet.print rules) := by
  simp only [holding, Sheet.print, Rule.print, printed, String.append_assoc, String.append_empty]
  rfl

theorem scope_holding (c : Condition) (scope : Scope) (rules : Sheet) :
    scope.sheet (c.holding rules) = c.holding (scope.sheet rules) := rfl

/-! ## Any number of them -/

theorem rulesText_foldr {conditions : List Condition} {rules : Sheet} {body : String}
    (hc : ∀ c ∈ conditions, c.Plain) (hb : Sheet.RulesText rules (encode body)) :
    Sheet.RulesText (conditions.foldr holding rules) (encode (conditions.foldr around body)) := by
  induction conditions with
  | nil => exact hb
  | cons c conditions ih =>
    exact (hc c List.mem_cons_self).rulesText (ih fun c' h => hc c' (List.mem_cons_of_mem c h))

theorem print_foldr (conditions : List Condition) (scope : Scope) (rules : Sheet) :
    Sheet.print (scope.sheet (conditions.foldr holding rules)) =
      conditions.foldr printed (Sheet.print (scope.sheet rules)) := by
  induction conditions with
  | nil => rfl
  | cons c conditions ih => rw [List.foldr_cons, scope_holding, print_holding, ih, List.foldr_cons]

end Condition

/-- **Scoping goes through conditional rules.** A sheet that is read without leaving a comment open, put into a
conditional rule, is read as that one rule with the rules of the sheet in it, and what scoping writes is the rule
with the scoped sheet in it. The same holds of any number of conditional rules put around the sheet one after the
other, the last of them innermost. -/
theorem scopeText_around {body : String} {rules : Sheet} (hb : Sheet.parse body = .ok rules)
    (hc : ¬ Sheet.EndsInComment (encode body)) (name : String) (options : Options) :
    ∃ out, scopeText name body options = .ok out ∧
      (∀ kind text, openBrace ∉ encode text → Flush (encode text) →
        Sheet.parse (kind.keyword ++ " " ++ text ++ "\x7b" ++ body ++ "\x7d") = .ok [.conditional kind text rules] ∧
          scopeText name (kind.keyword ++ " " ++ text ++ "\x7b" ++ body ++ "\x7d") options =
            .ok (kind.keyword ++ " " ++ text ++ "\x7b\n" ++ out ++ "\x7d\n")) ∧
      ∀ conditions : List Condition, (∀ c ∈ conditions, c.Plain) →
        Sheet.parse (conditions.foldr Condition.around body) = .ok (conditions.foldr Condition.holding rules) ∧
          scopeText name (conditions.foldr Condition.around body) options =
            .ok (conditions.foldr Condition.printed out) := by
  have hread : Sheet.read (encode body) = .ok rules := Sheet.read_eq_ok_iff.2 (Sheet.parse_eq_ok_iff.1 hb)
  have hrules : Sheet.RulesText rules (encode body) := Sheet.rulesText_of_read hread hc
  have hall (conditions : List Condition) (hplain : ∀ c ∈ conditions, c.Plain) :
      Sheet.parse (conditions.foldr Condition.around body) = .ok (conditions.foldr Condition.holding rules) ∧
        scopeText name (conditions.foldr Condition.around body) options =
          .ok (conditions.foldr Condition.printed (Sheet.print ((Scope.mk name options).sheet rules))) := by
    have hp := Sheet.parse_of_rulesText (Condition.rulesText_foldr hplain hrules)
    refine ⟨hp, ?_⟩
    rw [scopeText_of_parse hp, Condition.print_foldr]
  refine ⟨_, scopeText_of_parse hb, ?_, hall⟩
  intro kind text hbrace hflush
  refine hall [⟨kind, text⟩] ?_
  intro c hmem
  obtain rfl := List.mem_singleton.1 hmem
  exact ⟨hbrace, hflush⟩

/-- Braces in a string and in the block of keyframes do not end the rules around them. -/
theorem scopeText_around_braces :
    Sheet.parse "a\x7bb:'\x7d'\x7d@keyframes k\x7b\x7b\x7d\x7d" =
        .ok [.style ["a"] [.other "b" "'\x7d'"], .keyframes "k" "\x7b\x7b\x7d\x7d"] ∧
      ¬ Sheet.EndsInComment (encode "a\x7bb:'\x7d'\x7d@keyframes k\x7b\x7b\x7d\x7d") ∧
      (∀ c ∈ [Condition.mk .media "(x) ", Condition.mk .supports ""], c.Plain) ∧
      scopeText "s" "@media (x) \x7b@supports \x7ba\x7bb:'\x7d'\x7d@keyframes k\x7b\x7b\x7d\x7d\x7d\x7d"
          Options.standard =
        .ok ("@media (x) \x7b\n@supports \x7b\n[data-s] a\x7bb:'\x7d';\x7d\n" ++
          "@keyframes k-s\x7b\x7b\x7d\x7d\n\x7d\n\x7d\n") := by
  have hb : Sheet.parse "a\x7bb:'\x7d'\x7d@keyframes k\x7b\x7b\x7d\x7d" =
      .ok [.style ["a"] [.other "b" "'\x7d'"], .keyframes "k" "\x7b\x7b\x7d\x7d"] := by
    decide +kernel
  have hc : ¬ Sheet.EndsInComment (encode "a\x7bb:'\x7d'\x7d@keyframes k\x7b\x7b\x7d\x7d") :=
    Sheet.not_endsInComment (by decide)
  have hplain : ∀ c ∈ [Condition.mk .media "(x) ", Condition.mk .supports ""], c.Plain := by
    intro c hmem
    simp only [List.mem_cons, List.not_mem_nil, or_false] at hmem
    rcases hmem with rfl | rfl <;> exact ⟨by decide, by decide⟩
  obtain ⟨out, hs, -, hall⟩ := scopeText_around hb hc "s" Options.standard
  have hout : scopeText "s" "a\x7bb:'\x7d'\x7d@keyframes k\x7b\x7b\x7d\x7d" Options.standard =
      .ok "[data-s] a\x7bb:'\x7d';\x7d\n@keyframes k-s\x7b\x7b\x7d\x7d\n" := by
    decide +kernel
  rw [hout] at hs
  obtain rfl := Except.ok.inj hs
  exact ⟨hb, hc, hplain, (hall _ hplain).2⟩

/-- A comment that the sheet leaves open would hide the brace. -/
example : Sheet.parse ((Condition.mk .media "x").around "a\x7b\x7d/*") = .error (.missingDelimiter closeBrace 15) := by
  decide +kernel

end StyleScope
