/-
A rule that is cut short is refused. Many scans end quietly at the end of the text, so no reader alone notices
that a rule lacks its end. The reason lies in the grammar: a piece is read whole whatever follows it, so if a part
of a rule were read as rules, the whole rule would be read as those rules and more. Thus the texts of rules are a
prefix code, and a sheet cut within a rule is refused.
-/
import Mathlib.Logic.ExistsUnique
import StyleScope.Proofs.Sheet.Concatenation

namespace StyleScope

open Byte Scan Text

namespace Scan

/-- A gap ends with a space or with the close of a comment. -/
theorem Gap.ne_append_closeBrace {g : Bytes} (h : Gap g) (xs : Bytes) : g ≠ xs ++ [closeBrace] := by
  induction h generalizing xs with
  | nil => simp
  | @space b g hb _ ih =>
    intro he
    cases xs with
    | nil =>
      obtain ⟨rfl, -⟩ := List.cons.inj he
      exact absurd hb (by decide)
    | cons c xs => exact ih xs (List.cons.inj he).2
  | @comment inside g _ _ ih =>
    intro he
    rcases List.eq_nil_or_concat g with rfl | ⟨g', b, rfl⟩
    · have he' : (slash :: star :: (inside ++ [star])) ++ [slash] = xs ++ [closeBrace] := by simpa using he
      exact absurd (List.append_inj' he' rfl).2 (by decide)
    · rw [List.concat_eq_append] at he ih
      have he' : (slash :: star :: (inside ++ star :: slash :: g')) ++ [b] = xs ++ [closeBrace] := by simpa using he
      obtain ⟨-, hb⟩ := List.append_inj' he' rfl
      exact ih g' (by rw [hb])

end Scan

namespace Sheet

/-! ## The text of a rule -/

/-- The text of one rule, from its first byte through its closing brace. -/
inductive RuleText : Rule → Bytes → Prop
  | item {rule : Rule} {x : Bytes} : ItemText rule x → RuleText rule x
  | conditional {kind : ConditionalKind} {condition : String} {rules : List Rule} {x y : Bytes} :
    ConditionText kind condition x → RulesText rules y →
      RuleText (.conditional kind condition rules) (x ++ (y ++ [closeBrace]))

theorem DeclarationsText.exists_closeBrace {ds : List Declaration} {x : Bytes} (h : DeclarationsText ds x) :
    ∃ y, x = y ++ [closeBrace] := by
  induction h with
  | @nil g _ => exact ⟨g, rfl⟩
  | @semicolon ds g x _ _ ih =>
    obtain ⟨y, rfl⟩ := ih
    exact ⟨g ++ Byte.semicolon :: y, by simp⟩
  | @cons d ds g x y _ _ _ ih =>
    obtain ⟨z, rfl⟩ := ih
    exact ⟨g ++ (x ++ Byte.semicolon :: z), by simp⟩
  | @last d g x depth _ _ => exact ⟨g ++ x, by simp⟩

/-- A rule ends with its closing brace. -/
theorem RuleText.exists_closeBrace {rule : Rule} {x : Bytes} (h : RuleText rule x) :
    ∃ y, x = y ++ [closeBrace] := by
  cases h with
  | item hi =>
    cases hi with
    | @style ss ds x y _ _ hd =>
      obtain ⟨z, rfl⟩ := hd.exists_closeBrace
      exact ⟨x ++ openBrace :: z, by simp⟩
    | @keyframes name body g j k _ _ _ _ _ _ _ hb _ =>
      obtain ⟨inside, he, hi⟩ := hb
      obtain ⟨z, rfl⟩ := hi.exists_closeBrace
      exact ⟨encode "@keyframes" ++ (g ++ (encode name ++ (j ++ (k ++ openBrace :: z)))), by simp [he]⟩
  | @conditional kind condition rules x y _ _ => exact ⟨x ++ y, by simp⟩

theorem RuleText.flush {rule : Rule} {x : Bytes} (h : RuleText rule x) (rest : Bytes) : Flush (x ++ rest) := by
  cases h with
  | item hi => exact hi.flush rest
  | conditional hc _ => rw [List.append_assoc]; exact hc.flush _

theorem RuleText.rulesText {rule : Rule} {x : Bytes} (h : RuleText rule x) : RulesText [rule] x := by
  cases h with
  | item hi =>
    have hr := RulesText.item (g := []) .nil hi (.nil .nil)
    rwa [List.nil_append, List.append_nil] at hr
  | conditional hc hr => exact RulesText.conditional (g := []) .nil hc hr (.nil .nil)

/-! ## Parts of a rule -/

theorem read_of_rulesText {rules : List Rule} {x : Bytes} (h : RulesText rules x) : read x = .ok rules :=
  read_of_sheetText ⟨x, [], (List.append_nil x).symm, h, .inl rfl⟩

theorem SheetText.skipGap {xs : Bytes} (h : SheetText [] xs) : Scan.skipGap xs = [] := by
  obtain ⟨x, c, rfl, hx, hc⟩ := h
  cases hx with
  | nil hg =>
    rw [skipGap_append hg]
    rcases hc with rfl | hc
    · rw [Scan.skipGap]
    · exact skipGap_of_openComment hc

/-- Nothing but the empty text is flush and holds no rule. -/
theorem SheetText.eq_nil {xs : Bytes} (h : SheetText [] xs) (hf : Flush xs) : xs = [] := by
  rw [← skipGap_of_flush hf, h.skipGap]

/-- A text of rules leaves no comment open: what follows it is read, and a comment would hide that. -/
theorem RulesText.not_endsInComment {rules : List Rule} {x : Bytes} (h : RulesText rules x) :
    ¬ EndsInComment x := by
  intro hc
  obtain ⟨rs, r, c, rfl, hr, hopen⟩ := hc
  have hok : read (r ++ c ++ [atSign]) = .ok rs :=
    read_of_sheetText ⟨r, c ++ [atSign], List.append_assoc .., hr, .inr (hopen.append (by decide))⟩
  have hat : read [atSign] = .error (.unsupportedAtRule "@" [atSign]) := by decide +kernel
  have herror : Sheet.rulesFrom [] (rules.reverse ++ []) [atSign] = .error (.unsupportedAtRule "@" [atSign]) :=
    rulesFrom_eq_error rfl hat
  rw [read, h.rulesFrom, herror] at hok
  cases hok

/-- A rule ends with its brace, so what it ends with after rules of its own is no gap and no open comment. -/
theorem RuleText.eq_nil_of_sheetText {rule : Rule} {rules : List Rule} {r w : Bytes} (h : RuleText rule (r ++ w))
    (hr : RulesText rules r) (hw : SheetText [] w) : w = [] := by
  obtain ⟨g, c, rfl, hg, hc⟩ := hw
  have hrg := hr.append hg
  rcases hc with rfl | hopen
  · rw [List.append_nil] at h ⊢
    obtain ⟨v, hv⟩ := h.exists_closeBrace
    cases hg with
    | nil hgap =>
      rcases List.eq_nil_or_concat g with rfl | ⟨g', b, rfl⟩
      · rfl
      · rw [List.concat_eq_append, ← List.append_assoc] at hv
        obtain ⟨-, hb⟩ := List.append_inj' hv rfl
        rw [List.concat_eq_append, hb] at hgap
        exact absurd rfl (hgap.ne_append_closeBrace g')
  · rw [← List.append_assoc] at h
    exact absurd ⟨_, _, c, rfl, hrg, hopen⟩ h.rulesText.not_endsInComment

/-- **A part of a rule is no sheet.** -/
theorem RuleText.read_part {rule : Rule} {y z : Bytes} (h : RuleText rule (y ++ z)) (hy : y ≠ []) (hz : z ≠ []) :
    ∃ fault, read y = .error fault := by
  cases hread : read y with
  | error fault => exact ⟨fault, rfl⟩
  | ok rules =>
    exfalso
    have hflush : Flush (y ++ z) := by simpa using h.flush []
    obtain ⟨r, c, rfl, hr, -⟩ := read_eq_ok_iff.1 hread
    rw [List.append_assoc] at h
    -- the rest of the rule is read after the rules of the part, and together they are one rule
    have hrest : (read (c ++ z)).map (rules ++ ·) = .ok [rule] := by
      rw [← read_append (read_of_rulesText hr) hr.not_endsInComment]
      exact read_of_rulesText h.rulesText
    cases hmore : read (c ++ z) with
    | error fault => rw [hmore] at hrest; cases hrest
    | ok more =>
      rw [hmore] at hrest
      have hone : rules ++ more = [rule] := Except.ok.inj hrest
      cases rules with
      | nil => exact hy ((read_eq_ok_iff.1 hread).eq_nil hflush.of_append)
      | cons first rules =>
        obtain ⟨-, rfl⟩ := List.append_eq_nil_iff.1 (List.cons.inj hone).2
        have hnil := h.eq_nil_of_sheetText hr (read_eq_ok_iff.1 hmore)
        exact hz (List.append_eq_nil_iff.1 hnil).2

/-- **The texts of rules are a prefix code**: no rule begins with another and goes on. -/
theorem RuleText.eq_nil_of_append {rule rule' : Rule} {x z : Bytes} (h : RuleText rule x)
    (h' : RuleText rule' (x ++ z)) : z = [] := by
  refine Classical.byContradiction fun hz => ?_
  have hx : x ≠ [] := by
    obtain ⟨y, rfl⟩ := h.exists_closeBrace
    simp
  obtain ⟨fault, hf⟩ := h'.read_part hx hz
  rw [read_of_rulesText h.rulesText] at hf
  cases hf

/-! ## Rules where they stand -/

/-- The rule with number `i` of the sheet stands in its text from one offset to another: before it stand the rules
that come first, with a gap, and after it stands a sheet of those that come last. -/
inductive StandsAt (rules : Sheet) (xs : Bytes) (i : Nat) : Nat → Nat → Prop
  | mk {first last : List Rule} {rule : Rule} {front x back : Bytes} :
    rules = first ++ rule :: last → first.length = i → xs = front ++ (x ++ back) →
      RulesText first front → RuleText rule x → SheetText last back →
      StandsAt rules xs i front.length (front.length + x.length)

theorem RulesText.exists_split {rules : List Rule} {x : Bytes} (h : RulesText rules x) {i : Nat}
    (hi : i < rules.length) :
    ∃ first last rule front y back, rules = first ++ rule :: last ∧ first.length = i ∧ x = front ++ (y ++ back) ∧
      RulesText first front ∧ RuleText rule y ∧ RulesText last back := by
  induction h generalizing i with
  | nil => cases hi
  | @item rule rules g x y hg hx hr ih =>
    cases i with
    | zero => exact ⟨[], rules, rule, g, x, y, rfl, rfl, rfl, .nil hg, .item hx, hr⟩
    | succ i =>
      obtain ⟨first, last, rule', front, z, back, rfl, hl, rfl, hf, hz, hb⟩ := ih (Nat.lt_of_succ_lt_succ hi)
      exact ⟨rule :: first, last, rule', g ++ (x ++ front), z, back, rfl, by rw [List.length_cons, hl],
        by simp, .item hg hx hf, hz, hb⟩
  | @conditional kind condition inner rules g x y z hg hc hin hr _ ih =>
    cases i with
    | zero =>
      exact ⟨[], rules, _, g, x ++ (y ++ [closeBrace]), z, rfl, rfl, by simp, .nil hg, .conditional hc hin, hr⟩
    | succ i =>
      obtain ⟨first, last, rule', front, w, back, rfl, hl, rfl, hf, hw, hb⟩ := ih (Nat.lt_of_succ_lt_succ hi)
      exact ⟨_ :: first, last, rule', g ++ (x ++ (y ++ closeBrace :: front)), w, back, rfl,
        by rw [List.length_cons, hl], by simp, .conditional hg hc hin hf, hw, hb⟩

theorem SheetText.exists_standsAt {rules : Sheet} {xs : Bytes} (h : SheetText rules xs) {i : Nat}
    (hi : i < rules.length) : ∃ start stop, StandsAt rules xs i start stop := by
  obtain ⟨x, c, rfl, hx, hc⟩ := h
  obtain ⟨first, last, rule, front, y, back, rfl, hl, rfl, hf, hy, hb⟩ := hx.exists_split hi
  exact ⟨_, _, .mk rfl hl (by simp) hf hy ⟨back, c, rfl, hb, hc⟩⟩

/-- Two texts of the same rules, one of which the other begins with, are one text, if the rest is flush. -/
theorem RulesText.eq_nil_of_append {rules : List Rule} {x w : Bytes} (h : RulesText rules x)
    (h' : RulesText rules (x ++ w)) (hw : Flush w) : w = [] := by
  have hall : read (x ++ w) = (read w).map (rules ++ ·) := read_append (read_of_rulesText h) h.not_endsInComment
  rw [read_of_rulesText h'] at hall
  cases hw' : read w with
  | error fault => rw [hw'] at hall; cases hall
  | ok more =>
    rw [hw'] at hall
    have hnil : more = [] := List.self_eq_append_right.1 (Except.ok.inj hall)
    rw [hnil] at hw'
    exact (read_eq_ok_iff.1 hw').eq_nil hw

/-- A rule stands in one place only. -/
theorem StandsAt.unique {rules : Sheet} {xs : Bytes} {i start stop start' stop' : Nat}
    (h : StandsAt rules xs i start stop) (h' : StandsAt rules xs i start' stop') :
    start = start' ∧ stop = stop' := by
  obtain ⟨he, hl, hx, hf, hy, -⟩ := h
  obtain ⟨he', hl', hx', hf', hy', -⟩ := h'
  rename_i first last rule front y back first' last' rule' front' y' back'
  obtain ⟨rfl, hrest⟩ := List.append_inj (he.symm.trans he') (hl.trans hl'.symm)
  have hfront : front = front' ∧ y ++ back = y' ++ back' := by
    rcases List.append_eq_append_iff.1 (hx.symm.trans hx') with ⟨w, rfl, hw⟩ | ⟨w, rfl, hw⟩
    · obtain rfl := hf.eq_nil_of_append hf' (Flush.of_append (hw ▸ hy.flush back))
      exact ⟨by simp, by simpa using hw⟩
    · obtain rfl := hf'.eq_nil_of_append hf (Flush.of_append (hw ▸ hy'.flush back'))
      exact ⟨by simp, by simpa using hw.symm⟩
  obtain ⟨rfl, hyb⟩ := hfront
  have hyy : y = y' := by
    rcases List.append_eq_append_iff.1 hyb with ⟨w, rfl, -⟩ | ⟨w, rfl, -⟩
    · simp [hy.eq_nil_of_append hy']
    · simp [hy'.eq_nil_of_append hy]
  exact ⟨rfl, by rw [hyy]⟩

/-! ## Sheets cut short -/

/-- Read rules do not help a part of a rule that follows them. -/
theorem StandsAt.read_part {rules : Sheet} {i start stop : Nat} {xs ys : Bytes}
    (h : StandsAt rules (xs ++ ys) i start stop) (hstart : start < xs.length) (hstop : xs.length < stop) :
    ∃ fault, read xs = .error fault := by
  generalize hall : xs ++ ys = all at h
  obtain ⟨-, -, he, hf, hx, -⟩ := h
  rename_i first last rule front x back
  rw [he] at hall
  rcases List.append_eq_append_iff.1 hall with ⟨w, rfl, -⟩ | ⟨y, rfl, hy⟩
  · simp only [List.length_append] at hstart
    omega
  · rcases List.append_eq_append_iff.1 hy with ⟨v, rfl, -⟩ | ⟨z, rfl, -⟩
    · simp only [List.length_append] at hstop
      omega
    · simp only [List.length_append] at hstart hstop
      have hne : y ≠ [] := List.ne_nil_of_length_pos (by omega)
      have hz : z ≠ [] := List.ne_nil_of_length_pos (by omega)
      obtain ⟨fault, hpart⟩ := hx.read_part hne hz
      refine ⟨fault, ?_⟩
      rw [read, hf.rulesFrom]
      exact rulesFrom_eq_error rfl hpart

/-- **A sheet cut within a rule is refused.** Each top-level rule of a text that is read stands in one place of the
text, and a text that ends after the first byte of the rule and before its last is not read. No text of a rule is
the beginning of a longer one. -/
theorem parse_truncated {text : String} {rules : Sheet} (h : parse text = .ok rules) :
    (∀ i < rules.length, ∃! place : Nat × Nat, StandsAt rules (encode text) i place.1 place.2) ∧
      (∀ i start stop, StandsAt rules (encode text) i start stop →
        ∀ front back, text = front ++ back → start < (encode front).length → (encode front).length < stop →
          ∃ error, parse front = .error error) ∧
      ∀ rule rule' x z, RuleText rule x → RuleText rule' (x ++ z) → z = [] := by
  refine ⟨?_, ?_, fun rule rule' x z hx hz => hx.eq_nil_of_append hz⟩
  · intro i hi
    obtain ⟨start, stop, hs⟩ := (parse_eq_ok_iff.1 h).exists_standsAt hi
    refine ⟨(start, stop), hs, fun place hp => ?_⟩
    obtain ⟨h1, h2⟩ := StandsAt.unique hp hs
    exact Prod.ext h1 h2
  · rintro i start stop hs front back rfl hstart hstop
    rw [encode_append] at hs
    obtain ⟨fault, hf⟩ := hs.read_part hstart hstop
    exact ⟨fault.locate (encode front), by rw [parse, locating, hf]; rfl⟩

/-- The second rule stands from byte 3 to byte 21. Without its last brace it is refused: the brace in the string does
not stand for it. -/
theorem parse_truncated_conditional :
    parse "a\x7b\x7d@media x\x7bb\x7bc:'\x7d'\x7d\x7d" =
        .ok [.style ["a"] [], .conditional .media "x" [.style ["b"] [.other "c" "'\x7d'"]]] ∧
      StandsAt [.style ["a"] [], .conditional .media "x" [.style ["b"] [.other "c" "'\x7d'"]]]
          (encode "a\x7b\x7d@media x\x7bb\x7bc:'\x7d'\x7d\x7d") 1 3 21 ∧
      ∃ error, parse "a\x7b\x7d@media x\x7bb\x7bc:'\x7d'\x7d" = .error error := by
  have h : parse "a\x7b\x7d@media x\x7bb\x7bc:'\x7d'\x7d\x7d" =
      .ok [.style ["a"] [], .conditional .media "x" [.style ["b"] [.other "c" "'\x7d'"]]] := by
    decide +kernel
  have hfirst : RulesText [.style ["a"] []] (encode "a\x7b\x7d") :=
    rulesText_of_read (by decide +kernel) (not_endsInComment (by decide))
  have hinner : RulesText [.style ["b"] [.other "c" "'\x7d'"]] (encode "b\x7bc:'\x7d'\x7d") :=
    rulesText_of_read (by decide +kernel) (not_endsInComment (by decide))
  have hcondition : ConditionText .media "x" (encode "@media" ++ ([0x20] ++ (encode "x" ++ [openBrace]))) :=
    .mk (.space (by decide) .nil) ⟨0x20, rfl, by decide⟩ (by decide) (by decide)
  have hplace : StandsAt [.style ["a"] [], .conditional .media "x" [.style ["b"] [.other "c" "'\x7d'"]]]
      (encode "a\x7b\x7d@media x\x7bb\x7bc:'\x7d'\x7d\x7d") 1 3 21 :=
    .mk rfl rfl rfl hfirst (.conditional hcondition hinner) ⟨[], [], rfl, .nil .nil, .inl rfl⟩
  obtain ⟨-, hcut, -⟩ := parse_truncated h
  exact ⟨h, hplace, hcut 1 3 21 hplace "a\x7b\x7d@media x\x7bb\x7bc:'\x7d'\x7d" "\x7d" (by decide +kernel)
    (by decide +kernel) (by decide +kernel)⟩

end Sheet

end StyleScope
