/-
Which scopes keep keyframes apart. Under one scope no two names meet (`rename_keeps_apart`), but under two scopes they
can. The scope stands at the end of a name, behind a hyphen or a space, and nothing marks where it begins. So the name
that one scope makes can also be made by another that ends in it: `a-t` under `s` is `a` under `t-s`. Any other two
scopes keep the keyframes of two sheets apart (`keyframesNames_disjoint`). Names that no sheet defines, since they begin
with a quote and are no string, meet in two more ways.
-/
import Mathlib.Data.List.Count
import StyleScope.Proofs.Scope.Effect
import StyleScope.Proofs.Scope.Name
import StyleScope.Proofs.Sheet.Soundness

namespace StyleScope

open Byte Scan Text

/-! ## Scopes that meet -/

/-- The scope `t` ends in the scope `s`, behind a hyphen or a space. -/
def EndsIn (s t : String) : Prop := '-' :: s.toList <:+ t.toList ∨ ' ' :: s.toList <:+ t.toList

instance (s t : String) : Decidable (EndsIn s t) := inferInstanceAs (Decidable (_ ∨ _))

/-- A name under the scope `s` can be a name under the scope `t`, in one of two orders. -/
inductive Meets (s t : String) : Prop
  | same : s = t → Meets s t
  | endsIn : EndsIn s t → Meets s t
  /-- A bare name that begins with a quote, under a scope that ends with it, is a string. -/
  | string {front : String} {q : Char} : q = '\'' ∨ q = '"' → s = front ++ " " ++ t ++ q.toString → Meets s t
  /-- As before, where the hyphen of the bare name is within the other scope. -/
  | within {front back : String} {q : Char} : q = '\'' ∨ q = '"' → front.toList.getLast? ≠ some q →
    s = back ++ q.toString → t = front ++ "-" ++ back → Meets s t

/-- The two scopes can make the same name of keyframes. -/
def SharesNames (s t : String) : Prop := Meets s t ∨ Meets t s

variable {s t a b content : String} {c d q : Char} {x y : List Char}

/-! ## Names under one scope -/

/-- A bare name is no string under the same scope: of their ends, one character longer than the scope, the one holds a
hyphen more than the other. -/
theorem append_hyphen_ne_append_quote (hq : q = '\'' ∨ q = '"') :
    x ++ '-' :: y ≠ (q :: (content.toList ++ [' '])) ++ (y ++ [q]) := by
  intro h
  obtain ⟨-, he⟩ := List.append_inj' h (by simp)
  have hcount := congrArg (List.count '-') he
  have hhyphen : q ≠ '-' := by rcases hq with rfl | rfl <;> decide
  simp [List.count_append, hhyphen] at hcount

/-- **No two names are one under a scope**, whatever the scope is. -/
theorem rename_left_inj : rename s a = rename s b ↔ a = b := by
  refine ⟨fun h => ?_, congrArg (rename s)⟩
  have hl := congrArg String.toList h
  cases ha : quotedContent? a with
  | none =>
    cases hb : quotedContent? b with
    | none =>
      rw [rename_of_none ha, rename_of_none hb] at h
      exact (String.append_left_inj _).1 h
    | some p =>
      rw [rename_of_none ha, rename_of_some hb] at hl
      exact absurd (by simpa using hl) (append_hyphen_ne_append_quote (of_quotedContent? hb).1)
  | some p =>
    cases hb : quotedContent? b with
    | none =>
      rw [rename_of_some ha, rename_of_none hb] at hl
      exact absurd (by simpa using hl.symm) (append_hyphen_ne_append_quote (of_quotedContent? ha).1)
    | some r =>
      rw [rename_of_some ha, rename_of_some hb] at h
      obtain ⟨hq, hcontent⟩ := eq_of_quoted h
      rw [String.append_assoc, String.append_assoc, String.append_left_inj] at hcontent
      rw [(of_quotedContent? ha).2, (of_quotedContent? hb).2, hq, hcontent]

/-- **Scoping never merges the keyframes of a sheet.** Under one scope two names are the same only if they were the same,
whatever characters stand in the scope and whether they are strings or not. So a sheet has under a scope as many keyframes
of a name as it had of the name that it was. -/
theorem rename_keeps_apart (s : String) :
    (∀ a b, rename s a = rename s b ↔ a = b) ∧
      ∀ (o : Options) (rules : Sheet) (name : String),
        (Sheet.keyframesNames ((Scope.mk s o).sheet rules)).count (rename s name) =
          (Sheet.keyframesNames rules).count name := by
  refine ⟨fun a b => rename_left_inj, fun o rules name => ?_⟩
  rw [Scope.keyframesNames_sheet, List.count_map_of_injective _ _ fun a b => rename_left_inj.1]

/-! ## One name under two scopes -/

/-- Where a list is put together around two elements, these are one, or the first stands before the second or behind
it. -/
theorem append_cons_eq_append_cons {xs ys zs ws : List Char} (h : xs ++ c :: ys = zs ++ d :: ws) :
    (c = d ∧ ys = ws) ∨ (∃ m, zs = xs ++ c :: m ∧ ys = m ++ d :: ws) ∨
      (∃ m, xs = zs ++ d :: m ∧ ws = m ++ c :: ys) := by
  rcases List.append_eq_append_iff.1 h with ⟨m, rfl, he⟩ | ⟨m, rfl, he⟩
  · cases m with
    | nil =>
      obtain ⟨rfl, rfl⟩ := List.cons.inj he
      exact .inl ⟨rfl, rfl⟩
    | cons e m =>
      obtain ⟨rfl, rfl⟩ := List.cons.inj he
      exact .inr (.inl ⟨m, rfl, rfl⟩)
  · cases m with
    | nil =>
      obtain ⟨rfl, rfl⟩ := List.cons.inj he
      exact .inl ⟨rfl, rfl⟩
    | cons e m =>
      obtain ⟨rfl, rfl⟩ := List.cons.inj he
      exact .inr (.inr ⟨m, rfl, rfl⟩)

/-- Names of one kind are the same only if one scope ends in the other. -/
theorem endsIn_of_append (hc : c = '-' ∨ c = ' ') (h : x ++ c :: s.toList = y ++ c :: t.toList) :
    s = t ∨ EndsIn s t ∨ EndsIn t s := by
  have key {u v : String} {m : List Char} (he : v.toList = m ++ c :: u.toList) : EndsIn u v := by
    rcases hc with rfl | rfl
    · exact .inl ⟨m, he.symm⟩
    · exact .inr ⟨m, he.symm⟩
  rcases append_cons_eq_append_cons h with ⟨-, he⟩ | ⟨m, -, he⟩ | ⟨m, -, he⟩
  · exact .inl (String.toList_injective he)
  · exact .inr (.inr (key he))
  · exact .inr (.inl (key he))

/-- No quote is a space. -/
theorem getLast?_append_space (hq : q = '\'' ∨ q = '"') : (x ++ ' ' :: y).getLast? = some q ↔ y.getLast? = some q := by
  have hspace : q ≠ ' ' := by rcases hq with rfl | rfl <;> decide
  cases y.eq_nil_or_concat with
  | inl h => simp [h, hspace.symm]
  | inr h =>
    obtain ⟨y, c, rfl⟩ := h
    simp [List.getLast?_append, List.getLast?_cons]

/-- A bare name and a string are the same only if a quote in a scope passes for the end of a string. -/
theorem meets_of_append_quote (hq : q = '\'' ∨ q = '"') (ha : quotedContent? a = none)
    (h : a.toList ++ '-' :: s.toList = (q :: content.toList) ++ ' ' :: (t.toList ++ [q])) : Meets s t := by
  have hhyphen : q ≠ '-' := by rcases hq with rfl | rfl <;> decide
  rcases append_cons_eq_append_cons h with ⟨he, -⟩ | ⟨m, -, he⟩ | ⟨m, hm, he⟩
  · exact absurd he (by decide)
  · have hs : s = String.ofList m ++ " " ++ t ++ q.toString := String.toList_injective (by simp [he])
    exact .string hq hs
  · rcases List.eq_nil_or_concat s.toList with hnil | ⟨back, e, hback⟩
    · rw [hnil] at he
      exact absurd (List.append_inj' he rfl).2 (by simp [hhyphen])
    · -- the quote that ends the string is the last character of the scope behind the hyphen
      rw [hback, List.concat_eq_append, ← List.cons_append, ← List.append_assoc] at he
      obtain ⟨ht, hqe⟩ := List.append_inj' he rfl
      obtain rfl : q = e := by simpa using hqe
      have hfront : (String.ofList m).toList.getLast? ≠ some q := by
        rw [String.toList_ofList]
        intro hlast
        rw [quotedContent?, hm, List.cons_append] at ha
        simp [hq, (getLast?_append_space hq).2 hlast] at ha
      have hs : s = String.ofList back ++ q.toString := String.toList_injective (by simp [hback])
      have ht : t = String.ofList m ++ "-" ++ String.ofList back := String.toList_injective (by simp [ht])
      exact .within hq hfront hs ht

/-- The name begins with a quote and is no string. -/
def BeginsOpen (name : String) : Prop :=
  quotedContent? name = none ∧ ∃ q ∈ name.toList.head?, q = '\'' ∨ q = '"'

theorem beginsOpen_of_append (hq : q = '\'' ∨ q = '"') (ha : quotedContent? a = none)
    (h : a.toList ++ '-' :: x = q :: y) : BeginsOpen a := by
  refine ⟨ha, q, ?_, hq⟩
  cases hl : a.toList with
  | nil =>
    rw [hl] at h
    obtain ⟨rfl, -⟩ := List.cons.inj h
    exact absurd hq (by decide)
  | cons c cs =>
    rw [hl] at h
    obtain ⟨rfl, -⟩ := List.cons.inj h
    rfl

/-- **One name under two scopes.** The scopes are the same or one ends in the other, unless one of the names begins with
a quote and is no string. -/
theorem cases_of_rename_eq (h : rename s a = rename t b) : (s = t ∨ EndsIn s t ∨ EndsIn t s) ∨
    (BeginsOpen a ∧ Meets s t) ∨ (BeginsOpen b ∧ Meets t s) := by
  have hl := congrArg String.toList h
  cases ha : quotedContent? a with
  | none =>
    cases hb : quotedContent? b with
    | none =>
      rw [rename_of_none ha, rename_of_none hb] at hl
      exact .inl (endsIn_of_append (.inl rfl) (by simpa using hl))
    | some p =>
      have hq := (of_quotedContent? hb).1
      rw [rename_of_none ha, rename_of_some hb] at hl
      have hl : a.toList ++ '-' :: s.toList = (p.1 :: p.2.toList) ++ ' ' :: (t.toList ++ [p.1]) := by simpa using hl
      exact .inr (.inl ⟨beginsOpen_of_append hq ha hl, meets_of_append_quote hq ha hl⟩)
  | some p =>
    have hq := (of_quotedContent? ha).1
    cases hb : quotedContent? b with
    | none =>
      rw [rename_of_some ha, rename_of_none hb] at hl
      have hl : b.toList ++ '-' :: t.toList = (p.1 :: p.2.toList) ++ ' ' :: (s.toList ++ [p.1]) := by
        simpa using hl.symm
      exact .inr (.inr ⟨beginsOpen_of_append hq hb hl, meets_of_append_quote hq hb hl⟩)
    | some r =>
      rw [rename_of_some ha, rename_of_some hb] at h
      obtain ⟨-, hcontent⟩ := eq_of_quoted h
      exact .inl (endsIn_of_append (.inr rfl) (by simpa using congrArg String.toList hcontent))

/-! ## Names that are the same -/

theorem EndsIn.exists_rename_eq (h : EndsIn s t) : ∃ a b, rename s a = rename t b := by
  rcases h with ⟨front, he⟩ | ⟨front, he⟩
  · have ha : quotedContent? (String.ofList ('a' :: '-' :: front)) = none :=
      quotedContent?_eq_none (String.toList_ofList ..) (by simp)
    refine ⟨String.ofList ('a' :: '-' :: front), "a", String.toList_injective ?_⟩
    rw [rename_of_none ha, rename_of_none (by decide)]
    simp [← he]
  · have hq : '\'' = '\'' ∨ '\'' = '"' := .inl rfl
    refine ⟨'\''.toString ++ ("a " ++ String.ofList front) ++ '\''.toString, '\''.toString ++ "a" ++ '\''.toString,
      String.toList_injective ?_⟩
    rw [rename_quoted hq, rename_quoted hq]
    simp [← he]

theorem Meets.exists_rename_eq (h : Meets s t) : ∃ a b, rename s a = rename t b := by
  cases h with
  | same h => exact ⟨"a", "a", by rw [h]⟩
  | endsIn h => exact h.exists_rename_eq
  | @string front q hq h =>
    have ha : quotedContent? q.toString = none := by rcases hq with rfl | rfl <;> decide
    refine ⟨q.toString, q.toString ++ ("-" ++ front) ++ q.toString, String.toList_injective ?_⟩
    rw [rename_of_none ha, rename_quoted hq, h]
    simp
  | @within front back q hq hfront hs ht =>
    have hl : (q.toString ++ (" " ++ front)).toList = q :: ([] ++ ' ' :: front.toList) := by simp
    have ha : quotedContent? (q.toString ++ (" " ++ front)) = none :=
      quotedContent?_eq_none hl fun h => hfront ((getLast?_append_space hq).1 h.2)
    refine ⟨q.toString ++ (" " ++ front), q.toString ++ "" ++ q.toString, String.toList_injective ?_⟩
    rw [rename_of_none ha, rename_quoted hq, hs, ht]
    simp

theorem exists_rename_eq_iff (s t : String) : (∃ a b, rename s a = rename t b) ↔ SharesNames s t := by
  constructor
  · rintro ⟨a, b, h⟩
    rcases cases_of_rename_eq h with (h | h | h) | ⟨-, h⟩ | ⟨-, h⟩
    · exact .inl (.same h)
    · exact .inl (.endsIn h)
    · exact .inr (.endsIn h)
    · exact .inl h
    · exact .inr h
  · rintro (h | h)
    · exact h.exists_rename_eq
    · obtain ⟨a, b, he⟩ := h.exists_rename_eq
      exact ⟨b, a, he.symm⟩

/-! ## The names that sheets define -/

/-- A value that begins with a quote is a string. -/
theorem not_beginsOpen_of_valueText {f : UInt8} {name : String} (h : ValueText [f] (encode name)) :
    ¬ BeginsOpen name := by
  rintro ⟨hc, q, hhead, hq⟩
  obtain ⟨first, xs, he, hb, -⟩ := runsOn_of_quotedContent? hc h
  obtain ⟨quote, hquote, -, hqe⟩ := exists_isQuote hq
  obtain ⟨cs, hcs⟩ := List.head?_eq_some_iff.1 hhead
  have hname : name = q.toString ++ String.ofList cs := String.toList_injective (by simp [hcs])
  rw [hname, encode_append, hqe] at he
  obtain ⟨rfl, -⟩ := List.cons.inj he
  rw [hquote] at hb
  cases hb

/-- Each name that keyframes are read with is one value. -/
theorem Sheet.RulesText.valueText_of_mem {rules : List Rule} {xs : Bytes} (h : Sheet.RulesText rules xs) :
    ∀ name ∈ Sheet.keyframesNames rules, ValueText [openBrace] (encode name) := by
  induction h with
  | nil => nofun
  | item _ hi _ ih =>
    intro name hm
    cases hi with
    | style => exact ih name (by simpa using hm)
    | keyframes _ _ _ hv =>
      rw [Sheet.keyframesNames_keyframes] at hm
      rcases List.mem_cons.1 hm with rfl | hm
      · exact hv
      · exact ih name hm
  | conditional _ _ _ _ ihi ih =>
    intro name hm
    rw [Sheet.keyframesNames_conditional] at hm
    exact (List.mem_append.1 hm).elim (ihi name) (ih name)

theorem not_beginsOpen_of_parse {text : String} {rules : Sheet} (h : Sheet.parse text = .ok rules) {name : String}
    (hm : name ∈ Sheet.keyframesNames rules) : ¬ BeginsOpen name := by
  obtain ⟨x, -, -, hx, -⟩ := Sheet.parse_eq_ok_iff.1 h
  exact not_beginsOpen_of_valueText (hx.valueText_of_mem name hm)

/-- **Which scopes keep keyframes apart.** Two scopes, neither of which ends in the other, have no name of keyframes in
common, whatever sheets they are put around. Of arbitrary names, two are the same under two scopes exactly when the
scopes share names. -/
theorem keyframesNames_disjoint (s t : String) :
    ((∀ a b, rename s a ≠ rename t b) ↔ ¬ SharesNames s t) ∧
      (s ≠ t → ¬ EndsIn s t → ¬ EndsIn t s → ∀ (o p : Options) (text other : String) (rules more : Sheet),
        Sheet.parse text = .ok rules → Sheet.parse other = .ok more →
          (Sheet.keyframesNames ((Scope.mk s o).sheet rules)).Disjoint
            (Sheet.keyframesNames ((Scope.mk t p).sheet more))) := by
  constructor
  · rw [← exists_rename_eq_iff]
    simp only [not_exists, ne_eq]
  · intro hne hs ht o p text other rules more hr hm name hn hn'
    rw [Scope.keyframesNames_sheet, List.mem_map] at hn hn'
    obtain ⟨a, ha, rfl⟩ := hn
    obtain ⟨b, hb, he⟩ := hn'
    rcases cases_of_rename_eq he.symm with (h | h | h) | ⟨h, -⟩ | ⟨h, -⟩
    · exact hne h
    · exact hs h
    · exact ht h
    · exact not_beginsOpen_of_parse hr ha h
    · exact not_beginsOpen_of_parse hm hb h

/-- Keyframes of one name in two scopes, one of them inside a conditional. -/
theorem keyframesNames_disjoint_fade :
    Sheet.parse "@keyframes fade\x7b\x7d" = .ok [.keyframes "fade" "\x7b\x7d"] ∧
      Sheet.parse "@media x\x7b@keyframes fade\x7b\x7d\x7d" =
        .ok [.conditional .media "x" [.keyframes "fade" "\x7b\x7d"]] ∧
      "s" ≠ "t" ∧ ¬ EndsIn "s" "t" ∧ ¬ EndsIn "t" "s" ∧ ["fade-s"].Disjoint ["fade-t"] := by
  have hp : Sheet.parse "@keyframes fade\x7b\x7d" = .ok [.keyframes "fade" "\x7b\x7d"] := by decide +kernel
  have hp' : Sheet.parse "@media x\x7b@keyframes fade\x7b\x7d\x7d" =
      .ok [.conditional .media "x" [.keyframes "fade" "\x7b\x7d"]] := by decide +kernel
  have hs : ¬ EndsIn "s" "t" := by decide +kernel
  have ht : ¬ EndsIn "t" "s" := by decide +kernel
  exact ⟨hp, hp', by decide, hs, ht,
    (keyframesNames_disjoint "s" "t").2 (by decide) hs ht Options.standard Options.standard _ _ _ _ hp hp'⟩

/-- Different scopes that make one name: the one ends in the other, behind a hyphen or a space, or it holds a quote. -/
theorem scopes_share_names :
    ("s" ≠ "t-s" ∧ scopeText "s" "@keyframes a-t\x7b\x7d" Options.standard = .ok "@keyframes a-t-s\x7b\x7d\n" ∧
      scopeText "t-s" "@keyframes a\x7b\x7d" Options.standard = .ok "@keyframes a-t-s\x7b\x7d\n") ∧
    ("s" ≠ "t s" ∧ scopeText "s" "@keyframes 'a t'\x7b\x7d" Options.standard = .ok "@keyframes 'a t s'\x7b\x7d\n" ∧
      scopeText "t s" "@keyframes 'a'\x7b\x7d" Options.standard = .ok "@keyframes 'a t s'\x7b\x7d\n") ∧
    rename "u t'" "'" = rename "t" "'-u'" ∧ rename "u'" "' t" = rename "t-u" "''" := by
  decide +kernel

end StyleScope
