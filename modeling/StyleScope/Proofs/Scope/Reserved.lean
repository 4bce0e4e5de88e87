/-
The words that can never name keyframes, where names stand. The shorthand never takes one of them for a name, and so it
never renames one. A list of names is renamed item by item, whatever its items are, and there a reserved word becomes a
name: the word with the scope behind it (`isKeyframesName_rename_reserved`). So the reserved words in lists of names stay
what they are exactly if there are none (`reserved_renamed`).
-/
import StyleScope.Proofs.Animation.Class
import StyleScope.Proofs.Scope.Canonical
import StyleScope.Proofs.Scope.Effect

namespace StyleScope

open Animation

variable {scope word value : String} {items : List String}

/-! ## Reserved words -/

theorem not_isKeyframesName (hw : word ∈ reservedKeywords) : isKeyframesName word = false := by
  simp [isKeyframesName, hw]

theorem rename_reserved (hw : word ∈ reservedKeywords) (scope : String) : rename scope word = word ++ "-" ++ scope := by
  have hquoted : ∀ word ∈ reservedKeywords, quotedContent? word = none := by decide +kernel
  rw [rename_of_none (hquoted word hw), String.append_assoc]

/-- Under a scope it is no reserved word. -/
theorem rename_not_mem_reserved (hw : word ∈ reservedKeywords) (scope : String) :
    rename scope word ∉ reservedKeywords := by
  rw [rename_reserved hw]
  exact not_mem_reservedKeywords (c := '-') (by simp) (by decide)

/-- **A reserved word under a scope is a name**, whatever the scope: it begins neither a numeral nor a call. -/
theorem isKeyframesName_rename_reserved (hw : word ∈ reservedKeywords) (scope : String) :
    isKeyframesName (rename scope word) := by
  have hl : (rename scope word).toList = word.toList ++ ('-' :: scope.toList) := by simp [rename_reserved hw]
  have hnumeral : afterNumeral? (rename scope word).toList = none := by
    have hfirst : ∀ word ∈ reservedKeywords, word.toList.head?.map beginsNumeral = some false := by decide +kernel
    obtain ⟨c, hc, hb⟩ := Option.map_eq_some_iff.1 (hfirst word hw)
    obtain ⟨cs, hcs⟩ := List.head?_eq_some_iff.1 hc
    rw [hl, hcs]
    exact afterNumeral?_eq_none hb _
  have hcall (function : String) (hf : function ∈ functions) : isCall function (rename scope word) = false := by
    refine Bool.eq_false_iff.2 fun h => ?_
    have happart : ∀ word ∈ reservedKeywords, ∀ f ∈ functions,
        ¬ (f ++ "(").toList <+: word.toList ∧ ¬ word.toList <+: (f ++ "(").toList := by decide +kernel
    obtain ⟨hno, hno'⟩ := happart word hw function hf
    have hword : word.toList <+: (rename scope word).toList := hl ▸ List.prefix_append _ _
    exact (List.prefix_or_prefix_of_prefix (startsWith_of_isCall h) hword).elim hno hno'
  simp [isKeyframesName, rename_not_mem_reserved hw, isNumber, isTime, isTimingCall, hnumeral,
    hcall "calc" (by decide), hcall "cubic-bezier" (by decide), hcall "steps" (by decide)]

/-! ## Where names stand -/

/-- **An animation that was read is not named by a reserved word**, and scoping keeps those in its other slots. -/
theorem Sheet.reserved_of_parse {text : String} {rules : Sheet} (h : Sheet.parse text = .ok rules) {a : Animation}
    (ha : a ∈ Sheet.animations rules) :
    a.name ∉ reservedKeywords ∧ ∀ (scope : Scope) slot, ∀ word ∈ reservedKeywords,
      a.get? slot = some word → (scope.animation a).get? slot = some word := by
  have hfits := Sheet.fits_of_parse h a ha
  have hname : ∀ word, a.get? .name = some word → word ∉ reservedKeywords := by
    intro word hn hw
    have hacc : isKeyframesName word := hfits .name word hn
    rw [not_isKeyframesName hw] at hacc
    cases hacc
  refine ⟨hname a.name a.get?_name, fun scope slot word hw hs => ?_⟩
  by_cases he : slot = .name
  · subst he
    exact absurd hw (hname word hs)
  · rw [Scope.animation, get?_withName_of_ne _ _ he, hs]

/-- Every reserved word among the items of a list stands in the other list where it stood. -/
def ReservedKept (value after : String) : Prop :=
  ∀ items, items? value = some items → ∀ (i : Nat), ∀ word ∈ items[i]?, word ∈ reservedKeywords →
    ∃ afters, items? after = some afters ∧ afters[i]? = some word

/-- **A list of names keeps its reserved words exactly if it has none.** -/
theorem NameList.reservedKept_iff (h : NameList value items) (hs : Harmless scope) :
    ReservedKept value (StyleScope.renameEach scope value) ↔ ∀ word ∈ items, word ∉ reservedKeywords := by
  constructor
  · intro hkept word hm hw
    obtain ⟨i, hi⟩ := List.mem_iff_getElem?.1 hm
    obtain ⟨afters, hafter, hword⟩ := hkept items h.split i word hi hw
    rw [(h.renameEach hs).split] at hafter
    cases hafter
    rw [List.getElem?_map, hi, Option.map_some, Option.some.injEq] at hword
    exact rename_not_mem_reserved hw scope (hword.symm ▸ hw)
  · intro hnone others ho i word hi hw
    rw [h.split] at ho
    cases ho
    exact absurd hw (hnone word (List.mem_of_getElem? hi))

/-- **The two places where names stand do not agree on what a name is.** In an animation that was read no reserved word
is the name, and scoping keeps the reserved words in other slots. But a list of names is renamed item by item, at every
depth of a sheet, whatever its items are, and a reserved word becomes a name: the word with the scope behind it. So under
a harmless scope the lists of names of a sheet keep their reserved words exactly if they have none. -/
theorem reserved_renamed (scope : Scope) :
    (∀ text rules, Sheet.parse text = .ok rules → ∀ a ∈ Sheet.animations rules,
      a.name ∉ reservedKeywords ∧ scope.animation a ∈ Sheet.animations (scope.sheet rules) ∧
        ∀ slot, ∀ word ∈ reservedKeywords, a.get? slot = some word → (scope.animation a).get? slot = some word) ∧
    (∀ word ∈ reservedKeywords, isKeyframesName word = false ∧
      rename scope.name word = word ++ "-" ++ scope.name ∧ isKeyframesName (rename scope.name word)) ∧
    ∀ rules : Sheet,
      List.Forall₂ (ListRenamed scope.name) (Sheet.nameLists rules) (Sheet.nameLists (scope.sheet rules)) ∧
      (Harmless scope.name → (∀ value ∈ Sheet.nameLists rules, ∃ items, NameList value items) →
        (List.Forall₂ ReservedKept (Sheet.nameLists rules) (Sheet.nameLists (scope.sheet rules)) ↔
          ∀ value ∈ Sheet.nameLists rules, ∀ items, items? value = some items →
            ∀ word ∈ items, word ∉ reservedKeywords)) := by
  refine ⟨fun text rules h a ha => ?_, fun word hw => ?_, fun rules => ⟨(scope.rewrites_sheet rules).nameLists, ?_⟩⟩
  · obtain ⟨hname, hslots⟩ := Sheet.reserved_of_parse h ha
    exact ⟨hname, Scope.animation_mem ha, hslots scope⟩
  · exact ⟨not_isKeyframesName hw, rename_reserved hw scope.name, isKeyframesName_rename_reserved hw scope.name⟩
  · intro hs hlists
    rw [(scope.rewrites_sheet rules).nameLists_eq, List.forall₂_map_right_iff, List.forall₂_same]
    refine forall₂_congr fun value hv => ?_
    obtain ⟨items, hl⟩ := hlists value hv
    rw [hl.reservedKept_iff hs]
    simp [hl.split]

/-- The curve stays `inherit`, but an animation that is switched off is switched on, for keyframes `none-s`. -/
theorem reserved_renamed_none :
    let scope : Scope := ⟨"s", Options.standard⟩
    let running : Animation := .four "1s" "inherit" "2s" "x"
    let rules : Sheet := [.style ["a"] [.animation [running], .animationName "fade, none"]]
    Sheet.parse "a\x7banimation:1s inherit 2s x;animation-name:fade, none\x7d" = .ok rules ∧
      (scope.animation running).get? .timingFunction = some "inherit" ∧
      NameList "fade, none" ["fade", "none"] ∧ Sheet.nameLists (scope.sheet rules) = ["fade-s,none-s"] ∧
      ¬ List.Forall₂ ReservedKept (Sheet.nameLists rules) (Sheet.nameLists (scope.sheet rules)) := by
  intro scope running rules
  have hparse : Sheet.parse "a\x7banimation:1s inherit 2s x;animation-name:fade, none\x7d" = .ok rules := by
    decide +kernel
  have hlist : NameList "fade, none" ["fade", "none"] :=
    ⟨by decide +kernel, by decide +kernel, by decide +kernel⟩
  obtain ⟨hanimations, -, hlists⟩ := reserved_renamed scope
  obtain ⟨-, -, hslots⟩ := hanimations _ rules hparse running (by decide)
  have hall : ∀ value ∈ Sheet.nameLists rules, ∃ items, NameList value items := by
    intro value hv
    obtain rfl := List.mem_singleton.1 hv
    exact ⟨_, hlist⟩
  refine ⟨hparse, hslots .timingFunction "inherit" (by decide) rfl, hlist, by decide +kernel, fun hkept => ?_⟩
  have hnone := ((hlists rules).2 (by decide) hall).1 hkept
  exact hnone "fade, none" (by decide) _ hlist.split "none" (by decide) (by decide)

end StyleScope
