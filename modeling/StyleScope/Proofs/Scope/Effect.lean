/-
What scoping changes, and that it changes nothing else. A tree is taken apart into its labels, the texts that
scoping rewrites, in the order of the sheet, and the tree that is left when they are erased. Scoping rewrites each
label once, where it stands, and leaves the rest. A tree is given by its labels and the rest (`Sheet.eq_of_erased`),
so this says all that scoping does (`rewrites_iff_eq_sheet`).
-/
import Mathlib.Data.List.Forall2
import StyleScope.Scope.Basic

namespace StyleScope

/-! ## Labels -/

/-- A text that scoping rewrites, by what it is. -/
inductive Label where
  /-- A selector of a style rule. -/
  | selector (text : String)
  /-- The name of a rule of keyframes. -/
  | keyframes (name : String)
  /-- The name in an animation. -/
  | animation (name : String)
  /-- A list of names. -/
  | nameList (value : String)
deriving Repr, DecidableEq

namespace Label

/-- A label of the same kind with another text. -/
def withText (text : String) : Label → Label
  | .selector _ => .selector text
  | .keyframes _ => .keyframes text
  | .animation _ => .animation text
  | .nameList _ => .nameList text

/-- The text of a selector. -/
def selector? : Label → Option String
  | .selector text => some text
  | .keyframes _ | .animation _ | .nameList _ => none

/-- The name of a rule of keyframes. -/
def keyframes? : Label → Option String
  | .keyframes name => some name
  | .selector _ | .animation _ | .nameList _ => none

/-- The name in an animation. -/
def animation? : Label → Option String
  | .animation name => some name
  | .selector _ | .keyframes _ | .nameList _ => none

/-- The text of a list of names. -/
def nameList? : Label → Option String
  | .nameList value => some value
  | .selector _ | .keyframes _ | .animation _ => none

/-- Labels are given by their kinds, in order, and the texts of each kind. -/
theorem eq_of_texts {as bs : List Label} (hk : as.map (withText "") = bs.map (withText ""))
    (hs : as.filterMap selector? = bs.filterMap selector?)
    (hf : as.filterMap keyframes? = bs.filterMap keyframes?)
    (ha : as.filterMap animation? = bs.filterMap animation?)
    (hl : as.filterMap nameList? = bs.filterMap nameList?) : as = bs := by
  induction as generalizing bs with
  | nil => exact (List.map_eq_nil_iff.1 hk.symm).symm
  | cons a as ih =>
    cases bs with
    | nil => cases hk
    | cons b bs =>
      obtain ⟨hab, htail⟩ := List.cons.inj hk
      -- labels of one kind are the first of their kind on both sides
      cases a with
      | selector =>
        cases b <;> cases hab
        obtain ⟨rfl, hs'⟩ := List.cons.inj hs
        rw [ih htail hs' hf ha hl]
      | keyframes =>
        cases b <;> cases hab
        obtain ⟨rfl, hf'⟩ := List.cons.inj hf
        rw [ih htail hs hf' ha hl]
      | animation =>
        cases b <;> cases hab
        obtain ⟨rfl, ha'⟩ := List.cons.inj ha
        rw [ih htail hs hf ha' hl]
      | nameList =>
        cases b <;> cases hab
        obtain ⟨rfl, hl'⟩ := List.cons.inj hl
        rw [ih htail hs hf ha hl']

end Label

/-- The labels of a declaration, in order. -/
def Declaration.labels : Declaration → List Label
  | .other .. => []
  | .animationName value => [.nameList value]
  | .animation animations => animations.map fun a => .animation a.name

mutual

/-- The labels of a rule, at every depth. -/
def Rule.labels : Rule → List Label
  | .style selectors declarations => selectors.map .selector ++ declarations.flatMap Declaration.labels
  | .keyframes name _ => [.keyframes name]
  | .conditional _ _ rules => Sheet.labels rules

/-- The labels of a sheet, at every depth. -/
def Sheet.labels : List Rule → List Label
  | [] => []
  | rule :: rules => rule.labels ++ Sheet.labels rules

end

namespace Sheet

/-- The selectors of a sheet, at every depth. -/
def allSelectors (rules : Sheet) : List String := (labels rules).filterMap Label.selector?

/-- The names of the keyframes that a sheet defines, at every depth. -/
def keyframesNames (rules : Sheet) : List String := (labels rules).filterMap Label.keyframes?

/-- The names in the animations of a sheet, at every depth. -/
def animationNames (rules : Sheet) : List String := (labels rules).filterMap Label.animation?

/-- The lists of names of a sheet, at every depth. -/
def nameLists (rules : Sheet) : List String := (labels rules).filterMap Label.nameList?

end Sheet

theorem Declaration.keyframes?_of_mem_labels {d : Declaration} {l : Label} (h : l ∈ d.labels) :
    l.keyframes? = none := by
  cases d with
  | other => cases h
  | animationName value =>
    obtain rfl := List.mem_singleton.1 h
    rfl
  | animation animations =>
    obtain ⟨a, -, rfl⟩ := List.mem_map.1 h
    rfl

section KeyframesNames

variable {ss : List String} {ds : List Declaration} {name body condition : String} {kind : ConditionalKind}
  {rules inner : Sheet}

@[simp] theorem Sheet.keyframesNames_style :
    Sheet.keyframesNames (.style ss ds :: rules) = Sheet.keyframesNames rules := by
  have hs : ss.filterMap (Label.keyframes? ∘ Label.selector) = [] := List.filterMap_eq_nil_iff.2 fun _ _ => rfl
  have hd : (ds.flatMap Declaration.labels).filterMap Label.keyframes? = [] := by
    refine List.filterMap_eq_nil_iff.2 fun l hl => ?_
    obtain ⟨d, -, hl⟩ := List.mem_flatMap.1 hl
    exact Declaration.keyframes?_of_mem_labels hl
  simp only [keyframesNames, labels, Rule.labels, List.filterMap_append, List.filterMap_map, hs, hd, List.nil_append]

@[simp] theorem Sheet.keyframesNames_keyframes :
    Sheet.keyframesNames (.keyframes name body :: rules) = name :: Sheet.keyframesNames rules := rfl

@[simp] theorem Sheet.keyframesNames_conditional : Sheet.keyframesNames (.conditional kind condition inner :: rules) =
    Sheet.keyframesNames inner ++ Sheet.keyframesNames rules := List.filterMap_append

end KeyframesNames

/-! ## Relabelling -/

section Relabel

variable (f : Label → String)

/-- The declaration with a text of its own for each label. -/
def Declaration.relabel : Declaration → Declaration
  | .other property value => .other property value
  | .animationName value => .animationName (f (.nameList value))
  | .animation animations => .animation (animations.map fun a => a.withName (f (.animation a.name)))

mutual

/-- The rule with a text of its own for each label. -/
def Rule.relabel : Rule → Rule
  | .style selectors declarations =>
    .style (selectors.map fun s => f (.selector s)) (declarations.map (·.relabel f))
  | .keyframes name body => .keyframes (f (.keyframes name)) body
  | .conditional kind condition rules => .conditional kind condition (Sheet.relabel rules)

/-- The sheet with a text of its own for each label. -/
def Sheet.relabel : List Rule → List Rule
  | [] => []
  | rule :: rules => rule.relabel :: Sheet.relabel rules

end

theorem Declaration.labels_relabel (d : Declaration) :
    (d.relabel f).labels = d.labels.map fun l => l.withText (f l) := by
  cases d with
  | other | animationName => rfl
  | animation animations =>
    simp [relabel, labels, Animation.name_withName, Label.withText]

mutual

theorem Rule.labels_relabel :
    (rule : Rule) → (rule.relabel f).labels = rule.labels.map fun l => l.withText (f l)
  | .style selectors declarations => by
    simp [Rule.relabel, Rule.labels, List.flatMap_map, List.map_flatMap, Declaration.labels_relabel,
      Label.withText]
  | .keyframes .. => rfl
  | .conditional _ _ rules => Sheet.labels_relabel rules

/-- **Relabelling changes the text of each label; none is added, lost or moved.** -/
theorem Sheet.labels_relabel :
    (rules : List Rule) → Sheet.labels (Sheet.relabel f rules) = (Sheet.labels rules).map fun l => l.withText (f l)
  | [] => rfl
  | rule :: rules => by
    simp only [Sheet.relabel, Sheet.labels, List.map_append, Rule.labels_relabel rule, Sheet.labels_relabel rules]

end

end Relabel

/-! ## The rest of a tree -/

/-- The declaration without the texts of its labels. -/
def Declaration.erased (d : Declaration) : Declaration := d.relabel fun _ => ""

/-- The rule without the texts of its labels. -/
def Rule.erased (rule : Rule) : Rule := rule.relabel fun _ => ""

/-- The sheet without the texts of its labels. What is left is how many labels there are, how rules nest, their order
and kinds, conditions, bodies of keyframes, properties with their values, and of animations all but the names. -/
def Sheet.erased (rules : List Rule) : List Rule := Sheet.relabel (fun _ => "") rules

theorem Animation.withName_withName (a : Animation) (m n : String) : (a.withName m).withName n = a.withName n := by
  cases a <;> rfl

theorem Animation.withName_name (a : Animation) : a.withName a.name = a := by cases a <;> rfl

section Erased

variable (f : Label → String)

theorem Declaration.erased_relabel (d : Declaration) : (d.relabel f).erased = d.erased := by
  cases d with
  | other | animationName => rfl
  | animation animations => simp [erased, relabel, Animation.withName_withName]

mutual

theorem Rule.erased_relabel : (rule : Rule) → (rule.relabel f).erased = rule.erased
  | .style selectors declarations => by
    have hd := Declaration.erased_relabel f
    simp only [Declaration.erased] at hd
    simp [Rule.erased, Rule.relabel, hd, Function.comp_def]
  | .keyframes .. => rfl
  | .conditional kind condition rules => congrArg (Rule.conditional kind condition) (Sheet.erased_relabel rules)

/-- **Relabelling changes nothing but labels.** -/
theorem Sheet.erased_relabel : (rules : List Rule) → Sheet.erased (Sheet.relabel f rules) = Sheet.erased rules
  | [] => rfl
  | rule :: rules => congrArg₂ List.cons (Rule.erased_relabel rule) (Sheet.erased_relabel rules)

end

end Erased

/-! ## A tree is given by its labels and the rest -/

theorem Animation.eq_of_withName {a b : Animation} (h : a.withName "" = b.withName "") (hn : a.name = b.name) :
    a = b := by
  rw [← a.withName_name, ← a.withName_withName "" a.name, h, hn, b.withName_withName, b.withName_name]

/-- Where parts have as many labels as each other, the labels of the whole are those of the parts. -/
theorem Declaration.labels_inj {d e : Declaration} {x y : List Label} (h : d.erased = e.erased)
    (hl : d.labels ++ x = e.labels ++ y) : d.labels = e.labels ∧ x = y := by
  have hlen := congrArg (fun d : Declaration => d.labels.length) h
  simp only [Declaration.erased, Declaration.labels_relabel, List.length_map] at hlen
  exact List.append_inj hl hlen

theorem Rule.labels_inj {r s : Rule} {x y : List Label} (h : r.erased = s.erased)
    (hl : r.labels ++ x = s.labels ++ y) : r.labels = s.labels ∧ x = y := by
  have hlen := congrArg (fun r : Rule => r.labels.length) h
  simp only [Rule.erased, Rule.labels_relabel, List.length_map] at hlen
  exact List.append_inj hl hlen

theorem Declaration.eq_of_erased {d e : Declaration} (h : d.erased = e.erased) (hl : d.labels = e.labels) :
    d = e := by
  cases d <;> cases e <;> simp only [erased, relabel, reduceCtorEq] at h
  case other.other => exact h
  case animationName.animationName =>
    cases hl
    rfl
  case animation.animation as bs =>
    rw [Declaration.animation.injEq] at h ⊢
    induction as generalizing bs with
    | nil => exact (List.map_eq_nil_iff.1 h.symm).symm
    | cons a as ih =>
      cases bs with
      | nil => cases h
      | cons b bs =>
        obtain ⟨hab, h⟩ := List.cons.inj h
        obtain ⟨hname, hl⟩ := List.cons.inj hl
        rw [Animation.eq_of_withName hab (Label.animation.inj hname), ih bs h hl]

theorem Declaration.eq_of_map_erased {ds es : List Declaration} (h : ds.map erased = es.map erased)
    (hl : ds.flatMap labels = es.flatMap labels) : ds = es := by
  induction ds generalizing es with
  | nil => exact (List.map_eq_nil_iff.1 h.symm).symm
  | cons d ds ih =>
    cases es with
    | nil => cases h
    | cons e es =>
      obtain ⟨hde, h⟩ := List.cons.inj h
      obtain ⟨hd, hl⟩ := labels_inj hde hl
      rw [eq_of_erased hde hd, ih h hl]

mutual

theorem Rule.eq_of_erased : (r s : Rule) → r.erased = s.erased → r.labels = s.labels → r = s
  | .style ss ds, .style ts es, h, hl => by
    obtain ⟨hs, hd⟩ := Rule.style.inj h
    have hlen : (ss.map Label.selector).length = (ts.map Label.selector).length := by
      simpa using congrArg List.length hs
    obtain ⟨hls, hld⟩ := List.append_inj hl hlen
    rw [List.map_injective_iff.2 (fun _ _ => Label.selector.inj) hls, Declaration.eq_of_map_erased hd hld]
  | .keyframes _ x, .keyframes _ y, h, hl => by
    obtain ⟨-, rfl⟩ := Rule.keyframes.inj h
    cases hl
    rfl
  | .conditional _ _ rules, .conditional _ _ more, h, hl => by
    obtain ⟨rfl, rfl, hrest⟩ := Rule.conditional.inj h
    rw [Sheet.eq_of_erased rules more hrest hl]

/-- **A tree is given by its labels and the rest.** -/
theorem Sheet.eq_of_erased :
    (rules more : List Rule) → Sheet.erased rules = Sheet.erased more → Sheet.labels rules = Sheet.labels more →
      rules = more
  | [], [], _, _ => rfl
  | rule :: rules, other :: more, h, hl => by
    obtain ⟨hr, h⟩ := List.cons.inj h
    obtain ⟨hlr, hl⟩ := Rule.labels_inj hr hl
    rw [Rule.eq_of_erased rule other hr hlr, Sheet.eq_of_erased rules more h hl]

end

/-! ## Scoping -/

/-- What a label becomes inside the scope. -/
def Scope.text (scope : Scope) : Label → String
  | .selector text => scope.selector text
  | .keyframes name | .animation name => rename scope.name name
  | .nameList value => renameEach scope.name value

theorem Scope.declaration_eq_relabel (scope : Scope) (d : Declaration) :
    scope.declaration d = d.relabel scope.text := by cases d <;> rfl

mutual

theorem Scope.rule_eq_relabel (scope : Scope) : (rule : Rule) → scope.rule rule = rule.relabel scope.text
  | .style selectors declarations => by
    rw [Scope.rule, Rule.relabel, funext scope.declaration_eq_relabel]
    rfl
  | .keyframes .. => rfl
  | .conditional kind condition rules => congrArg (Rule.conditional kind condition) (scope.sheet_eq_relabel rules)

/-- **Scoping is relabelling.** -/
theorem Scope.sheet_eq_relabel (scope : Scope) :
    (rules : List Rule) → scope.sheet rules = Sheet.relabel scope.text rules
  | [] => rfl
  | rule :: rules => congrArg₂ List.cons (scope.rule_eq_relabel rule) (scope.sheet_eq_relabel rules)

end

/-- What a list of names becomes under a scope: item by item if it is split into several, else as it is written. -/
inductive ListRenamed (scope value : String) : String → Prop
  | whole : (∀ items, items? value = some items → items.length ≤ 1) →
    ListRenamed scope value (rename scope value)
  | items {items : List String} : items? value = some items → 1 < items.length →
    ListRenamed scope value (",".intercalate (items.map (rename scope)))

theorem listRenamed_renameEach (scope value : String) : ListRenamed scope value (renameEach scope value) := by
  unfold renameEach
  split
  · next first second more h => exact .items h (by simp)
  · next hfew =>
    refine .whole fun items h => ?_
    match items, h with
    | [], _ => exact Nat.zero_le 1
    | [_], _ => exact Nat.le_refl 1
    | first :: second :: more, h => exact (hfew first second more h).elim

theorem listRenamed_iff {scope value text : String} :
    ListRenamed scope value text ↔ text = renameEach scope value := by
  refine ⟨fun h => ?_, fun h => h ▸ listRenamed_renameEach scope value⟩
  cases h with
  | whole hfew =>
    unfold renameEach
    split
    · next first second more h => exact absurd (hfew _ h) (by simp)
    · rfl
  | @items items h hmany =>
    match items, hmany with
    | first :: second :: more, _ => rw [renameEach, h]

/-- Only a list of several names loses its blanks. -/
example : renameEach "s" "a , b" = "a-s,b-s" ∧ renameEach "s" "f(a, b)" = "f(a, b)-s" := by decide +kernel

namespace Scope

/-- The sheet `after` is the sheet `rules` with its selectors and names rewritten for the scope, each once and where it
stands, and with nothing else changed. -/
structure Rewrites (scope : Scope) (rules after : Sheet) : Prop where
  selectors : Sheet.allSelectors after =
    (Sheet.allSelectors rules).map fun s => "[" ++ scope.options.attributePrefix ++ scope.name ++ "] " ++ s
  keyframes : Sheet.keyframesNames after = (Sheet.keyframesNames rules).map (rename scope.name)
  animations : Sheet.animationNames after = (Sheet.animationNames rules).map (rename scope.name)
  nameLists : List.Forall₂ (ListRenamed scope.name) (Sheet.nameLists rules) (Sheet.nameLists after)
  rest : Sheet.erased after = Sheet.erased rules

/-- Labels of one kind are relabelled one by one. -/
theorem filterMap_labels_sheet (scope : Scope) (rules : Sheet) {kind : Label → Option String} {g : String → String}
    (h : ∀ l, kind (l.withText (scope.text l)) = (kind l).map g) :
    (Sheet.labels (scope.sheet rules)).filterMap kind = ((Sheet.labels rules).filterMap kind).map g := by
  rw [sheet_eq_relabel, Sheet.labels_relabel, List.filterMap_map, List.map_filterMap]
  exact List.filterMap_congr fun l _ => h l

theorem keyframesNames_sheet (scope : Scope) (rules : Sheet) :
    Sheet.keyframesNames (scope.sheet rules) = (Sheet.keyframesNames rules).map (rename scope.name) :=
  scope.filterMap_labels_sheet rules fun l => by cases l <;> rfl

theorem rewrites_sheet (scope : Scope) (rules : Sheet) : scope.Rewrites rules (scope.sheet rules) where
  selectors := scope.filterMap_labels_sheet rules fun l => by cases l <;> rfl
  keyframes := scope.keyframesNames_sheet rules
  animations := scope.filterMap_labels_sheet rules fun l => by cases l <;> rfl
  nameLists := by
    have h : Sheet.nameLists (scope.sheet rules) = (Sheet.nameLists rules).map (renameEach scope.name) :=
      scope.filterMap_labels_sheet rules fun l => by cases l <;> rfl
    rw [h, List.forall₂_map_right_iff, List.forall₂_same]
    exact fun value _ => listRenamed_renameEach scope.name value
  rest := by rw [sheet_eq_relabel, Sheet.erased_relabel]

theorem Rewrites.nameLists_eq {scope : Scope} {rules after : Sheet} (h : scope.Rewrites rules after) :
    Sheet.nameLists after = (Sheet.nameLists rules).map (renameEach scope.name) := by
  have hall := h.nameLists.imp fun _ _ hv => (listRenamed_iff.1 hv).symm
  rw [← List.forall₂_map_left_iff (f := renameEach scope.name) (R := Eq), List.forall₂_eq_eq_eq] at hall
  exact hall.symm

/-- What is rewritten for a scope is given by the sheet it is rewritten from. -/
theorem Rewrites.unique {scope : Scope} {rules after other : Sheet} (h : scope.Rewrites rules after)
    (h' : scope.Rewrites rules other) : after = other := by
  have hrest := h.rest.trans h'.rest.symm
  have hkinds : (Sheet.labels after).map (Label.withText "") = (Sheet.labels other).map (Label.withText "") := by
    have := congrArg Sheet.labels hrest
    simpa only [Sheet.erased, Sheet.labels_relabel] using this
  exact Sheet.eq_of_erased after other hrest (Label.eq_of_texts hkinds (h.selectors.trans h'.selectors.symm)
    (h.keyframes.trans h'.keyframes.symm) (h.animations.trans h'.animations.symm)
    (h.nameLists_eq.trans h'.nameLists_eq.symm))

/-- **Scoping rewrites all that it must, once, and nothing else.** The selectors, the names of keyframes, the names in
animations and the lists of names of the scoped sheet are those of the sheet, in order and at every depth, each
rewritten once; the rest is as it was. And no other sheet is so. -/
theorem rewrites_iff_eq_sheet (scope : Scope) (rules after : Sheet) :
    scope.Rewrites rules after ↔ after = scope.sheet rules :=
  ⟨fun h => h.unique (scope.rewrites_sheet rules), fun h => h ▸ scope.rewrites_sheet rules⟩

end Scope

end StyleScope
