/-
What assigning keeps. Whatever is assigned was accepted by its slot, and no value is lost or made up: the values
of an animation are those of its definition in another order. Values that stand in the order of their slots go
back to those slots.
-/
import Mathlib.Data.List.Forall2
import StyleScope.Animation.Definition
import StyleScope.Proofs.Text.Ascii

namespace StyleScope.Animation

/-- The values of an animation, in the order of their slots. -/
def texts (a : Animation) : List String := a.entries.map (·.2)

/-- Every value may stand in its slot. -/
def Fits (a : Animation) : Prop := ∀ slot text, a.get? slot = some text → slot.accepts text

instance (a : Animation) : Decidable a.Fits :=
  decidable_of_iff (∀ slot ∈ Slot.all, ∀ text ∈ a.get? slot, slot.accepts text)
    ⟨fun h slot text => h slot (Slot.mem_all slot) text, fun h slot _ text => h slot text⟩

theorem texts_eq (a : Animation) : a.texts = a.arity.slots.filterMap a.get? := by cases a <;> rfl

theorem length_texts (a : Animation) : a.texts.length = a.arity.count := by cases a <;> rfl

theorem mem_texts {a : Animation} {text : String} : text ∈ a.texts ↔ ∃ slot, a.get? slot = some text := by
  simp [texts, entries, Slot.mem_all]

theorem mem_entries {a : Animation} {slot : Slot} {text : String} :
    (slot, text) ∈ a.entries ↔ a.get? slot = some text := by
  simp [entries, Slot.mem_all]

theorem map_fst_entries (a : Animation) : a.entries.map (·.1) = a.arity.slots := by cases a <;> rfl

theorem nodup_slots (arity : Arity) : arity.slots.Nodup := arity.slots_sublist.nodup Slot.nodup_all

/-- Slots that hold values make an animation exactly of these values. -/
theorem of_ofTexts? {texts : Slot → Option String} {arity : Arity} {a : Animation}
    (h : ofTexts? texts arity = some a) : a.arity = arity ∧ ∀ slot ∈ arity.slots, a.get? slot = texts slot := by
  cases arity <;> simp only [ofTexts?, bind, Option.bind_eq_some_iff, pure, Option.some.injEq] at h
  · obtain ⟨duration, hd, name, hn, rfl⟩ := h
    refine ⟨rfl, fun slot hs => ?_⟩
    simp only [Arity.slots, List.mem_cons, List.not_mem_nil, or_false] at hs
    rcases hs with rfl | rfl
    · exact hd.symm
    · exact hn.symm
  · obtain ⟨duration, hd, curve, hc, delay, hl, name, hn, rfl⟩ := h
    refine ⟨rfl, fun slot hs => ?_⟩
    simp only [Arity.slots, List.mem_cons, List.not_mem_nil, or_false] at hs
    rcases hs with rfl | rfl | rfl | rfl
    · exact hd.symm
    · exact hc.symm
    · exact hl.symm
    · exact hn.symm
  · obtain ⟨duration, hd, curve, hc, delay, hl, count, hi, direction, hr, fill, hf, play, hp, name, hn, rfl⟩ := h
    refine ⟨rfl, fun slot _ => ?_⟩
    cases slot
    · exact hd.symm
    · exact hc.symm
    · exact hl.symm
    · exact hi.symm
    · exact hr.symm
    · exact hf.symm
    · exact hp.symm
    · exact hn.symm

namespace Assignment

/-- One step of `placeAll`. -/
theorem placeAll_cons_eq_ok {A B : Assignment} {token : String} {tokens : List String}
    (h : A.placeAll (token :: tokens) = .ok B) :
    ∃ slot, slot ∈ A.openSlots ∧ slot.accepts token ∧ (A.fill slot token).placeAll tokens = .ok B := by
  rw [placeAll] at h
  split at h
  · next slot C hp =>
    obtain ⟨ho, ha, rfl⟩ := of_place?_eq_some hp
    exact ⟨slot, ho, ha, h⟩
  · cases h

theorem arity_of_placeAll {A B : Assignment} {tokens : List String} (h : A.placeAll tokens = .ok B) :
    B.arity = A.arity := by
  induction tokens generalizing A with
  | nil => cases h; rfl
  | cons token tokens ih =>
    obtain ⟨slot, -, -, h⟩ := placeAll_cons_eq_ok h
    have := ih h
    exact this

/-! ## What is assigned was accepted -/

/-- Every value assigned so far may stand in its slot. -/
def Fits (A : Assignment) : Prop := ∀ slot text, A.texts slot = some text → slot.accepts text

theorem fits_fill {A : Assignment} {slot : Slot} {token : String} (h : A.Fits) (ha : slot.accepts token) :
    (A.fill slot token).Fits := by
  intro s text ht
  by_cases hs : s = slot
  · subst hs
    rw [texts_fill_self] at ht
    cases ht
    exact ha
  · rw [texts_fill_of_ne _ _ hs] at ht
    exact h s text ht

theorem fits_of_placeAll {A B : Assignment} {tokens : List String} (h : A.placeAll tokens = .ok B)
    (hA : A.Fits) : B.Fits := by
  induction tokens generalizing A with
  | nil => cases h; exact hA
  | cons token tokens ih =>
    obtain ⟨slot, -, ha, h⟩ := placeAll_cons_eq_ok h
    exact ih h (fits_fill hA ha)

/-! ## No value is lost or made up -/

/-- The values assigned so far, in the order of their slots. -/
def held (A : Assignment) : List String := A.arity.slots.filterMap A.texts

theorem filterMap_fill {A : Assignment} {slot : Slot} (token : String) (hn : A.texts slot = none) {slots : List Slot}
    (hd : slots.Nodup) (hs : slot ∈ slots) :
    (slots.filterMap (A.fill slot token).texts).Perm (token :: slots.filterMap A.texts) := by
  induction slots with
  | nil => cases hs
  | cons s slots ih =>
    obtain ⟨hns, hd⟩ := List.nodup_cons.1 hd
    by_cases he : s = slot
    · subst he
      have hrest : slots.filterMap (A.fill s token).texts = slots.filterMap A.texts :=
        List.filterMap_congr fun t ht => texts_fill_of_ne A token fun h => hns (h ▸ ht)
      rw [List.filterMap_cons_some (texts_fill_self A s token), List.filterMap_cons_none hn, hrest]
    · have ih := ih hd (List.mem_of_ne_of_mem (fun h => he h.symm) hs)
      have hsame := texts_fill_of_ne A token he
      cases ht : A.texts s with
      | none =>
        rw [List.filterMap_cons_none (hsame.trans ht), List.filterMap_cons_none ht]
        exact ih
      | some text =>
        rw [List.filterMap_cons_some (hsame.trans ht), List.filterMap_cons_some ht]
        exact (ih.cons text).trans (.swap token text _)

theorem held_fill {A : Assignment} {slot : Slot} (token : String) (h : slot ∈ A.openSlots) :
    (A.fill slot token).held.Perm (token :: A.held) := by
  obtain ⟨hs, hn⟩ := mem_openSlots.1 h
  exact filterMap_fill token hn (nodup_slots A.arity) hs

theorem held_of_placeAll {A B : Assignment} {tokens : List String} (h : A.placeAll tokens = .ok B) :
    B.held.Perm (tokens ++ A.held) := by
  induction tokens generalizing A with
  | nil =>
    cases h
    exact .refl _
  | cons token tokens ih =>
    obtain ⟨slot, ho, -, h⟩ := placeAll_cons_eq_ok h
    exact ((ih h).trans ((held_fill token ho).append_left tokens)).trans List.perm_middle

theorem held_empty (arity : Arity) : (empty arity).held = [] := by
  cases arity <;> rfl

/-! ## Values in the order of their slots -/

/-- The assignment that holds the values of an animation in these slots. -/
def holding (a : Animation) (slots : List Slot) : Assignment :=
  ⟨a.arity, fun slot => if slot ∈ slots then a.get? slot else none⟩

theorem openSlots_holding {a : Animation} {front rest : List Slot} (h : a.arity.slots = front ++ rest) :
    (holding a front).openSlots = rest := by
  have hn : (front ++ rest).Nodup := h ▸ nodup_slots a.arity
  obtain ⟨-, -, hd⟩ := List.nodup_append.1 hn
  have hf : front.filter (fun slot => ((holding a front).texts slot).isNone) = [] := by
    rw [List.filter_eq_nil_iff]
    intro slot hs
    have := (a.get?_isSome_iff slot).2 (h ▸ List.mem_append_left _ hs)
    simpa [holding, hs, Option.isSome_iff_ne_none] using this
  have hr : rest.filter (fun slot => ((holding a front).texts slot).isNone) = rest := by
    rw [List.filter_eq_self]
    intro slot hs
    have : slot ∉ front := fun hm => hd slot hm slot hs rfl
    simp [holding, this]
  have ha : (holding a front).arity.slots = front ++ rest := h
  rw [openSlots, ha, List.filter_append, hf, hr, List.nil_append]

theorem fill_holding {a : Animation} {slot : Slot} {text : String} (front : List Slot)
    (h : a.get? slot = some text) : (holding a front).fill slot text = holding a (front ++ [slot]) := by
  simp only [fill, holding, Assignment.mk.injEq, true_and]
  funext s
  by_cases hs : s = slot
  · subst hs
    simp [h]
  · simp [hs]

/-- **Values in the order of their slots go back to those slots.** -/
theorem placeAll_holding {a : Animation} (hfit : a.Fits) {front rest : List Slot}
    (h : a.arity.slots = front ++ rest) :
    (holding a front).placeAll (rest.filterMap a.get?) = .ok (holding a a.arity.slots) := by
  induction rest generalizing front with
  | nil =>
    rw [List.append_nil] at h
    rw [h]
    rfl
  | cons slot rest ih =>
    have hs := (a.get?_isSome_iff slot).2 (h ▸ List.mem_append_right _ List.mem_cons_self)
    obtain ⟨text, ht⟩ := Option.isSome_iff_exists.1 hs
    have hp : (holding a front).place? text = some (slot, holding a (front ++ [slot])) := by
      rw [place?, openSlots_holding h, List.find?_cons, hfit slot text ht, Option.map_some, fill_holding front ht]
    rw [List.filterMap_cons_some ht, placeAll, hp]
    exact ih (by rw [h, List.append_assoc, List.singleton_append])

theorem build?_holding {a : Animation} (h : ∀ text ∈ a.texts, text ≠ "") :
    (holding a a.arity.slots).build? = some a := by
  have he : (fun slot => ((holding a a.arity.slots).texts slot).filter fun text => !text.isEmpty) = a.get? := by
    funext slot
    cases hg : a.get? slot with
    | none => simp [holding, hg]
    | some text =>
      have hs : slot ∈ a.arity.slots := (a.get?_isSome_iff slot).1 (by rw [hg]; rfl)
      have hne : text ≠ "" := h text (mem_texts.2 ⟨slot, hg⟩)
      simp [holding, hs, hg, Option.filter, hne]
  rw [build?, he]
  exact ofTexts?_get? a

end Assignment

/-! ## Definitions -/

/-- **A definition whose values stand in the order of their slots is the animation of these values.** -/
theorem Definition.assign_texts {a : Animation} (hfit : a.Fits) (hne : ∀ text ∈ a.texts, text ≠ "")
    (text : String) : Definition.assign ⟨text, a.texts⟩ = .ok a := by
  have hp := Assignment.placeAll_holding hfit (List.nil_append a.arity.slots).symm
  have he : Assignment.holding a [] = Assignment.empty a.arity := by simp [Assignment.holding, Assignment.empty]
  rw [he, ← texts_eq] at hp
  simp only [assign, length_texts, Arity.ofCount?_count, hp, Assignment.build?_holding hne]

/-- **The animation of a definition holds the values of the definition**, each where it was accepted. -/
theorem Definition.of_assign {d : Definition} {a : Animation} (h : d.assign = .ok a) :
    a.Fits ∧ a.texts.Perm d.tokens := by
  unfold assign at h
  split at h
  · cases h
  · next arity hc =>
    split at h
    · cases h
    · next B hp =>
      split at h
      · next b hb =>
        cases h
        obtain ⟨ha, hg⟩ := of_ofTexts? hb
        have hB : B.arity = arity := Assignment.arity_of_placeAll hp
        have hfits : B.Fits := Assignment.fits_of_placeAll hp nofun
        have hval (slot : Slot) (text : String) (ht : a.get? slot = some text) : B.texts slot = some text := by
          have hs : slot ∈ a.arity.slots := (a.get?_isSome_iff slot).1 (by rw [ht]; rfl)
          rw [hg slot (ha ▸ hs), Option.filter_eq_some_iff] at ht
          exact ht.1
        have hheld : a.texts = B.held := by
          rw [texts_eq, Assignment.held, ha]
          refine List.filterMap_congr fun slot hs => ?_
          obtain ⟨text, ht⟩ := Option.isSome_iff_exists.1 ((a.get?_isSome_iff slot).2 (ha ▸ hs))
          rw [ht, hval slot text ht]
        have hperm := Assignment.held_of_placeAll hp
        rw [Assignment.held_empty, List.append_nil, ← hheld] at hperm
        exact ⟨fun slot text ht => hfits slot text (hval slot text ht), hperm⟩
      · cases h

theorem assigned_of_mapM {ds : List Definition} {as : List Animation} (h : ds.mapM Definition.assign = .ok as) :
    List.Forall₂ (fun d a => d.assign = .ok a) ds as := by
  induction ds generalizing as with
  | nil => cases h; exact .nil
  | cons d ds ih =>
    rw [List.mapM_cons] at h
    simp only [bind_eq_ok_iff] at h
    obtain ⟨a, ha, as, has, hr⟩ := h
    cases hr
    exact .cons ha (ih has)

theorem exists_definition_of_mapM {ds : List Definition} {as : List Animation}
    (h : ds.mapM Definition.assign = .ok as) {a : Animation} (ha : a ∈ as) : ∃ d ∈ ds, d.assign = .ok a := by
  have hassign := assigned_of_mapM h
  obtain ⟨i, hi, rfl⟩ := List.mem_iff_getElem.1 ha
  have hlt := hassign.length_eq ▸ hi
  exact ⟨ds[i], List.getElem_mem hlt, hassign.get hlt hi⟩

/-- **Every value of an animation that was read fits its slot.** -/
theorem fits_of_ofValue {value : String} {as : List Animation} (h : ofValue value = .ok as) {a : Animation}
    (ha : a ∈ as) : a.Fits := by
  simp only [ofValue, bind_eq_ok_iff] at h
  obtain ⟨ds, -, hm⟩ := h
  obtain ⟨d, -, hassign⟩ := exists_definition_of_mapM hm ha
  exact (Definition.of_assign hassign).1

end StyleScope.Animation
