/-
Filling the slots of an assignment. Each value that is placed takes one open slot, and a slot that holds a value keeps
it. So as many values as there are slots leave no slot open, and then nothing is missing from what is built: a
definition fails only by the number of its values or by a value that no open slot accepts.
-/
import StyleScope.Proofs.Animation.Assignment

namespace StyleScope.Animation

/-- Slots that all hold a value make an animation. -/
theorem exists_ofTexts? {texts : Slot → Option String} {arity : Arity}
    (h : ∀ slot ∈ arity.slots, ∃ text, texts slot = some text) : ∃ a, ofTexts? texts arity = some a := by
  cases arity with
  | two =>
    obtain ⟨duration, hd⟩ := h .duration (by decide)
    obtain ⟨name, hn⟩ := h .name (by decide)
    exact ⟨.two duration name, by simp [ofTexts?, hd, hn]⟩
  | four =>
    obtain ⟨duration, hd⟩ := h .duration (by decide)
    obtain ⟨curve, hc⟩ := h .timingFunction (by decide)
    obtain ⟨delay, hl⟩ := h .delay (by decide)
    obtain ⟨name, hn⟩ := h .name (by decide)
    exact ⟨.four duration curve delay name, by simp [ofTexts?, hd, hc, hl, hn]⟩
  | eight =>
    have hall (slot : Slot) : ∃ text, texts slot = some text := h slot (Slot.mem_all slot)
    choose text htext using hall
    exact ⟨.eight (text .duration) (text .timingFunction) (text .delay) (text .iterationCount) (text .direction)
      (text .fillMode) (text .playState) (text .name), by simp [ofTexts?, htext]⟩

namespace Assignment

variable {A B : Assignment} {slot : Slot} {token text : String} {tokens : List String}

/-! ## Open slots -/

theorem nodup_openSlots (A : Assignment) : A.openSlots.Nodup := (nodup_slots A.arity).filter _

theorem openSlots_empty (arity : Arity) : (empty arity).openSlots = arity.slots := by cases arity <;> rfl

theorem openSlots_fill (A : Assignment) (slot : Slot) (token : String) :
    (A.fill slot token).openSlots = A.openSlots.erase slot := by
  rw [(nodup_openSlots A).erase_eq_filter, openSlots, openSlots, List.filter_filter]
  refine List.filter_congr fun s _ => ?_
  by_cases hs : s = slot
  · subst hs
    simp [texts_fill_self]
  · simp [texts_fill_of_ne A token hs, hs]

/-- **Each value takes one open slot.** -/
theorem length_openSlots_of_placeAll (h : A.placeAll tokens = .ok B) :
    B.openSlots.length + tokens.length = A.openSlots.length := by
  induction tokens generalizing A with
  | nil =>
    cases h
    rfl
  | cons token tokens ih =>
    obtain ⟨slot, ho, -, h⟩ := placeAll_cons_eq_ok h
    have hlen := ih h
    have hpos := List.length_pos_of_mem ho
    rw [openSlots_fill, List.length_erase_of_mem ho] at hlen
    rw [List.length_cons]
    omega

/-! ## Slots that hold a value -/

/-- A slot that holds a value keeps it. -/
theorem texts_of_placeAll (h : A.placeAll tokens = .ok B) (ht : A.texts slot = some text) :
    B.texts slot = some text := by
  induction tokens generalizing A with
  | nil =>
    cases h
    exact ht
  | cons token tokens ih =>
    obtain ⟨s, ho, -, h⟩ := placeAll_cons_eq_ok h
    have hne : slot ≠ s := by
      rintro rfl
      rw [(mem_openSlots.1 ho).2] at ht
      cases ht
    exact ih h ((texts_fill_of_ne A token hne).trans ht)

/-- A slot that is filled holds one of the values, which it accepts. -/
theorem accepts_of_placeAll (h : A.placeAll tokens = .ok B) (hn : A.texts slot = none)
    (ht : B.texts slot = some text) : slot.accepts text ∧ text ∈ tokens := by
  induction tokens generalizing A with
  | nil =>
    cases h
    rw [hn] at ht
    cases ht
  | cons token tokens ih =>
    obtain ⟨s, -, ha, h⟩ := placeAll_cons_eq_ok h
    by_cases hs : slot = s
    · subst hs
      have hheld := texts_of_placeAll h (texts_fill_self A slot token)
      rw [ht] at hheld
      cases hheld
      exact ⟨ha, List.mem_cons_self⟩
    · obtain ⟨hacc, hmem⟩ := ih h ((texts_fill_of_ne A token hs).trans hn)
      exact ⟨hacc, List.mem_cons_of_mem token hmem⟩

/-- Placing stops at the first value that no open slot accepts. -/
theorem of_placeAll_eq_error (h : A.placeAll tokens = .error token) :
    ∃ front rest B, tokens = front ++ token :: rest ∧ A.placeAll front = .ok B ∧ B.place? token = none := by
  induction tokens generalizing A with
  | nil => cases h
  | cons t tokens ih =>
    rw [placeAll] at h
    split at h
    · next slot C hp =>
      obtain ⟨front, rest, B, rfl, hfront, hnone⟩ := ih h
      exact ⟨t :: front, rest, B, rfl, by rw [placeAll, hp]; exact hfront, hnone⟩
    · next hp =>
      cases h
      exact ⟨[], tokens, A, rfl, rfl, hp⟩

/-! ## Full assignments -/

theorem exists_text_of_openSlots (h : B.openSlots = []) (hs : slot ∈ B.arity.slots) :
    ∃ text, B.texts slot = some text := by
  cases ht : B.texts slot with
  | some text => exact ⟨text, rfl⟩
  | none =>
    have hopen := mem_openSlots.2 ⟨hs, ht⟩
    rw [h] at hopen
    cases hopen

/-- **An assignment without open slots is an animation**, if no value is empty. -/
theorem exists_build? (h : B.openSlots = []) (hne : ∀ slot text, B.texts slot = some text → text ≠ "") :
    ∃ a, B.build? = some a ∧ a.arity = B.arity ∧ ∀ slot ∈ B.arity.slots, a.get? slot = B.texts slot := by
  have hkept : (fun slot => (B.texts slot).filter fun text => !text.isEmpty) = B.texts := by
    funext slot
    cases ht : B.texts slot with
    | none => rfl
    | some text => simp [Option.filter, hne slot text ht]
  obtain ⟨a, ha⟩ := exists_ofTexts? fun slot hs => exists_text_of_openSlots h hs
  refine ⟨a, ?_, of_ofTexts? ha⟩
  rw [build?, hkept]
  exact ha

end Assignment

/-! ## Definitions -/

namespace Definition

variable {d : Definition} {arity : Arity} {B : Assignment}

/-- **When every value is placed, nothing is missing.** -/
theorem exists_assign (hc : Arity.ofCount? d.tokens.length = some arity) (hne : ∀ token ∈ d.tokens, token ≠ "")
    (h : (Assignment.empty arity).placeAll d.tokens = .ok B) :
    ∃ a, d.assign = .ok a ∧ a.arity = arity ∧ ∀ slot ∈ arity.slots, a.get? slot = B.texts slot := by
  have harity : B.arity = arity := Assignment.arity_of_placeAll h
  have hlen := Assignment.length_openSlots_of_placeAll h
  rw [Assignment.openSlots_empty, Arity.length_slots, Arity.count_of_ofCount? hc] at hlen
  have hopen : B.openSlots = [] := List.length_eq_zero_iff.1 (by omega)
  obtain ⟨a, hb, ha, hget⟩ := Assignment.exists_build? hopen fun slot text ht =>
    hne text (Assignment.accepts_of_placeAll h rfl ht).2
  rw [harity] at ha hget
  exact ⟨a, by simp only [assign, hc, h, hb], ha, hget⟩

/-- **A definition fails by the number of its values, or by a value that cannot be placed.** -/
theorem of_assign_eq_error {e : Error} (hne : ∀ token ∈ d.tokens, token ≠ "") (h : d.assign = .error e) :
    Arity.ofCount? d.tokens.length = none ∧ e = .animationArity d.text d.tokens.length ∨
      ∃ arity token, Arity.ofCount? d.tokens.length = some arity ∧
        (Assignment.empty arity).placeAll d.tokens = .error token ∧ e = .animationSlot d.text token := by
  cases hc : Arity.ofCount? d.tokens.length with
  | none =>
    simp only [assign, hc] at h
    cases h
    exact .inl ⟨rfl, rfl⟩
  | some arity =>
    cases hp : (Assignment.empty arity).placeAll d.tokens with
    | error token =>
      simp only [assign, hc, hp] at h
      cases h
      exact .inr ⟨arity, token, rfl, hp, rfl⟩
    | ok B =>
      obtain ⟨a, ha, -⟩ := exists_assign hc hne hp
      rw [ha] at h
      cases h

end Definition

end StyleScope.Animation
