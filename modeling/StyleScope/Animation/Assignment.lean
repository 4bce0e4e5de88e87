/-
Values are assigned to slots one by one: each goes to the first slot, in order of precedence, that is open
and accepts it. An assignment in which every slot of its arity holds a value is an animation.
-/
import StyleScope.Animation.Token

namespace StyleScope.Animation

/-- The values assigned so far. -/
structure Assignment where
  /-- Which slots there are. -/
  arity : Arity
  /-- The value in each slot that holds one. -/
  texts : Slot → Option String

namespace Assignment

/-- No value is assigned yet. -/
def empty (arity : Arity) : Assignment := ⟨arity, fun _ => none⟩

/-- The slots that hold a value. -/
def filled (a : Assignment) : List Slot := Slot.all.filter fun slot => (a.texts slot).isSome

/-- The slots that wait for a value. -/
def openSlots (a : Assignment) : List Slot := a.arity.slots.filter fun slot => (a.texts slot).isNone

/-- Puts a value into a slot. -/
def fill (a : Assignment) (slot : Slot) (token : String) : Assignment :=
  { a with texts := fun s => if s = slot then some token else a.texts s }

/-- Puts a value into the first open slot that accepts it, and says into which. -/
def place? (a : Assignment) (token : String) : Option (Slot × Assignment) :=
  (a.openSlots.find? (·.accepts token)).map fun slot => (slot, a.fill slot token)

/-- Places values in order; fails with the first that no open slot accepts. -/
def placeAll (a : Assignment) : List String → Except String Assignment
  | [] => .ok a
  | token :: tokens =>
    match a.place? token with
    | some (_, a) => a.placeAll tokens
    | none => .error token

/-- The animation, if every slot holds a value that is not empty. -/
def build? (a : Assignment) : Option Animation :=
  ofTexts? (fun slot => (a.texts slot).filter fun text => !text.isEmpty) a.arity

theorem mem_openSlots {a : Assignment} {slot : Slot} :
    slot ∈ a.openSlots ↔ slot ∈ a.arity.slots ∧ a.texts slot = none := by
  simp [openSlots]

theorem texts_fill_self (a : Assignment) (slot : Slot) (token : String) :
    (a.fill slot token).texts slot = some token := by
  simp [fill]

theorem texts_fill_of_ne (a : Assignment) {slot other : Slot} (token : String) (h : other ≠ slot) :
    (a.fill slot token).texts other = a.texts other := by
  simp [fill, h]

/-- A value has no place exactly when no open slot accepts it. -/
theorem place?_eq_none_iff {a : Assignment} {token : String} :
    a.place? token = none ↔ ∀ slot ∈ a.openSlots, slot.accepts token = false := by
  simp [place?]

/-- A value that is placed was accepted by a slot that was open. -/
theorem of_place?_eq_some {a b : Assignment} {token : String} {slot : Slot}
    (h : a.place? token = some (slot, b)) :
    slot ∈ a.openSlots ∧ slot.accepts token ∧ b = a.fill slot token := by
  simp only [place?, Option.map_eq_some_iff, Prod.mk.injEq] at h
  obtain ⟨s, hs, rfl, rfl⟩ := h
  have hp := List.find?_some (p := fun x : Slot => x.accepts token) hs
  exact ⟨List.mem_of_find?_eq_some hs, hp, rfl⟩

end Assignment

end StyleScope.Animation
