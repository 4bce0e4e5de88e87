/-
The animation shorthand: its sub-properties, how many of them a definition has, and one animation, the values of
a definition each in its slot. The order in `Slot.all` is both the precedence in which values are assigned and the
order in which they are written. Which slots there are is fixed by the number of values, so an animation cannot
lack one (`get?_isSome_iff`).
-/

namespace StyleScope

namespace Animation

/-! ## Slots -/

/-- A sub-property that a value of an animation definition can belong to. -/
inductive Slot where
  | duration
  | timingFunction
  | delay
  | iterationCount
  | direction
  | fillMode
  | playState
  | name
deriving Repr, DecidableEq

namespace Slot

/-- All slots, in their order of precedence. -/
def all : List Slot :=
  [.duration, .timingFunction, .delay, .iterationCount, .direction, .fillMode, .playState, .name]

/-- The property that sets the slot alone. -/
def property : Slot → String
  | .duration => "animation-duration"
  | .timingFunction => "animation-timing-function"
  | .delay => "animation-delay"
  | .iterationCount => "animation-iteration-count"
  | .direction => "animation-direction"
  | .fillMode => "animation-fill-mode"
  | .playState => "animation-play-state"
  | .name => "animation-name"

theorem mem_all (slot : Slot) : slot ∈ all := by cases slot <;> decide

theorem nodup_all : all.Nodup := by decide

end Slot

/-- The numbers of values that a definition can have. -/
inductive Arity where
  | two
  | four
  | eight
deriving Repr, DecidableEq

namespace Arity

/-- The number of values. -/
def count : Arity → Nat
  | .two => 2
  | .four => 4
  | .eight => 8

/-- The arity with this number of values, if there is one. -/
def ofCount? : Nat → Option Arity
  | 2 => some .two
  | 4 => some .four
  | 8 => some .eight
  | _ => none

/-- The slots of a definition, in their order of precedence. -/
def slots : Arity → List Slot
  | .two => [.duration, .name]
  | .four => [.duration, .timingFunction, .delay, .name]
  | .eight => Slot.all

theorem ofCount?_count (arity : Arity) : ofCount? arity.count = some arity := by cases arity <;> rfl

theorem count_of_ofCount? {n : Nat} {arity : Arity} (h : ofCount? n = some arity) : arity.count = n := by
  unfold ofCount? at h
  split at h <;> cases h <;> rfl

theorem length_slots (arity : Arity) : arity.slots.length = arity.count := by cases arity <;> rfl

theorem slots_sublist (arity : Arity) : arity.slots.Sublist Slot.all := by cases arity <;> decide

end Arity

end Animation

/-! ## Animations -/

/-- The values of an animation definition, by slot. -/
inductive Animation where
  /-- The two required values. -/
  | two (duration name : String)
  /-- With a curve and a delay. -/
  | four (duration timingFunction delay name : String)
  /-- With a value in every slot. -/
  | eight (duration timingFunction delay iterationCount direction fillMode playState name : String)
deriving Repr, DecidableEq

namespace Animation

/-- How many values the animation has. -/
def arity : Animation → Arity
  | .two .. => .two
  | .four .. => .four
  | .eight .. => .eight

/-- The value in a slot, if the animation has that slot. -/
def get? : Animation → Slot → Option String
  | .two duration _, .duration => some duration
  | .two _ name, .name => some name
  | .two .., _ => none
  | .four duration _ _ _, .duration => some duration
  | .four _ timingFunction _ _, .timingFunction => some timingFunction
  | .four _ _ delay _, .delay => some delay
  | .four _ _ _ name, .name => some name
  | .four .., _ => none
  | .eight duration _ _ _ _ _ _ _, .duration => some duration
  | .eight _ timingFunction _ _ _ _ _ _, .timingFunction => some timingFunction
  | .eight _ _ delay _ _ _ _ _, .delay => some delay
  | .eight _ _ _ iterationCount _ _ _ _, .iterationCount => some iterationCount
  | .eight _ _ _ _ direction _ _ _, .direction => some direction
  | .eight _ _ _ _ _ fillMode _ _, .fillMode => some fillMode
  | .eight _ _ _ _ _ _ playState _, .playState => some playState
  | .eight _ _ _ _ _ _ _ name, .name => some name

/-- The keyframes that the animation runs. -/
def name : Animation → String
  | .two _ name => name
  | .four _ _ _ name => name
  | .eight _ _ _ _ _ _ _ name => name

/-- The animation with other keyframes to run. -/
def withName (name : String) : Animation → Animation
  | .two duration _ => .two duration name
  | .four duration timingFunction delay _ => .four duration timingFunction delay name
  | .eight duration timingFunction delay iterationCount direction fillMode playState _ =>
    .eight duration timingFunction delay iterationCount direction fillMode playState name

/-- The slots with their values, in order. -/
def entries (a : Animation) : List (Slot × String) :=
  Slot.all.filterMap fun slot => (a.get? slot).map (slot, ·)

/-- The animation with these values in its slots, if none that it needs is missing. -/
def ofTexts? (texts : Slot → Option String) : Arity → Option Animation
  | .two => do
    return .two (← texts .duration) (← texts .name)
  | .four => do
    return .four (← texts .duration) (← texts .timingFunction) (← texts .delay) (← texts .name)
  | .eight => do
    return .eight (← texts .duration) (← texts .timingFunction) (← texts .delay)
      (← texts .iterationCount) (← texts .direction) (← texts .fillMode) (← texts .playState)
      (← texts .name)

theorem get?_isSome_iff (a : Animation) (slot : Slot) : (a.get? slot).isSome ↔ slot ∈ a.arity.slots := by
  cases a <;> cases slot <;> simp [get?, arity, Arity.slots, Slot.all]

theorem get?_name (a : Animation) : a.get? .name = some a.name := by cases a <;> rfl

theorem name_withName (name : String) (a : Animation) : (a.withName name).name = name := by
  cases a <;> rfl

theorem get?_withName_of_ne (name : String) (a : Animation) {slot : Slot} (h : slot ≠ .name) :
    (a.withName name).get? slot = a.get? slot := by
  cases a <;> cases slot <;> first | rfl | exact absurd rfl h

theorem ofTexts?_get? (a : Animation) : ofTexts? a.get? a.arity = some a := by cases a <;> rfl

end Animation

end StyleScope
