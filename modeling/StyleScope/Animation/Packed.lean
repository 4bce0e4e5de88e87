/-
An assignment in a byte and an array. The slots that hold a value are bits of one byte, the values stand in an array of
eight cells, and both are indexed by the place of a slot among all. Nothing but the way it is filled keeps the byte and
the array in step.
-/
import StyleScope.Animation.Assignment

namespace StyleScope.Animation

/-- The place of a slot among all, in order of precedence. -/
def Slot.index : Slot → Fin 8
  | .duration => 0
  | .timingFunction => 1
  | .delay => 2
  | .iterationCount => 3
  | .direction => 4
  | .fillMode => 5
  | .playState => 6
  | .name => 7

/-- A set of slots, a bit for each. -/
abbrev SlotSet := BitVec 8

/-- The set of one slot. -/
def Slot.flag (slot : Slot) : SlotSet := BitVec.twoPow 8 slot.index

namespace SlotSet

/-- The set of these slots. -/
def ofList (slots : List Slot) : SlotSet := slots.foldl (fun set slot => set ||| slot.flag) 0#8

/-- All bits of the slot are in the set. -/
def contains (set : SlotSet) (slot : Slot) : Bool := set &&& slot.flag == slot.flag

end SlotSet

/-- The values assigned so far, and a bit for each slot that holds one. -/
structure Packed where
  /-- Which slots there are. -/
  arity : Arity
  /-- The slots that hold a value. -/
  filled : SlotSet
  /-- The values, each at the index of its slot. -/
  cells : Vector (Option String) 8
deriving DecidableEq

namespace Packed

/-- No value is assigned yet. -/
def empty (arity : Arity) : Packed := ⟨arity, 0#8, Vector.replicate 8 none⟩

/-- The slots that wait for a value. -/
def openSlots (p : Packed) : SlotSet := SlotSet.ofList p.arity.slots &&& ~~~p.filled

/-- What stands at the index of a slot. -/
def cell (p : Packed) (slot : Slot) : Option String := p.cells[slot.index]

/-- Puts a value into a slot. -/
def fill (p : Packed) (slot : Slot) (token : String) : Packed :=
  { p with filled := p.filled ||| slot.flag, cells := p.cells.set slot.index (some token) }

/-- Puts a value into the first open slot that accepts it, and says into which. -/
def place (p : Packed) (token : String) : Option Slot × Packed :=
  match Slot.all.find? (SlotSet.ofList (candidates token) &&& p.openSlots).contains with
  | some slot => (some slot, p.fill slot token)
  | none => (none, p)

/-- The animation, if no slot is open and no value is empty. -/
def build? (p : Packed) : Option Animation :=
  if p.openSlots = 0#8 then ofTexts? (fun slot => (p.cell slot).filter fun text => !text.isEmpty) p.arity else none

end Packed

/-- Puts a value into the first open slot that accepts it, and says into which; a value without one changes nothing. -/
def Assignment.offer (a : Assignment) (token : String) : Option Slot × Assignment :=
  match a.place? token with
  | some (slot, a) => (some slot, a)
  | none => (none, a)

/-- Places values one after the other, and keeps with each the slot it was put into. -/
def run {σ : Type} (place : σ → String → Option Slot × σ) (start : σ) (tokens : List String) :
    List (String × Option Slot) × σ :=
  tokens.foldl (fun (calls, state) token => (calls ++ [(token, (place state token).1)], (place state token).2)) ([], start)

end StyleScope.Animation
