/-
What an animation value can be, by its text alone. The classes overlap: `paused` is a play state and may be
a name, and any time may be a duration or a delay. `Slot.accepts` says which slots a value fits.
-/
import StyleScope.Animation.Basic
import StyleScope.Text

namespace StyleScope.Animation

open Text

/-! ## Numerals

A sign, digits with a point, and an exponent, of which only a digit before the exponent is required. Digits
are those of any script. A numeral is read as far as it goes, and what remains decides what it is: nothing
for a number, a unit for a time. -/

/-- What remains after a sign, if there is one. -/
def afterSign : List Char → List Char
  | '+' :: cs => cs
  | '-' :: cs => cs
  | cs => cs

/-- What remains after a run of digits, of which there must be one. -/
def afterDigits? : List Char → Option (List Char)
  | [] => none
  | c :: cs => if isDecimalDigit c then some (cs.dropWhile isDecimalDigit) else none

/-- What remains after digits with a point before, among or after them, or with none. -/
def afterMantissa? (cs : List Char) : Option (List Char) :=
  match afterDigits? cs with
  | some ('.' :: rest) => some (rest.dropWhile isDecimalDigit)
  | some rest => some rest
  | none =>
    match cs with
    | '.' :: rest => afterDigits? rest
    | _ => none

/-- What remains after an exponent; a letter `e` that no digits follow is not part of the numeral. -/
def afterExponent : List Char → List Char
  | [] => []
  | c :: cs => if c = 'e' ∨ c = 'E' then (afterDigits? (afterSign cs)).getD (c :: cs) else c :: cs

/-- What remains after the longest numeral with which a text begins. -/
def afterNumeral? (cs : List Char) : Option (List Char) :=
  (afterMantissa? (afterSign cs)).map afterExponent

/-! ## The classes of values -/

/-- A call of the function on one line: its name, an opening parenthesis, a closing one at the end, and no
line feed between them. -/
def isCall (function token : String) : Bool :=
  match Text.afterLiteral? (function ++ "(") token.toList with
  | some rest => rest.getLast? == some ')' && !rest.contains '\n'
  | none => false

/-- A numeral and nothing more. -/
def isNumber (token : String) : Bool := afterNumeral? token.toList == some []

/-- A numeral with a unit of time, or a calculation. -/
def isTime (token : String) : Bool :=
  isCall "calc" token || afterNumeral? token.toList == some ['s']
    || afterNumeral? token.toList == some ['m', 's']

/-- A call that describes a curve. -/
def isTimingCall (token : String) : Bool := isCall "cubic-bezier" token || isCall "steps" token

/-- The words for curves. -/
def timingKeywords : List String :=
  ["ease", "ease-in", "ease-out", "ease-in-out", "linear", "step-start", "step-end", "initial", "unset",
   "inherit"]

/-- The words for directions. -/
def directionKeywords : List String := ["normal", "reverse", "alternate", "alternate-reverse"]

/-- The words for fill modes. -/
def fillModeKeywords : List String := ["none", "forwards", "backwards", "both"]

/-- The words for play states. -/
def playStateKeywords : List String := ["running", "paused"]

/-- The words that never name keyframes. -/
def reservedKeywords : List String := ["none", "initial", "inherit", "unset"]

/-- Anything that is not reserved and is neither a number, a time nor a curve can name keyframes. -/
def isKeyframesName (token : String) : Bool :=
  !reservedKeywords.contains token && !isNumber token && !isTime token && !isTimingCall token

/-! ## The slots of a value -/

/-- The value may stand in the slot. -/
def Slot.accepts : Slot → String → Bool
  | .duration, token => isTime token
  | .timingFunction, token => isTimingCall token || timingKeywords.contains token
  | .delay, token => isTime token
  | .iterationCount, token => token == "infinite" || isNumber token
  | .direction, token => directionKeywords.contains token
  | .fillMode, token => fillModeKeywords.contains token
  | .playState, token => playStateKeywords.contains token
  | .name, token => isKeyframesName token

/-- The slots that a value fits, in their order of precedence. -/
def candidates (token : String) : List Slot := Slot.all.filter (·.accepts token)

theorem mem_candidates {token : String} {slot : Slot} : slot ∈ candidates token ↔ slot.accepts token := by
  simp [candidates, Slot.mem_all]

end StyleScope.Animation
