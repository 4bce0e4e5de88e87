/-
What can be wrong with a sheet. An `Error` places its cause at an offset, in bytes. While a text is read
the place is known only as what remains of it: that is a `Fault`, and `Fault.locate` turns it into an
error once the whole text is at hand. So a reader sees no position and reads every suffix alike.
-/
import StyleScope.Byte

namespace StyleScope

/-! ## Outcomes -/

instance (priority := high) decEqExcept {ε α : Type} [DecidableEq ε] [DecidableEq α] : DecidableEq (Except ε α) := fun
  | .ok a, .ok b => decidable_of_iff (a = b) (by simp)
  | .error a, .error b => decidable_of_iff (a = b) (by simp)
  | .ok _, .error _ | .error _, .ok _ => isFalse (by simp)

/-- Two steps succeed exactly when the first does and the second does with its answer. -/
theorem bind_eq_ok_iff {ε α β : Type} {x : Except ε α} {f : α → Except ε β} {b : β} :
    x >>= f = .ok b ↔ ∃ a, x = .ok a ∧ f a = .ok b := by
  cases x with
  | error e => simp [bind, Except.bind]
  | ok a => simp [bind, Except.bind]

/-- Two steps fail exactly when the first does, or the second does with the answer of the first. -/
theorem bind_eq_error_iff {ε α β : Type} {x : Except ε α} {f : α → Except ε β} {e : ε} :
    x >>= f = .error e ↔ x = .error e ∨ ∃ a, x = .ok a ∧ f a = .error e := by
  cases x with
  | error e => simp [bind, Except.bind]
  | ok a => simp [bind, Except.bind]

theorem map_eq_ok_iff {ε α β : Type} {x : Except ε α} {f : α → β} {b : β} :
    x.map f = .ok b ↔ ∃ a, x = .ok a ∧ f a = b := by
  cases x with
  | error e => simp [Except.map]
  | ok a => simp [Except.map]

theorem mapError_eq_ok_iff {ε δ α : Type} {x : Except ε α} {f : ε → δ} {a : α} :
    x.mapError f = .ok a ↔ x = .ok a := by
  cases x with
  | error d => constructor <;> (intro h; cases h)
  | ok b => constructor <;> (intro h; cases h; rfl)

theorem mapError_eq_error_iff {ε δ α : Type} {x : Except ε α} {f : ε → δ} {e : δ} :
    x.mapError f = .error e ↔ ∃ d, x = .error d ∧ f d = e := by
  cases x with
  | error d =>
    constructor
    · intro h
      exact ⟨d, rfl, Except.error.inj h⟩
    · rintro ⟨_, hd, rfl⟩
      cases hd
      rfl
  | ok b =>
    constructor
    · intro h
      cases h
    · rintro ⟨_, hd, -⟩
      cases hd

/-! ## Errors -/

/-- Why a text was refused. -/
inductive Error where
  /-- An at-rule other than those that can be scoped. -/
  | unsupportedAtRule (name : String) (offset : Nat)
  /-- An animation definition with a number of values that no definition has. -/
  | animationArity (definition : String) (count : Nat)
  /-- An animation definition with a value for which no sub-property is free. -/
  | animationSlot (definition token : String)
  /-- An animation definition that leaves a sub-property empty. -/
  | animationIncomplete (definition : String)
  /-- A string that is never closed; the offset is that of its opening quote. -/
  | unterminatedQuote (quote : UInt8) (offset : Nat)
  /-- A delimiter that does not stand where it must. -/
  | missingDelimiter (expected : UInt8) (offset : Nat)
  /-- A delimiter that stands where it must not. -/
  | unexpectedCharacter (found : UInt8) (offset : Nat)
  /-- A slice that is not a run of whole characters of the text. -/
  | invalidSlice
deriving Repr, DecidableEq

namespace Error

/-- The classes into which errors fall. -/
inductive Kind where
  /-- The sheet uses an at-rule that cannot be scoped. -/
  | unsupportedAtRule
  /-- An animation definition cannot be assigned to sub-properties. -/
  | malformedAnimation
  /-- A string is never closed. -/
  | unterminatedQuote
  /-- The delimiters do not fit together. -/
  | structural
  /-- A slice cuts a character or leaves the text. -/
  | invalidSlice
deriving Repr, DecidableEq

/-- The class of an error. -/
def kind : Error → Kind
  | .unsupportedAtRule .. => .unsupportedAtRule
  | .animationArity .. | .animationSlot .. | .animationIncomplete .. => .malformedAnimation
  | .unterminatedQuote .. => .unterminatedQuote
  | .missingDelimiter .. | .unexpectedCharacter .. => .structural
  | .invalidSlice => .invalidSlice

/-- An animation definition as messages quote it, raw. -/
def illegalAnimation (definition reason : String) : String :=
  "illegal animation value \"" ++ definition ++ "\": " ++ reason

/-- The message of an error. Texts stand in it as they are; a byte is shown as the character with its
number. -/
def message : Error → String
  | .unsupportedAtRule name offset =>
    "unsupported At-Rule \"" ++ name ++ "\" at offset " ++ offset.repr
      ++ ". Currently supported At-Rules are @media, @supports and @keyframes"
  | .animationArity definition count =>
    illegalAnimation definition ("expected 2, 4 or 8 values, found " ++ count.repr)
  | .animationSlot definition token =>
    illegalAnimation definition ("no free sub-property accepts \"" ++ token ++ "\"")
  | .animationIncomplete definition =>
    illegalAnimation definition "not every sub-property was filled"
  | .unterminatedQuote quote offset =>
    "missing quote: " ++ (Byte.toChar quote).toString ++ " opened at offset " ++ offset.repr
      ++ " is never closed"
  | .missingDelimiter expected offset =>
    "expected '" ++ (Byte.toChar expected).toString ++ "' at offset " ++ offset.repr
  | .unexpectedCharacter found offset =>
    "unexpected '" ++ (Byte.toChar found).toString ++ "' at offset " ++ offset.repr
  | .invalidSlice => "the slice is not a run of whole characters of the text"

end Error

/-! ## Faults -/

/-- An error whose place is given by the text that remained there. -/
inductive Fault where
  /-- An at-rule that cannot be scoped; what remains begins with its name. -/
  | unsupportedAtRule (name : String) (rest : Bytes)
  /-- A string that is never closed; what remains begins with its opening quote. -/
  | unterminatedQuote (quote : UInt8) (rest : Bytes)
  /-- A delimiter that what remains should begin with. -/
  | missingDelimiter (expected : UInt8) (rest : Bytes)
  /-- A delimiter that what remains begins with, but should not. -/
  | unexpectedCharacter (found : UInt8) (rest : Bytes)
  /-- A run of bytes that is no text. -/
  | invalidSlice
  /-- An error within an animation value, which counts from the start of that value. -/
  | animation (error : Error)
deriving Repr, DecidableEq

/-- The place at which `rest` is what remains of `whole`. -/
def offsetOf (whole rest : Bytes) : Nat := whole.length - rest.length

/-- The error that a fault is, found while reading `whole`. -/
def Fault.locate (whole : Bytes) : Fault → Error
  | .unsupportedAtRule name rest => .unsupportedAtRule name (offsetOf whole rest)
  | .unterminatedQuote quote rest => .unterminatedQuote quote (offsetOf whole rest)
  | .missingDelimiter expected rest => .missingDelimiter expected (offsetOf whole rest)
  | .unexpectedCharacter found rest => .unexpectedCharacter found (offsetOf whole rest)
  | .invalidSlice => .invalidSlice
  | .animation error => error

/-- Reads a whole text, and says at which offset it fails. -/
def locating {α : Type} (read : Bytes → Except Fault α) (whole : Bytes) : Except Error α :=
  (read whole).mapError (Fault.locate whole)

theorem locating_eq_ok_iff {α : Type} {read : Bytes → Except Fault α} {whole : Bytes} {a : α} :
    locating read whole = .ok a ↔ read whole = .ok a := mapError_eq_ok_iff

theorem locating_eq_error_iff {α : Type} {read : Bytes → Except Fault α} {whole : Bytes} {e : Error} :
    locating read whole = .error e ↔ ∃ fault, read whole = .error fault ∧ fault.locate whole = e :=
  mapError_eq_error_iff

end StyleScope
