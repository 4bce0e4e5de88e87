/-
Options for scoping, and how they are read from JSON. A missing option has its default, one that is unknown
is passed over whatever its value, and one that is given twice or is no text is refused. The options may
also be given as an array, in order.
-/
import StyleScope.Json

namespace StyleScope

/-- What can be chosen for scoping. -/
structure Options where
  /-- What the name of the attribute that marks scoped elements begins with. -/
  attributePrefix : String
deriving Repr, DecidableEq

namespace Options

open Json

/-- The options where nothing is chosen. -/
def standard : Options := ⟨"data-"⟩

/-- Options as a JSON object. -/
def toJson (options : Options) : Json := .obj [("attributePrefix", .str options.attributePrefix)]

/-- The options that an object gives, from its first key on, with the attribute prefix if it has been found
already. -/
def ofMembers? (found : Option String) : List Token → Option Options
  | .string key :: .colon :: ts => do
    let key ← text? key
    if key = "attributePrefix".toList then
      match found, ts with
      | none, .string units :: ts =>
        let text := String.ofList (← text? units)
        match ts with
        | [.closing .object] => return ⟨text⟩
        | .comma :: ts => ofMembers? (some text) ts
        | _ => none
      | _, _ => none
    else
      match _h : afterValue? [] ts with
      | some [.closing .object] => return ⟨found.getD standard.attributePrefix⟩
      | some (.comma :: ts) => ofMembers? found ts
      | _ => none
  | _ => none
termination_by ts => ts.length
decreasing_by
  · simp only [List.length_cons]
    omega
  · have := afterValue?_length_lt _h
    simp only [List.length_cons] at *
    omega

/-- The options that the tokens of a JSON text give. -/
def ofTokens? : List Token → Option Options
  | [.opening .array, .closing .array] => some standard
  | [.opening .array, .string units, .closing .array] => (text? units).map fun cs => ⟨String.ofList cs⟩
  | [.opening .object, .closing .object] => some standard
  | .opening .object :: ts => ofMembers? none ts
  | _ => none

/-- The options that a JSON text gives. -/
def ofJson? (json : String) : Option Options := do
  let tokens ← tokens? json.toList
  ofTokens? tokens

end Options

end StyleScope
