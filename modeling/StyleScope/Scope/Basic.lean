/-
Scoping: a sheet is rewritten so that it applies inside one marked element only. Every selector gets the
scope's attribute in front, and every name of keyframes is renamed, both where keyframes are defined and
where they are used. Names are renamed whether or not the sheet defines them, so a sheet is scoped once:
scoping it again renames again.
-/
import StyleScope.Options
import StyleScope.Sheet.Reader

namespace StyleScope

/-! ## Names

A bare name gets a hyphen and the scope behind it; a name in quotes gets a space and the scope inside them,
so that it stays one string. A list of names is renamed item by item. -/

section

open Byte Scan Text

/-- The quote of a name that begins and ends with the same one, and what stands between. -/
def quotedContent? (name : String) : Option (Char × String) :=
  match name.toList with
  | [] => none
  | q :: cs =>
    if (q = '\'' ∨ q = '"') ∧ cs.getLast? = some q then some (q, String.ofList cs.dropLast) else none

/-- A name of keyframes under a scope. -/
def rename (scope name : String) : String :=
  match quotedContent? name with
  | some (q, content) => q.toString ++ content ++ " " ++ scope ++ q.toString
  | none => name ++ "-" ++ scope

/-- The items of a list, split at its top-level commas and trimmed. Unlike selectors, an item keeps the
comments with which it begins. -/
def itemsOf (xs : Bytes) : Except Fault (List String) :=
  match _ht : topLevel [comma] xs with
  | .error fault => .error fault
  | .ok stop =>
    match _hc : after? comma stop with
    | none => do
      let last ← textBefore xs stop
      return [trim last]
    | some rest => do
      let first ← textBefore xs stop
      let more ← itemsOf rest
      return trim first :: more
termination_by xs.length
decreasing_by
  have hle := (topLevel_suffix _ht).length_le
  rw [after?_eq_some_iff.1 _hc] at hle
  exact hle

/-- The items of a list; there are none if a string in it is never closed. -/
def items? (value : String) : Option (List String) := (itemsOf (Text.encode value)).toOption

/-- A list of names under a scope. A list of one name, or one that cannot be split, is renamed as it is
written. -/
def renameEach (scope value : String) : String :=
  match items? value with
  | some (first :: second :: more) => ",".intercalate ((first :: second :: more).map (rename scope))
  | _ => rename scope value

end

/-! ## Trees -/

/-- What to scope to. -/
structure Scope where
  /-- The name of the scope. -/
  name : String
  /-- The choices made for scoping. -/
  options : Options
deriving Repr, DecidableEq

namespace Scope

/-- A selector inside the scope. -/
def selector (scope : Scope) (selector : String) : String :=
  "[" ++ scope.options.attributePrefix ++ scope.name ++ "] " ++ selector

/-- An animation that runs the keyframes of the scope. -/
def animation (scope : Scope) (a : Animation) : Animation := a.withName (rename scope.name a.name)

/-- A declaration inside the scope. -/
def declaration (scope : Scope) : Declaration → Declaration
  | .other property value => .other property value
  | .animationName value => .animationName (renameEach scope.name value)
  | .animation animations => .animation (animations.map scope.animation)

mutual

/-- A rule inside the scope. -/
def rule (scope : Scope) : Rule → Rule
  | .style selectors declarations =>
    .style (selectors.map scope.selector) (declarations.map scope.declaration)
  | .keyframes name body => .keyframes (rename scope.name name) body
  | .conditional kind condition rules => .conditional kind condition (scope.sheet rules)

/-- A sheet inside the scope. -/
def sheet (scope : Scope) : List Rule → List Rule
  | [] => []
  | rule :: rules => scope.rule rule :: scope.sheet rules

end

theorem sheet_eq_map (scope : Scope) (rules : Sheet) : scope.sheet rules = rules.map scope.rule := by
  induction rules with
  | nil => rfl
  | cons rule rules ih => simp [sheet, ih]

end Scope

/-! ## Texts -/

/-- The text of a sheet, scoped. -/
def scopeText (name text : String) (options : Options) : Except Error String := do
  let sheet ← Sheet.parse text
  return Sheet.print ((Scope.mk name options).sheet sheet)

/-- Scopes texts, each on its own: a text that is refused changes nothing for the others. -/
def scopeTexts (inputs : List (String × String)) : List (Except Error String) :=
  inputs.map fun (name, text) => scopeText name text Options.standard

end StyleScope
