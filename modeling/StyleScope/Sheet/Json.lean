/-
Sheets as JSON. Every rule, declaration and animation is an object whose first field says which kind it is,
so the JSON of a sheet tells all of it apart.
-/
import StyleScope.Json
import StyleScope.Sheet.Rule

namespace StyleScope

open Json (str arr obj)

/-- An animation, its name first. -/
def Animation.toJson : Animation → Json
  | .two duration name =>
    obj [("kind", str "two-values"), ("name", str name), ("duration", str duration)]
  | .four duration timingFunction delay name =>
    obj [("kind", str "four-values"), ("name", str name), ("duration", str duration),
      ("timing_function", str timingFunction), ("delay", str delay)]
  | .eight duration timingFunction delay iterationCount direction fillMode playState name =>
    obj [("kind", str "eight-values"), ("name", str name), ("duration", str duration),
      ("timing_function", str timingFunction), ("delay", str delay),
      ("iteration_count", str iterationCount), ("direction", str direction),
      ("fill_mode", str fillMode), ("play_state", str playState)]

/-- A declaration. -/
def Declaration.toJson : Declaration → Json
  | .other property value =>
    obj [("type", str "other"), ("property", str property), ("value", str value)]
  | .animationName value => obj [("type", str "animationName"), ("value", str value)]
  | .animation animations =>
    obj [("type", str "animation"), ("values", arr (animations.map Animation.toJson))]

/-- The name of a kind of conditional rule. -/
def ConditionalKind.toJson : ConditionalKind → Json
  | .media => str "media"
  | .supports => str "supports"

mutual

/-- A rule. -/
def Rule.toJson : Rule → Json
  | .style selectors declarations =>
    obj [("type", str "style"), ("selectors", arr (selectors.map str)),
      ("declarations", arr (declarations.map Declaration.toJson))]
  | .keyframes name body =>
    obj [("type", str "keyframes"), ("name", str name), ("body", str body)]
  | .conditional kind condition rules =>
    obj [("type", str "conditional"), ("kind", kind.toJson), ("conditionText", str condition),
      ("rules", arr (rulesToJson rules))]

/-- The rules of a list. -/
def rulesToJson : List Rule → List Json
  | [] => []
  | rule :: rules => rule.toJson :: rulesToJson rules

end

/-- A sheet, as the array of its rules. -/
def Sheet.toJson (sheet : Sheet) : Json := arr (rulesToJson sheet)

end StyleScope
