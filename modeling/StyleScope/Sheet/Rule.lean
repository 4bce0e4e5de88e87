/-
Style sheets as trees of rules, and their text. A conditional rule holds rules; all else is kept as text,
except that an `animation` value is split into its animations, so that the keyframes they run can be renamed.
-/
import StyleScope.Animation.Definition

namespace StyleScope

/-- The at-rules that make other rules conditional. -/
inductive ConditionalKind where
  | media
  | supports
deriving Repr, DecidableEq

namespace ConditionalKind

/-- The keyword of the at-rule. -/
def keyword : ConditionalKind → String
  | .media => "@media"
  | .supports => "@supports"

/-- The at-rule with this keyword, if it is conditional. -/
def ofKeyword? (keyword : String) : Option ConditionalKind :=
  if keyword = "@media" then some .media
  else if keyword = "@supports" then some .supports
  else none

theorem ofKeyword?_keyword (kind : ConditionalKind) : ofKeyword? kind.keyword = some kind := by
  cases kind <;> decide

theorem keyword_of_ofKeyword? {keyword : String} {kind : ConditionalKind}
    (h : ofKeyword? keyword = some kind) : kind.keyword = keyword := by
  unfold ofKeyword? at h
  split at h
  · next hk => cases h; exact hk.symm
  · split at h
    · next hk => cases h; exact hk.symm
    · cases h

end ConditionalKind

/-- A property with its value. -/
inductive Declaration where
  /-- A property that names no keyframes. -/
  | other (property value : String)
  /-- The property that lists keyframes by name. -/
  | animationName (value : String)
  /-- The animation shorthand, one animation for each definition. -/
  | animation (animations : List Animation)
deriving Repr, DecidableEq

/-- The declaration of a property. Only an animation value can be refused. -/
def Declaration.ofProperty (property value : String) : Except Error Declaration :=
  if property = "animation" then (Animation.ofValue value).map .animation
  else if property = "animation-name" then .ok (.animationName value)
  else .ok (.other property value)

/-- A rule of a style sheet. -/
inductive Rule where
  /-- Selectors and what is declared for the elements they select. -/
  | style (selectors : List String) (declarations : List Declaration)
  /-- Named keyframes; the body is kept as written, with its braces. -/
  | keyframes (name body : String)
  /-- Rules under a condition, which is kept as written. -/
  | conditional (kind : ConditionalKind) (condition : String) (rules : List Rule)
deriving Repr

mutual

/-- Rules can be compared, at every depth. -/
def Rule.decEq : (a b : Rule) → Decidable (a = b)
  | .style ss ds, .style ts es => decidable_of_iff (ss = ts ∧ ds = es) (by simp)
  | .keyframes n x, .keyframes m y => decidable_of_iff (n = m ∧ x = y) (by simp)
  | .conditional k c rs, .conditional l d qs =>
    have := rulesDecEq rs qs
    decidable_of_iff (k = l ∧ c = d ∧ rs = qs) (by simp)
  | .style .., .keyframes .. | .style .., .conditional .. | .keyframes .., .style ..
  | .keyframes .., .conditional .. | .conditional .., .style .. | .conditional .., .keyframes .. =>
    isFalse (by simp)

/-- Lists of rules can be compared. -/
def rulesDecEq : (as bs : List Rule) → Decidable (as = bs)
  | [], [] => isTrue rfl
  | [], _ :: _ | _ :: _, [] => isFalse (by simp)
  | a :: as, b :: bs =>
    have := a.decEq b
    have := rulesDecEq as bs
    decidable_of_iff (a = b ∧ as = bs) (by simp)

end

instance : DecidableEq Rule := Rule.decEq

/-- A style sheet. -/
abbrev Sheet := List Rule

/-! ## Printing

Style rules are written without any gap, keyframes with their body as it is, and each rule ends with a line
feed; an animation has its values in the order of their slots. -/

/-- The values of an animation, set apart by spaces. -/
def Animation.print (a : Animation) : String := " ".intercalate (a.entries.map (·.2))

/-- A declaration with its semicolon. -/
def Declaration.print : Declaration → String
  | .other property value => property ++ ":" ++ value ++ ";"
  | .animationName value => "animation-name:" ++ value ++ ";"
  | .animation animations => "animation:" ++ ",".intercalate (animations.map Animation.print) ++ ";"

mutual

/-- A rule without the line feed that ends it. -/
def Rule.print : Rule → String
  | .style selectors declarations =>
    ",".intercalate selectors ++ "\x7b" ++ String.join (declarations.map Declaration.print) ++ "\x7d"
  | .keyframes name body => "@keyframes " ++ name ++ body
  | .conditional kind condition rules =>
    kind.keyword ++ " " ++ condition ++ "\x7b\n" ++ Sheet.print rules ++ "\x7d"

/-- A sheet, rule by rule. -/
def Sheet.print : List Rule → String
  | [] => ""
  | rule :: rules => rule.print ++ "\n" ++ Sheet.print rules

end

theorem Sheet.print_append (as bs : Sheet) : Sheet.print (as ++ bs) = Sheet.print as ++ Sheet.print bs := by
  induction as with
  | nil => simp [Sheet.print]
  | cons a as ih => simp [Sheet.print, ih, String.append_assoc]

end StyleScope
