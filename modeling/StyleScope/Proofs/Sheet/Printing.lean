/-
What is printed, in bytes: each kind of rule with its delimiters in place, and a declaration as a property and a
value. Both the layouts of a tree and the texts that weigh least are told apart from here.
-/
import StyleScope.Sheet.Rule

namespace StyleScope

open Byte Text

/-! ## Declarations -/

/-- The property that the declaration sets. -/
def Declaration.property : Declaration → String
  | .other property _ => property
  | .animationName _ => "animation-name"
  | .animation _ => "animation"

/-- The value that is printed for the declaration. -/
def Declaration.value : Declaration → String
  | .other _ value => value
  | .animationName value => value
  | .animation animations => ",".intercalate (animations.map Animation.print)

/-- What is printed of the declaration before its semicolon. -/
def Declaration.bytes (d : Declaration) : Bytes := encode d.property ++ colon :: encode d.value

theorem Declaration.encode_print (d : Declaration) : encode d.print = d.bytes ++ [semicolon] := by
  have hname : encode "animation-name:" = encode "animation-name" ++ [colon] := by decide +kernel
  have hanimation : encode "animation:" = encode "animation" ++ [colon] := by decide +kernel
  have hcolon : encode ":" = [colon] := rfl
  have hsemicolon : encode ";" = [semicolon] := rfl
  cases d with
  | other p v =>
    change encode (p ++ ":" ++ v ++ ";") = (encode p ++ colon :: encode v) ++ [semicolon]
    simp [encode_append, hcolon, hsemicolon]
  | animationName v =>
    change encode ("animation-name:" ++ v ++ ";") = (encode "animation-name" ++ colon :: encode v) ++ [semicolon]
    simp [encode_append, hname, hsemicolon]
  | animation as =>
    change encode ("animation:" ++ ",".intercalate (as.map Animation.print) ++ ";") =
      (encode "animation" ++ colon :: encode (",".intercalate (as.map Animation.print))) ++ [semicolon]
    simp [encode_append, hanimation, hsemicolon]

namespace Sheet

theorem encode_join_cons (d : Declaration) (ds : List Declaration) :
    encode (String.join ((d :: ds).map Declaration.print)) =
      d.bytes ++ semicolon :: encode (String.join (ds.map Declaration.print)) := by
  rw [List.map_cons, String.join_cons, encode_append, d.encode_print, List.append_assoc]
  rfl

/-! ## Rules -/

theorem encode_intercalate_cons (s t : String) (ss : List String) :
    encode (",".intercalate (s :: t :: ss)) = encode s ++ comma :: encode (",".intercalate (t :: ss)) := by
  rw [String.intercalate_cons_cons, encode_append, encode_append, List.append_assoc]
  rfl

/-- Selectors begin as the first of them does. -/
theorem head?_intercalate {s : String} {b : UInt8} (hb : b ≠ comma) (ss : List String) :
    (encode (",".intercalate (s :: ss))).head? = some b ↔ (encode s).head? = some b := by
  cases ss with
  | nil => simp
  | cons t ss =>
    rw [encode_intercalate_cons]
    cases encode s with
    | nil => simpa using fun h => hb h.symm
    | cons c cs => rfl

theorem encode_print_style (ss : List String) (ds : List Declaration) (rules : List Rule) :
    encode (print (.style ss ds :: rules)) =
      (encode (",".intercalate ss) ++ openBrace :: (encode (String.join (ds.map Declaration.print)) ++ [closeBrace])) ++
        ([0x0A] ++ encode (print rules)) := by
  have ho : encode "\x7b" = [openBrace] := rfl
  have hc : encode "\x7d" = [closeBrace] := rfl
  have hl : encode "\n" = [0x0A] := rfl
  simp only [Sheet.print, Rule.print, encode_append, ho, hc, hl, List.append_assoc, List.cons_append, List.nil_append]

theorem encode_print_keyframes (name body : String) (rules : List Rule) :
    encode (print (.keyframes name body :: rules)) =
      (encode "@keyframes" ++ ([0x20] ++ (encode name ++ encode body))) ++ ([0x0A] ++ encode (print rules)) := by
  have hk : encode "@keyframes " = encode "@keyframes" ++ [0x20] := by decide +kernel
  have hl : encode "\n" = [0x0A] := rfl
  simp only [Sheet.print, Rule.print, encode_append, hk, hl, List.append_assoc]

theorem encode_print_conditional (kind : ConditionalKind) (condition : String) (inner rules : List Rule) :
    encode (print (.conditional kind condition inner :: rules)) =
      (encode kind.keyword ++ ([0x20] ++ (encode condition ++ [openBrace]))) ++
        (([0x0A] ++ encode (print inner)) ++ closeBrace :: ([0x0A] ++ encode (print rules))) := by
  have hs : encode " " = [0x20] := rfl
  have ho : encode "\x7b\n" = [openBrace, 0x0A] := rfl
  have hc : encode "\x7d" = [closeBrace] := rfl
  have hl : encode "\n" = [0x0A] := rfl
  simp only [Sheet.print, Rule.print, encode_append, hs, ho, hc, hl, List.append_assoc, List.cons_append,
    List.nil_append]

end Sheet

end StyleScope
