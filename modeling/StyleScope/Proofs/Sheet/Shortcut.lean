/-
Where the reader takes the plain scan in place of the top-level scan: at a condition, up to its brace, and at a property,
up to its colon or what else ends it. It is a shortcut only as long as no byte of the class is covered: the plain scan
never stops later than the top-level scan, and stops at the same byte exactly if the byte it stops at is not covered
(`plainScan_of_starts`). So a condition is cut at a brace in an escape, a string or a comment, and a property also at a
colon or a semicolon in a group.
-/
import StyleScope.Proofs.Scan.Shortcut
import StyleScope.Proofs.Sheet.Places

namespace StyleScope.Sheet

open Byte Scan Text

/-- Where the top-level scan up to the stops succeeds from the start, the plain scan stops no later, and stops at the same
byte exactly if the byte it stops at is not covered. -/
def PlainScanAgrees (stop : UInt8 → Bool) (stops start : Bytes) : Prop :=
  ∀ rest, topLevel stops start = .ok rest →
    rest <:+ seek stop start ∧ (seek stop start = rest ↔ ¬ Covered 0 start (seek stop start))

theorem plainScanAgrees {stop : UInt8 → Bool} {stops : Bytes} (hstop : stop = stops.contains)
    (hs : ∀ b ∈ stops, isPlain b) (start : Bytes) : PlainScanAgrees stop stops start := by
  subst hstop
  exact fun _ h => seek_of_topLevelFrom hs h

/-- **The plain scan agrees with the top-level scan as long as it stops at no covered byte**, wherever reading a sheet
starts a condition or a property. -/
theorem plainScan_of_starts (css : String) (start : Bytes) :
    (∀ kind, StartsCondition (encode css) kind start → PlainScanAgrees (· == openBrace) [openBrace] start) ∧
      (StartsProperty (encode css) start →
        PlainScanAgrees endsProperty [colon, semicolon, openBrace, closeBrace] start) := by
  refine ⟨fun _ _ => plainScanAgrees ?_ (by decide) start, fun _ => plainScanAgrees ?_ (by decide) start⟩
  · funext b
    rw [List.contains_cons, List.contains_nil, Bool.or_false]
  · funext b
    simp only [endsProperty, isBrace, List.contains_cons, List.contains_nil, Bool.or_false, Bool.or_assoc]

/-- A property with a colon in a comment: the top-level scan passes over it, and the plain scan stops there. -/
theorem scans_of_comment :
    StartsProperty (encode "a\x7bb/*:*/:c\x7d") (encode "b/*:*/:c\x7d") ∧
      topLevel [colon, semicolon, openBrace, closeBrace] (encode "b/*:*/:c\x7d") = .ok (encode ":c\x7d") ∧
      seek endsProperty (encode "b/*:*/:c\x7d") = encode ":*/:c\x7d" := by
  refine ⟨⟨encode "a\x7bb/*:*/:c\x7d", by decide +kernel, by decide, ["a"], encode "b/*:*/:c\x7d", ?_, ?_⟩, ?_, ?_⟩ <;>
    decide +kernel

/-- The colon in the comment is covered. -/
theorem plainScan_of_starts_comment :
    StartsProperty (encode "a\x7bb/*:*/:c\x7d") (encode "b/*:*/:c\x7d") ∧
      topLevel [colon, semicolon, openBrace, closeBrace] (encode "b/*:*/:c\x7d") = .ok (encode ":c\x7d") ∧
      Covered 0 (encode "b/*:*/:c\x7d") (encode ":*/:c\x7d") := by
  obtain ⟨hstarts, htop, hseek⟩ := scans_of_comment
  refine ⟨hstarts, htop, Classical.not_not.1 fun hc => ?_⟩
  have hiff := ((plainScan_of_starts _ _).2 hstarts _ htop).2
  rw [hseek] at hiff
  exact absurd (hiff.2 hc) (by decide +kernel)

/-- A property is cut at a colon in a comment, and a condition at an escaped brace. -/
theorem plainScan_cuts :
    (∃ start rest, StartsProperty (encode "a\x7bb/*:*/:c\x7d") start ∧
        topLevel [colon, semicolon, openBrace, closeBrace] start = .ok rest ∧ seek endsProperty start ≠ rest) ∧
      parse "a\x7bb/*:*/:c\x7d" = .ok [.style ["a"] [.other "b/*" "*/:c"]] ∧
      (∃ start rest, StartsCondition (encode "@media \\\x7b\x7b\x7d\x7d") .media start ∧
        topLevel [openBrace] start = .ok rest ∧ seek (· == openBrace) start ≠ rest) ∧
      parse "@media \\\x7b\x7b\x7d\x7d" = .ok [.conditional .media "\\" [.style [""] []]] := by
  obtain ⟨hstarts, htop, hseek⟩ := scans_of_comment
  refine ⟨⟨_, _, hstarts, htop, by rw [hseek]; decide⟩, by decide +kernel, ?_, by decide +kernel⟩
  refine ⟨encode "\\\x7b\x7b\x7d\x7d", encode "\x7b\x7d\x7d", ?_, by decide +kernel, by decide +kernel⟩
  refine ⟨encode "@media \\\x7b\x7b\x7d\x7d", ?_, ?_, ?_, ?_⟩ <;> decide +kernel

end StyleScope.Sheet
