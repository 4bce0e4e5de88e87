/-
Sheets one after the other. A sheet that is read without leaving a comment open leaves nothing behind: what
follows it is read as it would be alone, into the same rules or the same fault. Only the offset of a fault
moves, by the bytes that came before, and not even that where it counts within an animation value. A comment
left open swallows the sheet after it, so that case is excluded.
-/
import StyleScope.Proofs.Sheet.Fault
import StyleScope.Scope.Basic

namespace StyleScope

/-- The error found `n` bytes further on. -/
def Error.later (n : Nat) : Error → Error
  | .unsupportedAtRule name offset => .unsupportedAtRule name (offset + n)
  | .unterminatedQuote quote offset => .unterminatedQuote quote (offset + n)
  | .missingDelimiter expected offset => .missingDelimiter expected (offset + n)
  | .unexpectedCharacter found offset => .unexpectedCharacter found (offset + n)
  | error => error

/-- The error that a fault of `whole` is where `whole` stands `n` bytes further on. An error within an
animation value still counts from the start of that value. -/
def Fault.locateLater (n : Nat) (whole : Bytes) : Fault → Error
  | .animation error => error
  | fault => (fault.locate whole).later n

theorem offsetOf_append {front whole rest : Bytes} (h : rest <:+ whole) :
    offsetOf (front ++ whole) rest = offsetOf whole rest + front.length := by
  have := h.length_le
  simp only [offsetOf, List.length_append]
  omega

theorem Fault.locate_append {front whole : Bytes} {fault : Fault} (h : fault.Within whole) :
    fault.locate (front ++ whole) = fault.locateLater front.length whole := by
  cases fault with
  | animation | invalidSlice => rfl
  | _ => simp only [locate, locateLater, Error.later, offsetOf_append h]

namespace Sheet

open Byte Scan Text

/-- The text is rules, a gap and then a comment that is never closed. -/
def EndsInComment (xs : Bytes) : Prop := ∃ rules x c, xs = x ++ c ∧ RulesText rules x ∧ OpenComment c

theorem not_endsInComment {xs : Bytes} (h : slash ∉ xs) : ¬ EndsInComment xs := by
  intro h
  obtain ⟨rules, x, c, rfl, -, inside, rfl, -⟩ := h
  simp at h

theorem rulesText_of_read {xs : Bytes} {rules : Sheet} (h : read xs = .ok rules) (hc : ¬ EndsInComment xs) :
    RulesText rules xs := by
  obtain ⟨x, c, rfl, hx, rfl | hopen⟩ := read_eq_ok_iff.1 h
  · rwa [List.append_nil]
  · exact absurd ⟨rules, x, c, rfl, hx, hopen⟩ hc

/-- A fault does not depend on the rules read before it, but on how many conditional rules are open. -/
theorem rulesFrom_eq_error {outer outer' : List Frame} {done done' : List Rule} {xs : Bytes} {fault : Fault}
    (hl : outer.length = outer'.length) (h : rulesFrom outer done xs = .error fault) :
    rulesFrom outer' done' xs = .error fault := by
  induction hn : xs.length using Nat.strongRecOn generalizing outer outer' done done' xs with
  | _ n ih =>
    subst hn
    rw [rulesFrom_eq] at h ⊢
    have hlen := length_skipGap_le xs
    cases hg : skipGap xs with
    | nil =>
      rw [hg] at h
      cases outer <;> cases outer'
      · cases h
      · cases hl
      · cases hl
      · exact h
    | cons b ys =>
      rw [hg] at h hlen
      simp only [List.length_cons] at h hlen ⊢
      by_cases hb : b = closeBrace
      · rw [if_pos hb] at h ⊢
        cases outer <;> cases outer'
        · exact h
        · cases hl
        · cases hl
        · exact ih ys.length (by omega) (by simpa using hl) h rfl
      · rw [if_neg hb] at h ⊢
        cases hi : item b ys with
        | error f => rw [hi] at h; exact h
        | ok p =>
          obtain ⟨i, rest⟩ := p
          have hlt := item_length_lt hi
          simp only [List.length_cons] at hlt
          rw [hi] at h
          cases i with
          | rule rule => exact ih rest.length (by omega) hl h rfl
          | opening kind text => exact ih rest.length (by omega) (by simpa using hl) h rfl

/-- **What follows a sheet is read as it is alone.** -/
theorem read_append {xs ys : Bytes} {rules : Sheet} (h : read xs = .ok rules) (hc : ¬ EndsInComment xs) :
    read (xs ++ ys) = (read ys).map (rules ++ ·) := by
  have hx := rulesText_of_read h hc
  cases hy : read ys with
  | ok more =>
    obtain ⟨y, c, rfl, hyt, hopen⟩ := read_eq_ok_iff.1 hy
    rw [read, hx.rulesFrom, hyt.rulesFrom, rulesFrom_end hopen]
    simp [Except.map]
  | error fault =>
    rw [read, hx.rulesFrom]
    exact rulesFrom_eq_error rfl hy

theorem parse_append {a : String} {rules : Sheet} (ha : parse a = .ok rules)
    (hc : ¬ EndsInComment (encode a)) (b : String) :
    parse (a ++ b) =
      match read (encode b) with
      | .ok more => .ok (rules ++ more)
      | .error fault => .error (fault.locateLater (encode a).length (encode b)) := by
  have hr : read (encode a) = .ok rules := read_eq_ok_iff.2 (parse_eq_ok_iff.1 ha)
  rw [parse, locating, encode_append, read_append hr hc]
  cases hb : read (encode b) with
  | ok more => rfl
  | error fault => exact congrArg Except.error (Fault.locate_append (justified_of_read hb).within)

end Sheet

/-! ## Scoping -/

theorem scopeText_of_parse {name text : String} {options : Options} {rules : Sheet}
    (h : Sheet.parse text = .ok rules) :
    scopeText name text options = .ok (Sheet.print ((Scope.mk name options).sheet rules)) := by
  rw [scopeText, h]
  rfl

theorem Scope.print_append (scope : Scope) (rules more : Sheet) :
    Sheet.print (scope.sheet (rules ++ more)) =
      Sheet.print (scope.sheet rules) ++ Sheet.print (scope.sheet more) := by
  rw [← Sheet.print_append, sheet_eq_map, sheet_eq_map, sheet_eq_map, List.map_append]

open Text in
/-- **Scoping a sheet is scoping its parts.** Whatever follows a sheet that is read without leaving a comment open,
the two are read exactly when the second is. Then the rules are those of the first and after them those of the
second, and so is what scoping writes. Else the two fail as the second does, at an offset that lies further on
by the bytes of the first, unless it counts within an animation value. -/
theorem scopeText_append {a : String} {rules : Sheet} (ha : Sheet.parse a = .ok rules)
    (hc : ¬ Sheet.EndsInComment (encode a)) (b name : String) (options : Options) :
    ((∃ all, Sheet.parse (a ++ b) = .ok all) ↔ ∃ more, Sheet.parse b = .ok more) ∧
      (∀ more, Sheet.parse b = .ok more →
        Sheet.parse (a ++ b) = .ok (rules ++ more) ∧
          ∃ x y, scopeText name a options = .ok x ∧ scopeText name b options = .ok y ∧
            scopeText name (a ++ b) options = .ok (x ++ y)) ∧
      ∀ fault, Sheet.read (encode b) = .error fault →
        Sheet.parse b = .error (fault.locate (encode b)) ∧
          Sheet.parse (a ++ b) = .error (fault.locateLater (encode a).length (encode b)) ∧
          scopeText name (a ++ b) options = .error (fault.locateLater (encode a).length (encode b)) := by
  have hab := Sheet.parse_append ha hc b
  have hb : Sheet.parse b = (Sheet.read (encode b)).mapError (Fault.locate (encode b)) := rfl
  cases hr : Sheet.read (encode b) with
  | ok more =>
    rw [hr] at hab hb
    refine ⟨⟨fun _ => ⟨more, hb⟩, fun _ => ⟨_, hab⟩⟩, ?_, nofun⟩
    intro more' hm
    rw [hb] at hm
    cases hm
    refine ⟨hab, _, _, scopeText_of_parse ha, scopeText_of_parse hb, ?_⟩
    rw [scopeText_of_parse hab, Scope.print_append]
  | error fault =>
    rw [hr] at hab hb
    refine ⟨⟨?_, ?_⟩, ?_, ?_⟩
    · intro h
      obtain ⟨all, h⟩ := h
      rw [hab] at h
      cases h
    · intro h
      obtain ⟨more, h⟩ := h
      rw [hb] at h
      cases h
    · intro more h
      rw [hb] at h
      cases h
    · intro f hf
      cases hf
      refine ⟨hb, hab, ?_⟩
      rw [scopeText, hab]
      rfl

open Text in
/-- The second sheet is refused at its first byte, which is the fourth of both. -/
theorem scopeText_append_refused :
    Sheet.parse "a\x7b\x7d" = .ok [.style ["a"] []] ∧ ¬ Sheet.EndsInComment (encode "a\x7b\x7d") ∧
      scopeText "s" ("a\x7b\x7d" ++ "@x") Options.standard = .error (.unsupportedAtRule "@x" 3) := by
  have hc : ¬ Sheet.EndsInComment (encode "a\x7b\x7d") := Sheet.not_endsInComment (by decide)
  have ha : Sheet.parse "a\x7b\x7d" = .ok [.style ["a"] []] := by decide +kernel
  obtain ⟨-, -, hf⟩ := scopeText_append ha hc "@x" "s" Options.standard
  exact ⟨ha, hc, (hf (.unsupportedAtRule "@x" (encode "@x")) (by decide +kernel)).2.2⟩

/-- A comment that is left open swallows the second sheet. -/
example :
    Sheet.parse ("a\x7b\x7d/*" ++ "@x") = .ok [.style ["a"] []] := by
  decide +kernel

end StyleScope
