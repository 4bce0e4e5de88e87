/-
The plain scan and the top-level scan. The plain scan (`seek`) stops at the first byte of a class wherever it stands; the
top-level scan passes over such a byte where it is covered: in an escape, a string or a comment, or, unless it is a brace,
within a group. So the plain scan never stops later, and the two stop at the same byte exactly if the first byte of the
class is not covered.
-/
import StyleScope.Proofs.Scan.Hidden
import StyleScope.Proofs.Scan.Walk

namespace StyleScope.Scan

open Byte

/-- With `d` groups open before the text, its byte at the place is no delimiter: it stands within an escape, a comment
or a string, or in a group. A brace is a delimiter in a group as well. -/
inductive Covered (d : Nat) (xs place : Bytes) : Prop
  | hidden {d' : Nat} {kind : Lexeme} {u rest : Bytes} :
    Walks nesting d xs d' (u ++ rest) → UnitText kind u rest → (⟨u ++ rest, rest⟩ : Extent).Holds place →
      Covered d xs place
  | grouped {d' : Nat} {b : UInt8} {rest : Bytes} :
    Walks nesting d xs d' place → place = b :: rest → d' ≠ 0 → isBrace b = false → Covered d xs place

variable {xs ys rest place : Bytes} {b : UInt8} {kind : Lexeme} {d : Nat} {stop : UInt8 → Bool}

/-- What is covered at the start of a text is in a group. -/
theorem covered_self_iff : Covered d (b :: xs) (b :: xs) ↔ d ≠ 0 ∧ isBrace b = false := by
  constructor
  · intro h
    cases h with
    | hidden hw _ hin => exact absurd (Nat.lt_of_lt_of_le hin.2 hw.suffix.length_le) (Nat.lt_irrefl _)
    | grouped hw he hd hb =>
      obtain ⟨rfl, -⟩ := hw.eq_of_length_le (Nat.le_refl _)
      obtain ⟨rfl, -⟩ := List.cons.inj he
      exact ⟨hd, hb⟩
  · intro ⟨hd, hb⟩
    exact .grouped .refl rfl hd hb

/-- What is covered after the start of a text is within its first unit, or after that. -/
theorem covered_cons_iff (hl : lexeme b xs = .ok (kind, rest)) (hlt : place.length < (b :: xs).length) :
    Covered d (b :: xs) place ↔
      (⟨b :: xs, rest⟩ : Extent).Holds place ∨ Covered (kind.count nesting d b) rest place := by
  constructor
  · intro h
    cases h with
    | hidden hw hu hin =>
      rcases (Walks.cons_iff hl).1 hw with ⟨-, he⟩ | hw
      · rw [lexeme_eq_ok_iff.2 ⟨_, he.symm, hu⟩] at hl
        cases hl
        rw [he] at hin
        exact .inl hin
      · exact .inr (.hidden hw hu hin)
    | grouped hw he hd hb =>
      rcases (Walks.cons_iff hl).1 hw with ⟨-, rfl⟩ | hw
      · exact absurd hlt (Nat.lt_irrefl _)
      · exact .inr (.grouped hw he hd hb)
  · rintro (hin | h)
    · obtain ⟨u, he, hu⟩ := lexeme_eq_ok_iff.1 hl
      rw [he] at hin ⊢
      exact .hidden .refl hu hin
    · cases h with
      | hidden hw hu hin => exact .hidden ((Walks.cons_iff hl).2 (.inr hw)) hu hin
      | grouped hw he hd hb => exact .grouped ((Walks.cons_iff hl).2 (.inr hw)) he hd hb

/-! ## The plain scan -/

theorem seek_cons_of_stop (hb : stop b) (xs : Bytes) : seek stop (b :: xs) = b :: xs := by
  rw [seek, List.dropWhile_cons_of_neg (by simp [hb])]

theorem seek_cons_of_not_stop (hb : stop b = false) (xs : Bytes) : seek stop (b :: xs) = seek stop xs := by
  rw [seek, List.dropWhile_cons_of_pos (by simp [hb])]
  rfl

/-- The plain scan stops within the bytes, or as it would after them. -/
theorem seek_append_cases (u rest : Bytes) :
    seek stop (u ++ rest) = seek stop rest ∨ seek stop u ≠ [] ∧ seek stop (u ++ rest) = seek stop u ++ rest := by
  rw [seek, List.dropWhile_append]
  split
  · exact .inl rfl
  · next h => exact .inr ⟨fun hn => h (by rw [← seek, hn]; rfl), rfl⟩

/-- A unit that hides what it holds does not begin with a plain byte. -/
theorem not_isPlain_of_lexeme (hl : lexeme b xs = .ok (kind, rest)) (hk : kind ≠ .byte) : ¬ isPlain b := by
  intro hp
  rw [lexeme_eq_byte_iff.2 ⟨single_of_isPlain hp xs, rfl⟩] at hl
  cases hl
  exact hk rfl

variable {stops : Bytes}

/-- **The two scans stop at the same byte exactly if the plain scan does not stop at a covered one**, and the plain scan
never stops later. -/
theorem seek_of_topLevelFrom (hs : ∀ b ∈ stops, isPlain b) (h : topLevelFrom stops d xs = .ok rest) :
    rest <:+ seek stops.contains xs ∧
      (seek stops.contains xs = rest ↔ ¬ Covered d xs (seek stops.contains xs)) := by
  fun_induction topLevelFrom stops d xs with
  | case1 d =>
    cases h
    refine ⟨List.suffix_refl _, iff_of_true rfl fun hc => ?_⟩
    cases hc with
    | hidden _ _ hin => exact Nat.not_lt_zero _ (Nat.lt_of_lt_of_le hin.1 (Nat.zero_le _))
    | grouped _ he => cases he
  | case2 => cases h
  | case3 d b xs _ _ hb =>
    cases h
    rw [stopsAt, Bool.and_eq_true, Bool.or_eq_true, beq_iff_eq] at hb
    rw [seek_cons_of_stop hb.1]
    refine ⟨List.suffix_refl _, iff_of_true rfl fun hc => ?_⟩
    obtain ⟨hd, hn⟩ := covered_self_iff.1 hc
    simp [hd, hn] at hb
  | case4 d b xs ys hl hb ih =>
    have hsuffix := topLevelFrom_suffix h
    by_cases hmem : stops.contains b
    · -- the top-level scan goes on, as the byte is in a group
      rw [seek_cons_of_stop hmem]
      refine ⟨hsuffix.trans (List.suffix_cons b xs), iff_of_false ?_ ?_⟩
      · rintro rfl
        exact absurd hsuffix.length_le (Nat.not_succ_le_self _)
      · rw [Classical.not_not, covered_self_iff]
        rw [stopsAt, hmem] at hb
        simpa using hb
    · have hle := (seek_suffix stops.contains xs).length_le
      obtain rfl := rest_of_lexeme_byte hl
      rw [seek_cons_of_not_stop (by simpa using hmem), covered_cons_iff hl (Nat.lt_succ_of_le hle)]
      refine ⟨(ih h).1, (ih h).2.trans (not_congr ?_)⟩
      exact (or_iff_right fun hin => Nat.not_lt_of_le hle hin.1).symm
  | case5 d b xs kind after hk hl ih =>
    have hk : kind ≠ .byte := fun he => hk (he ▸ rfl)
    have hsuffix := topLevelFrom_suffix h
    have hle := (seek_suffix stops.contains after).length_le
    have hb : stops.contains b = false :=
      Bool.eq_false_iff.2 fun hmem => not_isPlain_of_lexeme hl hk (hs b (by simpa using hmem))
    obtain ⟨u, he, hu⟩ := lexeme_eq_ok_iff.1 hl
    have hshort : (seek stops.contains u).length < u.length := by
      obtain ⟨c, t, rfl⟩ := List.exists_cons_of_ne_nil hu.ne_nil
      obtain rfl : b = c := (List.cons.inj he).1
      rw [seek_cons_of_not_stop hb]
      exact Nat.lt_succ_of_le (seek_suffix _ t).length_le
    have hlen : (b :: xs).length = u.length + after.length := by rw [he, List.length_append]
    rcases seek_append_cases u after with hseek | ⟨hne, hseek⟩
    · rw [he, hseek, ← he, covered_cons_iff hl (by omega), Lexeme.count_of_ne hk]
      refine ⟨(ih h).1, (ih h).2.trans (not_congr ?_)⟩
      exact (or_iff_right fun hin => Nat.not_lt_of_le hle hin.1).symm
    · -- the plain scan stops within the unit
      have hpos := List.length_pos_iff.2 hne
      rw [he, hseek, ← he]
      refine ⟨hsuffix.trans (List.suffix_append _ _), iff_of_false ?_ (Classical.not_not.2 ?_)⟩
      · rintro rfl
        have := hsuffix.length_le
        rw [List.length_append] at this
        omega
      · rw [covered_cons_iff hl (by rw [List.length_append]; omega)]
        refine .inl ⟨?_, ?_⟩ <;> simp only [List.length_append] <;> omega

end StyleScope.Scan
