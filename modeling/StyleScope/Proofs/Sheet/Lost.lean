/-
What a reading loses. Between the name of keyframes and their body stands a gap, and after it any text in which no
brace opens a block: the body is the next block, and the tree keeps nothing of what stands before it. Exchanged for
any other text of this kind it gives the same tree (`keyframes_lost`), so a misspelt name or a whole statement is
passed over in silence, and a style rule that follows gives its block to the keyframes.
-/
import StyleScope.Proofs.Sheet.Places

namespace StyleScope

open Byte Scan Text

namespace Sheet

/-- Keyframes, with what stands between the name and the body. -/
def keyframesBytes (g : Bytes) (name : String) (between : Bytes) (body : String) : Bytes :=
  encode "@keyframes" ++ (g ++ (encode name ++ (between ++ encode body)))

/-- What is passed over on the way to a block: a gap, and then a text that opens no block. -/
structure PassedOver (gap lost : Bytes) : Prop where
  gap : Gap gap
  flush : Flush lost
  unbraced : Unbraced lost

/-- A name ends before these bytes. -/
def NameEnds (name : String) (rest : Bytes) : Prop := BeginsQuoted (encode name) ∨ EndsValue [openBrace] rest

/-- Only blanks and comments are passed over exactly if nothing is lost. -/
theorem PassedOver.gap_append_iff {gap lost : Bytes} (h : PassedOver gap lost) : Gap (gap ++ lost) ↔ lost = [] := by
  constructor
  · intro hall
    have hskip : skipGap (gap ++ lost) = skipGap ([] : Bytes) := by
      rw [← List.append_nil (gap ++ lost), skipGap_append hall]
    rw [skipGap_append_flush h.gap h.flush, skipGap] at hskip
    exact hskip
  · rintro rfl
    rw [List.append_nil]
    exact h.gap

/-- Keyframes are read whatever else is passed over in them. -/
theorem ItemText.exists_keyframesBytes {name body : String} {x : Bytes} (h : ItemText (.keyframes name body) x) :
    ∃ g gap lost, x = keyframesBytes g name (gap ++ lost) body ∧ Gap g ∧ PassedOver gap lost ∧
      ∀ gap' lost', PassedOver gap' lost' → NameEnds name (gap' ++ (lost' ++ encode body)) →
        ItemText (.keyframes name body) (keyframesBytes g name (gap' ++ lost') body) := by
  cases h with
  | @keyframes _ _ g gap lost hg hk hf hv hgap hfl hu hb hend =>
    refine ⟨g, gap, lost, by rw [keyframesBytes, List.append_assoc], hg, ⟨hgap, hfl, hu⟩, fun gap' lost' h' he => ?_⟩
    rw [keyframesBytes, List.append_assoc gap']
    exact .keyframes hg hk hf hv h'.gap h'.flush h'.unbraced hb he

/-- **Keyframes lose what stands between their name and their body**, beyond blanks and comments. The places where
reading starts a rule hold the rules of the tree, in its order. At each that holds keyframes, the name is followed by a
gap, a text that opens no block, and the body; and the sheet is read as the same tree with any other text of this kind
in its stead. -/
theorem keyframes_lost {css : String} {rules : Sheet} (h : parse css = .ok rules) :
    itemsAt (ruleStarts (encode css)) = items rules ∧
      ∀ place ∈ ruleStarts (encode css), ∀ name body rest,
        itemAt? place = some (.rule (.keyframes name body), rest) →
        ∃ front g gap lost, encode css = front ++ place ∧ place = keyframesBytes g name (gap ++ lost) body ++ rest ∧
          Gap g ∧ PassedOver gap lost ∧ (Gap (gap ++ lost) ↔ lost = []) ∧
          ∀ gap' lost', PassedOver gap' lost' → NameEnds name (gap' ++ (lost' ++ encode body)) →
            read (front ++ (keyframesBytes g name (gap' ++ lost') body ++ rest)) = .ok rules := by
  have hread : read (encode css) = .ok rules := locating_eq_ok_iff.1 h
  refine ⟨items_of_read hread, fun place hp name body rest hi => ?_⟩
  obtain ⟨hplace, front, hfront, hexchange⟩ := exists_front_of_mem hp hi
  obtain ⟨x, hx, hitem⟩ := hplace.itemText
  obtain ⟨g, gap, lost, rfl, hg, hpass, hother⟩ := hitem.exists_keyframesBytes
  refine ⟨front, g, gap, lost, hfront, hx, hg, hpass, hpass.gap_append_iff, fun gap' lost' h' he => ?_⟩
  rw [hexchange _ ((hother gap' lost' h' he).readsItem rest), hread]

/-- A word after the name is lost, in keyframes within a conditional rule: without it the sheet is read as the same
tree. -/
theorem keyframes_lost_word :
    parse "@media x\x7b@keyframes a b\x7b\x7d\x7d" = .ok [.conditional .media "x" [.keyframes "a" "\x7b\x7d"]] ∧
      ∃ front g gap lost rest,
        encode "@media x\x7b@keyframes a b\x7b\x7d\x7d" =
          front ++ (keyframesBytes g "a" (gap ++ lost) "\x7b\x7d" ++ rest) ∧
        ¬ Gap (gap ++ lost) ∧
        read (front ++ (keyframesBytes g "a" [] "\x7b\x7d" ++ rest)) =
          .ok [.conditional .media "x" [.keyframes "a" "\x7b\x7d"]] := by
  have hparse : parse "@media x\x7b@keyframes a b\x7b\x7d\x7d" =
      .ok [.conditional .media "x" [.keyframes "a" "\x7b\x7d"]] := by decide +kernel
  obtain ⟨front, g, gap, lost, he, hp, hg, hpass, hiff, hother⟩ :=
    (keyframes_lost hparse).2 (encode "@keyframes a b\x7b\x7d\x7d") (by decide +kernel) "a" "\x7b\x7d" [closeBrace]
      (by decide +kernel)
  refine ⟨hparse, front, g, gap, lost, [closeBrace], hp ▸ he, fun hall => ?_, ?_⟩
  · generalize gap ++ lost = between at hall hp
    rw [keyframesBytes] at hp
    simp only [List.append_assoc] at hp
    -- both gaps are skipped, and a word stands where the body should
    have hname : encode " a b\x7b\x7d\x7d" = g ++ (encode "a" ++ (between ++ encode "\x7b\x7d\x7d")) :=
      List.append_cancel_left ((by decide +kernel : _ = encode "@keyframes a b\x7b\x7d\x7d").trans hp)
    have hafter : encode "a b\x7b\x7d\x7d" = encode "a" ++ (between ++ encode "\x7b\x7d\x7d") := by
      have hflush : Flush (encode "a" ++ (between ++ encode "\x7b\x7d\x7d")) := .cons (by decide) (by decide)
      rw [← skipGap_append_flush hg hflush, ← hname]
      decide +kernel
    have hbody : encode " b\x7b\x7d\x7d" = between ++ encode "\x7b\x7d\x7d" :=
      List.append_cancel_left ((by decide +kernel : encode "a" ++ _ = encode "a b\x7b\x7d\x7d").trans hafter)
    have hflush : Flush (encode "\x7b\x7d\x7d") := .cons (by decide) (by decide)
    have hskip := skipGap_append_flush hall hflush
    rw [← hbody] at hskip
    exact absurd hskip (by decide +kernel)
  · exact hother [] [] ⟨.nil, flush_nil, .nil⟩ (.inr fun b hb => by cases hb; rfl)

end Sheet

end StyleScope
