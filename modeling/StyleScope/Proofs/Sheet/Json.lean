/-
The JSON of a sheet determines the sheet. Each kind of animation, declaration and rule has its own first field, and the
other fields give its parts, so nothing is told twice in the same way; and the text of a JSON value determines the value
(`Json.ends`). So no text of a sheet begins the text of another (`Sheet.render_toJson_inj`).
-/
import Mathlib.Data.List.Basic
import StyleScope.Proofs.Json.Text
import StyleScope.Sheet.Json

namespace StyleScope

/-! ## Parts of rules -/

theorem Animation.toJson_injective : Function.Injective Animation.toJson := by
  intro a b h
  cases a <;> cases b <;> simp_all [Animation.toJson]

theorem ConditionalKind.toJson_injective : Function.Injective ConditionalKind.toJson := by
  intro a b h
  cases a <;> cases b <;> simp_all [ConditionalKind.toJson]

theorem Declaration.toJson_injective : Function.Injective Declaration.toJson := by
  intro a b h
  cases a <;> cases b <;>
    simp_all [Declaration.toJson, (List.map_injective_iff.2 Animation.toJson_injective).eq_iff]

/-! ## Rules -/

mutual

/-- **The JSON of a rule determines it**, at every depth. -/
theorem Rule.toJson_inj : ∀ {a b : Rule}, a.toJson = b.toJson → a = b
  | .style selectors declarations, b, h => by
    cases b with
    | style selectors' declarations' =>
      simp only [Rule.toJson, Json.obj.injEq, List.cons.injEq, Prod.mk.injEq, Json.arr.injEq, true_and, and_true] at h
      obtain ⟨hselectors, hdeclarations⟩ := h
      rw [List.map_injective_iff.2 (fun _ _ => Json.str.inj) hselectors,
        List.map_injective_iff.2 Declaration.toJson_injective hdeclarations]
    | _ => simp [Rule.toJson] at h
  | .keyframes name body, b, h => by
    cases b with
    | keyframes => simpa [Rule.toJson] using h
    | _ => simp [Rule.toJson] at h
  | .conditional kind condition rules, b, h => by
    cases b with
    | conditional kind' condition' rules' =>
      simp only [Rule.toJson, Json.obj.injEq, List.cons.injEq, Prod.mk.injEq, Json.str.injEq, Json.arr.injEq,
        true_and, and_true] at h
      obtain ⟨hkind, rfl, hrules⟩ := h
      rw [ConditionalKind.toJson_injective hkind, rulesToJson_inj hrules]
    | _ => simp [Rule.toJson] at h

theorem rulesToJson_inj : ∀ {as bs : List Rule}, rulesToJson as = rulesToJson bs → as = bs
  | [], bs, h => by
    cases bs with
    | nil => rfl
    | cons => simp [rulesToJson] at h
  | a :: as, bs, h => by
    cases bs with
    | nil => simp [rulesToJson] at h
    | cons b bs =>
      simp only [rulesToJson, List.cons.injEq] at h
      rw [Rule.toJson_inj h.1, rulesToJson_inj h.2]

end

/-! ## Sheets -/

/-- **The JSON text of a sheet determines the sheet.** Two sheets with the same JSON text are the same, whatever stands in
their texts and however deep their rules are; and a JSON text that begins with that of a sheet begins with that of no
other. -/
theorem Sheet.render_toJson_inj (as bs : Sheet) :
    (as.toJson.render = bs.toJson.render ↔ as = bs) ∧
      ∀ x y : String, as.toJson.render ++ x = bs.toJson.render ++ y ↔ as = bs ∧ x = y := by
  have hend (x y : String) : as.toJson.render ++ x = bs.toJson.render ++ y ↔ as = bs ∧ x = y := by
    refine ⟨fun h => ?_, fun ⟨hs, hx⟩ => by rw [hs, hx]⟩
    have hchars := congrArg String.toList h
    rw [String.toList_append, String.toList_append] at hchars
    obtain ⟨hjson, hx⟩ := Json.ends _ _ _ _ hchars
    exact ⟨rulesToJson_inj (Json.arr.inj hjson), String.toList_inj.1 hx⟩
  refine ⟨⟨fun h => ((hend "" "").1 (by rw [h])).1, fun h => by rw [h]⟩, hend⟩

/-- A quote and a comma in one selector are not the end of it and the beginning of another. -/
example :
    (Sheet.toJson [.style ["a\",\"b"] []]).render ≠ (Sheet.toJson [.style ["a", "b"] []]).render ∧
      (Sheet.toJson [.style ["a\",\"b"] []]).render =
        "[\x7b\"type\":\"style\",\"selectors\":[\"a\\\",\\\"b\"],\"declarations\":[]\x7d]" := by decide +kernel

end StyleScope
