/-
What is printed of a tree weighs no more than a text that it is read from. Pieces are lighter as they were
trimmed; of a whole block only the weight is compared, since what is printed may have a semicolon more than the
text had.
-/
import StyleScope.Proofs.Animation.Weight
import StyleScope.Proofs.Sheet.Grammar
import StyleScope.Proofs.Sheet.Printing

namespace StyleScope.Sheet

open Byte Scan Text

/-! ## Pieces -/

theorem PieceText.lighter {stops : Bytes} {s : String} {x : Bytes} {d : Nat} (h : PieceText stops s x d) :
    Trimmed s ∧ Lighter (encode s) x := by
  obtain ⟨rfl, -, -⟩ := h
  exact ⟨trimmed_trim _, lighter_trim _⟩

theorem PieceText.unspaced {stops : Bytes} {s : String} {x : Bytes} {d : Nat} (h : PieceText stops s x d) :
    Unspaced x := by
  obtain ⟨-, hf, -⟩ := h
  exact hf.unspaced

theorem SelectorsText.lighter {ss : List String} {x : Bytes} (h : SelectorsText ss x) :
    Lighter (encode (",".intercalate ss)) x := by
  induction h with
  | last hp => exact hp.lighter.2
  | @cons s ss x g y hp hg hy ih =>
    have hrest := (hp.lighter.2).append (((lighter_gap hg).nil_append ih).cons comma)
    cases ss with
    | nil => cases hy
    | cons t ss => rwa [encode_intercalate_cons]

/-- What the declaration of a property keeps: the property, and a value that is no heavier. -/
theorem of_ofProperty {property value : String} {d : Declaration}
    (h : Declaration.ofProperty property value = .ok d) (hv : Trimmed value) :
    d.property = property ∧ Lighter (encode d.value) (encode value) ∧ Unspaced (encode d.value) := by
  unfold Declaration.ofProperty at h
  split at h
  · next hp =>
    cases ha : Animation.ofValue value with
    | error e => rw [ha] at h; cases h
    | ok as =>
      rw [ha] at h
      cases h
      exact ⟨hp.symm, Animation.lighter_of_ofValue ha⟩
  · split at h
    · next hp => cases h; exact ⟨hp.symm, lighter_refl _, unspaced_of_trimmed hv⟩
    · cases h; exact ⟨rfl, lighter_refl _, unspaced_of_trimmed hv⟩

/-- What is known of a declaration that was read. -/
structure Kept (d : Declaration) : Prop where
  trimmed : Trimmed d.property
  inside : ∀ b ∈ encode d.property, endsProperty b = false
  unspaced : Unspaced (encode d.value)

theorem Kept.unspaced_bytes {d : Declaration} (h : Kept d) : Unspaced d.bytes :=
  (unspaced_of_trimmed h.trimmed).append_cons (by decide)

theorem endsProperty_of_mem_trim {p : String} (h : ∀ b ∈ encode p, endsProperty b = false) :
    ∀ b ∈ encode (trim p), endsProperty b = false := by
  obtain ⟨u, w, -, -, he⟩ := exists_pad p
  intro b hb
  refine h b ?_
  rw [he, encode_append, encode_append]
  exact List.mem_append_left _ (List.mem_append_right _ hb)

theorem DeclarationText.kept {d : Declaration} {x : Bytes} {depth : Nat} (h : DeclarationText d x depth) :
    Kept d := by
  obtain ⟨-, hends, -, hp, ho⟩ := h
  obtain ⟨hprop, -, hu⟩ := of_ofProperty ho hp.lighter.1
  exact ⟨hprop ▸ trimmed_trim _, hprop ▸ endsProperty_of_mem_trim hends, hu⟩

theorem DeclarationText.unspaced {d : Declaration} {x : Bytes} {depth : Nat} (h : DeclarationText d x depth) :
    Unspaced x := by
  have hf := h.flush []
  rw [List.append_nil] at hf
  exact hf.unspaced

theorem DeclarationText.lighter {d : Declaration} {x : Bytes} {depth : Nat} (h : DeclarationText d x depth) :
    Lighter d.bytes x := by
  obtain ⟨-, -, hg, hp, ho⟩ := h
  obtain ⟨hprop, hv, -⟩ := of_ofProperty ho hp.lighter.1
  rw [Declaration.bytes, hprop]
  exact (lighter_trim _).append (((lighter_gap hg).nil_append (hv.trans hp.lighter.2)).cons colon)

/-! ## Blocks and rules -/

theorem DeclarationsText.weight_le {ds : List Declaration} {x : Bytes} (h : DeclarationsText ds x) :
    weight (encode (String.join (ds.map Declaration.print)) ++ [closeBrace]) ≤ weight x := by
  induction h with
  | nil hg =>
    rw [weight_append, weight_append]
    exact Nat.add_le_add_right (Nat.zero_le _) _
  | semicolon hg _ ih =>
    simp only [weight_append, weight_cons, byteWeight_semicolon] at ih ⊢
    omega
  | cons hg hd _ ih =>
    have hd := hd.lighter.1
    rw [encode_join_cons]
    simp only [weight_append, weight_cons] at ih hd ⊢
    omega
  | last hg hd =>
    have hd := hd.lighter.1
    rw [encode_join_cons]
    simp only [weight_append, weight_cons, weight_nil, byteWeight_semicolon, List.map_nil, String.join_nil,
      encode_empty] at hd ⊢
    omega

theorem ConditionText.weight_le {kind : ConditionalKind} {condition : String} {x : Bytes}
    (h : ConditionText kind condition x) :
    weight (encode kind.keyword) + weight (encode condition ++ [openBrace]) ≤ weight x := by
  obtain ⟨-, -, -, -⟩ := h
  simp only [weight_append]
  omega

/-- **What is printed of rules weighs no more than a text that they are read from.** -/
theorem RulesText.weight_le {rules : List Rule} {x : Bytes} (h : RulesText rules x) :
    weight (encode (print rules)) ≤ weight x := by
  induction h with
  | nil hg => exact Nat.zero_le _
  | item hg hi _ ih =>
    cases hi with
    | style hs _ hd =>
      have hs := hs.lighter.1
      have hd := hd.weight_le
      rw [encode_print_style]
      simp only [weight_append, weight_cons, weight_nil, byteWeight_lineFeed] at ih hs hd ⊢
      omega
    | keyframes =>
      rw [encode_print_keyframes]
      simp only [weight_append, weight_cons, weight_nil, byteWeight_space, byteWeight_lineFeed] at ih ⊢
      omega
  | conditional hg hc _ _ ihi ih =>
    have hc := hc.weight_le
    rw [encode_print_conditional]
    simp only [weight_append, weight_cons, weight_nil, byteWeight_space, byteWeight_lineFeed] at ihi ih hc ⊢
    omega

end StyleScope.Sheet
