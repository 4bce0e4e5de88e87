/-
What is printed of an animation value is no heavier than the value was. Splitting leaves out gaps, and assigning
moves values about but neither drops one nor makes one up, so what is printed has the bytes of every value and
one separator where the text had one or more.
-/
import StyleScope.Proofs.Animation.Layout
import StyleScope.Proofs.Scan.Weight

namespace StyleScope.Animation

open Byte Scan Text

/-! ## Values -/

/-- No value begins with a space. -/
def Values (ts : List String) : Prop := ∀ t ∈ ts, encode t ≠ [] ∧ Unspaced (encode t)

theorem length_lt_of_afterValue {b : UInt8} {ys after : Bytes} (hs : isSpace b = false) (hb : b ≠ comma)
    (h : afterValue [comma] (b :: ys) = .ok after) : after.length < (b :: ys).length :=
  length_afterValue_lt (by simp [hs, hb]) h

/-- **Splitting loses nothing but gaps.** -/
theorem lighter_of_tokens {xs rest : Bytes} {ts : List String} (h : tokens xs = .ok (ts, rest)) :
    Lighter ((ts.map encode).flatten ++ rest) xs ∧ Values ts ∧ EndsDefinition rest := by
  fun_induction tokens xs generalizing ts with
  | case1 xs hs =>
    cases h
    have hw := lighter_skipGap xs
    rw [hs] at hw
    refine ⟨hw, ?_, ?_⟩
    · intro t ht
      cases ht
    · intro b hb
      cases hb
  | case2 xs ys hs =>
    cases h
    have hw := lighter_skipGap xs
    rw [hs] at hw
    refine ⟨hw, ?_, fun b hb => (Option.some.inj hb).symm⟩
    intro t ht
    cases ht
  | case3 => cases h
  | case4 xs b ys hs hb after hv ih =>
    simp only [bind_eq_ok_iff] at h
    obtain ⟨token, ht, ⟨more, rest'⟩, hm, hr⟩ := h
    cases hr
    obtain ⟨hl, hvals, hend⟩ := ih hm
    have he := textBefore_eq_ok (afterValue_suffix hv) ht
    have hspace := (skipGap_eq_cons hs).1
    refine ⟨?_, ?_, hend⟩
    · have hw := lighter_skipGap xs
      rw [hs, he] at hw
      rw [List.map_cons, List.flatten_cons, List.append_assoc]
      exact ((lighter_refl (encode token)).append hl).trans hw
    · intro t htm
      rcases List.mem_cons.1 htm with rfl | htm
      · cases hc : encode t with
        | nil =>
          rw [hc, List.nil_append] at he
          have := length_lt_of_afterValue hspace hb hv
          rw [he] at this
          omega
        | cons c cs =>
          rw [hc, List.cons_append] at he
          obtain ⟨rfl, -⟩ := List.cons.inj he
          exact ⟨List.cons_ne_nil _ _, unspaced_cons hspace⟩
      · exact hvals t htm

/-! ## Definitions -/

theorem lighter_intercalate (ts : List String) :
    Lighter (encode (" ".intercalate ts)) (ts.map encode).flatten := by
  induction ts with
  | nil => exact lighter_refl []
  | cons t ts ih =>
    cases ts with
    | nil => simpa using lighter_refl (encode t)
    | cons s ts =>
      have hspace : Lighter (encode " ") [] := lighter_of_eq (by decide) (by decide)
      rw [String.intercalate_cons_cons, encode_append, encode_append, List.append_assoc, List.map_cons (a := t),
        List.flatten_cons]
      exact (lighter_refl (encode t)).append (hspace.append ih)

theorem lighter_of_perm {xs ys : Bytes} (h : xs.Perm ys) : Lighter xs ys :=
  lighter_of_eq (h.countP_eq _) (h.countP_eq _)

theorem lighter_of_assign {d : Definition} {a : Animation} (h : d.assign = .ok a) :
    Lighter (encode a.print) (d.tokens.map encode).flatten := by
  obtain ⟨-, hperm⟩ := Definition.of_assign h
  rw [print_eq]
  exact (lighter_intercalate a.texts).trans (lighter_of_perm (hperm.map encode).flatten)

/-- **What is printed of definitions is no heavier than their text.** -/
theorem lighter_of_definitionsFrom {xs : Bytes} {ds : List Definition} {as : List Animation}
    (h : definitionsFrom xs = .ok ds) (hm : ds.mapM Definition.assign = .ok as) :
    as ≠ [] ∧ Lighter (encode (",".intercalate (as.map print))) xs ∧ ∀ a ∈ as, Values a.texts := by
  fun_induction definitionsFrom xs generalizing ds as with
  | case1 => cases h
  | case2 xs ts ht =>
    simp only [bind_eq_ok_iff] at h
    obtain ⟨text, -, hr⟩ := h
    cases hr
    simp only [List.mapM_cons, List.mapM_nil, bind_eq_ok_iff] at hm
    obtain ⟨a, ha, _, hn, hr⟩ := hm
    cases hn
    cases hr
    obtain ⟨hl, hvals, -⟩ := lighter_of_tokens ht
    rw [List.append_nil] at hl
    refine ⟨List.cons_ne_nil _ _, (lighter_of_assign ha).trans hl, fun b hb => ?_⟩
    obtain rfl := List.mem_singleton.1 hb
    exact fun t htm => hvals t ((Definition.of_assign ha).2.mem_iff.1 htm)
  | case3 xs ts b rest ht ih =>
    simp only [bind_eq_ok_iff] at h
    obtain ⟨text, -, more, hmore, hr⟩ := h
    cases hr
    simp only [List.mapM_cons, bind_eq_ok_iff] at hm
    obtain ⟨a, ha, as', has, hr⟩ := hm
    cases hr
    obtain ⟨hl, hvals, hend⟩ := lighter_of_tokens ht
    obtain ⟨hne, hrest, hmem⟩ := ih hmore has
    refine ⟨List.cons_ne_nil _ _, ?_, fun c hc => ?_⟩
    · obtain rfl := hend b rfl
      refine Lighter.trans ?_ hl
      cases as' with
      | nil => exact absurd rfl hne
      | cons a' as' =>
        rw [List.map_cons, List.map_cons, String.intercalate_cons_cons, encode_append, encode_append,
          List.append_assoc]
        exact (lighter_of_assign ha).append ((hrest.trans (lighter_skipGap rest)).cons comma)
    · rcases List.mem_cons.1 hc with rfl | hc
      · exact fun t htm => hvals t ((Definition.of_assign ha).2.mem_iff.1 htm)
      · exact hmem c hc

theorem unspaced_intercalate (sep : String) {s : String} (ss : List String) (hs : encode s ≠ [])
    (hu : Unspaced (encode s)) :
    encode (sep.intercalate (s :: ss)) ≠ [] ∧ Unspaced (encode (sep.intercalate (s :: ss))) := by
  cases ss with
  | nil => simpa using ⟨hs, hu⟩
  | cons t ss =>
    rw [String.intercalate_cons_cons, encode_append, encode_append, List.append_assoc]
    cases he : encode s with
    | nil => exact absurd he hs
    | cons b xs => exact ⟨List.cons_ne_nil _ _, unspaced_cons (hu b (by rw [he]; rfl))⟩

/-- What is printed begins as its first value does. -/
theorem unspaced_print {as : List Animation} (hne : as ≠ []) (h : ∀ a ∈ as, Values a.texts) :
    Unspaced (encode (",".intercalate (as.map print))) := by
  cases as with
  | nil => exact absurd rfl hne
  | cons a as =>
    have ha := h a List.mem_cons_self
    obtain ⟨t, ts, ht⟩ := List.exists_cons_of_ne_nil a.texts_ne_nil
    obtain ⟨ht0, htu⟩ := ha t (by simp [ht])
    have hprint := unspaced_intercalate " " ts ht0 htu
    rw [← ht, ← print_eq] at hprint
    exact (unspaced_intercalate "," (as.map print) hprint.1 hprint.2).2

/-- **What is printed of a value is no heavier than the value**, and begins with no space. -/
theorem lighter_of_ofValue {value : String} {as : List Animation} (h : ofValue value = .ok as) :
    Lighter (encode (",".intercalate (as.map print))) (encode value) ∧
      Unspaced (encode (",".intercalate (as.map print))) := by
  simp only [ofValue, bind_eq_ok_iff] at h
  obtain ⟨ds, hd, hm⟩ := h
  have hfrom := locating_eq_ok_iff.1 hd
  obtain ⟨hne, hl, hvals⟩ := lighter_of_definitionsFrom hfrom hm
  exact ⟨hl.trans (lighter_skipGap _), unspaced_print hne hvals⟩

end StyleScope.Animation
