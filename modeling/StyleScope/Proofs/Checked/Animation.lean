/-
The reader of animation values, with its checks. Its cursor stands behind a gap whenever a value may begin, so each
value is a slice, and none is empty: the loops go on. What is done with the values afterwards takes no slices.
-/
import StyleScope.Proofs.Animation.Layout
import StyleScope.Proofs.Checked.Scan

namespace StyleScope.Checked

open Byte Text
open Animation (Definition)

/-! ## Splitting -/

/-- The values from the cursor, which stands behind a gap, up to the next comma or the end. -/
def tokens (whole : Bytes) (n : Nat) : Run (List String × Nat) :=
  match whole[n]? with
  | none => return ([], n)
  | some b =>
    if b = comma then return ([], n)
    else do
      let stop ← afterValue whole [comma] n
      let token ← slice whole n stop
      let next ← skipGap whole stop
      let ⟨m, _⟩ ← onward whole n next
      let (more, last) ← tokens whole m
      return (token :: more, last)
termination_by whole.length - n

/-- The definitions from the cursor, which stands behind a gap. -/
def definitionsFrom (whole : Bytes) (n : Nat) : Run (List Definition) := do
  let (tokens, stop) ← tokens whole n
  let text ← slice whole n stop
  if whole[stop]? = some comma then do
    let inside ← expect whole comma stop
    let next ← skipGap whole inside
    let ⟨m, _⟩ ← onward whole n next
    let more ← definitionsFrom whole m
    return ⟨trimEnd text, tokens⟩ :: more
  else return [⟨trimEnd text, tokens⟩]
termination_by whole.length - n

section Splitting

variable {s : String} {n : Nat} {xs : Bytes}

/-- The values of one definition end at a comma or at the end. -/
theorem agrees_tokens (h : CutAt (encode s) n (Scan.skipGap xs)) :
    Agrees (Fault.locate (encode s))
      (fun p q => p.1 = q.1 ∧ CutAt (encode s) p.2 q.2 ∧ ∀ b ∈ q.2.head?, b = comma)
      (tokens (encode s) n) (Animation.tokens xs) := by
  fun_induction Animation.tokens xs generalizing n with
  | case1 xs hs =>
    rw [hs] at h
    rw [tokens, h.getElem?]
    exact ⟨rfl, h, fun b hb => by cases hb⟩
  | case2 xs ys hs =>
    rw [hs] at h
    rw [tokens, h.getElem?]
    simp only [List.head?_cons, if_true]
    exact ⟨rfl, h, fun b hb => (Option.some.inj hb).symm⟩
  | case3 xs b ys hs hb fault hv =>
    rw [hs] at h
    rw [tokens, h.getElem?]
    simp only [List.head?_cons, if_neg hb]
    exact .bind_error (hv ▸ cut_afterValue h.toAt (by decide))
  | case4 xs b ys hs hb after hv ih =>
    rw [hs] at h
    rw [tokens, h.getElem?]
    simp only [List.head?_cons, if_neg hb]
    have hsuffix := Scan.afterValue_suffix hv
    have hvalue := Scan.length_afterValue_lt (by simp [(Scan.skipGap_eq_cons hs).1, hb]) hv
    have hgap := Scan.length_skipGap_le after
    refine .bind_ok (hv ▸ cut_afterValue h.toAt (by decide)) fun stop hstop => ?_
    refine .bind (agrees_slice h hstop hsuffix) fun token _ _ htoken => ?_
    refine .bind_ok (cut_skipGap hstop) fun next hnext => ?_
    refine .onward h.toAt hnext.toAt (Nat.lt_of_le_of_lt hgap hvalue) fun _ => ?_
    refine .bind (ih hnext) fun p q _ hpq => ?_
    obtain ⟨hmore, hlast⟩ := hpq
    exact ⟨by rw [htoken, hmore], hlast⟩

theorem agrees_definitionsFrom (h : CutAt (encode s) n xs) (hf : Scan.Flush xs) :
    Agrees (Fault.locate (encode s)) Eq (definitionsFrom (encode s) n) (Animation.definitionsFrom xs) := by
  induction hk : xs.length using Nat.strongRecOn generalizing n xs with
  | ind k ih =>
    rw [definitionsFrom, Animation.definitionsFrom_eq]
    refine .bind (agrees_tokens ((Scan.skipGap_of_flush hf).symm ▸ h)) fun p q hq hpq => ?_
    obtain ⟨tokens, stop⟩ := p
    obtain ⟨_, rest⟩ := q
    obtain ⟨rfl, hstop, hcomma⟩ := hpq
    have hsuffix := Animation.tokens_suffix hq
    refine .bind (agrees_slice h hstop hsuffix) fun text _ _ htext => ?_
    rw [hstop.getElem?, htext]
    cases rest with
    | nil => exact rfl
    | cons b rest =>
      obtain rfl := hcomma b rfl
      have hlt := hsuffix.length_le
      have hgap := Scan.length_skipGap_le rest
      rw [List.length_cons] at hlt
      simp only [List.head?_cons, if_true]
      refine .bind_ok (agrees_expect_cons hstop.toAt (by decide)) fun inside hinside => ?_
      refine .bind_ok (cut_skipGap hinside) fun next hnext => ?_
      refine .onward h.toAt hnext.toAt (by omega) fun _ => ?_
      refine .bind (ih _ (by omega) hnext (Scan.flush_skipGap rest) rfl) fun more _ _ hmore => ?_
      rw [hmore]
      exact rfl

end Splitting

/-! ## Values -/

/-- The animations that a value describes. -/
def ofValue (value : String) : Run (List Animation) := do
  let start ← skipGap (encode value) 0
  let split ← definitionsFrom (encode value) start
  split.mapM fun d => d.assign.mapError .refused

/-- To assign values no slice is taken. -/
theorem agrees_assign (d : Definition) : Agrees id Eq (d.assign.mapError .refused) d.assign := by
  unfold Definition.assign
  split
  · exact ⟨rfl, nofun⟩
  · split
    · exact ⟨rfl, nofun⟩
    · split
      · exact rfl
      · exact ⟨rfl, nofun⟩

theorem agrees_ofValue (value : String) : Agrees id Eq (ofValue value) (Animation.ofValue value) := by
  rw [ofValue, Animation.ofValue, locating, Animation.definitions]
  refine .bind_ok (cut_skipGap (cutAt_zero value)) fun start hstart => ?_
  have hsplit := agrees_definitionsFrom hstart (Scan.flush_skipGap _)
  refine .bind (hsplit.mapError fun _ => rfl) fun split _ _ he => ?_
  rw [he]
  exact agrees_mapM agrees_assign _

end StyleScope.Checked
