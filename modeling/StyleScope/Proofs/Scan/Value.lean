/-
Values, told without a scanner: a closed string, or bytes that run on to a space or a following byte outside
all groups. Nothing but what ends it is looked at after a value, and a string needs not even that.
-/
import StyleScope.Proofs.Scan.TopLevel

namespace StyleScope.Scan

open Byte

/-- A value runs on over these bytes, from a depth to a depth. -/
inductive RunsOn (follow : Bytes) : Nat → Bytes → Nat → Prop
  | nil {d : Nat} : RunsOn follow d [] d
  | escape {d d' : Nat} {xs : Bytes} (b : UInt8) :
    RunsOn follow d xs d' → RunsOn follow d (backslash :: b :: xs) d'
  | quoted {d d' : Nat} {quote : UInt8} {inside xs : Bytes} :
    d ≠ 0 → isQuote quote → QuotedText quote inside → RunsOn follow d xs d' →
      RunsOn follow d (quote :: (inside ++ quote :: xs)) d'
  | byte {d d' : Nat} {b : UInt8} {xs : Bytes} :
    b ≠ backslash → ¬ (d = 0 ∧ (isSpace b || follow.contains b)) → ¬ (d ≠ 0 ∧ isQuote b) →
      RunsOn follow (nesting d b) xs d' → RunsOn follow d (b :: xs) d'

/-- One value and nothing more. -/
inductive ValueText (follow : Bytes) : Bytes → Prop
  | quoted {quote : UInt8} {inside : Bytes} :
    isQuote quote → QuotedText quote inside → ValueText follow (quote :: (inside ++ [quote]))
  | bare {b : UInt8} {xs : Bytes} : isQuote b = false → RunsOn follow 0 (b :: xs) 0 → ValueText follow (b :: xs)

/-- A value may end before these bytes: they begin with what ends it, or the text is at its end. -/
def EndsValue (follow rest : Bytes) : Prop := ∀ b ∈ rest.head?, isSpace b || follow.contains b

/-- The text begins with a quote. -/
def BeginsQuoted (xs : Bytes) : Prop := ∃ b ∈ xs.head?, isQuote b

variable {follow : Bytes} {d d' d'' : Nat}

theorem EndsValue.append {xs : Bytes} (h : EndsValue follow xs) (hx : xs ≠ []) (rest : Bytes) :
    EndsValue follow (xs ++ rest) := by
  cases xs with
  | nil => exact absurd rfl hx
  | cons c xs => exact h

theorem EndsValue.of_append {xs rest : Bytes} (h : EndsValue follow (xs ++ rest)) : EndsValue follow xs := by
  cases xs with
  | nil => exact nofun
  | cons c xs => exact h

theorem ValueText.ne_nil {n : Bytes} (h : ValueText follow n) : n ≠ [] := by
  cases h <;> simp

/-- A value does not begin with what ends one. -/
theorem ValueText.head_ne {b : UInt8} {n : Bytes} (h : ValueText follow (b :: n))
    (hf : ∀ c ∈ follow, c ≠ backslash ∧ isQuote c = false) : isSpace b = false ∧ b ∉ follow := by
  cases h with
  | quoted hq _ =>
    refine ⟨?_, fun hm => ?_⟩
    · rcases isQuote_iff.1 hq with rfl | rfl <;> decide
    · rw [(hf _ hm).2] at hq
      cases hq
  | bare _ hx =>
    cases hx with
    | escape => exact ⟨by decide, fun hm => (hf _ hm).1 rfl⟩
    | quoted hd => exact absurd rfl hd
    | byte _ he _ _ =>
      simp only [List.contains_eq_mem, Bool.or_eq_true, decide_eq_true_eq, true_and, not_or] at he
      exact ⟨by simpa using he.1, he.2⟩

/-- A value does not turn into a comment by what ends it. -/
theorem ValueText.flush_append {n rest : Bytes} (h : ValueText follow n) (hn : Flush n) (hf : star ∉ follow)
    (hr : BeginsQuoted n ∨ EndsValue follow rest) : Flush (n ++ rest) := by
  rcases hr with ⟨b, hb, hq⟩ | hr
  · cases n with
    | nil => cases hb
    | cons c n =>
      cases hb
      refine ⟨hn.1, fun hc => ?_⟩
      rw [hc.1] at hq
      exact absurd hq (by decide)
  · refine hn.append h.ne_nil fun hs => ?_
    have := hr star hs
    have hspace : isSpace star = false := by decide
    simp [hspace, hf] at this

/-! ## The scan -/

theorem RunsOn.afterBareFrom {xs rest : Bytes} (h : RunsOn follow d xs d') :
    afterBareFrom follow d (xs ++ rest) = afterBareFrom follow d' rest := by
  induction h with
  | nil => rfl
  | escape b _ ih => rw [List.cons_append, List.cons_append, Scan.afterBareFrom, if_pos rfl]; exact ih
  | @quoted d d' quote inside xs hd hq hi _ ih =>
    have he : quote :: (inside ++ quote :: xs) ++ rest = quote :: (inside ++ quote :: (xs ++ rest)) := by simp
    rw [he, Scan.afterBareFrom, if_neg (ne_backslash_of_isQuote hq), if_neg (by simp [hd]),
      if_pos (by simp [hd, hq])]
    split
    · next hs => rw [afterString_append hq hi] at hs; cases hs
    · next hs => rw [afterString_append hq hi] at hs; cases hs; exact ih
  | byte hb he hq _ ih =>
    rw [List.cons_append, Scan.afterBareFrom, if_neg hb, if_neg (by simpa using he), if_neg (by simpa using hq)]
    exact ih

theorem afterBareFrom_end {rest : Bytes} (hf : backslash ∉ follow) (h : EndsValue follow rest) :
    afterBareFrom follow 0 rest = .ok rest := by
  cases rest with
  | nil => rw [afterBareFrom]
  | cons b rest =>
    have hb := h b rfl
    have hne : b ≠ backslash := by
      rintro rfl
      have hs : isSpace backslash = false := by decide
      simp [hs, hf] at hb
    rw [afterBareFrom, if_neg hne, if_pos (by simpa using hb)]

/-- **A value is read whole**, before what ends it; before anything, if it is a string. -/
theorem ValueText.afterValue {n rest : Bytes} (h : ValueText follow n) (hf : backslash ∉ follow)
    (hr : BeginsQuoted n ∨ EndsValue follow rest) : afterValue follow (n ++ rest) = .ok rest := by
  cases h with
  | @quoted quote inside hq hi =>
    have he : quote :: (inside ++ [quote]) ++ rest = quote :: (inside ++ quote :: rest) := by simp
    rw [he, Scan.afterValue, if_pos hq, afterString_append hq hi]
  | @bare b xs hb hx =>
    have hbare : ¬ BeginsQuoted (b :: xs) := by
      intro h
      obtain ⟨c, hc, hq⟩ := h
      cases hc
      rw [hb] at hq
      cases hq
    have hr : EndsValue follow rest := hr.resolve_left hbare
    rw [List.cons_append, Scan.afterValue, if_neg (by simp [hb]), ← List.cons_append, hx.afterBareFrom,
      afterBareFrom_end hf hr]

theorem runsOn_of_afterBareFrom {xs rest : Bytes} {c : UInt8} (h : afterBareFrom follow d xs = .ok (c :: rest)) :
    ∃ ys, xs = ys ++ c :: rest ∧ RunsOn follow d ys 0 ∧ (isSpace c || follow.contains c) := by
  fun_induction afterBareFrom follow d xs with
  | case1 => cases h
  | case2 d xs ih =>
    cases xs with
    | nil => rw [afterEscape, afterBareFrom] at h; cases h
    | cons b xs =>
      obtain ⟨ys, he, hr, hc⟩ := ih h
      rw [afterEscape] at he
      exact ⟨backslash :: b :: ys, by rw [he]; rfl, .escape b hr, hc⟩
  | case3 d b xs hb he =>
    cases h
    rw [Bool.and_eq_true, beq_iff_eq] at he
    exact ⟨[], rfl, he.1 ▸ .nil, he.2⟩
  | case4 => cases h
  | case5 d b xs hb he hq after hs ih =>
    obtain ⟨inside, hi, rfl⟩ := eq_of_afterString hs
    obtain ⟨ys, rfl, hr, hc⟩ := ih h
    rw [Bool.and_eq_true, bne_iff_ne] at hq
    exact ⟨b :: (inside ++ b :: ys), by simp, .quoted hq.1 hq.2 hi hr, hc⟩
  | case6 d b xs hb he hq ih =>
    obtain ⟨ys, rfl, hr, hc⟩ := ih h
    exact ⟨b :: ys, rfl, .byte hb (by simpa using he) (by simpa using hq) hr, hc⟩

/-- **What is read is a value**, unless nothing remains after it. -/
theorem valueText_of_afterValue {n rest : Bytes} {c : UInt8} (h : afterValue follow (n ++ c :: rest) = .ok (c :: rest))
    (hn : n ≠ []) : ValueText follow n ∧ (BeginsQuoted n ∨ EndsValue follow (c :: rest)) := by
  cases n with
  | nil => exact absurd rfl hn
  | cons b n =>
    rw [List.cons_append, afterValue] at h
    split at h
    · next hq =>
      obtain ⟨inside, hi, he⟩ := eq_of_afterString h
      obtain rfl : n = inside ++ [b] := List.append_cancel_right (by rw [he]; simp)
      exact ⟨.quoted hq hi, .inl ⟨b, rfl, hq⟩⟩
    · next hq =>
      obtain ⟨ys, he, hr, hc⟩ := runsOn_of_afterBareFrom h
      obtain rfl : b :: n = ys := List.append_cancel_right (by rw [← he, List.cons_append])
      exact ⟨.bare (by simpa using hq) hr, .inr fun _ ha => by cases ha; exact hc⟩

/-! ## Rows of units -/

theorem RunsOn.append {xs ys : Bytes} (h : RunsOn follow d xs d') (h' : RunsOn follow d' ys d'') :
    RunsOn follow d (xs ++ ys) d'' := by
  induction h with
  | nil => exact h'
  | escape b _ ih => exact .escape b (ih h')
  | @quoted d d' quote inside xs hd hq hi _ ih =>
    have he : quote :: (inside ++ quote :: xs) ++ ys = quote :: (inside ++ quote :: (xs ++ ys)) := by simp
    rw [he]
    exact .quoted hd hq hi (ih h')
  | byte hb he hq _ ih => exact .byte hb he hq (ih h')

theorem QuotedText.append {quote : UInt8} {xs ys : Bytes} (h : QuotedText quote xs) (h' : QuotedText quote ys) :
    QuotedText quote (xs ++ ys) := by
  induction h with
  | nil => exact h'
  | escape b _ ih => exact .escape b ih
  | byte hb hq _ ih => exact .byte hb hq ih

theorem QuotedText.of_forall {quote : UInt8} {xs : Bytes} (h : ∀ b ∈ xs, b ≠ backslash ∧ b ≠ quote) :
    QuotedText quote xs := by
  induction xs with
  | nil => exact .nil
  | cons b xs ih =>
    obtain ⟨hb, hq⟩ := h b List.mem_cons_self
    exact .byte hb hq (ih fun c hc => h c (List.mem_cons_of_mem b hc))

theorem QuotedText.not_endsInEscape {quote : UInt8} {xs : Bytes} (h : QuotedText quote xs) :
    ¬ EndsInEscape xs := by
  rw [EndsInEscape, Bool.not_eq_true]
  induction h with
  | nil => rfl
  | escape b _ ih => rw [foldl_escaping_escape]; exact ih
  | byte hb _ _ ih => rw [List.foldl_cons, escaping_of_ne hb]; exact ih

theorem RunsOn.not_endsInEscape {xs : Bytes} (h : RunsOn follow d xs d') : ¬ EndsInEscape xs := by
  rw [EndsInEscape, Bool.not_eq_true]
  induction h with
  | nil => rfl
  | escape b _ ih => rw [foldl_escaping_escape]; exact ih
  | @quoted d d' quote inside xs _ hq hi _ ih =>
    have hi := Bool.not_eq_true _ ▸ hi.not_endsInEscape
    rw [List.foldl_cons, escaping_of_ne (ne_backslash_of_isQuote hq), List.foldl_append, hi, List.foldl_cons,
      escaping_of_ne (ne_backslash_of_isQuote hq)]
    exact ih
  | byte hb _ _ _ ih => rw [List.foldl_cons, escaping_of_ne hb]; exact ih

/-- A value is complete: no escape reaches beyond it. -/
theorem ValueText.not_endsInEscape {n : Bytes} (h : ValueText follow n) : ¬ EndsInEscape n := by
  cases h with
  | @quoted quote inside hq hi =>
    rw [EndsInEscape, ← List.cons_append, foldl_escaping_append_of_ne (ne_backslash_of_isQuote hq)]
    exact Bool.false_ne_true
  | bare _ hx => exact hx.not_endsInEscape

end StyleScope.Scan
