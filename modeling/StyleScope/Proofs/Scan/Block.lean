/-
Blocks, told without a scanner: the braces of a block balance, where a brace counts only if it is a unit by
itself. A block ends with its own closing brace, so nothing after it is looked at.
-/
import StyleScope.Scan.Block
import StyleScope.Proofs.Scan.Gap

namespace StyleScope.Scan

open Byte

/-- What stands in a block through the brace that closes it, with `inner` more blocks open inside it. -/
inductive Encloses : Nat → Bytes → Prop
  | done : Encloses 0 [closeBrace]
  | inert {inner : Nat} {u xs : Bytes} : Inert u → Encloses inner xs → Encloses inner (u ++ xs)
  | byte {inner : Nat} {b : UInt8} {xs : Bytes} :
    Single b xs → b ≠ openBrace → b ≠ closeBrace → Encloses inner xs → Encloses inner (b :: xs)
  | opening {inner : Nat} {xs : Bytes} : Encloses (inner + 1) xs → Encloses inner (openBrace :: xs)
  | closing {inner : Nat} {xs : Bytes} : Encloses inner xs → Encloses (inner + 1) (closeBrace :: xs)

/-- A block, from its opening brace through its closing one. -/
def BlockText (xs : Bytes) : Prop := ∃ inside, xs = openBrace :: inside ∧ Encloses 0 inside

/-- No brace opens a block here: each that might is escaped. -/
inductive Unbraced : Bytes → Prop
  | nil : Unbraced []
  | escape {xs : Bytes} (b : UInt8) : Unbraced xs → Unbraced (backslash :: b :: xs)
  | byte {b : UInt8} {xs : Bytes} : b ≠ openBrace → b ≠ backslash → Unbraced xs → Unbraced (b :: xs)

theorem Encloses.ne_nil {inner : Nat} {xs : Bytes} (h : Encloses inner xs) : xs ≠ [] := by
  cases h with
  | inert hu _ => obtain ⟨b, tail, _, rfl, -, -⟩ := hu.lexeme; simp
  | _ => simp

/-- A block ends with its closing brace. -/
theorem Encloses.exists_closeBrace {inner : Nat} {xs : Bytes} (h : Encloses inner xs) :
    ∃ ys, xs = ys ++ [closeBrace] := by
  induction h with
  | done => exact ⟨[], rfl⟩
  | @inert inner u xs _ _ ih =>
    obtain ⟨ys, rfl⟩ := ih
    exact ⟨u ++ ys, (List.append_assoc ..).symm⟩
  | byte _ _ _ _ ih =>
    obtain ⟨ys, rfl⟩ := ih
    exact ⟨_ :: ys, rfl⟩
  | opening _ ih | closing _ ih =>
    obtain ⟨ys, rfl⟩ := ih
    exact ⟨_ :: ys, rfl⟩

theorem BlockText.ne_nil {b : Bytes} (h : BlockText b) : b ≠ [] := by
  obtain ⟨inside, rfl, -⟩ := h
  exact List.cons_ne_nil _ _

theorem Flush.append_block {k b : Bytes} (hk : Flush k) (hb : BlockText b) (rest : Bytes) :
    Flush (k ++ (b ++ rest)) := by
  obtain ⟨inside, rfl, -⟩ := hb
  exact hk.append_cons (by decide) (by decide) (by decide)

/-! ## The body of a block -/

theorem afterBlockFrom_inert {inner : Nat} {u : Bytes} (h : Inert u) (rest : Bytes) :
    afterBlockFrom inner (u ++ rest) = afterBlockFrom inner rest := by
  obtain ⟨b, tail, unit, rfl, hu, hl⟩ := h.lexeme
  rw [List.cons_append, afterBlockFrom.eq_def]
  simp only
  split
  · next hx => rw [hl] at hx; cases hx
  · next hx => rw [hl] at hx; cases hx; exact absurd rfl hu
  · next hx => rw [hl] at hx; cases hx; rfl

theorem afterBlockFrom_byte {inner : Nat} {b : UInt8} {rest : Bytes} (h : Single b rest) :
    afterBlockFrom inner (b :: rest) =
      if b = openBrace then afterBlockFrom (inner + 1) rest
      else if b = closeBrace then
        match inner with
        | 0 => .ok rest
        | inner + 1 => afterBlockFrom inner rest
      else afterBlockFrom inner rest := by
  have hl := lexeme_eq_byte_iff.2 ⟨h, rfl⟩
  rw [afterBlockFrom.eq_def]
  simp only
  split
  · next hx => rw [hl] at hx; cases hx
  · rfl
  · next hn hx => rw [hl] at hx; cases hx; exact absurd rfl hn

theorem single_openBrace (xs : Bytes) : Single openBrace xs :=
  ⟨by decide, by decide, fun h => absurd h.1 (by decide)⟩

theorem single_closeBrace (xs : Bytes) : Single closeBrace xs :=
  ⟨by decide, by decide, fun h => absurd h.1 (by decide)⟩

theorem Encloses.afterBlockFrom {inner : Nat} {xs : Bytes} (h : Encloses inner xs) (rest : Bytes) :
    afterBlockFrom inner (xs ++ rest) = .ok rest := by
  induction h with
  | done => exact afterBlockFrom_byte (single_closeBrace rest)
  | inert hu _ ih => rw [List.append_assoc, afterBlockFrom_inert hu, ih]
  | byte hs ho hc hx ih =>
    rw [List.cons_append, afterBlockFrom_byte (hs.append_of_ne_nil hx.ne_nil rest), if_neg ho, if_neg hc, ih]
  | opening _ ih => rw [List.cons_append, afterBlockFrom_byte (single_openBrace _), if_pos rfl, ih]
  | closing _ ih =>
    rw [List.cons_append, afterBlockFrom_byte (single_closeBrace _), if_neg (by decide), if_pos rfl]
    exact ih

theorem encloses_of_afterBlockFrom {inner : Nat} {xs rest : Bytes} (h : afterBlockFrom inner xs = .ok rest) :
    ∃ ys, xs = ys ++ rest ∧ Encloses inner ys := by
  fun_induction afterBlockFrom inner xs with
  | case1 => cases h
  | case2 => cases h
  | case3 inner xs _ hl ih =>
    obtain ⟨ys, rfl, hy⟩ := ih h
    exact ⟨openBrace :: ys, rfl, .opening hy⟩
  | case4 xs _ hl =>
    cases h
    exact ⟨[closeBrace], rfl, .done⟩
  | case5 xs _ inner _ _ ih =>
    obtain ⟨ys, rfl, hy⟩ := ih h
    exact ⟨closeBrace :: ys, rfl, .closing hy⟩
  | case6 inner b xs _ hl ho hc ih =>
    obtain ⟨ys, rfl, hy⟩ := ih h
    exact ⟨b :: ys, rfl, .byte (lexeme_eq_byte_iff.1 hl).1.of_append ho hc hy⟩
  | case7 inner b xs unit after hu hl ih =>
    obtain ⟨ys, rfl, hy⟩ := ih h
    rcases inert_of_lexeme hl hu with ⟨u, hi, he⟩ | he
    · exact ⟨u ++ ys, by rw [he, List.append_assoc], .inert hi hy⟩
    · exact absurd (List.append_eq_nil_iff.1 he).1 hy.ne_nil

/-! ## Finding a block -/

theorem Unbraced.toOpenBrace {k : Bytes} (h : Unbraced k) (rest : Bytes) :
    toOpenBrace (k ++ openBrace :: rest) = openBrace :: rest := by
  induction h with
  | nil => rw [List.nil_append, Scan.toOpenBrace, if_pos rfl]
  | escape b _ ih =>
    rw [List.cons_append, List.cons_append, Scan.toOpenBrace, if_neg (by decide), if_pos rfl]
    exact ih
  | byte ho hb _ ih => rw [List.cons_append, Scan.toOpenBrace, if_neg ho, if_neg hb]; exact ih

theorem unbraced_of_toOpenBrace {xs rest : Bytes} {b : UInt8} (h : toOpenBrace xs = b :: rest) :
    ∃ k, Unbraced k ∧ xs = k ++ b :: rest := by
  fun_induction toOpenBrace xs with
  | case1 => cases h
  | case2 =>
    cases h
    exact ⟨[], .nil, rfl⟩
  | case3 xs hb ih =>
    cases xs with
    | nil => rw [afterEscape, toOpenBrace] at h; cases h
    | cons c xs =>
      obtain ⟨k, hk, he⟩ := ih h
      rw [afterEscape] at he
      exact ⟨backslash :: c :: k, .escape c hk, by rw [he]; rfl⟩
  | case4 c xs ho hb ih =>
    obtain ⟨k, hk, rfl⟩ := ih h
    exact ⟨c :: k, .byte ho hb hk, rfl⟩

/-- **The first block of a text is found**, whatever stands after it. -/
theorem block_append {k b : Bytes} (hk : Unbraced k) (hb : BlockText b) (rest : Bytes) :
    block (k ++ (b ++ rest)) = .ok ⟨b ++ rest, rest⟩ := by
  obtain ⟨inside, rfl, hi⟩ := hb
  rw [List.cons_append, block, hk.toOpenBrace, bind_eq_ok_iff]
  refine ⟨inside ++ rest, expect_eq_ok_iff.2 rfl, ?_⟩
  rw [bind_eq_ok_iff]
  exact ⟨rest, hi.afterBlockFrom rest, rfl⟩

theorem blockText_of_block {xs : Bytes} {span : Span} (h : block xs = .ok span) :
    ∃ k b, Unbraced k ∧ BlockText b ∧ xs = k ++ (b ++ span.rest) ∧ span.start = b ++ span.rest := by
  simp only [block, bind_eq_ok_iff] at h
  obtain ⟨inside, ho, rest, hb, hr⟩ := h
  cases hr
  rw [expect_eq_ok_iff] at ho
  obtain ⟨k, hk, he⟩ := unbraced_of_toOpenBrace ho
  obtain ⟨ys, rfl, hy⟩ := encloses_of_afterBlockFrom hb
  exact ⟨k, openBrace :: ys, hk, ⟨ys, rfl, hy⟩, he, ho⟩

end StyleScope.Scan
