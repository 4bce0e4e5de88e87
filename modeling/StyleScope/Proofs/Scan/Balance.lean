/-
Braces that count, which are those that stand by themselves and not within an escape, a string or a comment, and when
they balance. Gaps and rows of units that a brace would have ended hold none of them, and a block closes those that it
opens.
-/
import Mathlib.Data.List.Infix
import StyleScope.Proofs.Scan.Block
import StyleScope.Proofs.Scan.TopLevel

namespace StyleScope.Scan

open Byte

/-- The braces of a text that are units by themselves, in order. A string that is never closed hides all that follows
its quote. -/
def braces : Bytes → Bytes
  | [] => []
  | b :: xs =>
    match _h : lexeme b xs with
    | .error _ => []
    | .ok (.byte, _) => if isBrace b then b :: braces xs else braces xs
    | .ok (_, rest) => braces rest
termination_by xs => xs.length
decreasing_by
  · exact Nat.lt_succ_self _
  · exact Nat.lt_succ_self _
  · exact Nat.lt_succ_of_le (lexeme_suffix _h).length_le

/-- No prefix of the text closes more braces than it opens, and the text closes as many as it opens. -/
structure Balanced (xs : Bytes) : Prop where
  count_le : ∀ p, p <+: xs → (braces p).count closeBrace ≤ (braces p).count openBrace
  count_eq : (braces xs).count closeBrace = (braces xs).count openBrace

instance (xs : Bytes) : Decidable (Balanced xs) :=
  decidable_of_iff
    ((∀ p ∈ xs.inits, (braces p).count closeBrace ≤ (braces p).count openBrace) ∧
      (braces xs).count closeBrace = (braces xs).count openBrace)
    ⟨fun ⟨h, h'⟩ => ⟨fun p hp => h p ((List.mem_inits p xs).2 hp), h'⟩,
      fun ⟨h, h'⟩ => ⟨fun p hp => h p ((List.mem_inits p xs).1 hp), h'⟩⟩

/-! ## Units and their braces -/

variable {xs rest : Bytes} {b : UInt8} {n : Nat}

@[simp] theorem braces_nil : braces [] = [] := by rw [braces]

theorem braces_of_lexeme {unit : Lexeme} (hl : lexeme b xs = .ok (unit, rest)) (hu : unit ≠ .byte) :
    braces (b :: xs) = braces rest := by
  rw [braces]
  split
  · next hx => rw [hl] at hx; cases hx
  · next hx => rw [hl] at hx; cases hx; exact absurd rfl hu
  · next hx => rw [hl] at hx; cases hx; rfl

theorem braces_inert {u : Bytes} (h : Inert u) (rest : Bytes) : braces (u ++ rest) = braces rest := by
  obtain ⟨b, tail, unit, rfl, hu, hl⟩ := h.lexeme
  exact braces_of_lexeme (hl rest) hu

theorem braces_single (h : Single b rest) :
    braces (b :: rest) = if isBrace b then b :: braces rest else braces rest := by
  have hl := lexeme_eq_byte_iff.2 ⟨h, rfl⟩
  rw [braces]
  split
  · next hx => rw [hl] at hx; cases hx
  · rfl
  · next hn hx => rw [hl] at hx; cases hx; exact absurd rfl hn

@[simp] theorem braces_openBrace (rest : Bytes) : braces (openBrace :: rest) = openBrace :: braces rest :=
  braces_single (single_openBrace rest)

@[simp] theorem braces_closeBrace (rest : Bytes) : braces (closeBrace :: rest) = closeBrace :: braces rest :=
  braces_single (single_closeBrace rest)

theorem braces_plain (hp : isPlain b) (hb : isBrace b = false) (rest : Bytes) : braces (b :: rest) = braces rest := by
  rw [braces_single (single_of_isPlain hp rest), hb]
  exact if_neg Bool.false_ne_true

theorem isBrace_iff : isBrace b ↔ b = openBrace ∨ b = closeBrace := by
  simp [isBrace]

theorem single_of_isBrace (h : isBrace b) (xs : Bytes) : Single b xs := by
  rcases isBrace_iff.1 h with rfl | rfl
  · exact single_openBrace xs
  · exact single_closeBrace xs

/-- **The braces that count in a prefix count in the text**: whatever unit the prefix is cut in, it hides those that
follow. -/
theorem braces_mono {p : Bytes} (h : p <+: xs) : braces p <+: braces xs := by
  obtain ⟨rest, rfl⟩ := h
  fun_induction braces p with
  | case1 => exact List.nil_prefix
  | case2 => exact List.nil_prefix
  | case3 b p _ _ hb ih =>
    rw [List.cons_append, braces_single (single_of_isBrace hb _), if_pos hb]
    exact List.cons_prefix_cons.2 ⟨rfl, ih⟩
  | case4 b p _ hl hb ih =>
    -- a slash that the prefix ends with may begin a comment
    by_cases hp : p = []
    · rw [hp, braces_nil]
      exact List.nil_prefix
    · rw [List.cons_append, braces_single ((lexeme_eq_byte_iff.1 hl).1.append_of_ne_nil hp rest), if_neg hb]
      exact ih
  | case5 b p unit after hu hl ih =>
    rcases inert_of_lexeme hl hu with ⟨u, hi, he⟩ | he
    · rw [he, List.append_assoc, braces_inert hi]
      exact ih
    · rw [he, braces_nil]
      exact List.nil_prefix

/-! ## Texts without braces -/

theorem braces_plain_append (h : ∀ b ∈ xs, isPlain b ∧ isBrace b = false) (rest : Bytes) :
    braces (xs ++ rest) = braces rest := by
  induction xs with
  | nil => rfl
  | cons b xs ih =>
    obtain ⟨hp, hb⟩ := h b List.mem_cons_self
    rw [List.cons_append, braces_plain hp hb, ih fun c hc => h c (List.mem_cons_of_mem b hc)]

theorem isPlain_of_isSpace (h : isSpace b) : isPlain b ∧ isBrace b = false := by
  have hne (c : UInt8) (hc : inBlank c = false) : b ≠ c := ne_of_inBlank (by simp [inBlank, h]) hc
  simp [isPlain, isBrace, hne backslash (by decide), hne singleQuote (by decide), hne doubleQuote (by decide),
    hne slash (by decide), hne openBrace (by decide), hne closeBrace (by decide)]

theorem braces_gap {g : Bytes} (h : Gap g) (rest : Bytes) : braces (g ++ rest) = braces rest := by
  induction h with
  | nil => rfl
  | space hb _ ih =>
    obtain ⟨hp, hn⟩ := isPlain_of_isSpace hb
    rw [List.cons_append, braces_plain hp hn, ih]
  | @comment inside g hi _ ih =>
    have he : slash :: star :: (inside ++ star :: slash :: g) ++ rest =
        slash :: star :: (inside ++ [star, slash]) ++ (g ++ rest) := by simp
    rw [he, braces_inert (.comment hi), ih]

theorem braces_openComment {c : Bytes} (h : OpenComment c) : braces c = [] := by
  obtain ⟨inside, rfl, hi⟩ := h
  have hn := afterComment_eq_nil hi
  have hl : lexeme slash (star :: inside) = .ok (.comment, []) := by
    rw [lexeme, if_neg (by decide)]
    simp [afterCommentOpen?, hn]
  rw [braces_of_lexeme hl (by decide), braces_nil]

/-- **A gap holds no braces that count.** -/
theorem braces_skipGap (xs : Bytes) : braces (skipGap xs) = braces xs := by
  rcases skipGap_cases xs with ⟨g, hg, he, -⟩ | ⟨g, c, hg, hc, he, hn⟩
  · rw [he, braces_gap hg, ← he]
  · rw [hn, he, braces_gap hg, braces_openComment hc, braces_nil]

/-- **What a scan for braces passes over holds none that count.** -/
theorem braces_passes {stops : Bytes} {d d' : Nat} (h : Passes stops d xs d') (ho : openBrace ∈ stops)
    (hc : closeBrace ∈ stops) (hr : rest.head? ≠ some star) : braces (xs ++ rest) = braces rest := by
  induction h with
  | nil => rfl
  | inert hu _ ih => rw [List.append_assoc, braces_inert hu, ih]
  | @byte d d' b xs hs hn _ ih =>
    have hb : isBrace b = false := by
      by_contra hb
      rw [Bool.not_eq_false] at hb
      have hm : b ∈ stops := by
        rcases isBrace_iff.1 hb with rfl | rfl
        · exact ho
        · exact hc
      simp [stopsAt, hm, hb] at hn
    rw [List.cons_append, braces_single (hs.append hr), hb, if_neg Bool.false_ne_true, ih]

/-! ## Blocks that balance -/

/-- The braces close `n` blocks more than they open, each block after it is opened. -/
inductive Closes : Nat → Bytes → Prop
  | nil : Closes 0 []
  | opening {n : Nat} {bs : Bytes} : Closes (n + 1) bs → Closes n (openBrace :: bs)
  | closing {n : Nat} {bs : Bytes} : Closes n bs → Closes (n + 1) (closeBrace :: bs)

theorem Closes.count_eq {bs : Bytes} (h : Closes n bs) : bs.count closeBrace = n + bs.count openBrace := by
  induction h with
  | nil => rfl
  | opening _ ih =>
    rw [List.count_cons_of_ne (by decide), ih, List.count_cons_self]
    omega
  | closing _ ih =>
    rw [List.count_cons_self, ih, List.count_cons_of_ne (by decide)]
    omega

theorem Closes.count_le {bs p : Bytes} (h : Closes n bs) (hp : p <+: bs) :
    p.count closeBrace ≤ n + p.count openBrace := by
  induction h generalizing p with
  | nil =>
    obtain rfl := List.prefix_nil.1 hp
    exact Nat.le_refl 0
  | opening _ ih =>
    cases p with
    | nil => exact Nat.zero_le _
    | cons c p =>
      obtain ⟨rfl, htail⟩ := List.cons_prefix_cons.1 hp
      have := ih htail
      rw [List.count_cons_of_ne (by decide), List.count_cons_self]
      omega
  | closing _ ih =>
    cases p with
    | nil => exact Nat.zero_le _
    | cons c p =>
      obtain ⟨rfl, htail⟩ := List.cons_prefix_cons.1 hp
      have := ih htail
      rw [List.count_cons_self, List.count_cons_of_ne (by decide)]
      omega

theorem balanced_of_closes (h : Closes 0 (braces xs)) : Balanced xs := by
  refine ⟨fun p hp => ?_, ?_⟩
  · simpa using h.count_le (braces_mono hp)
  · simpa using h.count_eq

/-- **A block closes what it opens**, and the block that it is in. -/
theorem Encloses.closes {inner : Nat} (h : Encloses inner xs) (hr : Closes n (braces rest)) :
    Closes (n + inner + 1) (braces (xs ++ rest)) := by
  induction h with
  | done =>
    rw [List.singleton_append, braces_closeBrace]
    exact .closing hr
  | inert hu _ ih =>
    rw [List.append_assoc, braces_inert hu]
    exact ih
  | @byte inner b xs hs ho hc hx ih =>
    rw [List.cons_append, braces_single (hs.append_of_ne_nil hx.ne_nil rest), if_neg (by simp [isBrace, ho, hc])]
    exact ih
  | opening _ ih =>
    rw [List.cons_append, braces_openBrace]
    exact .opening ih
  | closing _ ih =>
    rw [List.cons_append, braces_closeBrace]
    exact .closing ih

/-! ## Level texts -/

/-- The text is made of whole units, and no brace in it counts: before an opening brace, this is the first that
counts. -/
def Level (xs : Bytes) : Prop := topLevel [openBrace, closeBrace] (xs ++ [openBrace]) = .ok [openBrace]

instance (xs : Bytes) : Decidable (Level xs) := inferInstanceAs (Decidable (_ = _))

/-- **A level text holds no braces that count**, whatever follows it. -/
theorem Level.braces_append (h : Level xs) (hr : rest.head? ≠ some star) : braces (xs ++ rest) = braces rest := by
  obtain ⟨d, hp, -⟩ := passes_of_topLevelFrom_end h
  exact braces_passes hp (by decide) (by decide) hr

end StyleScope.Scan
