/-
Texts that are read whole wherever they stand. A clean text is one that the top-level scan reads to its end
before a delimiter; a token is one that is read as one value before a following byte. Both are properties of the
text alone and can be computed. The padding that trimming takes away does not change what is read.
-/
import StyleScope.Proofs.Scan.Value
import StyleScope.Proofs.Text.Trim

namespace StyleScope.Scan

open Byte Text

/-- The text begins with a comment. -/
def BeginsWithComment (s : String) : Prop := [slash, star] <+: encode s

instance (s : String) : Decidable (BeginsWithComment s) :=
  inferInstanceAs (Decidable ([slash, star] <+: encode s))

/-- The text has no blank at its ends, does not begin with a comment, and before the delimiter the top-level
scan reads it to its end and no further. -/
structure Clean (stops : Bytes) (delimiter : UInt8) (s : String) : Prop where
  trimmed : Trimmed s
  noComment : ¬ BeginsWithComment s
  stop : topLevel stops (encode s ++ [delimiter]) = .ok [delimiter]

instance (stops : Bytes) (delimiter : UInt8) (s : String) : Decidable (Clean stops delimiter s) :=
  decidable_of_iff
    (Trimmed s ∧ ¬ BeginsWithComment s ∧ topLevel stops (encode s ++ [delimiter]) = .ok [delimiter])
    ⟨fun ⟨h, h', h''⟩ => ⟨h, h', h''⟩, fun ⟨h, h', h''⟩ => ⟨h, h', h''⟩⟩

/-- The text is not empty, does not begin with a comment, and before the following byte it is read as one value
and no further. -/
structure Token (follow : UInt8) (s : String) : Prop where
  ne_empty : s ≠ ""
  noComment : ¬ BeginsWithComment s
  stop : afterValue [follow] (encode s ++ [follow]) = .ok [follow]

instance (follow : UInt8) (s : String) : Decidable (Token follow s) :=
  decidable_of_iff
    (s ≠ "" ∧ ¬ BeginsWithComment s ∧ afterValue [follow] (encode s ++ [follow]) = .ok [follow])
    ⟨fun ⟨h, h', h''⟩ => ⟨h, h', h''⟩, fun ⟨h, h', h''⟩ => ⟨h, h', h''⟩⟩

/-- The text stands between blanks. They begin with no space, as that would belong to the gap before them. -/
inductive Padded (s : String) : String → Prop
  | mk {u w : String} : Blank u → Blank w → (∀ b ∈ (encode (u ++ s ++ w)).head?, isSpace b = false) →
    Padded s (u ++ s ++ w)

theorem encode_ne_nil {s : String} (h : s ≠ "") : encode s ≠ [] := fun he => h (encode_eq_nil he)

/-- A text that begins with neither a space nor a comment. -/
theorem flush_of_head {s : String} (hs : ∀ b ∈ (encode s).head?, isSpace b = false) (hc : ¬ BeginsWithComment s) :
    Flush (encode s) := by
  cases he : encode s with
  | nil => exact trivial
  | cons b xs =>
    refine ⟨hs b (by rw [he]; rfl), ?_⟩
    intro h
    obtain ⟨rfl, hx⟩ := h
    cases xs with
    | nil => cases hx
    | cons c xs =>
      cases hx
      exact hc ⟨xs, he.symm⟩

theorem flush_encode {s : String} (ht : Trimmed s) (hc : ¬ BeginsWithComment s) : Flush (encode s) := by
  refine flush_of_head (fun b hb => ?_) hc
  obtain ⟨xs, he⟩ := List.head?_eq_some_iff.1 hb
  exact ht.isSpace_eq_false he

/-! ## Clean texts -/

section Clean

variable {stops : Bytes} {delimiter : UInt8} {s x : String}

theorem Clean.flush (h : Clean stops delimiter s) : Flush (encode s) := flush_encode h.trimmed h.noComment

theorem Clean.passes (h : Clean stops delimiter s) :
    ∃ d, Passes stops 0 (encode s) d ∧ stopsAt stops d delimiter :=
  passes_of_topLevelFrom_end h.stop

/-- Before a delimiter that is no brace, all groups are closed. -/
theorem Clean.passes_zero (h : Clean stops delimiter s) (hd : isBrace delimiter = false) :
    Passes stops 0 (encode s) 0 := by
  obtain ⟨d, hp, hs⟩ := h.passes
  obtain rfl := eq_zero_of_stopsAt hs hd
  exact hp

theorem Clean.of_passes {d : Nat} (ht : Trimmed s) (hc : ¬ BeginsWithComment s) (hp : Passes stops 0 (encode s) d)
    (hs : stopsAt stops d delimiter) (hpl : isPlain delimiter) (hstar : delimiter ≠ star) :
    Clean stops delimiter s :=
  ⟨ht, hc, hp.topLevelFrom_stop hs hpl hstar⟩

end Clean

/-! ## Tokens -/

section Token

variable {follow : UInt8} {s : String}

theorem Token.valueText (h : Token follow s) : ValueText [follow] (encode s) :=
  (valueText_of_afterValue h.stop (encode_ne_nil h.ne_empty)).1

theorem Token.head_ne (h : Token follow s) (hb : follow ≠ backslash) (hq : isQuote follow = false) :
    ∃ b xs, encode s = b :: xs ∧ isSpace b = false ∧ b ≠ follow := by
  have hv := h.valueText
  cases he : encode s with
  | nil => exact absurd he (encode_ne_nil h.ne_empty)
  | cons b xs =>
    rw [he] at hv
    obtain ⟨hs, hf⟩ := hv.head_ne fun c hc => by
      rw [List.mem_singleton.1 hc]
      exact ⟨hb, hq⟩
    exact ⟨b, xs, rfl, hs, fun h => hf (List.mem_singleton.2 h)⟩

theorem Token.flush (h : Token follow s) (hb : follow ≠ backslash) (hq : isQuote follow = false) :
    Flush (encode s) := by
  obtain ⟨b, xs, he, hs, -⟩ := h.head_ne hb hq
  refine flush_of_head (fun c hc => ?_) h.noComment
  rw [he] at hc
  cases hc
  exact hs

theorem not_beginsWithComment_of_flush {s : String} (h : Flush (encode s)) : ¬ BeginsWithComment s := by
  intro h
  obtain ⟨rest, he⟩ := h
  rw [← he] at h
  exact h.2 ⟨rfl, rfl⟩

theorem Token.of_valueText (h : ValueText [follow] (encode s)) (hf : Flush (encode s)) (hb : follow ≠ backslash) :
    Token follow s := by
  refine ⟨?_, not_beginsWithComment_of_flush hf, ?_⟩
  · rintro rfl
    exact h.ne_nil rfl
  · refine h.afterValue (by simpa using hb.symm) (.inr fun b hm => ?_)
    cases hm
    simp

end Token

/-! ## Padding -/

theorem inBlank_of_mem_encode {w : String} (h : Blank w) : ∀ b ∈ encode w, inBlank b := by
  intro b hb
  rcases space_or_le_of_mem h hb with hs | hs
  · simp [inBlank, hs]
  · simp [inBlank, hs]

theorem head?_encode_blank_ne_star {w : String} (h : Blank w) : (encode w).head? ≠ some star := by
  intro hs
  have := inBlank_of_mem_encode h star (List.mem_of_mem_head? hs)
  revert this
  decide

section Padded

variable {stops : Bytes} {d : Nat} {s x : String}

theorem Padded.self (hs : Trimmed s) : Padded s s := by
  have h : Padded s ("" ++ s ++ "") := by
    refine .mk blank_empty blank_empty fun b hb => ?_
    rw [String.empty_append, String.append_empty] at hb
    cases he : encode s with
    | nil => rw [he] at hb; cases hb
    | cons c xs =>
      rw [he] at hb
      cases hb
      exact hs.isSpace_eq_false he
  rwa [String.empty_append, String.append_empty] at h

theorem Padded.trim_eq (h : Padded s x) (hs : Trimmed s) : trim x = s := by
  obtain ⟨hu, hw, -⟩ := h
  exact hs.trim_pad hu hw

theorem Padded.mem {b : UInt8} (h : Padded s x) (hb : b ∈ encode x) : b ∈ encode s ∨ inBlank b := by
  obtain ⟨hu, hw, -⟩ := h
  rw [encode_append, encode_append, List.mem_append, List.mem_append] at hb
  rcases hb with (hb | hb) | hb
  · exact .inr (inBlank_of_mem_encode hu b hb)
  · exact .inl hb
  · exact .inr (inBlank_of_mem_encode hw b hb)

theorem Padded.flush (h : Padded s x) (hs : Flush (encode s)) : Flush (encode x) := by
  obtain ⟨hu, hw, hf⟩ := h
  rename_i u w
  have hblank {t : String} (ht : Blank t) {b : UInt8} {bs : Bytes} (he : encode t = b :: bs) : b ≠ slash :=
    ne_of_inBlank (inBlank_of_mem_encode ht b (by simp [he])) (by decide)
  rw [encode_append, encode_append] at hf ⊢
  cases hb : encode u with
  | cons b bs =>
    rw [hb] at hf
    exact .cons (hf b rfl) (hblank hu hb)
  | nil =>
    rw [hb, List.nil_append] at hf
    rw [List.nil_append]
    cases hx : encode s with
    | cons b bs => rw [← hx]; exact hs.append (by simp [hx]) (head?_encode_blank_ne_star hw)
    | nil =>
      rw [hx, List.nil_append] at hf
      rw [List.nil_append]
      cases hy : encode w with
      | nil => exact trivial
      | cons b bs =>
        rw [hy] at hf
        exact .cons (hf b rfl) (hblank hw hy)

theorem Padded.head?_ne {b : UInt8} (h : Padded s x) (hb : inBlank b = false) (hs : (encode s).head? ≠ some b) :
    (encode x).head? ≠ some b := by
  obtain ⟨hu, hw, -⟩ := h
  rename_i u w
  have hblank {t : String} (ht : Blank t) : (encode t).head? ≠ some b := fun he => by
    have := inBlank_of_mem_encode ht b (List.mem_of_mem_head? he)
    rw [hb] at this
    cases this
  have hne := hblank hu
  rw [encode_append, encode_append, List.append_assoc, List.head?_append, List.head?_append]
  cases hu' : (encode u).head? with
  | some c => rwa [hu'] at hne
  | none =>
    cases hs' : (encode s).head? with
    | some c => rwa [hs'] at hs
    | none => exact hblank hw

theorem Padded.passes (h : Padded s x) (hs : ∀ c ∈ stops, inBlank c = false)
    (hp : Passes stops 0 (encode s) d) : Passes stops 0 (encode x) d := by
  obtain ⟨hu, hw, -⟩ := h
  have hord {t : String} (ht : Blank t) : ∀ b ∈ encode t, isOrdinary stops b := fun b hb =>
    isOrdinary_of_inBlank hs (inBlank_of_mem_encode ht b hb)
  rw [encode_append, encode_append, List.append_assoc]
  exact .ordinary_append (hord hu) (hp.append (passes_ordinary (hord hw)) (head?_encode_blank_ne_star hw))

end Padded

end StyleScope.Scan
