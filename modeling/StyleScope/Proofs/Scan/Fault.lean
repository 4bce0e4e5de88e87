/-
Where the faults of a scan stand. A scan fails at a suffix of what it was given: before a delimiter that is missing, or
at a quote that begins a string which nothing closes (`Unclosed`). No backslash escapes that quote, as every scan steps
over an escape as a whole, and what it passed over before the quote is made of whole units.
-/
import StyleScope.Proofs.Scan.Value
import StyleScope.Scan.Block

namespace StyleScope

/-! ## Offsets -/

theorem offsetOf_append_left (front rest : Bytes) : offsetOf (front ++ rest) rest = front.length := by
  simp [offsetOf]

theorem drop_offsetOf {whole rest : Bytes} (h : rest <:+ whole) : whole.drop (offsetOf whole rest) = rest :=
  (List.suffix_iff_eq_drop.1 h).symm

theorem getElem?_offsetOf {whole rest : Bytes} (h : rest <:+ whole) : whole[offsetOf whole rest]? = rest.head? := by
  rw [← List.head?_drop, drop_offsetOf h]

namespace Scan

open Byte

variable {xs ys rest : Bytes} {fault : Fault}

/-! ## Missing delimiters -/

theorem of_expect_eq_error {delimiter : UInt8} (h : expect delimiter xs = .error fault) :
    fault = .missingDelimiter delimiter xs ∧ xs.head? ≠ some delimiter := by
  unfold expect at h
  split at h
  · cases h
  · next ha =>
    cases h
    refine ⟨rfl, fun hd => ?_⟩
    obtain ⟨ys, rfl⟩ := List.head?_eq_some_iff.1 hd
    rw [after?_eq_some_iff.2 rfl] at ha
    cases ha

theorem of_textBefore_eq_error {whole : Bytes} (h : textBefore whole rest = .error fault) :
    fault = .invalidSlice := by
  unfold textBefore at h
  split at h
  · cases h
  · cases h
    rfl

/-! ## Strings that nothing closes -/

/-- The fault is a string in the text that nothing closes, at a quote that no backslash escapes. -/
inductive Unclosed : Bytes → Fault → Prop
  | mk {front inside : Bytes} {quote : UInt8} :
    ¬ EndsInEscape front → isQuote quote → afterQuoted? quote inside = none →
      Unclosed (front ++ quote :: inside) (.unterminatedQuote quote (quote :: inside))

theorem not_endsInEscape_append (hx : ¬ EndsInEscape xs) (hy : ¬ EndsInEscape ys) : ¬ EndsInEscape (xs ++ ys) := by
  rw [EndsInEscape, Bool.not_eq_true] at *
  rw [List.foldl_append, hx, hy]

theorem endsInEscape_backslash (h : ¬ EndsInEscape xs) : EndsInEscape (xs ++ [backslash]) := by
  rw [EndsInEscape, Bool.not_eq_true] at h
  rw [EndsInEscape, List.foldl_append, h]
  rfl

theorem not_endsInEscape_singleton {b : UInt8} (hb : b ≠ backslash) : ¬ EndsInEscape [b] := by
  rw [EndsInEscape, List.foldl_cons, escaping_of_ne hb]
  exact Bool.false_ne_true

theorem not_endsInEscape_of_ne (h : ∀ b ∈ xs, b ≠ backslash) : ¬ EndsInEscape xs := by
  induction xs with
  | nil => exact Bool.false_ne_true
  | cons b xs ih =>
    exact not_endsInEscape_append (not_endsInEscape_singleton (h b List.mem_cons_self))
      (ih fun c hc => h c (List.mem_cons_of_mem b hc))

theorem Inert.not_endsInEscape {u : Bytes} (h : Inert u) : ¬ EndsInEscape u := by
  rw [EndsInEscape, h.foldl_escaping]
  exact Bool.false_ne_true

theorem Gap.not_endsInEscape {g : Bytes} (h : Gap g) : ¬ EndsInEscape g := by
  induction h with
  | nil => exact Bool.false_ne_true
  | @space b g hb _ ih =>
    have hne : b ≠ backslash := ne_of_inBlank (by simp [inBlank, hb]) (by decide)
    exact not_endsInEscape_append (not_endsInEscape_singleton hne) ih
  | @comment inside g hi _ ih =>
    have he : slash :: star :: (inside ++ star :: slash :: g) = slash :: star :: (inside ++ [star, slash]) ++ g := by
      simp
    rw [he]
    exact not_endsInEscape_append (Inert.comment hi).not_endsInEscape ih

theorem not_unclosed_nil : ¬ Unclosed [] fault := by
  intro h
  generalize hx : ([] : Bytes) = xs at h
  obtain ⟨-, -, -⟩ := h
  exact absurd hx (by simp)

theorem Unclosed.append (h : Unclosed ys fault) (hx : ¬ EndsInEscape xs) : Unclosed (xs ++ ys) fault := by
  obtain ⟨hf, hq, hn⟩ := h
  rw [← List.append_assoc]
  exact .mk (not_endsInEscape_append hx hf) hq hn

/-! ## Units -/

theorem unclosed_of_afterString {quote : UInt8} (hq : isQuote quote) (h : afterString quote xs = .error fault) :
    Unclosed (quote :: xs) fault := by
  unfold afterString at h
  split at h
  · cases h
  · next hn =>
    cases h
    have hu : Unclosed ([] ++ quote :: xs) (.unterminatedQuote quote (quote :: xs)) := .mk Bool.false_ne_true hq hn
    exact hu

theorem unclosed_of_lexeme {b : UInt8} (h : lexeme b xs = .error fault) : Unclosed (b :: xs) fault := by
  unfold lexeme at h
  split at h
  · cases h
  · split at h
    · cases h
    · split at h
      · next hq =>
        cases hs : afterString b xs with
        | ok r => rw [hs] at h; cases h
        | error f => rw [hs] at h; cases h; exact unclosed_of_afterString hq hs
      · cases h

/-- A string that nothing closes after a unit. -/
theorem Unclosed.of_lexeme {b : UInt8} {unit : Lexeme} (h : Unclosed rest fault)
    (hl : lexeme b xs = .ok (unit, rest)) : Unclosed (b :: xs) fault := by
  by_cases hu : unit = .byte
  · subst hu
    obtain ⟨hs, rfl⟩ := lexeme_eq_byte_iff.1 hl
    exact h.append (not_endsInEscape_singleton hs.1)
  · rcases inert_of_lexeme hl hu with ⟨u, hi, he⟩ | rfl
    · rw [he]
      exact h.append hi.not_endsInEscape
    · exact absurd h not_unclosed_nil

theorem Unclosed.of_skipGap (h : Unclosed (skipGap xs) fault) : Unclosed xs fault := by
  rcases skipGap_cases xs with ⟨g, hg, he, -⟩ | ⟨_, _, -, -, -, hn⟩
  · rw [he]
    exact h.append hg.not_endsInEscape
  · rw [hn] at h
    exact absurd h not_unclosed_nil

/-! ## Scans -/

theorem unclosed_of_topLevelFrom {stops : Bytes} {depth : Nat} (h : topLevelFrom stops depth xs = .error fault) :
    Unclosed xs fault := by
  fun_induction topLevelFrom stops depth xs with
  | case1 => cases h
  | case2 depth b xs f hl => cases h; exact unclosed_of_lexeme hl
  | case3 => cases h
  | case4 depth b xs after hl _ ih =>
    obtain rfl := rest_of_lexeme_byte hl
    exact (ih h).of_lexeme hl
  | case5 depth b xs _ _ _ hl ih => exact (ih h).of_lexeme hl

theorem unclosed_of_afterBareFrom {follow : Bytes} {depth : Nat} (h : afterBareFrom follow depth xs = .error fault) :
    Unclosed xs fault := by
  fun_induction afterBareFrom follow depth xs with
  | case1 => cases h
  | case2 depth xs ih =>
    cases xs with
    | nil => exact absurd (ih h) not_unclosed_nil
    | cons c xs => exact (ih h).append (Inert.escape c).not_endsInEscape
  | case3 => cases h
  | case4 depth b xs _ _ hq f hs =>
    rw [Bool.and_eq_true] at hq
    cases h
    exact unclosed_of_afterString hq.2 hs
  | case5 depth b xs _ _ hq after hs ih =>
    rw [Bool.and_eq_true] at hq
    obtain ⟨inside, hi, rfl⟩ := eq_of_afterString hs
    have he : b :: (inside ++ b :: after) = b :: (inside ++ [b]) ++ after := by simp
    rw [he]
    exact (ih h).append (Inert.quoted hq.2 hi).not_endsInEscape
  | case6 depth b xs hb _ _ ih => exact (ih h).append (not_endsInEscape_singleton hb)

theorem unclosed_of_afterValue {follow : Bytes} (h : afterValue follow xs = .error fault) : Unclosed xs fault := by
  unfold afterValue at h
  split at h
  · cases h
  · split at h
    · next hq => exact unclosed_of_afterString hq h
    · exact unclosed_of_afterBareFrom h

/-- A string that nothing closes after a value. -/
theorem Unclosed.of_afterValue {follow : Bytes} (h : Unclosed rest fault) (hv : afterValue follow xs = .ok rest) :
    Unclosed xs fault := by
  obtain ⟨n, rfl⟩ := afterValue_suffix hv
  cases rest with
  | nil => exact absurd h not_unclosed_nil
  | cons c rest =>
    by_cases hn : n = []
    · rw [hn]
      exact h
    · exact h.append (valueText_of_afterValue hv hn).1.not_endsInEscape

/-- A block fails within a string, or at the end of the text. -/
theorem unclosed_of_afterBlockFrom {inner : Nat} (h : afterBlockFrom inner xs = .error fault) :
    Unclosed xs fault ∨ fault = .missingDelimiter closeBrace [] := by
  fun_induction afterBlockFrom inner xs with
  | case1 => cases h; exact .inr rfl
  | case2 inner b xs f hl => cases h; exact .inl (unclosed_of_lexeme hl)
  | case3 inner xs after hl ih =>
    obtain rfl := rest_of_lexeme_byte hl
    exact (ih h).imp_left fun hu => hu.of_lexeme hl
  | case4 => cases h
  | case5 xs after inner hl _ ih =>
    obtain rfl := rest_of_lexeme_byte hl
    exact (ih h).imp_left fun hu => hu.of_lexeme hl
  | case6 inner b xs after hl _ _ ih =>
    obtain rfl := rest_of_lexeme_byte hl
    exact (ih h).imp_left fun hu => hu.of_lexeme hl
  | case7 inner b xs _ _ _ hl ih => exact (ih h).imp_left fun hu => hu.of_lexeme hl

/-! ## Quotes that nothing closes -/

/-- **After a quote that nothing closes it stands only escaped**, where escapes are read as pairs from that quote. -/
theorem endsInEscape_of_afterQuoted? {quote : UInt8} {inside : Bytes} (hq : quote ≠ backslash)
    (h : afterQuoted? quote xs = none) (he : xs = inside ++ quote :: rest) : EndsInEscape inside := by
  fun_induction afterQuoted? quote xs generalizing inside with
  | case1 => exact absurd he (by simp)
  | case2 xs ih =>
    cases inside with
    | nil => exact absurd (List.cons.inj he).1.symm hq
    | cons b inside =>
      obtain ⟨rfl, rfl⟩ := List.cons.inj he
      cases inside with
      | nil => rfl
      | cons c inside =>
        rw [EndsInEscape, foldl_escaping_escape]
        exact ih h rfl
  | case3 => cases h
  | case4 b xs hb hne ih =>
    cases inside with
    | nil => exact absurd (List.cons.inj he).1 hne
    | cons c inside =>
      obtain ⟨rfl, rfl⟩ := List.cons.inj he
      rw [EndsInEscape, List.foldl_cons, escaping_of_ne hb]
      exact ih h rfl

end Scan

end StyleScope
