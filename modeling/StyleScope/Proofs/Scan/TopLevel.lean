/-
The top-level scan, told without a scanner: `Passes stops d xs d'` says that `xs` is a row of units none of
which ends the scan, and that `d'` groups are open after it when `d` were before. The scan passes over such a
row whatever follows, unless the row ends in a slash and a star follows. So what a text was read as in one
place it is read as in any other.
-/
import StyleScope.Proofs.Scan.Gap
import StyleScope.Scan.Nesting

namespace StyleScope.Scan

open Byte

/-- The scan passes over these bytes, from a depth to a depth. -/
inductive Passes (stops : Bytes) : Nat → Bytes → Nat → Prop
  | nil {d : Nat} : Passes stops d [] d
  | inert {d d' : Nat} {u xs : Bytes} : Inert u → Passes stops d xs d' → Passes stops d (u ++ xs) d'
  | byte {d d' : Nat} {b : UInt8} {xs : Bytes} :
    Single b xs → stopsAt stops d b = false → Passes stops (nesting d b) xs d' → Passes stops d (b :: xs) d'

variable {stops : Bytes} {d d' d'' : Nat}

/-! ## Single bytes -/

/-- The byte is a unit by itself whatever follows it. -/
def isPlain (b : UInt8) : Bool := !([backslash, singleQuote, doubleQuote, slash].contains b)

theorem single_of_isPlain {b : UInt8} (h : isPlain b) (xs : Bytes) : Single b xs := by
  simp only [isPlain, List.contains_eq_mem, List.mem_cons, List.not_mem_nil, or_false,
    Bool.not_eq_eq_eq_not, Bool.not_true, decide_eq_false_iff_not, not_or] at h
  obtain ⟨hb, hs, hd, hsl⟩ := h
  exact ⟨hb, by simp [isQuote, hs, hd], fun hc => hsl hc.1⟩

/-- Only a brace ends the scan inside a group. -/
theorem eq_zero_of_stopsAt {b : UInt8} (h : stopsAt stops d b) (hb : isBrace b = false) : d = 0 := by
  simp only [stopsAt, hb, Bool.or_false, Bool.and_eq_true, beq_iff_eq] at h
  exact h.2

/-! ## The scan -/

theorem topLevelFrom_inert {u : Bytes} (h : Inert u) (rest : Bytes) :
    topLevelFrom stops d (u ++ rest) = topLevelFrom stops d rest := by
  obtain ⟨b, tail, unit, rfl, hu, hl⟩ := h.lexeme
  rw [List.cons_append, topLevelFrom]
  split
  · next hx => rw [hl] at hx; cases hx
  · next hx => rw [hl] at hx; cases hx; exact absurd rfl hu
  · next hx => rw [hl] at hx; cases hx; rfl

theorem topLevelFrom_byte {b : UInt8} {rest : Bytes} (h : Single b rest) :
    topLevelFrom stops d (b :: rest) =
      if stopsAt stops d b then .ok (b :: rest) else topLevelFrom stops (nesting d b) rest := by
  have hl := lexeme_eq_byte_iff.2 ⟨h, rfl⟩
  rw [topLevelFrom]
  split
  · next hx => rw [hl] at hx; cases hx
  · rfl
  · next hn hx => rw [hl] at hx; cases hx; exact absurd rfl hn

/-- **The scan passes over the bytes**, and goes on at the depth after them. -/
theorem Passes.topLevelFrom_append {xs rest : Bytes} (h : Passes stops d xs d')
    (hr : rest.head? ≠ some star) : topLevelFrom stops d (xs ++ rest) = topLevelFrom stops d' rest := by
  induction h with
  | nil => rfl
  | inert hu _ ih => rw [List.append_assoc, topLevelFrom_inert hu, ih]
  | byte hs hn _ ih => rw [List.cons_append, topLevelFrom_byte (hs.append hr), if_neg (by simp [hn]), ih]

theorem Passes.topLevelFrom_stop {xs rest : Bytes} {b : UInt8} (h : Passes stops d xs d')
    (hb : stopsAt stops d' b) (hp : isPlain b) (hstar : b ≠ star) :
    topLevelFrom stops d (xs ++ b :: rest) = .ok (b :: rest) := by
  rw [h.topLevelFrom_append (by simpa using hstar), topLevelFrom_byte (single_of_isPlain hp rest), if_pos hb]

/-- What is passed over does not begin with a stop. -/
theorem Passes.head?_ne {xs : Bytes} {b : UInt8} (h : Passes stops d xs d') (hb : stopsAt stops d b)
    (hp : isPlain b) : xs.head? ≠ some b := by
  intro hx
  cases xs with
  | nil => cases hx
  | cons c xs =>
    cases hx
    have he := h.topLevelFrom_append (show ([] : Bytes).head? ≠ some star by simp)
    rw [List.append_nil, topLevelFrom_byte (single_of_isPlain hp xs), if_pos hb, topLevelFrom] at he
    cases he

/-- **Where the scan stops, it passed over all before**, and the stop is a byte by itself. -/
theorem passes_of_topLevelFrom {xs rest : Bytes} {b : UInt8} (h : topLevelFrom stops d xs = .ok (b :: rest)) :
    ∃ ys d', xs = ys ++ b :: rest ∧ Passes stops d ys d' ∧ stopsAt stops d' b ∧ Single b rest := by
  fun_induction topLevelFrom stops d xs with
  | case1 => cases h
  | case2 => cases h
  | case3 d c xs _ hl hs =>
    cases h
    exact ⟨[], d, rfl, .nil, hs, (lexeme_eq_byte_iff.1 hl).1⟩
  | case4 d c xs _ hl hs ih =>
    obtain ⟨ys, d', rfl, hp, hb, hsb⟩ := ih h
    exact ⟨c :: ys, d', rfl, .byte (lexeme_eq_byte_iff.1 hl).1.of_append (by simpa using hs) hp, hb, hsb⟩
  | case5 d c xs unit after hu hl ih =>
    obtain ⟨ys, d', rfl, hp, hb, hsb⟩ := ih h
    rcases inert_of_lexeme hl hu with ⟨u, hi, he⟩ | he
    · exact ⟨u ++ ys, d', by rw [he, List.append_assoc], .inert hi hp, hb, hsb⟩
    · cases ys <;> cases he

/-- A text that the scan reads to its end, where it is put before a stop. -/
theorem passes_of_topLevelFrom_end {xs : Bytes} {b : UInt8} (h : topLevelFrom stops d (xs ++ [b]) = .ok [b]) :
    ∃ d', Passes stops d xs d' ∧ stopsAt stops d' b := by
  obtain ⟨ys, d', he, hp, hb, -⟩ := passes_of_topLevelFrom h
  obtain ⟨rfl, -⟩ := List.append_inj' he rfl
  exact ⟨d', hp, hb⟩

/-! ## Rows of units -/

theorem Passes.append {xs ys : Bytes} (h : Passes stops d xs d') (h' : Passes stops d' ys d'')
    (hy : ys.head? ≠ some star) : Passes stops d (xs ++ ys) d'' := by
  induction h with
  | nil => exact h'
  | inert hu _ ih => rw [List.append_assoc]; exact .inert hu (ih h')
  | byte hs hn _ ih => exact .byte (hs.append hy) hn (ih h')

/-- The byte is passed over at any depth and leaves it as it is. -/
def isOrdinary (stops : Bytes) (b : UInt8) : Bool :=
  isPlain b && !opensGroup b && !closesGroup b && !stops.contains b

theorem of_isOrdinary {b : UInt8} (hb : isOrdinary stops b) (d : Nat) :
    isPlain b ∧ stopsAt stops d b = false ∧ nesting d b = d := by
  simp only [isOrdinary, Bool.and_eq_true, Bool.not_eq_eq_eq_not, Bool.not_true] at hb
  obtain ⟨⟨⟨hp, ho⟩, hc⟩, hs⟩ := hb
  refine ⟨hp, by simp only [stopsAt, hs, Bool.false_and], ?_⟩
  rw [nesting, ho, hc]
  rfl

theorem Passes.ordinary {b : UInt8} {xs : Bytes} (hb : isOrdinary stops b) (h : Passes stops d xs d') :
    Passes stops d (b :: xs) d' := by
  obtain ⟨hp, hs, hn⟩ := of_isOrdinary hb d
  exact .byte (single_of_isPlain hp xs) hs (hn.symm ▸ h)

theorem Passes.ordinary_append {xs ys : Bytes} (hx : ∀ b ∈ xs, isOrdinary stops b) (h : Passes stops d ys d') :
    Passes stops d (xs ++ ys) d' := by
  induction xs with
  | nil => exact h
  | cons b xs ih => exact .ordinary (hx b List.mem_cons_self) (ih fun c hc => hx c (List.mem_cons_of_mem b hc))

theorem passes_ordinary {xs : Bytes} (h : ∀ b ∈ xs, isOrdinary stops b) : Passes stops d xs d := by
  rw [← List.append_nil xs]
  exact .ordinary_append h .nil

/-- The units of a text do not depend on the stops, so a row that was passed over for the sake of some stops
is passed over for others that end the scan no earlier. -/
theorem Passes.restop {others xs ys rest : Bytes} (h : Passes stops d xs d')
    (hy : ys.head? ≠ some star) (he : topLevelFrom others d (xs ++ ys) = .ok rest)
    (hl : rest.length ≤ ys.length) : Passes others d xs d' := by
  induction h with
  | nil => exact .nil
  | inert hu _ ih =>
    rw [List.append_assoc, topLevelFrom_inert hu] at he
    exact .inert hu (ih he)
  | @byte d d' b xs hs _ _ ih =>
    rw [List.cons_append, topLevelFrom_byte (hs.append hy)] at he
    split at he
    · cases he
      simp only [List.length_cons, List.length_append] at hl
      omega
    · next hn => exact .byte hs (by simpa using hn) (ih he)

/-! ## Cutting blanks off the end -/

/-- The bytes of blanks: spaces and bytes of longer characters. -/
def inBlank (b : UInt8) : Bool := isSpace b || 0x80 ≤ b

theorem ne_of_inBlank {b c : UInt8} (hb : inBlank b) (hc : inBlank c = false) : b ≠ c := by
  rintro rfl
  rw [hb] at hc
  cases hc

theorem isOrdinary_of_inBlank {b : UInt8} (hs : ∀ c ∈ stops, inBlank c = false) (hb : inBlank b) :
    isOrdinary stops b := by
  have hne (c : UInt8) (hc : inBlank c = false) : b ≠ c := ne_of_inBlank hb hc
  have hstops : b ∉ stops := fun hm => by
    have := hs b hm
    rw [hb] at this
    cases this
  simp [isOrdinary, isPlain, opensGroup, closesGroup, hstops, hne backslash (by decide),
    hne singleQuote (by decide), hne doubleQuote (by decide), hne slash (by decide),
    hne openParen (by decide), hne openBracket (by decide), hne closeParen (by decide),
    hne closeBracket (by decide)]

/-- A gap is passed over whatever follows it: each comment in it is closed. -/
theorem Gap.passes_append {g xs : Bytes} (hg : Gap g) (hs : ∀ c ∈ stops, inBlank c = false)
    (h : Passes stops d xs d') : Passes stops d (g ++ xs) d' := by
  induction hg with
  | nil => exact h
  | space hb _ ih => exact .ordinary (isOrdinary_of_inBlank hs (by simp [inBlank, hb])) ih
  | @comment inside g hi _ ih =>
    have he : slash :: star :: (inside ++ star :: slash :: g) ++ xs =
        slash :: star :: (inside ++ [star, slash]) ++ (g ++ xs) := by simp
    rw [he]
    exact .inert (.comment hi) ih

theorem Inert.head_not_inBlank {u : Bytes} (h : Inert u) : ∀ b ∈ u.head?, inBlank b = false := by
  intro b hb
  cases h with
  | escape => cases hb; decide
  | comment => cases hb; decide
  | quoted hq => cases hb; rcases isQuote_iff.1 hq with rfl | rfl <;> decide

theorem nesting_of_inBlank {b : UInt8} (hb : inBlank b) : nesting d b = d := by
  have hne (c : UInt8) (hc : inBlank c = false) : b ≠ c := ne_of_inBlank hb hc
  simp [nesting, opensGroup, closesGroup, hne openParen (by decide), hne openBracket (by decide),
    hne closeParen (by decide), hne closeBracket (by decide)]

/-- Blanks leave the depth as it is. -/
theorem Passes.eq_of_blank {w : Bytes} (h : Passes stops d w d') (hw : ∀ b ∈ w, inBlank b) : d' = d := by
  induction h with
  | nil => rfl
  | @inert d d' u xs hu _ _ =>
    obtain ⟨b, tail, _, rfl, -, -⟩ := hu.lexeme
    have := hu.head_not_inBlank b rfl
    rw [hw b (by simp)] at this
    cases this
  | @byte d d' b xs _ _ _ ih =>
    have := ih fun c hc => hw c (List.mem_cons_of_mem b hc)
    rwa [nesting_of_inBlank (hw b List.mem_cons_self)] at this

/-- Blanks can be cut off the start of a row of units. -/
theorem Passes.of_blank_append {u xs : Bytes} (h : Passes stops d (u ++ xs) d') (hu : ∀ b ∈ u, inBlank b) :
    Passes stops d xs d' := by
  induction u with
  | nil => exact h
  | cons b u ih =>
    have hb := hu b List.mem_cons_self
    generalize hx : b :: u ++ xs = ys at h
    cases h with
    | nil => cases hx
    | @inert d d' v zs hv hz =>
      obtain ⟨c, tail, _, rfl, -, -⟩ := hv.lexeme
      obtain ⟨rfl, -⟩ := List.cons.inj hx
      have := hv.head_not_inBlank b rfl
      rw [hb] at this
      cases this
    | @byte d d' c zs _ _ hz =>
      obtain ⟨rfl, rfl⟩ := List.cons.inj hx
      rw [nesting_of_inBlank hb] at hz
      exact ih hz fun c hc => hu c (List.mem_cons_of_mem b hc)

/-- Whether a backslash that stands last escapes what comes next. -/
def escaping (pending : Bool) (b : UInt8) : Bool := if b = backslash then !pending else false

/-- The text ends in a backslash that no backslash before it escapes. -/
def EndsInEscape (xs : Bytes) : Prop := xs.foldl escaping false = true

theorem escaping_of_ne {b : UInt8} (hb : b ≠ backslash) (p : Bool) : escaping p b = false := if_neg hb

theorem foldl_escaping_escape (b : UInt8) (xs : Bytes) :
    (backslash :: b :: xs).foldl escaping false = xs.foldl escaping false := by
  have hb : escaping (escaping false backslash) b = false := by
    by_cases h : b = backslash
    · rw [h]; rfl
    · exact escaping_of_ne h _
  rw [List.foldl_cons, List.foldl_cons, hb]

theorem foldl_escaping_append_of_ne {xs : Bytes} {b : UInt8} (hb : b ≠ backslash) (p : Bool) :
    (xs ++ [b]).foldl escaping p = false := by
  rw [List.foldl_append, List.foldl_cons, List.foldl_nil, escaping_of_ne hb]

theorem Inert.foldl_escaping {u : Bytes} (h : Inert u) : u.foldl escaping false = false := by
  cases h with
  | escape b => exact foldl_escaping_escape b []
  | @comment inside =>
    have he : slash :: star :: (inside ++ [star, slash]) = (slash :: star :: (inside ++ [star])) ++ [slash] := by
      simp
    rw [he]
    exact foldl_escaping_append_of_ne (by decide) false
  | @quoted quote inside hq =>
    rw [← List.cons_append]
    exact foldl_escaping_append_of_ne (ne_backslash_of_isQuote hq) false

/-- A unit whose last byte is one of a blank is an escape. -/
theorem Inert.eq_backslash {xs : Bytes} {b : UInt8} (h : Inert (xs ++ [b])) (hb : inBlank b) : xs = [backslash] := by
  generalize hu : xs ++ [b] = u at h
  cases h with
  | escape c =>
    exact (List.append_inj' (hu.trans (List.singleton_append (x := backslash) (l := [c])).symm) rfl).1
  | @comment inside =>
    have he : slash :: star :: (inside ++ [star, slash]) = slash :: star :: (inside ++ [star]) ++ [slash] := by
      simp
    obtain ⟨-, hl⟩ := List.append_inj' (hu.trans he) rfl
    obtain rfl := List.singleton_inj.1 hl
    exact absurd hb (by decide)
  | @quoted quote inside hq =>
    have he : xs ++ [b] = (quote :: inside) ++ [quote] := hu
    obtain ⟨-, hl⟩ := List.append_inj' he rfl
    obtain rfl := List.singleton_inj.1 hl
    rcases isQuote_iff.1 hq with rfl | rfl <;> exact absurd hb (by decide)

/-- Where blanks end a text, a unit at its start is whole without them, or an escape that is cut after its backslash. -/
theorem Inert.eq_append {u xs ys w : Bytes} (h : Inert u) (he : u ++ ys = xs ++ w) (hw : ∀ b ∈ w, inBlank b) :
    (∃ v, xs = u ++ v ∧ ys = v ++ w) ∨ xs = [backslash] := by
  rcases List.append_eq_append_iff.1 he with ⟨v, hx, hy⟩ | ⟨v, rfl, rfl⟩
  · exact .inl ⟨v, hx, hy⟩
  · rcases List.eq_nil_or_concat v with rfl | ⟨v, b, rfl⟩
    · exact .inl ⟨[], by simp, rfl⟩
    · rw [List.concat_eq_append, ← List.append_assoc] at h
      rcases List.append_eq_singleton_iff.1 (h.eq_backslash (hw b (by simp))) with ⟨rfl, rfl⟩ | ⟨rfl, -⟩
      · exact absurd (hw backslash (by simp)) (by decide)
      · exact .inr rfl

/-- **Blanks can be cut off the end** of a row of units, unless an escape holds the first of them. -/
theorem Passes.cut {ys xs w : Bytes} (h : Passes stops d ys d') (he : ys = xs ++ w)
    (hw : ∀ b ∈ w, inBlank b) (hx : ¬ EndsInEscape xs) : Passes stops d xs d' := by
  induction h generalizing xs with
  | nil =>
    obtain ⟨rfl, -⟩ := List.append_eq_nil_iff.1 he.symm
    exact .nil
  | @inert d d' u zs hu hz ih =>
    rcases hu.eq_append he hw with ⟨v, rfl, rfl⟩ | rfl
    · refine .inert hu (ih rfl ?_)
      rwa [EndsInEscape, List.foldl_append, hu.foldl_escaping] at hx
    · exact absurd rfl hx
  | @byte d d' b zs hs hn hz ih =>
    cases xs with
    | nil =>
      have := (Passes.byte hs hn hz).eq_of_blank (he ▸ hw)
      rw [this]
      exact .nil
    | cons a xs =>
      obtain ⟨rfl, rfl⟩ := List.cons.inj he
      refine .byte hs.of_append hn (ih rfl ?_)
      rwa [EndsInEscape, List.foldl_cons, escaping_of_ne hs.1] at hx

end StyleScope.Scan
