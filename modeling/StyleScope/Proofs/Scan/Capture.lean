/-
What a block is found as, for every text and offset. From the first brace that no backslash escapes the text is walked by
units, and the braces among its single bytes are counted. The block ends where the count first comes back to zero; so it
is the shortest span that balances, and what follows it is not looked at. There are three ways to fail: no such brace, a
string met on the way that is never closed, a count that never comes back to zero (`captures_iff`).
-/
import StyleScope.Proofs.Scan.Block
import StyleScope.Proofs.Scan.Fault
import StyleScope.Proofs.Scan.Walk
import StyleScope.Proofs.Text.Boundary

namespace StyleScope.Scan

open Byte Text

/-- How a brace changes the number of open blocks. -/
def countBrace (n : Int) (b : UInt8) : Int :=
  if b = openBrace then n + 1 else if b = closeBrace then n - 1 else n

/-- What remains after the first opening brace that no backslash escapes. -/
def FirstBrace (xs inside : Bytes) : Prop := ∃ k, Unbraced k ∧ xs = k ++ openBrace :: inside

/-- Between the units before the place, the number of open blocks is positive. -/
def OpenBefore (n : Int) (xs place : Bytes) : Prop :=
  ∀ m zs, Walks countBrace n xs m zs → place.length < zs.length → 0 < m

/-- With `n` blocks open, the last of them closes at the place, and not before it. -/
structure ClosesAt (n : Int) (xs rest : Bytes) : Prop where
  closed : Walks countBrace n xs 0 rest
  before : OpenBefore n xs rest

/-- A string that is never closed is met, by its quote, while blocks are open. -/
structure BreaksAt (n : Int) (xs : Bytes) (quote : UInt8) (inside : Bytes) : Prop where
  met : ∃ m, Walks countBrace n xs m (quote :: inside)
  before : OpenBefore n xs inside
  leftOpen : LeftOpen quote inside

/-- With `n` blocks open, what the text is to the search for the end of the last of them. -/
inductive BlockEnd (n : Int) (xs : Bytes) : Except Fault Bytes → Prop
  | closes {rest : Bytes} : ClosesAt n xs rest → BlockEnd n xs (.ok rest)
  | breaks {quote : UInt8} {inside : Bytes} :
    BreaksAt n xs quote inside → BlockEnd n xs (.error (.unterminatedQuote quote (quote :: inside)))
  | staysOpen :
    (∀ quote inside, ¬ BreaksAt n xs quote inside) → (∀ rest, ¬ Walks countBrace n xs 0 rest) →
      BlockEnd n xs (.error (.missingDelimiter closeBrace []))

variable {xs ys zs rest inside : Bytes} {b quote : UInt8} {kind : Lexeme} {n m : Int}

/-! ## One unit -/

section

variable (hl : lexeme b xs = .ok (kind, ys)) (hn : 0 < n)
include hl

include hn in
theorem OpenBefore.cons (h : OpenBefore (kind.count countBrace n b) ys rest) : OpenBefore n (b :: xs) rest := by
  intro m zs hw hlt
  rcases (Walks.cons_iff hl).1 hw with ⟨rfl, -⟩ | hw
  · exact hn
  · exact h m zs hw hlt

theorem OpenBefore.of_cons (h : OpenBefore n (b :: xs) rest) : OpenBefore (kind.count countBrace n b) ys rest :=
  fun m zs hw hlt => h m zs ((Walks.cons_iff hl).2 (.inr hw)) hlt

/-- A quote that is never closed comes after the first unit of a text, if that is read. -/
theorem BreaksAt.of_cons (h : BreaksAt n (b :: xs) quote inside) :
    BreaksAt (kind.count countBrace n b) ys quote inside := by
  obtain ⟨⟨m, hw⟩, hbefore, ho⟩ := h
  rcases (Walks.cons_iff hl).1 hw with ⟨-, he⟩ | hw
  · obtain ⟨rfl, rfl⟩ := List.cons.inj he
    rw [lexeme_eq_error_iff.2 ⟨ho, rfl⟩] at hl
    cases hl
  · exact ⟨⟨m, hw⟩, hbefore.of_cons hl, ho⟩

include hn in
/-- **The search goes on over a unit** while blocks are open. -/
theorem BlockEnd.cons {r : Except Fault Bytes} (h : BlockEnd (kind.count countBrace n b) ys r) :
    BlockEnd n (b :: xs) r := by
  cases h with
  | closes h => exact .closes ⟨(Walks.cons_iff hl).2 (.inr h.closed), h.before.cons hl hn⟩
  | breaks h =>
    obtain ⟨⟨m, hw⟩, hbefore, ho⟩ := h
    exact .breaks ⟨⟨m, (Walks.cons_iff hl).2 (.inr hw)⟩, hbefore.cons hl hn, ho⟩
  | staysOpen hb hz =>
    refine .staysOpen (fun q i h => hb q i (h.of_cons hl)) fun r hw => ?_
    rcases (Walks.cons_iff hl).1 hw with ⟨he, -⟩ | hw
    · omega
    · exact hz r hw

end

/-! ## The search -/

/-- **The search for the end of a block finds what the text is.** -/
theorem blockEnd_afterBlockFrom (inner : Nat) (xs : Bytes) : BlockEnd (inner + 1) xs (afterBlockFrom inner xs) := by
  have hpos (inner : Nat) : (0 : Int) < inner + 1 := by omega
  fun_induction afterBlockFrom inner xs with
  | case1 inner =>
    have hnil {m : Int} {zs : Bytes} (hw : Walks countBrace (inner + 1) [] m zs) : m = inner + 1 ∧ zs = [] :=
      hw.eq_of_length_le (Nat.zero_le _)
    refine .staysOpen (fun q i h => ?_) fun r hw => ?_
    · obtain ⟨⟨m, hw⟩, -, -⟩ := h
      cases (hnil hw).2
    · have := (hnil hw).1
      omega
  | case2 inner b xs fault hl =>
    obtain ⟨ho, rfl⟩ := lexeme_eq_error_iff.1 hl
    refine .breaks ⟨⟨_, .refl⟩, fun m zs hw _ => ?_, ho⟩
    rw [(hw.eq_of_leftOpen ho).1]
    exact hpos inner
  | case3 inner xs rest hl ih =>
    obtain rfl := rest_of_lexeme_byte hl
    exact BlockEnd.cons hl (hpos inner) ih
  | case4 xs rest hl =>
    obtain rfl := rest_of_lexeme_byte hl
    refine .closes ⟨(Walks.cons_iff hl).2 (.inr .refl), fun m zs hw hlt => ?_⟩
    rcases (Walks.cons_iff hl).1 hw with ⟨rfl, -⟩ | hw
    · exact hpos 0
    · exact absurd hw.suffix.length_le (Nat.not_le_of_lt hlt)
  | case5 xs rest inner hl _ ih =>
    obtain rfl := rest_of_lexeme_byte hl
    refine BlockEnd.cons hl (hpos _) ?_
    have hcount : Lexeme.byte.count countBrace ((inner + 1 : Nat) + 1 : Int) closeBrace = (inner + 1 : Int) := by
      simp [Lexeme.count, countBrace, closeBrace, openBrace]
    rw [hcount]
    exact ih
  | case6 inner b xs rest hl ho hc ih =>
    obtain rfl := rest_of_lexeme_byte hl
    refine BlockEnd.cons hl (hpos inner) ?_
    rwa [Lexeme.count, countBrace, if_neg ho, if_neg hc]
  | case7 inner b xs kind rest hk hl ih =>
    refine BlockEnd.cons hl (hpos inner) ?_
    rwa [Lexeme.count_of_ne fun he => hk (he ▸ rfl)]

/-! ## One outcome -/

theorem eq_of_walks {m' : Int} (h : Walks countBrace n xs m ys) (h' : Walks countBrace n xs m' zs)
    (hlen : ys.length = zs.length) : ys = zs :=
  ((h'.onward h (Nat.le_of_eq hlen)).eq_of_length_le (Nat.le_of_eq hlen.symm)).2

theorem ClosesAt.unique (h : ClosesAt n xs ys) (h' : ClosesAt n xs zs) : ys = zs := by
  rcases Nat.lt_trichotomy ys.length zs.length with hlt | heq | hlt
  · exact absurd (h.before 0 zs h'.closed hlt) (Int.lt_irrefl 0)
  · exact eq_of_walks h.closed h'.closed heq
  · exact absurd (h'.before 0 ys h.closed hlt) (Int.lt_irrefl 0)

/-- A block that closes does not break before, and a walk does not go on where it breaks. -/
theorem BreaksAt.not_closesAt (h : BreaksAt n xs quote inside) : ¬ ClosesAt n xs rest := by
  intro hc
  obtain ⟨⟨m, hw⟩, hbefore, ho⟩ := h
  rcases Nat.lt_or_ge inside.length rest.length with hlt | hle
  · exact absurd (hbefore 0 rest hc.closed hlt) (Int.lt_irrefl 0)
  · have hlen : rest.length ≤ (quote :: inside).length := Nat.le_succ_of_le hle
    obtain ⟨-, rfl⟩ := (hw.onward hc.closed hlen).eq_of_leftOpen ho
    exact absurd hle (Nat.not_succ_le_self _)

theorem BreaksAt.unique {quote' : UInt8} {inside' : Bytes} (h : BreaksAt n xs quote inside)
    (h' : BreaksAt n xs quote' inside') : quote :: inside = quote' :: inside' := by
  obtain ⟨⟨m, hw⟩, -, ho⟩ := h
  obtain ⟨⟨m', hw'⟩, -, ho'⟩ := h'
  rcases Nat.le_total (quote :: inside).length (quote' :: inside').length with hle | hle
  · exact ((hw'.onward hw hle).eq_of_leftOpen ho').2
  · exact ((hw.onward hw' hle).eq_of_leftOpen ho).2.symm

theorem BlockEnd.unique {r r' : Except Fault Bytes} (h : BlockEnd n xs r) (h' : BlockEnd n xs r') : r = r' := by
  cases h with
  | closes hc =>
    cases h' with
    | closes hc' => rw [hc.unique hc']
    | breaks hb' => exact absurd hc hb'.not_closesAt
    | staysOpen _ hz' => exact absurd hc.closed (hz' _)
  | breaks hb =>
    cases h' with
    | closes hc' => exact absurd hc' hb.not_closesAt
    | breaks hb' =>
      obtain ⟨rfl, rfl⟩ := List.cons.inj (hb.unique hb')
      rfl
    | staysOpen hn' _ => exact absurd hb (hn' _ _)
  | staysOpen hn hz =>
    cases h' with
    | closes hc' => exact absurd hc'.closed (hz _)
    | breaks hb' => exact absurd hb' (hn _ _)
    | staysOpen => rfl

/-- **The search for the end of a block finds what the text is, and nothing else.** -/
theorem afterBlockFrom_eq_iff {r : Except Fault Bytes} (inner : Nat) :
    afterBlockFrom inner xs = r ↔ BlockEnd (inner + 1) xs r :=
  ⟨fun h => h ▸ blockEnd_afterBlockFrom inner xs, fun h => (blockEnd_afterBlockFrom inner xs).unique h⟩

/-! ## The first brace -/

theorem firstBrace_iff : FirstBrace xs inside ↔ toOpenBrace xs = openBrace :: inside := by
  constructor
  · rintro ⟨k, hk, rfl⟩
    exact hk.toOpenBrace inside
  · intro h
    obtain ⟨k, hk, he⟩ := unbraced_of_toOpenBrace h
    exact ⟨k, hk, he⟩

theorem FirstBrace.suffix (h : FirstBrace xs inside) : openBrace :: inside <:+ xs := by
  obtain ⟨k, -, rfl⟩ := h
  exact List.suffix_append _ _

/-- The search for a brace ends at one, or at the end of the text. -/
theorem toOpenBrace_cases (xs : Bytes) : toOpenBrace xs = [] ∨ ∃ inside, toOpenBrace xs = openBrace :: inside := by
  fun_induction toOpenBrace xs with
  | case1 => exact .inl rfl
  | case2 => exact .inr ⟨_, rfl⟩
  | case3 _ _ ih => exact ih
  | case4 _ _ _ _ ih => exact ih

/-! ## Blocks by offset -/

/-- What a text is to the search for its first block from an offset on. -/
inductive Captures (whole : Bytes) (offset : Nat) : Except Error Block → Prop
  | block {inside rest : Bytes} {text : String} :
    FirstBrace (whole.drop offset) inside → ClosesAt 1 inside rest →
      slice? whole (offsetOf whole (openBrace :: inside)) (offsetOf whole rest) = some text →
      Captures whole offset (.ok ⟨text, offsetOf whole (openBrace :: inside), offsetOf whole rest⟩)
  | noBrace : (∀ inside, ¬ FirstBrace (whole.drop offset) inside) →
    Captures whole offset (.error (.missingDelimiter openBrace whole.length))
  | breaks {inside rest : Bytes} {quote : UInt8} :
    FirstBrace (whole.drop offset) inside → BreaksAt 1 inside quote rest →
      Captures whole offset (.error (.unterminatedQuote quote (offsetOf whole (quote :: rest))))
  | staysOpen {inside : Bytes} :
    FirstBrace (whole.drop offset) inside → (∀ quote rest, ¬ BreaksAt 1 inside quote rest) →
      (∀ rest, ¬ Walks countBrace 1 inside 0 rest) →
      Captures whole offset (.error (.missingDelimiter closeBrace whole.length))

section

variable {text : String} {offset : Nat}

theorem capture_of_noBrace (h : ∀ inside, ¬ FirstBrace ((encode text).drop offset) inside) :
    Block.capture text offset = .error (.missingDelimiter openBrace (encode text).length) := by
  have hnil : toOpenBrace ((encode text).drop offset) = [] :=
    (toOpenBrace_cases _).resolve_right fun ⟨inside, hi⟩ => h inside (firstBrace_iff.2 hi)
  rw [Block.capture, locating_eq_error_iff]
  refine ⟨.missingDelimiter openBrace [], ?_, rfl⟩
  rw [block, hnil]
  rfl

theorem capture_of_error {fault : Fault} (hf : FirstBrace ((encode text).drop offset) inside)
    (h : afterBlockFrom 0 inside = .error fault) :
    Block.capture text offset = .error (fault.locate (encode text)) := by
  rw [Block.capture, locating_eq_error_iff]
  refine ⟨fault, ?_, rfl⟩
  rw [bind_eq_error_iff, block, firstBrace_iff.1 hf]
  refine .inl ?_
  rw [expect_eq_ok_iff.2 rfl, bind_eq_error_iff]
  exact .inr ⟨inside, rfl, bind_eq_error_iff.2 (.inl h)⟩

/-- A block begins and ends with a brace, so it is a slice of the text. -/
theorem capture_of_ok (hf : FirstBrace ((encode text).drop offset) inside) (h : afterBlockFrom 0 inside = .ok rest) :
    ∃ t, slice? (encode text) (offsetOf (encode text) (openBrace :: inside)) (offsetOf (encode text) rest) = some t ∧
      encode t ++ rest = openBrace :: inside ∧
      Block.capture text offset =
        .ok ⟨t, offsetOf (encode text) (openBrace :: inside), offsetOf (encode text) rest⟩ := by
  obtain ⟨ys, rfl, hy⟩ := encloses_of_afterBlockFrom h
  obtain ⟨zs, rfl⟩ := hy.exists_closeBrace
  obtain ⟨front, he⟩ := hf.suffix.trans (List.drop_suffix offset _)
  have hstop : isBoundary rest := by
    refine isBoundary_of_encode_eq (s := text) (x := front ++ openBrace :: zs) (b := closeBrace) ?_ (by decide)
    rw [← he]
    simp
  have hstart : isBoundary (openBrace :: (zs ++ [closeBrace]) ++ rest) := isBoundary_cons (.inl (by decide)) _
  obtain ⟨t, hs, ht⟩ := slice?_eq_some (s := text) (x := front) he.symm hstart hstop
  have hwhole : encode t ++ rest = openBrace :: (zs ++ [closeBrace] ++ rest) := by rw [ht, List.cons_append]
  have hfrom : offsetOf (encode text) (openBrace :: (zs ++ [closeBrace] ++ rest)) = front.length := by
    rw [← he, offsetOf_append_left]
  have hto : offsetOf (encode text) rest = (front ++ openBrace :: (zs ++ [closeBrace])).length := by
    rw [← offsetOf_append_left _ rest, List.append_assoc, List.cons_append, he]
  refine ⟨t, by rw [hfrom, hto, hs], hwhole, ?_⟩
  have hblock : block ((encode text).drop offset) = .ok ⟨openBrace :: (zs ++ [closeBrace] ++ rest), rest⟩ := by
    rw [block, firstBrace_iff.1 hf, expect_eq_ok_iff.2 rfl, bind_eq_ok_iff]
    exact ⟨_, rfl, bind_eq_ok_iff.2 ⟨rest, h, rfl⟩⟩
  rw [Block.capture, locating_eq_ok_iff, hblock, bind_eq_ok_iff]
  refine ⟨_, rfl, bind_eq_ok_iff.2 ⟨t, ?_, rfl⟩⟩
  rw [← hwhole]
  exact textBefore_encode t rest

/-- **A text is captured as what it is to the search**, and as nothing else. -/
theorem captures_iff {r : Except Error Block} : Block.capture text offset = r ↔ Captures (encode text) offset r := by
  constructor
  · rintro rfl
    by_cases hf : ∃ inside, FirstBrace ((encode text).drop offset) inside
    · obtain ⟨inside, hf⟩ := hf
      have hend : BlockEnd 1 inside (afterBlockFrom 0 inside) := blockEnd_afterBlockFrom 0 inside
      generalize hr : afterBlockFrom 0 inside = r at hend
      cases hend with
      | closes hc =>
        obtain ⟨t, hs, -, hok⟩ := capture_of_ok hf hr
        rw [hok]
        exact .block hf hc hs
      | breaks hb =>
        rw [capture_of_error hf hr]
        exact .breaks hf hb
      | staysOpen hn hz =>
        rw [capture_of_error hf hr]
        exact .staysOpen hf hn hz
    · rw [not_exists] at hf
      rw [capture_of_noBrace hf]
      exact .noBrace hf
  · intro h
    cases h with
    | block hf hc hs =>
      obtain ⟨t, ht, -, hok⟩ := capture_of_ok hf ((afterBlockFrom_eq_iff 0).2 (.closes hc))
      obtain rfl := Option.some.inj (hs.symm.trans ht)
      exact hok
    | noBrace hn => exact capture_of_noBrace hn
    | breaks hf hb => exact capture_of_error hf ((afterBlockFrom_eq_iff 0).2 (.breaks hb))
    | staysOpen hf hn hz => exact capture_of_error hf ((afterBlockFrom_eq_iff 0).2 (.staysOpen hn hz))

/-- **A block is found by itself**: whatever follows its text, it is captured as that text. -/
theorem capture_append {found : Block} (h : Block.capture text offset = .ok found) (tail : String) :
    Block.capture (found.text ++ tail) 0 = .ok ⟨found.text, 0, (encode found.text).length⟩ := by
  rw [captures_iff] at h
  cases h with
  | @block inside rest t hf hc hs =>
    have hend := (afterBlockFrom_eq_iff 0).2 (.closes hc)
    obtain ⟨t', ht, hwhole, -⟩ := capture_of_ok hf hend
    obtain rfl := Option.some.inj (hs.symm.trans ht)
    obtain ⟨ys, rfl, hy⟩ := encloses_of_afterBlockFrom hend
    have hbytes : encode t = openBrace :: ys := List.append_cancel_right hwhole
    have hall : (encode (t ++ tail)).drop 0 = openBrace :: (ys ++ encode tail) := by
      rw [List.drop_zero, encode_append, hbytes, List.cons_append]
    have hfirst : FirstBrace ((encode (t ++ tail)).drop 0) (ys ++ encode tail) := ⟨[], .nil, hall⟩
    obtain ⟨t', -, hwhole', hok⟩ := capture_of_ok hfirst (hy.afterBlockFrom (encode tail))
    obtain rfl : t' = t := encode_inj (by rw [hbytes]; exact List.append_cancel_right hwhole')
    rw [hok, ← hall, List.drop_zero, encode_append, offsetOf_append_left, offsetOf, Nat.sub_self]

end

/-- **A block is the shortest span that balances.** From the offset on, a text is captured as a block exactly if there
is a brace that no backslash escapes and, from it on, the count of open blocks comes back to zero before a string is met
that is never closed; the block then runs from that brace to the first place where the count is zero, and it is found by
itself, whatever follows it. The text is refused for want of a brace, for a string, or for want of the closing brace,
exactly if it has no such brace, if it meets such a string first, or if neither happens and the count never is zero. -/
theorem capture_shortest (text : String) (offset : Nat) :
    (∀ r, Block.capture text offset = r ↔ Captures (encode text) offset r) ∧
      ∀ found, Block.capture text offset = .ok found → ∀ tail : String,
        Block.capture (found.text ++ tail) 0 = .ok ⟨found.text, 0, (encode found.text).length⟩ :=
  ⟨fun _ => captures_iff, fun _ h tail => capture_append h tail⟩

/-- The first brace is escaped, and braces in a string, in a comment and after a backslash do not count; the block is
the same before another closing brace. -/
theorem capture_shortest_hidden :
    Block.capture "k\\\x7b \x7b'\x7d'/*\x7b*/\x7b\\\x7d\x7d\x7d \x7b" 1 =
        .ok ⟨"\x7b'\x7d'/*\x7b*/\x7b\\\x7d\x7d\x7d", 4, 18⟩ ∧
      Block.capture ("\x7b'\x7d'/*\x7b*/\x7b\\\x7d\x7d\x7d" ++ "\x7d") 0 =
        .ok ⟨"\x7b'\x7d'/*\x7b*/\x7b\\\x7d\x7d\x7d", 0, 14⟩ := by
  have h : Block.capture "k\\\x7b \x7b'\x7d'/*\x7b*/\x7b\\\x7d\x7d\x7d \x7b" 1 =
      .ok ⟨"\x7b'\x7d'/*\x7b*/\x7b\\\x7d\x7d\x7d", 4, 18⟩ := by decide +kernel
  exact ⟨h, (capture_shortest _ _).2 _ h "\x7d"⟩

end StyleScope.Scan
