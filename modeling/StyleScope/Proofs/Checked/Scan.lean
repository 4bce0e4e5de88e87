/-
The scans of many units, with their checks: to a top-level stop, over a value, and from the brace that opens a block
to the one that closes it. They go on while there is a byte, so each turn has to move the cursor on; the groups and
the braces that are open are counted, and neither count goes below zero. A scan ends at the end of the text, beside a
byte below 0x80 or behind a quote, where the text may be cut.
-/
import StyleScope.Proofs.Checked.Lexeme
import StyleScope.Proofs.Scan.Block
import StyleScope.Proofs.Scan.Value

namespace StyleScope.Checked

open Byte Text
open Scan (Block afterEscape lexeme stopsAt nesting)

/-! ## The top level and values -/

/-- The number of open groups after a byte. -/
def nested (depth : Nat) (b : UInt8) : Run Nat :=
  if opensGroup b then return depth + 1
  else if closesGroup b ∧ 0 < depth then oneLess depth
  else return depth

/-- At the first top-level stop, with `depth` groups open, or at the end. -/
def topLevel (whole stops : Bytes) (depth n : Nat) : Run Nat :=
  match whole[n]? with
  | none => return n
  | some b => do
    match ← unit whole n b with
    | (.byte, next) =>
      if stopsAt stops depth b then return n
      else do
        let depth ← nested depth b
        let ⟨m, _⟩ ← onward whole n next
        topLevel whole stops depth m
    | (_, next) => do
      let ⟨m, _⟩ ← onward whole n next
      topLevel whole stops depth m
termination_by whole.length - n

/-- After a value that is no string, with `depth` groups open. -/
def bare (whole follow : Bytes) (depth n : Nat) : Run Nat :=
  match whole[n]? with
  | none => return n
  | some b =>
    if b = backslash then do
      let ⟨m, _⟩ ← onward whole n (skipEscape whole n)
      bare whole follow depth m
    else if depth == 0 && (isSpace b || follow.contains b) then return n
    else if depth != 0 && isQuote b then do
      let next ← skipQuoted whole n
      let ⟨m, _⟩ ← onward whole n next
      bare whole follow depth m
    else do
      let depth ← nested depth b
      let ⟨m, _⟩ ← onward whole n (n + 1)
      bare whole follow depth m
termination_by whole.length - n

/-- After the value that begins at the cursor. -/
def afterValue (whole follow : Bytes) (n : Nat) : Run Nat :=
  match whole[n]? with
  | none => return n
  | some b => if isQuote b then skipQuoted whole n else bare whole follow 0 n

section Values

variable {s : String} {stops follow : Bytes} {depth n : Nat} {b : UInt8} {xs rest : Bytes}

theorem nested_eq (depth : Nat) (b : UInt8) : nested depth b = .ok (nesting depth b) := by
  rw [nested, nesting]
  by_cases ho : opensGroup b
  · rw [if_pos ho, if_pos ho]
    rfl
  · rw [if_neg ho, if_neg ho]
    by_cases hc : closesGroup b
    · cases depth with
      | zero => simp only [Nat.lt_irrefl, and_false, if_false, hc, if_true]; rfl
      | succ depth => rw [if_pos ⟨hc, Nat.zero_lt_succ _⟩, if_pos hc]; rfl
    · rw [if_neg (fun h => hc h.1), if_neg hc]
      rfl

theorem agrees_topLevel (h : At (encode s) n xs) :
    Agrees (Fault.locate (encode s)) (At (encode s)) (topLevel (encode s) stops depth n)
      (Scan.topLevelFrom stops depth xs) := by
  fun_induction Scan.topLevelFrom stops depth xs generalizing n with
  | case1 depth =>
    rw [topLevel, h.getElem?]
    exact h
  | case2 depth b xs fault hl =>
    rw [topLevel, h.getElem?]
    exact .bind_error (hl ▸ agrees_unit h)
  | case3 depth b xs rest hl hstop =>
    rw [topLevel, h.getElem?]
    refine .bind_ok (hl ▸ agrees_unit h) fun p hp => ?_
    obtain ⟨kind, next⟩ := p
    obtain ⟨rfl, -⟩ := hp
    simp only [hstop, if_true]
    exact h
  | case4 depth b xs rest hl hstop ih =>
    rw [topLevel, h.getElem?]
    refine .bind_ok (hl ▸ agrees_unit h) fun p hp => ?_
    obtain ⟨kind, next⟩ := p
    obtain ⟨rfl, hnext⟩ := hp
    obtain rfl := Scan.rest_of_lexeme_byte hl
    simp only [hstop, Bool.false_eq_true, if_false, nested_eq]
    exact .onward h hnext (Nat.lt_succ_self _) fun _ => ih hnext
  | case5 depth b xs kind rest hkind hl ih =>
    rw [topLevel, h.getElem?]
    refine .bind_ok (hl ▸ agrees_unit h) fun p hp => ?_
    obtain ⟨kind', next⟩ := p
    obtain ⟨rfl, hnext⟩ := hp
    have hle := (Scan.lexeme_suffix hl).length_le
    cases kind' with
    | byte => exact absurd rfl hkind
    | _ => exact .onward h hnext (Nat.lt_succ_of_le hle) fun _ => ih hnext

/-- The scan ends where the text may be cut: a stop is a byte below 0x80. -/
theorem cut_topLevel (h : At (encode s) n xs) (hs : ∀ b ∈ stops, b < 0x80) :
    Agrees (Fault.locate (encode s)) (CutAt (encode s)) (topLevel (encode s) stops 0 n)
      (Scan.topLevel stops xs) := by
  refine (agrees_topLevel h).mono fun m rest hr hm => hm.cutAt_of_head fun b hb => hs b ?_
  obtain ⟨ys, rfl⟩ := List.head?_eq_some_iff.1 hb
  obtain ⟨_, d, -, -, hstop, -⟩ := Scan.passes_of_topLevelFrom hr
  rw [stopsAt, Bool.and_eq_true] at hstop
  exact List.contains_iff_mem.1 hstop.1

/-- Behind the backslash the scan stands inside a character, and it goes on from there to the end of it. -/
example : skipEscape (encode "\\é;x") 0 = 2 ∧ topLevel (encode "\\é;x") [semicolon] 0 0 = .ok 3 := by
  decide +kernel

theorem agrees_bare (h : At (encode s) n xs) :
    Agrees (Fault.locate (encode s)) (At (encode s)) (bare (encode s) follow depth n)
      (Scan.afterBareFrom follow depth xs) := by
  fun_induction Scan.afterBareFrom follow depth xs generalizing n with
  | case1 depth =>
    rw [bare, h.getElem?]
    exact h
  | case2 depth xs ih =>
    rw [bare, h.getElem?]
    simp only [List.head?_cons, if_true]
    have hle := (Scan.afterEscape_suffix xs).length_le
    exact .onward h h.skipEscape (Nat.lt_succ_of_le hle) fun _ => ih h.skipEscape
  | case3 depth b xs hb he =>
    rw [bare, h.getElem?]
    simp only [List.head?_cons, if_neg hb, if_pos he]
    exact h
  | case4 depth b xs hb he hq fault hs =>
    rw [bare, h.getElem?]
    simp only [List.head?_cons, if_neg hb, if_neg he, if_pos hq]
    exact .bind_error (hs ▸ agrees_skipQuoted h)
  | case5 depth b xs hb he hq rest hs ih =>
    rw [bare, h.getElem?]
    simp only [List.head?_cons, if_neg hb, if_neg he, if_pos hq]
    refine .bind_ok (hs ▸ agrees_skipQuoted h) fun next hnext => ?_
    have hle := (Scan.afterString_suffix hs).length_le
    exact .onward h hnext (Nat.lt_succ_of_le hle) fun _ => ih hnext
  | case6 depth b xs hb he hq ih =>
    rw [bare, h.getElem?]
    simp only [List.head?_cons, if_neg hb, if_neg he, if_neg hq, nested_eq]
    exact .onward h h.succ (Nat.lt_succ_self _) fun _ => ih h.succ

/-- A value ends where the text may be cut: behind a quote, or before a byte below 0x80. -/
theorem cut_afterValue (h : At (encode s) n xs) (hf : ∀ b ∈ follow, b < 0x80) :
    Agrees (Fault.locate (encode s)) (CutAt (encode s)) (afterValue (encode s) follow n)
      (Scan.afterValue follow xs) := by
  cases xs with
  | nil =>
    rw [afterValue, h.getElem?]
    exact ⟨h, rfl⟩
  | cons b xs =>
    rw [afterValue, h.getElem?, Scan.afterValue]
    by_cases hq : isQuote b
    · simp only [List.head?_cons, hq, if_true]
      refine (agrees_skipQuoted h).mono fun m rest hr hm => ?_
      obtain ⟨inside, -, rfl⟩ := Scan.eq_of_afterString hr
      exact hm.cutAt_after h.succ (Scan.lt_of_isQuote hq)
    · simp only [List.head?_cons, hq, Bool.false_eq_true, if_false]
      refine (agrees_bare h).mono fun m rest hr hm => hm.cutAt_of_head fun c hc => ?_
      obtain ⟨ys, rfl⟩ := List.head?_eq_some_iff.1 hc
      obtain ⟨_, -, -, hend⟩ := Scan.runsOn_of_afterBareFrom hr
      rcases Bool.or_eq_true .. ▸ hend with hspace | hmem
      · exact lt_of_isSpace hspace
      · exact hf c (List.contains_iff_mem.1 hmem)

end Values

/-! ## Blocks -/

/-- At the first opening brace that no backslash escapes, or at the end. -/
def toOpenBrace (whole : Bytes) (n : Nat) : Run Nat :=
  match whole[n]? with
  | none => return n
  | some b =>
    if b = openBrace then return n
    else if b = backslash then do
      let ⟨m, _⟩ ← onward whole n (skipEscape whole n)
      toOpenBrace whole m
    else do
      let ⟨m, _⟩ ← onward whole n (n + 1)
      toOpenBrace whole m
termination_by whole.length - n

/-- The number of open braces after a byte. -/
def braced (count : Nat) (b : UInt8) : Run Nat :=
  if b = openBrace then return count + 1
  else if b = closeBrace then oneLess count
  else return count

/-- After the brace that closes the last of `count` open ones. -/
def balance (whole : Bytes) (count n : Nat) : Run Nat :=
  if count = 0 then return n
  else
    match whole[n]? with
    | none => refuse (.missingDelimiter closeBrace n)
    | some b => do
      match ← unit whole n b with
      | (.byte, next) => do
        let count ← braced count b
        let ⟨m, _⟩ ← onward whole n next
        balance whole count m
      | (_, next) => do
        let ⟨m, _⟩ ← onward whole n next
        balance whole count m
termination_by whole.length - n

/-- The ends of the first block. -/
def span (whole : Bytes) (n : Nat) : Run (Nat × Nat) := do
  let start ← toOpenBrace whole n
  let inside ← expect whole openBrace start
  let stop ← balance whole 1 inside
  return (start, stop)

/-- The first block. -/
def block (whole : Bytes) (n : Nat) : Run Block := do
  let (start, stop) ← span whole n
  let text ← slice whole start stop
  return { text, start, stop }

section Blocks

variable {s : String} {inner n : Nat} {xs : Bytes}

theorem agrees_toOpenBrace (h : At (encode s) n xs) :
    Agrees (Fault.locate (encode s)) (At (encode s)) (toOpenBrace (encode s) n) (.ok (Scan.toOpenBrace xs)) := by
  fun_induction Scan.toOpenBrace xs generalizing n with
  | case1 =>
    rw [toOpenBrace, h.getElem?]
    exact h
  | case2 xs =>
    rw [toOpenBrace, h.getElem?]
    simp only [List.head?_cons, if_true]
    exact h
  | case3 xs hb ih =>
    rw [toOpenBrace, h.getElem?]
    simp only [List.head?_cons, if_neg hb, if_true]
    have hle := (Scan.afterEscape_suffix xs).length_le
    exact .onward h h.skipEscape (Nat.lt_succ_of_le hle) fun _ => ih h.skipEscape
  | case4 b xs hb hback ih =>
    rw [toOpenBrace, h.getElem?]
    simp only [List.head?_cons, if_neg hb, if_neg hback]
    exact .onward h h.succ (Nat.lt_succ_self _) fun _ => ih h.succ

/-- A byte by itself may open or close a brace. -/
theorem agrees_balance_byte {b : UInt8} {rest : Bytes} {count : Nat} {r : Except Fault Bytes}
    (h : At (encode s) n (b :: xs)) (hl : lexeme b xs = .ok (.byte, rest)) (hb : braced (inner + 1) b = .ok count)
    (hr : Agrees (Fault.locate (encode s)) (At (encode s)) (balance (encode s) count (n + 1)) r) :
    Agrees (Fault.locate (encode s)) (At (encode s)) (balance (encode s) (inner + 1) n) r := by
  rw [balance, if_neg (Nat.succ_ne_zero _), h.getElem?]
  refine .bind_ok (hl ▸ agrees_unit h) fun p hp => ?_
  obtain ⟨kind, next⟩ := p
  obtain ⟨rfl, hnext⟩ := hp
  obtain rfl := Scan.rest_of_lexeme_byte hl
  obtain rfl : next = n + 1 := hnext.offsetOf_eq.symm.trans h.succ.offsetOf_eq
  simp only [hb]
  exact .onward h hnext (Nat.lt_succ_self _) fun _ => hr

/-- One more brace is open than blocks inside the block, so the count does not go below zero. -/
theorem agrees_balance (h : At (encode s) n xs) :
    Agrees (Fault.locate (encode s)) (At (encode s)) (balance (encode s) (inner + 1) n)
      (Scan.afterBlockFrom inner xs) := by
  fun_induction Scan.afterBlockFrom inner xs generalizing n with
  | case1 inner =>
    rw [balance, if_neg (Nat.succ_ne_zero _), h.getElem?]
    exact agrees_missing h closeBrace
  | case2 inner b xs fault hl =>
    rw [balance, if_neg (Nat.succ_ne_zero _), h.getElem?]
    exact .bind_error (hl ▸ agrees_unit h)
  | case3 inner xs rest hl ih => exact agrees_balance_byte h hl rfl (ih h.succ)
  | case4 xs rest hl hb =>
    refine agrees_balance_byte h hl rfl ?_
    rw [balance, if_pos rfl]
    exact h.succ
  | case5 xs rest inner hl hb ih => exact agrees_balance_byte h hl rfl (ih h.succ)
  | case6 inner b xs rest hl hopen hclose ih =>
    exact agrees_balance_byte h hl (by rw [braced, if_neg hopen, if_neg hclose]; rfl) (ih h.succ)
  | case7 inner b xs kind rest hkind hl ih =>
    rw [balance, if_neg (Nat.succ_ne_zero _), h.getElem?]
    refine .bind_ok (hl ▸ agrees_unit h) fun p hp => ?_
    obtain ⟨kind', next⟩ := p
    obtain ⟨rfl, hnext⟩ := hp
    have hle := (Scan.lexeme_suffix hl).length_le
    cases kind' with
    | byte => exact absurd rfl hkind
    | _ => exact .onward h hnext (Nat.lt_succ_of_le hle) fun _ => ih hnext

/-- Both ends of a block are places where the text may be cut. -/
theorem agrees_span (h : At (encode s) n xs) :
    Agrees (Fault.locate (encode s))
      (fun p q => CutAt (encode s) p.1 q.start ∧ CutAt (encode s) p.2 q.rest ∧ q.rest <:+ q.start)
      (span (encode s) n) (Scan.block xs) := by
  rw [span, Scan.block]
  refine .bind_ok (agrees_toOpenBrace h) fun start hstart => ?_
  refine .bind (agrees_expect hstart (by decide)) fun inside ys hys hinside => ?_
  refine .bind (agrees_balance hinside.toAt) fun stop rest hrest hstop => ?_
  rw [Scan.expect_eq_ok_iff.1 hys] at hstart ⊢
  obtain ⟨x, rfl, hx⟩ := Scan.encloses_of_afterBlockFrom hrest
  obtain ⟨y, rfl⟩ := hx.exists_closeBrace
  have hback : At (encode s) inside (y ++ closeBrace :: rest) := by simpa using hinside.toAt
  exact ⟨hstart.cutAt (by decide), hstop.cutAt_after hback (by decide),
    (List.suffix_append _ rest).trans (List.suffix_cons _ _)⟩

end Blocks

end StyleScope.Checked
