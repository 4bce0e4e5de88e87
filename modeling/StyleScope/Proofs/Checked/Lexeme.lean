/-
The units of a text, gaps and delimiters, read with their checks. Each reader works by offsets on the whole text: it
looks at the byte where the cursor stands and moves the cursor on. The cursor may come to stand inside a character,
behind a backslash, so no slice is taken there; what follows the opening of a comment is one, for the opening is
ASCII. Each agrees with the reader of what remains.
-/
import StyleScope.Proofs.Checked.Run
import StyleScope.Proofs.Scan.Gap

namespace StyleScope.Checked

open Byte Text
open Scan (Lexeme afterEscape afterCommentOpen? afterComment afterQuoted? afterString lexeme)

/-! ## Units -/

/-- The first place in a comment at which it closes. -/
def findClose? : Bytes → Option Nat
  | a :: b :: xs => if a = star ∧ b = slash then some 0 else (findClose? (b :: xs)).map (· + 1)
  | _ => none

/-- After the comment that opens at the cursor; what follows the opening is taken as a slice and searched. -/
def skipComment (whole : Bytes) (n : Nat) : Run Nat := do
  let inside ← slice whole (n + 2) whole.length
  match findClose? (encode inside) with
  | some k => within whole (n + 2 + k + 2)
  | none => return whole.length

/-- After a backslash and the byte it escapes, if there is one. -/
def skipEscape (whole : Bytes) (n : Nat) : Nat := min (n + 2) whole.length

/-- After the quote that closes the string opened at an offset. -/
def closing (whole : Bytes) (quote : UInt8) (opened n : Nat) : Run Nat :=
  match whole[n]? with
  | none => refuse (.unterminatedQuote quote opened)
  | some b =>
    if b = backslash then do
      let ⟨m, _⟩ ← onward whole n (skipEscape whole n)
      closing whole quote opened m
    else if b = quote then within whole (n + 1)
    else do
      let ⟨m, _⟩ ← onward whole n (n + 1)
      closing whole quote opened m
termination_by whole.length - n

/-- After the string whose opening quote stands at the cursor. -/
def skipQuoted (whole : Bytes) (n : Nat) : Run Nat := do
  let quote ← byteAt whole n
  let inside ← within whole (n + 1)
  closing whole quote n inside

/-- A comment opens at the cursor. -/
def isCommentStart (whole : Bytes) (n : Nat) : Bool := whole[n]? == some slash && whole[n + 1]? == some star

/-- The kind of the unit that begins at the cursor with `b`, and after it. -/
def unit (whole : Bytes) (n : Nat) (b : UInt8) : Run (Lexeme × Nat) :=
  if b = backslash then return (.escape, skipEscape whole n)
  else if isCommentStart whole n then return (.comment, ← skipComment whole n)
  else if isQuote b then return (.quoted, ← skipQuoted whole n)
  else return (.byte, ← within whole (n + 1))

section Units

variable {s : String} {n m : Nat} {b quote : UInt8} {xs ys inside : Bytes}

/-- A comment closes at the first place where it can, or it does not close. -/
theorem findClose?_cases (xs : Bytes) :
    (∃ k front, findClose? xs = some k ∧ front.length = k + 2 ∧ xs = front ++ afterComment xs) ∨
      findClose? xs = none ∧ afterComment xs = [] := by
  fun_induction findClose? xs with
  | case1 a b xs h => exact .inl ⟨0, [a, b], rfl, rfl, by rw [afterComment, if_pos h]; rfl⟩
  | case2 a b xs h ih =>
    rw [afterComment, if_neg h]
    rcases ih with ⟨k, front, hk, hl, he⟩ | ⟨hk, he⟩
    · exact .inl ⟨k + 1, a :: front, by rw [hk]; rfl, by rw [List.length_cons, hl], by rw [List.cons_append, ← he]⟩
    · exact .inr ⟨by rw [hk]; rfl, he⟩
  | case3 xs h => exact .inr ⟨rfl, by rw [afterComment]; exact h⟩

/-- The opening of a comment is ASCII, so what follows it is a slice. -/
theorem agrees_skipComment (h : At (encode s) n (slash :: star :: inside)) :
    Agrees (Fault.locate (encode s)) (At (encode s)) (skipComment (encode s) n) (.ok (afterComment inside)) := by
  have hcut : CutAt (encode s) (n + 2) inside := ((h.cutAt (by decide)).succ (by decide)).succ (by decide)
  obtain ⟨t, ht, htext⟩ := hcut.slice (cutAt_end s) List.nil_suffix
  have hinside : inside = encode t := by simpa using Scan.textBefore_eq_ok List.nil_suffix htext
  rw [skipComment, ht]
  show Agrees _ _ (match findClose? (encode t) with
    | some k => within (encode s) (n + 2 + k + 2)
    | none => return (encode s).length) _
  rw [← hinside]
  rcases findClose?_cases inside with ⟨k, front, hk, hl, he⟩ | ⟨hk, he⟩
  · have hfront : At (encode s) (n + 2) (front ++ afterComment inside) := he ▸ hcut.toAt
    have hat : At (encode s) (n + 2 + front.length) (afterComment inside) := hfront.append
    rw [hl, ← Nat.add_assoc] at hat
    rw [hk]
    simp only
    rw [hat.within]
    exact hat
  · rw [hk, he]
    exact at_end _

theorem At.skipEscape (h : At (encode s) n (b :: xs)) :
    At (encode s) (skipEscape (encode s) n) (afterEscape xs) := by
  have hl := h.length_eq
  rw [List.length_cons] at hl
  cases xs with
  | nil =>
    have he : Checked.skipEscape (encode s) n = n + 1 := by
      rw [List.length_nil] at hl
      rw [Checked.skipEscape]
      omega
    rw [he]
    exact h.succ
  | cons c xs =>
    have he : Checked.skipEscape (encode s) n = n + 1 + 1 := by
      rw [List.length_cons] at hl
      rw [Checked.skipEscape]
      omega
    rw [he]
    exact h.succ.succ

theorem agrees_closing (h : At (encode s) n xs) (hm : At (encode s) m (quote :: ys)) :
    Agrees (Fault.locate (encode s)) (At (encode s)) (closing (encode s) quote m n)
      (match afterQuoted? quote xs with
        | some rest => .ok rest
        | none => .error (.unterminatedQuote quote (quote :: ys))) := by
  fun_induction afterQuoted? quote xs generalizing n with
  | case1 =>
    rw [closing, h.getElem?]
    exact agrees_refuse (by rw [Fault.locate, hm.offsetOf_eq]) fun he => by cases he
  | case2 xs ih =>
    rw [closing, h.getElem?]
    simp only [List.head?_cons, if_true]
    have hle := (Scan.afterEscape_suffix xs).length_le
    exact .onward h h.skipEscape (Nat.lt_succ_of_le hle) fun _ => ih h.skipEscape
  | case3 xs hb =>
    rw [closing, h.getElem?]
    simp only [List.head?_cons, if_neg hb, if_true]
    rw [h.succ.within]
    exact h.succ
  | case4 b xs hb hq ih =>
    rw [closing, h.getElem?]
    simp only [List.head?_cons, if_neg hb, if_neg hq]
    exact .onward h h.succ (Nat.lt_succ_self _) fun _ => ih h.succ

theorem agrees_skipQuoted (h : At (encode s) n (b :: xs)) :
    Agrees (Fault.locate (encode s)) (At (encode s)) (skipQuoted (encode s) n) (afterString b xs) := by
  have hbyte : byteAt (encode s) n = .ok b := by rw [byteAt, h.getElem?]; rfl
  rw [skipQuoted, hbyte, h.succ.within]
  exact agrees_closing h.succ h

theorem isCommentStart_eq (h : At (encode s) n xs) :
    isCommentStart (encode s) n = (afterCommentOpen? xs).isSome := by
  cases xs with
  | nil => rw [isCommentStart, h.getElem?]; rfl
  | cons b xs =>
    rw [isCommentStart, h.getElem?, h.getElem?_succ]
    cases xs with
    | nil => simp [afterCommentOpen?]
    | cons c xs => by_cases hb : b = slash <;> by_cases hc : c = star <;> simp [afterCommentOpen?, hb, hc]

/-- The units of a text. -/
theorem agrees_unit (h : At (encode s) n (b :: xs)) :
    Agrees (Fault.locate (encode s)) (fun p q => p.1 = q.1 ∧ At (encode s) p.2 q.2) (unit (encode s) n b)
      (lexeme b xs) := by
  rw [unit, lexeme, isCommentStart_eq h]
  by_cases hb : b = backslash
  · rw [if_pos hb, if_pos hb]
    exact ⟨rfl, h.skipEscape⟩
  rw [if_neg hb, if_neg hb]
  cases hc : afterCommentOpen? (b :: xs) with
  | some inside =>
    rw [Scan.eq_of_afterCommentOpen? hc] at h
    exact .bind_ok (agrees_skipComment h) fun _ hm => ⟨rfl, hm⟩
  | none =>
    simp only [Option.isSome_none, Bool.false_eq_true, if_false]
    by_cases hq : isQuote b
    · rw [if_pos hq, if_pos hq]
      exact .bind_map (agrees_skipQuoted h) fun _ _ _ hm => ⟨rfl, hm⟩
    · rw [if_neg hq, if_neg hq, h.succ.within]
      exact ⟨rfl, h.succ⟩

end Units

/-! ## Gaps and delimiters -/

/-- At the next byte that `stop` accepts, or at the end. -/
def seek (whole : Bytes) (stop : UInt8 → Bool) (n : Nat) : Run Nat :=
  match whole[n]? with
  | none => return n
  | some b =>
    if stop b then return n
    else do
      let ⟨m, _⟩ ← onward whole n (n + 1)
      seek whole stop m
termination_by whole.length - n

/-- After the gap that begins at the cursor. -/
def skipGap (whole : Bytes) (n : Nat) : Run Nat := do
  let m ← seek whole (fun b => !isSpace b) n
  if isCommentStart whole m then do
    let next ← skipComment whole m
    let ⟨k, _⟩ ← onward whole n next
    skipGap whole k
  else return m
termination_by whole.length - n

/-- After the delimiter, which must stand at the cursor. -/
def expect (whole : Bytes) (delimiter : UInt8) (n : Nat) : Run Nat :=
  if whole[n]? = some delimiter then within whole (n + 1) else refuse (.missingDelimiter delimiter n)

section Gaps

variable {s : String} {n : Nat} {xs : Bytes}

theorem agrees_seek (h : At (encode s) n xs) (stop : UInt8 → Bool) :
    Agrees (Fault.locate (encode s)) (At (encode s)) (seek (encode s) stop n) (.ok (Scan.seek stop xs)) := by
  induction xs generalizing n with
  | nil =>
    rw [seek, h.getElem?]
    exact h
  | cons b xs ih =>
    rw [seek, h.getElem?, Scan.seek, List.dropWhile_cons]
    by_cases hb : stop b
    · simp only [List.head?_cons, hb, if_true, Bool.not_true, Bool.false_eq_true, if_false]
      exact h
    · simp only [List.head?_cons, hb, if_true, Bool.not_false, Bool.false_eq_true, if_false]
      exact .onward h h.succ (Nat.lt_succ_self _) fun _ => ih h.succ

/-- A search for bytes below 0x80 ends where the text may be cut. -/
theorem cut_seek (h : At (encode s) n xs) {stop : UInt8 → Bool} (hs : ∀ b, stop b → b < 0x80) :
    Agrees (Fault.locate (encode s)) (CutAt (encode s)) (seek (encode s) stop n) (.ok (Scan.seek stop xs)) := by
  refine (agrees_seek h stop).mono fun m rest he hm => hm.cutAt_of_head fun b hb => hs b ?_
  have hstop := List.head?_dropWhile_not (fun b => !stop b) xs
  rw [← Scan.seek, Except.ok.inj he, hb] at hstop
  simpa using hstop

theorem skipGap_eq_seek (xs : Bytes) :
    Scan.skipGap xs =
      match afterCommentOpen? (Scan.seek (fun b => !isSpace b) xs) with
      | some inside => Scan.skipGap (afterComment inside)
      | none => Scan.seek (fun b => !isSpace b) xs := by
  induction xs with
  | nil => rw [Scan.skipGap]; rfl
  | cons b xs ih =>
    rw [Scan.skipGap, Scan.seek, List.dropWhile_cons]
    by_cases hb : isSpace b
    · rw [if_pos hb, if_pos (by simpa using hb)]
      exact ih
    · rw [if_neg hb, if_neg (by simpa using hb)]
      split <;> next hc => rw [hc]

theorem agrees_skipGap (h : At (encode s) n xs) :
    Agrees (Fault.locate (encode s)) (At (encode s)) (skipGap (encode s) n) (.ok (Scan.skipGap xs)) := by
  induction hk : xs.length using Nat.strongRecOn generalizing n xs with
  | ind k ih =>
    rw [skipGap, skipGap_eq_seek]
    refine .bind_ok (agrees_seek h _) fun m hm => ?_
    rw [isCommentStart_eq hm]
    cases hc : afterCommentOpen? (Scan.seek (fun b => !isSpace b) xs) with
    | none => exact hm
    | some inside =>
      have hopen := Scan.eq_of_afterCommentOpen? hc
      have hseek := (Scan.seek_suffix (fun b => !isSpace b) xs).length_le
      have hinside := (Scan.afterComment_suffix inside).length_le
      rw [hopen] at hm
      rw [hopen, List.length_cons, List.length_cons] at hseek
      refine .bind_ok (agrees_skipComment hm) fun next hnext => ?_
      exact .onward h hnext (by omega) fun _ => ih _ (by omega) hnext rfl

/-- A gap ends where the text may be cut, if it begins there. -/
theorem cut_skipGap (h : CutAt (encode s) n xs) :
    Agrees (Fault.locate (encode s)) (CutAt (encode s)) (skipGap (encode s) n) (.ok (Scan.skipGap xs)) := by
  refine (agrees_skipGap h.toAt).mono fun m rest he hm => ?_
  obtain rfl := Except.ok.inj he
  rcases Scan.skipGap_cases xs with ⟨g, hg, hx, -⟩ | ⟨_, _, _, _, _, hnil⟩
  · by_cases hne : g = []
    · rw [hne, List.nil_append] at hx
      exact ⟨hm, hx ▸ h.boundary⟩
    · obtain ⟨g', b, rfl, hb⟩ := hg.getLast_lt hne
      rw [List.append_assoc, List.singleton_append] at hx
      exact hm.cutAt_after (hx ▸ h.toAt) hb
  · rw [hnil] at hm ⊢
    exact ⟨hm, rfl⟩

theorem after?_eq_none_iff {delimiter : UInt8} : Scan.after? delimiter xs = none ↔ xs.head? ≠ some delimiter := by
  cases xs <;> simp [Scan.after?]

theorem agrees_expect {delimiter : UInt8} (h : At (encode s) n xs) (hd : delimiter < 0x80) :
    Agrees (Fault.locate (encode s)) (CutAt (encode s)) (expect (encode s) delimiter n)
      (Scan.expect delimiter xs) := by
  rw [expect, h.getElem?, Scan.expect]
  cases hx : Scan.after? delimiter xs with
  | some rest =>
    obtain rfl := Scan.after?_eq_some_iff.1 hx
    rw [List.head?_cons, if_pos rfl, h.succ.within]
    exact (h.cutAt hd).succ hd
  | none =>
    rw [if_neg (after?_eq_none_iff.1 hx)]
    exact agrees_missing h delimiter

theorem agrees_expect_cons {delimiter : UInt8} (h : At (encode s) n (delimiter :: xs)) (hd : delimiter < 0x80) :
    Agrees (Fault.locate (encode s)) (CutAt (encode s)) (expect (encode s) delimiter n) (.ok xs) := by
  have hexpect := agrees_expect h hd
  rwa [Scan.expect_eq_ok_iff.2 rfl] at hexpect

end Gaps

end StyleScope.Checked
