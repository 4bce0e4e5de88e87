/-
Where the top-level scan ends, told without the scan. From the cursor the text is walked by units, and the groups that its
single bytes open and close are counted. A stop is a single byte of the stop set outside all groups, or a brace of the set
wherever it stands. The scan ends before the first stop, or at the end of the text if the walk comes there without one, or
it fails at the quote of a string that is never closed, if the walk meets that first (`topLevel_first_stop`). What follows
the stop is not looked at.
-/
import StyleScope.Proofs.Scan.Fault
import StyleScope.Proofs.Scan.Walk
import StyleScope.Scan.Cursor

namespace StyleScope.Scan

open Byte Text

/-- With `d` groups open, the scan ends before this byte. -/
structure IsStop (stops : Bytes) (d : Nat) (b : UInt8) (rest : Bytes) : Prop where
  single : Single b rest
  mem : b ∈ stops
  outside : d = 0 ∨ b = openBrace ∨ b = closeBrace

/-- The walk comes to the place, with `e` groups open there, and to no stop before it. -/
structure Comes (stops : Bytes) (d : Nat) (xs : Bytes) (e : Nat) (place : Bytes) : Prop where
  walks : Walks nesting d xs e place
  before : ∀ e b rest, Walks nesting d xs e (b :: rest) → place.length < (b :: rest).length → ¬ IsStop stops e b rest

/-- With `d` groups open before the text, what it is to the scan. -/
inductive ScanEnd (stops : Bytes) (d : Nat) (xs : Bytes) : Except Fault Bytes → Prop
  | stop {e : Nat} {b : UInt8} {rest : Bytes} :
    Comes stops d xs e (b :: rest) → IsStop stops e b rest → ScanEnd stops d xs (.ok (b :: rest))
  | finish {e : Nat} : Comes stops d xs e [] → ScanEnd stops d xs (.ok [])
  | unclosed {e : Nat} {quote : UInt8} {inside : Bytes} :
    Comes stops d xs e (quote :: inside) → LeftOpen quote inside →
      ScanEnd stops d xs (.error (.unterminatedQuote quote (quote :: inside)))

variable {stops xs ys rest place : Bytes} {b : UInt8} {kind : Lexeme} {d e : Nat} {r : Except Fault Bytes}

theorem isStop_iff (hs : Single b rest) : IsStop stops d b rest ↔ stopsAt stops d b := by
  simp only [stopsAt, isBrace, Bool.and_eq_true, Bool.or_eq_true, beq_iff_eq, List.contains_iff_mem]
  exact ⟨fun h => ⟨h.mem, h.outside⟩, fun h => ⟨hs, h.1, h.2⟩⟩

theorem not_isStop_of_leftOpen (ho : LeftOpen b rest) : ¬ IsStop stops d b rest := by
  intro hs
  have hq := ho.1
  rw [hs.single.2.1] at hq
  cases hq

theorem Comes.refl : Comes stops d xs d xs :=
  ⟨.refl, fun _ _ _ hw hlt => absurd hw.suffix.length_le (Nat.not_le_of_lt hlt)⟩

/-! ## One unit -/

section

variable (hl : lexeme b xs = .ok (kind, ys)) (hn : ¬ IsStop stops d b xs)
include hl hn

theorem Comes.cons_iff : Comes stops d (b :: xs) e place ↔
    (e = d ∧ place = b :: xs) ∨ Comes stops (kind.count nesting d b) ys e place := by
  constructor
  · rintro ⟨hw, hbefore⟩
    rcases (Walks.cons_iff hl).1 hw with h | hw
    · exact .inl h
    · exact .inr ⟨hw, fun e c rest hw' hlt => hbefore e c rest ((Walks.cons_iff hl).2 (.inr hw')) hlt⟩
  · rintro (⟨rfl, rfl⟩ | ⟨hw, hbefore⟩)
    · exact .refl
    · refine ⟨(Walks.cons_iff hl).2 (.inr hw), fun e c rest hw' hlt => ?_⟩
      rcases (Walks.cons_iff hl).1 hw' with ⟨rfl, he⟩ | hw'
      · obtain ⟨rfl, rfl⟩ := List.cons.inj he
        exact hn
      · exact hbefore e c rest hw' hlt

/-- **The scan goes on over a unit** that is no stop. -/
theorem ScanEnd.cons_iff : ScanEnd stops d (b :: xs) r ↔ ScanEnd stops (kind.count nesting d b) ys r := by
  constructor
  · intro h
    cases h with
    | stop hc hs =>
      rcases (Comes.cons_iff hl hn).1 hc with ⟨rfl, he⟩ | hc
      · obtain ⟨rfl, rfl⟩ := List.cons.inj he
        exact absurd hs hn
      · exact .stop hc hs
    | finish hc =>
      rcases (Comes.cons_iff hl hn).1 hc with ⟨-, he⟩ | hc
      · cases he
      · exact .finish hc
    | unclosed hc ho =>
      rcases (Comes.cons_iff hl hn).1 hc with ⟨-, he⟩ | hc
      · -- a unit is read here, so no string is left open
        obtain ⟨rfl, rfl⟩ := List.cons.inj he
        rw [lexeme_eq_error_iff.2 ⟨ho, rfl⟩] at hl
        cases hl
      · exact .unclosed hc ho
  · intro h
    cases h with
    | stop hc hs => exact .stop ((Comes.cons_iff hl hn).2 (.inr hc)) hs
    | finish hc => exact .finish ((Comes.cons_iff hl hn).2 (.inr hc))
    | unclosed hc ho => exact .unclosed ((Comes.cons_iff hl hn).2 (.inr hc)) ho

end

/-! ## Where a scan ends at once -/

theorem scanEnd_nil_iff : ScanEnd stops d [] r ↔ r = .ok [] := by
  constructor
  · intro h
    cases h with
    | stop hc => cases (hc.walks.eq_of_length_le (Nat.zero_le _)).2
    | finish => rfl
    | unclosed hc => cases (hc.walks.eq_of_length_le (Nat.zero_le _)).2
  · rintro rfl
    exact .finish .refl

/-- No walk goes beyond the quote of a string that is never closed. -/
theorem scanEnd_leftOpen_iff (ho : LeftOpen b xs) :
    ScanEnd stops d (b :: xs) r ↔ r = .error (.unterminatedQuote b (b :: xs)) := by
  constructor
  · intro h
    cases h with
    | stop hc hs =>
      obtain ⟨rfl, rfl⟩ := List.cons.inj (hc.walks.eq_of_leftOpen ho).2
      exact absurd hs (not_isStop_of_leftOpen ho)
    | finish hc => cases (hc.walks.eq_of_leftOpen ho).2
    | unclosed hc =>
      obtain ⟨rfl, rfl⟩ := List.cons.inj (hc.walks.eq_of_leftOpen ho).2
      rfl
  · rintro rfl
    exact .unclosed .refl ho

theorem scanEnd_stop_iff (hs : IsStop stops d b xs) : ScanEnd stops d (b :: xs) r ↔ r = .ok (b :: xs) := by
  -- the stop itself is before any later place
  have hfirst {e : Nat} {place : Bytes} (hc : Comes stops d (b :: xs) e place) : place = b :: xs :=
    (hc.walks.eq_of_length_le (Nat.le_of_not_lt fun hlt => hc.before d b xs .refl hlt hs)).2
  constructor
  · intro h
    cases h with
    | stop hc => rw [hfirst hc]
    | finish hc => cases hfirst hc
    | unclosed hc ho =>
      obtain ⟨rfl, rfl⟩ := List.cons.inj (hfirst hc)
      exact absurd hs (not_isStop_of_leftOpen ho)
  · rintro rfl
    exact .stop .refl hs

/-! ## The scan -/

/-- **The scan ends as the text is to it**, and in no other way. -/
theorem topLevelFrom_eq_iff : topLevelFrom stops d xs = r ↔ ScanEnd stops d xs r := by
  fun_induction topLevelFrom stops d xs with
  | case1 d => rw [scanEnd_nil_iff, eq_comm]
  | case2 d b xs fault hl =>
    obtain ⟨ho, rfl⟩ := lexeme_eq_error_iff.1 hl
    rw [scanEnd_leftOpen_iff ho, eq_comm]
  | case3 d b xs _ hl hb =>
    rw [scanEnd_stop_iff ((isStop_iff (lexeme_eq_byte_iff.1 hl).1).2 hb), eq_comm]
  | case4 d b xs _ hl hb ih =>
    obtain ⟨hs, rfl⟩ := lexeme_eq_byte_iff.1 hl
    rw [ScanEnd.cons_iff hl (hb ∘ (isStop_iff hs).1)]
    exact ih
  | case5 d b xs kind rest hk hl ih =>
    have hk : kind ≠ .byte := fun he => hk (he ▸ rfl)
    have hn : ¬ IsStop stops d b xs := by
      intro hs
      rw [lexeme_eq_byte_iff.2 ⟨hs.single, rfl⟩] at hl
      cases hl
      exact hk rfl
    rw [ScanEnd.cons_iff hl hn, Lexeme.count_of_ne hk]
    exact ih

/-- **What follows the stop is not looked at.** A slash alone has to be no stop, as what follows it decides whether it
begins a comment. -/
theorem topLevelFrom_replace (h : topLevelFrom stops d xs = .ok (b :: rest)) (hb : b ≠ slash) :
    ∃ front, xs = front ++ b :: rest ∧ ∀ tail, topLevelFrom stops d (front ++ b :: tail) = .ok (b :: tail) := by
  fun_induction topLevelFrom stops d xs with
  | case1 => cases h
  | case2 => cases h
  | case3 d c xs _ hl hs =>
    cases h
    refine ⟨[], rfl, fun tail => ?_⟩
    obtain ⟨⟨hback, hquote, -⟩, -⟩ := lexeme_eq_byte_iff.1 hl
    rw [List.nil_append, topLevelFrom_byte ⟨hback, hquote, fun hc => hb hc.1⟩, if_pos hs]
  | case4 d c xs _ hl hs ih =>
    obtain ⟨front, rfl, hfront⟩ := ih h
    refine ⟨c :: front, rfl, fun tail => ?_⟩
    obtain ⟨⟨hback, hquote, hcomment⟩, -⟩ := lexeme_eq_byte_iff.1 hl
    have hhead : (front ++ b :: tail).head? = (front ++ b :: rest).head? := by cases front <;> rfl
    rw [List.cons_append, topLevelFrom_byte ⟨hback, hquote, by rwa [hhead]⟩, if_neg hs, hfront]
  | case5 d c xs kind after hk hl ih =>
    obtain ⟨front, rfl, hfront⟩ := ih h
    rcases inert_of_lexeme hl fun he => hk (he ▸ rfl) with ⟨u, hu, he⟩ | he
    · refine ⟨u ++ front, by rw [he, List.append_assoc], fun tail => ?_⟩
      rw [List.append_assoc, topLevelFrom_inert hu, hfront]
    · cases front <;> cases he

/-! ## Cursors -/

namespace Cursor

/-- From the cursor on, what the text is to the scan, and where the scan leaves the cursor. -/
inductive ScanEnd (stops : Bytes) (c : Cursor) : Except Error Unit × Cursor → Prop
  | stop {e : Nat} {b : UInt8} {rest : Bytes} :
    Comes stops 0 c.rest e (b :: rest) → IsStop stops e b rest → ScanEnd stops c (.ok (), c.leaving (b :: rest))
  | finish {e : Nat} : Comes stops 0 c.rest e [] → ScanEnd stops c (.ok (), c.leaving [])
  | unclosed {e : Nat} {quote : UInt8} {inside : Bytes} :
    Comes stops 0 c.rest e (quote :: inside) → LeftOpen quote inside →
      ScanEnd stops c (.error (.unterminatedQuote quote (offsetOf c.text (quote :: inside))), c.leaving [])

variable {c moved : Cursor} {outcome : Except Error Unit × Cursor}

theorem rest_suffix (c : Cursor) : c.rest <:+ c.text := List.drop_suffix _ _

theorem rest_leaving {xs : Bytes} (h : xs <:+ c.rest) : (c.leaving xs).rest = xs :=
  drop_offsetOf (h.trans c.rest_suffix)

theorem scanEnd_iff : c.ScanEnd stops outcome ↔
    ∃ r, Scan.ScanEnd stops 0 c.rest r ∧ c.advance (fun _ => r) = outcome := by
  constructor
  · intro h
    cases h with
    | stop hc hs => exact ⟨_, .stop hc hs, rfl⟩
    | finish hc => exact ⟨_, .finish hc, rfl⟩
    | unclosed hc ho => exact ⟨_, .unclosed hc ho, rfl⟩
  · rintro ⟨r, h, rfl⟩
    cases h with
    | stop hc hs => exact .stop hc hs
    | finish hc => exact .finish hc
    | unclosed hc ho => exact .unclosed hc ho

theorem topLevel_eq_iff : c.topLevel stops = outcome ↔ c.ScanEnd stops outcome := by
  rw [scanEnd_iff]
  constructor
  · intro h
    exact ⟨Scan.topLevel stops c.rest, topLevelFrom_eq_iff.1 rfl, h⟩
  · rintro ⟨r, h, rfl⟩
    rw [← topLevelFrom_eq_iff.2 h]
    rfl

theorem topLevel_eq_ok_iff :
    c.topLevel stops = (.ok (), moved) ↔ ∃ xs, Scan.topLevel stops c.rest = .ok xs ∧ c.leaving xs = moved := by
  unfold topLevel advance
  split
  · next xs hx => simp [hx]
  · next fault hx => simp [hx]

theorem offset_leaving {front xs : Bytes} (h : c.rest = front ++ xs) : (c.leaving xs).offset = c.offset + front.length := by
  have hlen : c.text.length - c.offset = front.length + xs.length := by
    rw [← List.length_append, ← h, Cursor.rest, List.length_drop]
  have hle := c.offset_le
  change c.text.length - xs.length = c.offset + front.length
  omega

/-- **The scan depends on the text up to its stop**: in a text that is the same up to it, the stop is where it was. -/
theorem topLevel_replace (hs : slash ∉ stops) (h : c.topLevel stops = (.ok (), moved)) (hp : moved.peek = some b)
    {other : Cursor} (ho : other.offset = c.offset)
    (ht : other.text.take (moved.offset + 1) = c.text.take (moved.offset + 1)) :
    (other.topLevel stops).1 = .ok () ∧ (other.topLevel stops).2.offset = moved.offset := by
  obtain ⟨xs, hxs, rfl⟩ := topLevel_eq_ok_iff.1 h
  have hsuffix := topLevel_suffix hxs
  rw [peek, rest_leaving hsuffix] at hp
  obtain ⟨rest, rfl⟩ := List.head?_eq_some_iff.1 hp
  have hb : b ≠ slash := by
    cases topLevelFrom_eq_iff.1 hxs with
    | stop _ hstop => exact ne_of_mem_of_not_mem hstop.mem hs
  obtain ⟨front, hfront, hreplace⟩ := topLevelFrom_replace hxs hb
  rw [offset_leaving hfront] at ht ⊢
  -- from the cursor on, the other text is the same up to the stop
  have hsame : other.rest.take (front.length + 1) = front ++ [b] := by
    rw [Cursor.rest, ho, List.take_drop, ← Nat.add_assoc, ht, Nat.add_assoc, ← List.take_drop]
    change c.rest.take (front.length + 1) = front ++ [b]
    rw [hfront, List.take_length_add_append]
    rfl
  obtain ⟨tail, htail⟩ : ∃ tail, other.rest = front ++ b :: tail := by
    refine ⟨other.rest.drop (front.length + 1), ?_⟩
    rw [← List.singleton_append, ← List.append_assoc, ← hsame, List.take_append_drop]
  have hfound : Scan.topLevel stops other.rest = .ok (b :: tail) := htail ▸ hreplace tail
  rw [topLevel_eq_ok_iff.2 ⟨_, hfound, rfl⟩]
  exact ⟨rfl, by rw [offset_leaving htail, ho]⟩

end Cursor

/-- **The scan finds exactly the first top-level stop, and looks no further.** From the cursor on the text is walked by
units, and the groups that single bytes open and close are counted. The scan ends before the first stop: a single byte of
the stop set that is outside all groups or is a brace. It ends at the end of the text if the walk comes there without a
stop, and it fails at the quote of a string that is never closed if the walk comes to that first. Where it ends at a byte,
it ends in the same place of any text that is the same up to that byte. -/
theorem topLevel_first_stop (stops : Bytes) (c : Cursor) :
    (∀ outcome, c.topLevel stops = outcome ↔ c.ScanEnd stops outcome) ∧
      (slash ∉ stops → ∀ moved b, c.topLevel stops = (.ok (), moved) → moved.peek = some b →
        ∀ other : Cursor, other.offset = c.offset →
          other.text.take (moved.offset + 1) = c.text.take (moved.offset + 1) →
            (other.topLevel stops).1 = .ok () ∧ (other.topLevel stops).2.offset = moved.offset) :=
  ⟨fun _ => Cursor.topLevel_eq_iff, fun hs _ _ h hp _ ho ht => Cursor.topLevel_replace hs h hp ho ht⟩

/-- The semicolons are hidden by an escape, a comment, a string and a group; the brace in the group is a stop, and the
quote that follows it in the other text is not read. -/
theorem topLevel_first_stop_hidden :
    let c := Cursor.ofOffset (encode "é\\é\\;/*;*/';'(;\x7bx") 2
    let other := Cursor.ofOffset (encode "é\\é\\;/*;*/';'(;\x7b'") 2
    c.ScanEnd [semicolon, openBrace] (c.topLevel [semicolon, openBrace]) ∧
      (c.topLevel [semicolon, openBrace]).1 = .ok () ∧ (c.topLevel [semicolon, openBrace]).2.offset = 17 ∧
      (other.topLevel [semicolon, openBrace]).1 = .ok () ∧ (other.topLevel [semicolon, openBrace]).2.offset = 17 := by
  intro c other
  have hok : (c.topLevel [semicolon, openBrace]).1 = .ok () := by decide +kernel
  have hoffset : (c.topLevel [semicolon, openBrace]).2.offset = 17 := by decide +kernel
  have hbrace : (c.topLevel [semicolon, openBrace]).2.peek = some openBrace := by decide +kernel
  obtain ⟨hends, hreplace⟩ := topLevel_first_stop [semicolon, openBrace] c
  refine ⟨(hends _).1 rfl, hok, hoffset, ?_⟩
  have hstart : other.offset = c.offset := by decide +kernel
  have hsame : other.text.take (17 + 1) = c.text.take (17 + 1) := by decide +kernel
  rw [← hoffset] at hsame ⊢
  exact hreplace (by decide) (c.topLevel [semicolon, openBrace]).2 openBrace (Prod.ext hok rfl) hbrace other hstart hsame

end StyleScope.Scan
