/-
Scans do not tell spaces apart. Six bytes separate words, line breaks among them; a text on one line (`oneLine`) has a
plain space in the place of each. Putting a text on one line commutes with every scan of values, so of two texts that are
the same but for their spaces and line breaks (`Rewrapped`) one is split where the other is, and fails where the other
does.
-/
import Mathlib.Data.List.Forall2
import StyleScope.Proofs.Scan.Lexeme
import StyleScope.Proofs.Text.Trim
import StyleScope.Scan.Nesting

namespace StyleScope

/-! ## Bytes on one line -/

namespace Byte

/-- The byte on one line: a plain space in the place of any space. -/
def unbreak (b : UInt8) : UInt8 := if isSpace b then 0x20 else b

variable {b c : UInt8}

@[simp] theorem isSpace_unbreak (b : UInt8) : isSpace (unbreak b) = isSpace b := by
  unfold unbreak
  split
  · next hb =>
    rw [hb]
    rfl
  · rfl

theorem unbreak_of_not_space (h : isSpace b = false) : unbreak b = b := by simp [unbreak, h]

/-- No space becomes a byte of another kind, and no other byte changes. -/
theorem unbreak_eq_iff (hc : isSpace c = false) : unbreak b = c ↔ b = c := by
  constructor
  · rintro rfl
    rw [isSpace_unbreak] at hc
    exact (unbreak_of_not_space hc).symm
  · rintro rfl
    exact unbreak_of_not_space hc

theorem unbreak_beq (hc : isSpace c = false) : (unbreak b == c) = (b == c) := by
  rw [Bool.eq_iff_iff, beq_iff_eq, beq_iff_eq, unbreak_eq_iff hc]

@[simp] theorem isQuote_unbreak (b : UInt8) : isQuote (unbreak b) = isQuote b := by
  rw [isQuote, unbreak_beq (by decide), unbreak_beq (by decide), isQuote]

theorem opensGroup_unbreak (b : UInt8) : opensGroup (unbreak b) = opensGroup b := by
  rw [opensGroup, unbreak_beq (by decide), unbreak_beq (by decide), opensGroup]

theorem closesGroup_unbreak (b : UInt8) : closesGroup (unbreak b) = closesGroup b := by
  rw [closesGroup, unbreak_beq (by decide), unbreak_beq (by decide), closesGroup]

theorem contains_unbreak {bs : Bytes} (h : ∀ c ∈ bs, isSpace c = false) (b : UInt8) :
    bs.contains (unbreak b) = bs.contains b := by
  rw [Bool.eq_iff_iff, List.contains_iff_mem, List.contains_iff_mem]
  constructor
  · intro hm
    rwa [(unbreak_eq_iff (h _ hm)).1 rfl]
  · intro hm
    rwa [unbreak_of_not_space (h b hm)]

end Byte

/-! ## Texts on one line -/

namespace Text

/-- The character is one of the space bytes. -/
def isSpacing (c : Char) : Bool := (Byte.spaces.map Byte.toChar).contains c

/-- The character on one line: a plain space in the place of any space. -/
def unbreakChar (c : Char) : Char := if isSpacing c then ' ' else c

/-- The text on one line, with a plain space in the place of each space and line break. -/
def oneLine (s : String) : String := String.ofList (s.toList.map unbreakChar)

/-- The texts are the same but for their spaces: where one has a space or a line break, the other has one, which may be
another. -/
def Rewrapped (s t : String) : Prop :=
  List.Forall₂ (fun c d => c = d ∨ (isSpacing c ∧ isSpacing d)) s.toList t.toList

variable {s t : String} {c d : Char}

@[simp] theorem toList_oneLine (s : String) : (oneLine s).toList = s.toList.map unbreakChar := by simp [oneLine]

@[simp] theorem isSpacing_unbreakChar (c : Char) : isSpacing (unbreakChar c) = isSpacing c := by
  unfold unbreakChar
  split
  · next hc =>
    rw [hc]
    decide
  · rfl

theorem unbreakChar_of_not_spacing (h : isSpacing c = false) : unbreakChar c = c := by simp [unbreakChar, h]

theorem unbreakChar_inj : unbreakChar c = unbreakChar d ↔ c = d ∨ (isSpacing c ∧ isSpacing d) := by
  constructor
  · intro h
    by_cases hc : isSpacing c
    · refine .inr ⟨hc, ?_⟩
      rw [← isSpacing_unbreakChar, ← h, isSpacing_unbreakChar, hc]
    · have hd : ¬ isSpacing d := by rwa [← isSpacing_unbreakChar, ← h, isSpacing_unbreakChar]
      simp only [Bool.not_eq_true] at hc hd
      rw [unbreakChar_of_not_spacing hc, unbreakChar_of_not_spacing hd] at h
      exact .inl h
  · rintro (rfl | ⟨hc, hd⟩)
    · rfl
    · rw [unbreakChar, unbreakChar, if_pos hc, if_pos hd]

theorem unbreakChar_eq_iff (hd : isSpacing d = false) : unbreakChar c = d ↔ c = d := by
  rw [← unbreakChar_of_not_spacing hd, unbreakChar_inj, unbreakChar_of_not_spacing hd, hd]
  simp

/-- Two texts are rewrapped exactly when they are the same on one line. -/
theorem rewrapped_iff : Rewrapped s t ↔ oneLine s = oneLine t := by
  rw [oneLine, oneLine, String.ofList_inj, ← List.forall₂_eq_eq_eq, List.forall₂_map_left_iff,
    List.forall₂_map_right_iff]
  simp only [unbreakChar_inj, Rewrapped]

instance (s t : String) : Decidable (Rewrapped s t) := decidable_of_iff (oneLine s = oneLine t) rewrapped_iff.symm

/-- Characters without spaces are on one line what they were, and nothing else is. -/
theorem map_unbreakChar_eq_iff {cs ds : List Char} (hd : ∀ d ∈ ds, isSpacing d = false) :
    cs.map unbreakChar = ds ↔ cs = ds := by
  induction cs generalizing ds with
  | nil => rfl
  | cons c cs ih =>
    cases ds with
    | nil => simp
    | cons d ds =>
      rw [List.map_cons, List.cons.injEq, List.cons.injEq, unbreakChar_eq_iff (hd d List.mem_cons_self),
        ih fun e he => hd e (List.mem_cons_of_mem d he)]

/-- A text without spaces is the text on one line of itself alone. -/
theorem oneLine_eq_iff (ht : ∀ c ∈ t.toList, isSpacing c = false) : oneLine s = t ↔ s = t := by
  rw [← String.toList_inj, toList_oneLine, map_unbreakChar_eq_iff ht, String.toList_inj]

/-- Every space is a blank. -/
@[simp] theorem isBlank_unbreakChar (c : Char) : isBlank (unbreakChar c) = isBlank c := by
  unfold unbreakChar
  split
  · next hc =>
    simp only [isSpacing, List.contains_iff_mem, List.mem_map] at hc
    obtain ⟨b, hb, rfl⟩ := hc
    rw [isBlank_toChar (List.contains_iff_mem.2 hb)]
    decide
  · rfl

theorem dropBlanks_map (cs : List Char) : dropBlanks (cs.map unbreakChar) = (dropBlanks cs).map unbreakChar := by
  simp only [dropBlanks, List.dropWhile_map, Function.comp_def, isBlank_unbreakChar]

theorem trimEnd_oneLine (s : String) : trimEnd (oneLine s) = oneLine (trimEnd s) := by
  simp only [trimEnd, dropEndBlanks, toList_oneLine, ← List.map_reverse, dropBlanks_map]
  simp only [oneLine, String.toList_ofList, List.map_reverse]

/-! ## Their bytes -/

theorem utf8EncodeChar_unbreakChar (c : Char) :
    String.utf8EncodeChar (unbreakChar c) = (String.utf8EncodeChar c).map Byte.unbreak := by
  unfold unbreakChar
  split
  · next hc =>
    simp only [isSpacing, List.contains_iff_mem, List.mem_map] at hc
    obtain ⟨b, hb, rfl⟩ := hc
    have hspace : Byte.isSpace b := List.contains_iff_mem.2 hb
    rw [utf8EncodeChar_toChar (lt_of_isSpace hspace), List.map_singleton, Byte.unbreak, if_pos hspace]
    decide
  · next hc =>
    have hsame : ∀ b ∈ String.utf8EncodeChar c, Byte.unbreak b = b := by
      intro b hb
      refine Byte.unbreak_of_not_space (Bool.eq_false_iff.2 fun hs => hc ?_)
      rw [eq_toChar_of_mem hb (lt_of_isSpace hs), isSpacing, List.contains_iff_mem]
      exact List.mem_map_of_mem (List.contains_iff_mem.1 hs)
    rw [List.map_congr_left hsame, List.map_id']

theorem encode_oneLine (s : String) : encode (oneLine s) = (encode s).map Byte.unbreak := by
  simp only [encode, toList_oneLine, List.flatMap_map, List.map_flatMap, utf8EncodeChar_unbreakChar]

/-- Bytes that are a text on one line are a text. -/
theorem exists_encode_of_map {cs : List Char} {bs : Bytes}
    (h : bs.map Byte.unbreak = cs.flatMap String.utf8EncodeChar) : ∃ s, bs = encode s := by
  induction cs generalizing bs with
  | nil => exact ⟨"", List.map_eq_nil_iff.1 h⟩
  | cons c cs ih =>
    rw [List.flatMap_cons] at h
    obtain ⟨front, back, rfl, hfront, hback⟩ := List.map_eq_append_iff.1 h
    obtain ⟨s, rfl⟩ := ih hback
    -- the bytes of one character did not change, or they are one space
    have hchar : ∃ d : Char, front = String.utf8EncodeChar d := by
      rcases utf8EncodeChar_cases c with ⟨hlt, he⟩ | ⟨-, hge⟩
      · rw [he] at hfront
        obtain ⟨b, rfl, hb⟩ := List.map_eq_singleton_iff.1 hfront
        have hlt : b < 0x80 := by
          by_cases hs : Byte.isSpace b
          · exact lt_of_isSpace hs
          · rw [Byte.unbreak_of_not_space (by simpa using hs)] at hb
            rw [hb, UInt8.lt_iff_toNat_lt, UInt8.toNat_ofNat', Nat.mod_eq_of_lt (by omega)]
            exact hlt
        exact ⟨Byte.toChar b, (utf8EncodeChar_toChar hlt).symm⟩
      · have hsame : ∀ b ∈ front, Byte.unbreak b = b := by
          intro b hb
          refine Byte.unbreak_of_not_space (Bool.eq_false_iff.2 fun hs => ?_)
          have hge := hge (Byte.unbreak b) (hfront ▸ List.mem_map_of_mem hb)
          rw [Byte.unbreak, if_pos hs] at hge
          exact absurd hge (by decide)
        exact ⟨c, by rw [← hfront, List.map_congr_left hsame, List.map_id']⟩
    obtain ⟨d, rfl⟩ := hchar
    exact ⟨String.ofList (d :: s.toList), by simp [encode]⟩

theorem decode?_map_unbreak (bs : Bytes) : decode? (bs.map Byte.unbreak) = (decode? bs).map oneLine := by
  cases h : decode? bs with
  | some s => rw [decode?_eq_some_iff.1 h, ← encode_oneLine, decode?_encode, Option.map_some]
  | none =>
    rw [Option.map_none, Option.eq_none_iff_forall_ne_some]
    intro t ht
    obtain ⟨s, rfl⟩ := exists_encode_of_map (decode?_eq_some_iff.1 ht)
    rw [decode?_encode] at h
    cases h

end Text

/-! ## Scans -/

/-- The outcome, with its answer or its error rewritten. -/
def mapOutcome {ε α : Type} (onError : ε → ε) (onAnswer : α → α) (x : Except ε α) : Except ε α :=
  (x.map onAnswer).mapError onError

section MapOutcome

variable {ε α : Type} {onError : ε → ε} {onAnswer : α → α}

@[simp] theorem mapOutcome_ok (a : α) : mapOutcome onError onAnswer (.ok a) = .ok (onAnswer a) := rfl

@[simp] theorem mapOutcome_error (e : ε) : mapOutcome onError onAnswer (.error e) = .error (onError e) := rfl

/-- What is rewritten by each of two steps is rewritten by both together. -/
theorem mapOutcome_bind {β : Type} {onLast : β → β} {f g : α → Except ε β} (x : Except ε α)
    (h : ∀ a, g (onAnswer a) = mapOutcome onError onLast (f a)) :
    mapOutcome onError onAnswer x >>= g = mapOutcome onError onLast (x >>= f) := by
  cases x with
  | error e => rfl
  | ok a => exact h a

end MapOutcome

/-- The fault on one line: a string that is never closed, in what remains on one line. -/
def Fault.oneLine : Fault → Fault
  | .unterminatedQuote quote rest => .unterminatedQuote quote (rest.map Byte.unbreak)
  | fault => fault

/-- The error on one line, with the texts that it quotes. -/
def Error.oneLine : Error → Error
  | .animationArity definition count => .animationArity (Text.oneLine definition) count
  | .animationSlot definition token => .animationSlot (Text.oneLine definition) (Text.oneLine token)
  | .animationIncomplete definition => .animationIncomplete (Text.oneLine definition)
  | error => error

/-- The place of a fault is the same on one line. -/
theorem Fault.locate_oneLine (whole : Bytes) (fault : Fault) :
    fault.oneLine.locate (whole.map Byte.unbreak) = fault.locate whole := by
  cases fault <;> simp [Fault.oneLine, Fault.locate, offsetOf]

namespace Scan

open Byte Text

theorem textBefore_map (xs rest : Bytes) :
    textBefore (xs.map unbreak) (rest.map unbreak) = mapOutcome Fault.oneLine Text.oneLine (textBefore xs rest) := by
  have hb : before (xs.map unbreak) (rest.map unbreak) = (before xs rest).map unbreak := by simp [before, List.map_take]
  rw [textBefore, textBefore, hb, decode?_map_unbreak]
  cases decode? (before xs rest) <;> rfl

theorem afterEscape_map (xs : Bytes) : afterEscape (xs.map unbreak) = (afterEscape xs).map unbreak := by
  cases xs <;> rfl

theorem afterCommentOpen?_map (xs : Bytes) :
    afterCommentOpen? (xs.map unbreak) = (afterCommentOpen? xs).map (List.map unbreak) := by
  match xs with
  | [] | [_] => rfl
  | a :: b :: xs =>
    simp only [List.map_cons, afterCommentOpen?, unbreak_eq_iff (c := slash) (by decide),
      unbreak_eq_iff (c := star) (by decide)]
    split <;> rfl

theorem afterComment_map (xs : Bytes) : afterComment (xs.map unbreak) = (afterComment xs).map unbreak := by
  have hunbreak (a b : UInt8) : (unbreak a = star ∧ unbreak b = slash) ↔ (a = star ∧ b = slash) := by
    rw [unbreak_eq_iff (by decide), unbreak_eq_iff (by decide)]
  fun_induction afterComment xs with
  | case1 a b xs h => rw [List.map_cons, List.map_cons, afterComment, if_pos ((hunbreak a b).2 h)]
  | case2 a b xs h ih =>
    rw [List.map_cons, List.map_cons, afterComment, if_neg fun hc => h ((hunbreak a b).1 hc), ← List.map_cons, ih]
  | case3 xs h =>
    obtain _ | ⟨a, _ | ⟨b, xs⟩⟩ := xs
    · rfl
    · rfl
    · exact absurd rfl (h a b xs)

theorem skipGap_map (xs : Bytes) : skipGap (xs.map unbreak) = (skipGap xs).map unbreak := by
  fun_induction skipGap xs with
  | case1 => simp [skipGap]
  | case2 b xs hb ih => rw [List.map_cons, skipGap, if_pos (by simpa using hb), ih]
  | case3 b xs hb inside h ih =>
    have hopen := afterCommentOpen?_map (b :: xs)
    rw [h] at hopen
    rw [List.map_cons] at hopen ⊢
    rw [skipGap, if_neg (by simpa using hb)]
    split
    · next hc =>
      rw [hopen] at hc
      cases hc
      rw [afterComment_map, ih]
    · next hc => rw [hopen] at hc; cases hc
  | case4 b xs hb h =>
    have hopen := afterCommentOpen?_map (b :: xs)
    rw [h] at hopen
    rw [List.map_cons] at hopen ⊢
    rw [skipGap, if_neg (by simpa using hb)]
    split
    · next hc => rw [hopen] at hc; cases hc
    · rfl

theorem afterQuoted?_map {quote : UInt8} (hq : isSpace quote = false) (xs : Bytes) :
    afterQuoted? quote (xs.map unbreak) = (afterQuoted? quote xs).map (List.map unbreak) := by
  have hback (b : UInt8) : unbreak b = backslash ↔ b = backslash := unbreak_eq_iff (by decide)
  fun_induction afterQuoted? quote xs with
  | case1 => simp [afterQuoted?]
  | case2 xs ih => rw [List.map_cons, afterQuoted?, if_pos ((hback _).2 rfl), afterEscape_map, ih]
  | case3 xs hb =>
    rw [List.map_cons, afterQuoted?, if_neg (by rwa [hback]), if_pos ((unbreak_eq_iff hq).2 rfl), Option.map_some]
  | case4 b xs hb hne ih =>
    rw [List.map_cons, afterQuoted?, if_neg (by rwa [hback]), if_neg (by rwa [unbreak_eq_iff hq]), ih]

theorem afterString_map {quote : UInt8} (hq : isQuote quote) (xs : Bytes) :
    afterString (unbreak quote) (xs.map unbreak) = mapOutcome Fault.oneLine (List.map unbreak) (afterString quote xs) := by
  have hs : isSpace quote = false := by rcases isQuote_iff.1 hq with rfl | rfl <;> decide
  rw [unbreak_of_not_space hs, afterString, afterString, afterQuoted?_map hs]
  cases afterQuoted? quote xs with
  | some rest => rfl
  | none => simp [Fault.oneLine, unbreak_of_not_space hs]

theorem nesting_unbreak (d : Nat) (b : UInt8) : nesting d (unbreak b) = nesting d b := by
  rw [nesting, nesting, opensGroup_unbreak, closesGroup_unbreak]

theorem afterBareFrom_map {follow : Bytes} (hf : ∀ c ∈ follow, isSpace c = false) (d : Nat) (xs : Bytes) :
    afterBareFrom follow d (xs.map unbreak) = mapOutcome Fault.oneLine (List.map unbreak) (afterBareFrom follow d xs) := by
  have hback (b : UInt8) : unbreak b = backslash ↔ b = backslash := unbreak_eq_iff (by decide)
  fun_induction afterBareFrom follow d xs with
  | case1 => simp [afterBareFrom]
  | case2 d xs ih => rw [List.map_cons, afterBareFrom, if_pos ((hback _).2 rfl), afterEscape_map, ih]
  | case3 d b xs hb he =>
    rw [List.map_cons, afterBareFrom, if_neg (by rwa [hback]), isSpace_unbreak, contains_unbreak hf, if_pos he]
    rfl
  | case4 d b xs hb he hq fault hs =>
    have hstring := afterString_map (by simpa using hq : d ≠ 0 ∧ isQuote b).2 xs
    rw [hs] at hstring
    rw [List.map_cons, afterBareFrom, if_neg (by rwa [hback]), isSpace_unbreak, contains_unbreak hf, if_neg he,
      isQuote_unbreak, if_pos hq]
    split
    · next hc => rw [hstring] at hc; cases hc; rfl
    · next hc => rw [hstring] at hc; cases hc
  | case5 d b xs hb he hq rest hs ih =>
    have hstring := afterString_map (by simpa using hq : d ≠ 0 ∧ isQuote b).2 xs
    rw [hs] at hstring
    rw [List.map_cons, afterBareFrom, if_neg (by rwa [hback]), isSpace_unbreak, contains_unbreak hf, if_neg he,
      isQuote_unbreak, if_pos hq]
    split
    · next hc => rw [hstring] at hc; cases hc
    · next hc => rw [hstring] at hc; cases hc; exact ih
  | case6 d b xs hb he hq ih =>
    rw [List.map_cons, afterBareFrom, if_neg (by rwa [hback]), isSpace_unbreak, contains_unbreak hf, if_neg he,
      isQuote_unbreak, if_neg hq, nesting_unbreak, ih]

theorem afterValue_map {follow : Bytes} (hf : ∀ c ∈ follow, isSpace c = false) (xs : Bytes) :
    afterValue follow (xs.map unbreak) = mapOutcome Fault.oneLine (List.map unbreak) (afterValue follow xs) := by
  cases xs with
  | nil => rfl
  | cons b xs =>
    rw [List.map_cons, afterValue, afterValue, isQuote_unbreak]
    split
    · next hq => exact afterString_map hq xs
    · rw [← List.map_cons, afterBareFrom_map hf]

end Scan

end StyleScope
