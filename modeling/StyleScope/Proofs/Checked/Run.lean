/-
Programs with their checks. A checked program works on a whole text by offsets, as a machine does, and makes every
check on which it relies: that a byte it reads is in the text, that a slice it takes stands between two places
where the text may be cut, that the cursor stays in the text and moves on in each turn of a loop, and that no count
goes below zero. A check that fails is a panic. A checked program `Agrees` with a reader if it answers and refuses
as the reader does, with the same offsets; then it does not panic.
-/
import StyleScope.Proofs.Text.Boundary
import StyleScope.Scan.Basic

namespace StyleScope.Checked

open Byte Text

/-- A check that failed. -/
inductive Panic where
  /-- A byte is read that is not in the text. -/
  | index
  /-- The ends of a slice are out of order, out of the text or inside a character. -/
  | slice
  /-- The cursor leaves the text, or does not move on in a loop. -/
  | cursor
  /-- A count goes below zero. -/
  | count
deriving Repr, DecidableEq

/-- Why a checked program stops without an answer. -/
inductive Halt where
  /-- The text is refused. -/
  | refused (error : Error)
  /-- A check failed. -/
  | panic (check : Panic)
deriving Repr, DecidableEq

/-- What a checked program comes to. -/
abbrev Run (α : Type) := Except Halt α

/-- The text is refused. -/
def refuse {α : Type} (error : Error) : Run α := .error (.refused error)

/-! ## Checks -/

/-- The byte at an offset, which must be in the text. -/
def byteAt (whole : Bytes) (n : Nat) : Run UInt8 :=
  match whole[n]? with
  | some b => .ok b
  | none => .error (.panic .index)

/-- The slice between two offsets, which must be boundaries of the text, in order. -/
def slice (whole : Bytes) (start stop : Nat) : Run String :=
  match slice? whole start stop with
  | some text => .ok text
  | none => .error (.panic .slice)

/-- The cursor at a place, which must not be beyond the end of the text. -/
def within (whole : Bytes) (n : Nat) : Run Nat := if n ≤ whole.length then .ok n else .error (.panic .cursor)

/-- The cursor where the next turn of a loop begins: it must have moved on, and not beyond the end of the text. -/
def onward (whole : Bytes) (n m : Nat) : Run {k : Nat // k = m ∧ n < k ∧ k ≤ whole.length} :=
  if h : n < m ∧ m ≤ whole.length then .ok ⟨m, rfl, h⟩ else .error (.panic .cursor)

/-- One less, which must not be less than zero. -/
def oneLess : Nat → Run Nat
  | 0 => .error (.panic .count)
  | n + 1 => .ok n

/-! ## Places -/

/-- `rest` is what remains of the text at the offset. -/
structure At (whole : Bytes) (n : Nat) (rest : Bytes) : Prop where
  le : n ≤ whole.length
  drop : whole.drop n = rest

/-- `rest` is what remains at the offset, and the text may be cut there. -/
structure CutAt (whole : Bytes) (n : Nat) (rest : Bytes) : Prop extends At whole n rest where
  boundary : isBoundary rest

section At

variable {whole xs ys rest : Bytes} {b : UInt8} {n m : Nat}

theorem At.offsetOf_eq (h : At whole n rest) : offsetOf whole rest = n := by
  have := h.le
  rw [offsetOf, ← h.drop, List.length_drop]
  omega

theorem At.length_eq (h : At whole n rest) : n + rest.length = whole.length := by
  have := h.le
  rw [← h.drop, List.length_drop]
  omega

theorem At.take_append (h : At whole n rest) : whole.take n ++ rest = whole := by
  rw [← h.drop, List.take_append_drop]

theorem at_zero (whole : Bytes) : At whole 0 whole := ⟨Nat.zero_le _, rfl⟩

theorem at_end (whole : Bytes) : At whole whole.length [] := ⟨Nat.le_refl _, List.drop_length⟩

theorem At.append (h : At whole n (xs ++ rest)) : At whole (n + xs.length) rest := by
  have hl := h.length_eq
  rw [List.length_append] at hl
  refine ⟨by omega, ?_⟩
  rw [← List.drop_drop, h.drop, List.drop_left]

theorem At.succ (h : At whole n (b :: rest)) : At whole (n + 1) rest := by
  have h' : At whole n ([b] ++ rest) := h
  exact h'.append

theorem At.getElem? (h : At whole n rest) : whole[n]? = rest.head? := by
  rw [← h.drop, List.head?_drop]

theorem At.getElem?_succ (h : At whole n (b :: rest)) : whole[n + 1]? = rest.head? := h.succ.getElem?

theorem At.lt (hn : At whole n xs) (hm : At whole m ys) (h : ys.length < xs.length) : n < m := by
  have := hn.length_eq
  have := hm.length_eq
  omega

end At

section CutAt

variable {s : String} {n m : Nat} {x xs rest : Bytes} {b : UInt8}

theorem cutAt_zero (s : String) : CutAt (encode s) 0 (encode s) := ⟨at_zero _, isBoundary_encode s⟩

theorem cutAt_end (s : String) : CutAt (encode s) (encode s).length [] := ⟨at_end _, rfl⟩

/-- The text may be cut before a byte below 0x80. -/
theorem At.cutAt (h : At (encode s) n (b :: rest)) (hb : b < 0x80) : CutAt (encode s) n (b :: rest) :=
  ⟨h, isBoundary_cons (.inl hb) rest⟩

/-- The text may be cut at its end, and before a byte below 0x80. -/
theorem At.cutAt_of_head (h : At (encode s) n rest) (hb : ∀ b ∈ rest.head?, b < 0x80) : CutAt (encode s) n rest := by
  cases rest with
  | nil => exact ⟨h, rfl⟩
  | cons b rest => exact h.cutAt (hb b rfl)

/-- The text may be cut after a byte below 0x80. -/
theorem At.cutAt_after (h : At (encode s) n rest) (hn : At (encode s) m (x ++ b :: rest)) (hb : b < 0x80) :
    CutAt (encode s) n rest := by
  refine ⟨h, ?_⟩
  have he := hn.take_append
  rw [← List.append_assoc] at he
  exact isBoundary_of_encode_eq he.symm hb

theorem CutAt.succ (h : CutAt (encode s) n (b :: rest)) (hb : b < 0x80) : CutAt (encode s) (n + 1) rest :=
  h.toAt.succ.cutAt_after (x := []) h.toAt hb

/-- **A slice between two places where the text may be cut is a text**, and the same one that stands before what
remains. -/
theorem CutAt.slice (h : CutAt (encode s) n xs) (hr : CutAt (encode s) m rest) (hs : rest <:+ xs) :
    ∃ t, slice (encode s) n m = .ok t ∧ Scan.textBefore xs rest = .ok t := by
  obtain ⟨y, rfl⟩ := hs
  have hwhole := h.toAt.take_append
  obtain ⟨t, ht, rfl⟩ := slice?_eq_some hwhole.symm h.boundary hr.boundary
  have hn : ((encode s).take n).length = n := List.length_take_of_le h.toAt.le
  have hm : ((encode s).take n ++ encode t).length = m := by
    rw [List.length_append, hn]
    have h1 := h.toAt.append.offsetOf_eq
    have h2 := hr.toAt.offsetOf_eq
    omega
  rw [hn, hm] at ht
  exact ⟨t, by rw [Checked.slice, ht], Scan.textBefore_encode t rest⟩

/-- Inside a character there is no end of a slice. -/
example : slice (encode "é") 0 2 = .ok "é" ∧ slice (encode "é") 1 2 = .error (.panic .slice) := by decide +kernel

end CutAt

/-- The same was read, and the cursor stands before what remains, where the text may be cut. -/
def SameRead {α : Type} (whole : Bytes) (p : α × Nat) (q : α × Bytes) : Prop := p.1 = q.1 ∧ CutAt whole p.2 q.2

/-! ## Agreement -/

section Agrees

variable {ε δ α β γ κ : Type} {locate : ε → Error} {R : α → β → Prop} {S : γ → κ → Prop}

/-- The checked program answers as the reader does, or both refuse with one error; a slice that is no text is not
among the errors. -/
def Agrees (locate : ε → Error) (R : α → β → Prop) : Run α → Except ε β → Prop
  | .ok a, .ok b => R a b
  | .error (.refused error), .error fault => error = locate fault ∧ error ≠ .invalidSlice
  | _, _ => False

/-- The checked program comes to what the reader comes to. No check fails, and no slice is missing. -/
structure Answers {α : Type} (m : Run α) (r : Except Error α) : Prop where
  eq : m = r.mapError .refused
  noPanic : ∀ check, m ≠ .error (.panic check)
  noInvalidSlice : r ≠ .error .invalidSlice

theorem Agrees.bind {m : Run α} {r : Except ε β} {f : α → Run γ} {g : β → Except ε κ} (h : Agrees locate R m r)
    (hf : ∀ a b, r = .ok b → R a b → Agrees locate S (f a) (g b)) : Agrees locate S (m >>= f) (r >>= g) := by
  match m, r, h with
  | .ok a, .ok b, h => exact hf a b rfl h
  | .error (.refused _), .error _, h => exact h

theorem agrees_ok_iff {m : Run α} {b : β} : Agrees locate R m (.ok b) ↔ ∃ a, m = .ok a ∧ R a b := by
  match m with
  | .ok a => exact ⟨fun h => ⟨a, rfl, h⟩, fun ⟨_, he, h⟩ => Except.ok.inj he ▸ h⟩
  | .error (.refused _) => exact ⟨nofun, nofun⟩
  | .error (.panic _) => exact ⟨nofun, nofun⟩

/-- The first step answers. -/
theorem Agrees.bind_ok {locate' : δ → Error} {m : Run α} {b : β} {f : α → Run γ} {r : Except δ κ}
    (h : Agrees locate R m (.ok b)) (hf : ∀ a, R a b → Agrees locate' S (f a) r) :
    Agrees locate' S (m >>= f) r := by
  obtain ⟨a, rfl, ha⟩ := agrees_ok_iff.1 h
  exact hf a ha

/-- The first step is refused. -/
theorem Agrees.bind_error {m : Run α} {fault : ε} {f : α → Run γ} (h : Agrees locate R m (.error fault)) :
    Agrees locate S (m >>= f) (.error fault) := by
  match m, h with
  | .error (.refused _), h => exact h

theorem Agrees.bind_map {m : Run α} {r : Except ε β} {f : α → Run γ} {g : β → κ} (h : Agrees locate R m r)
    (hf : ∀ a b, r = .ok b → R a b → Agrees locate S (f a) (.ok (g b))) : Agrees locate S (m >>= f) (r.map g) := by
  match m, r, h with
  | .ok a, .ok b, h => exact hf a b rfl h
  | .error (.refused _), .error _, h => exact h

theorem Agrees.mono {R' : α → β → Prop} {m : Run α} {r : Except ε β} (h : Agrees locate R m r)
    (hR : ∀ a b, r = .ok b → R a b → R' a b) : Agrees locate R' m r := by
  match m, r, h with
  | .ok a, .ok b, h => exact hR a b rfl h
  | .error (.refused _), .error _, h => exact h

/-- An error may be handed on as another. -/
theorem Agrees.mapError {locate' : δ → Error} {m : Run α} {r : Except ε β} {f : ε → δ} (h : Agrees locate R m r)
    (hf : ∀ fault, locate' (f fault) = locate fault) : Agrees locate' R m (r.mapError f) := by
  match m, r, h with
  | .ok a, .ok b, h => exact h
  | .error (.refused _), .error fault, h => exact ⟨h.1.trans (hf fault).symm, h.2⟩

theorem Agrees.answers {m : Run α} {r : Except Error α} (h : Agrees id Eq m r) : Answers m r := by
  match m, r, h with
  | .ok a, .ok _, rfl => exact ⟨rfl, nofun, nofun⟩
  | .error (.refused _), .error e, ⟨rfl, hne⟩ => exact ⟨rfl, nofun, fun he => hne (Except.error.inj he)⟩

theorem agrees_refuse {error : Error} {fault : ε} (h : error = locate fault) (hne : error ≠ .invalidSlice) :
    Agrees locate R (refuse error) (.error fault) := ⟨h, hne⟩

theorem agrees_missing {whole rest : Bytes} {n : Nat} (h : At whole n rest) (delimiter : UInt8) :
    Agrees (Fault.locate whole) R (refuse (.missingDelimiter delimiter n)) (.error (.missingDelimiter delimiter rest)) :=
  agrees_refuse (by rw [Fault.locate, h.offsetOf_eq]) nofun

/-- In a loop the cursor moves on, if less remains. -/
theorem Agrees.onward {whole xs ys : Bytes} {n m : Nat} {f : {k : Nat // k = m ∧ n < k ∧ k ≤ whole.length} → Run α}
    {r : Except ε β} (hn : At whole n xs) (hm : At whole m ys) (hlt : ys.length < xs.length)
    (h : ∀ hk, Agrees locate R (f ⟨m, hk⟩) r) : Agrees locate R (Checked.onward whole n m >>= f) r := by
  have hk : n < m ∧ m ≤ whole.length := ⟨hn.lt hm hlt, hm.le⟩
  rw [Checked.onward, dif_pos hk]
  exact h _

end Agrees

theorem agrees_mapM {ε α β : Type} {locate : ε → Error} {f : α → Run β} {g : α → Except ε β}
    (h : ∀ a, Agrees locate Eq (f a) (g a)) (as : List α) : Agrees locate Eq (as.mapM f) (as.mapM g) := by
  induction as with
  | nil => exact rfl
  | cons a as ih =>
    rw [List.mapM_cons, List.mapM_cons]
    refine .bind (h a) fun b _ _ hb => ?_
    refine .bind ih fun bs _ _ hbs => ?_
    rw [hb, hbs]
    exact rfl

theorem agrees_slice {s : String} {n m : Nat} {xs rest : Bytes} (h : CutAt (encode s) n xs)
    (hr : CutAt (encode s) m rest) (hs : rest <:+ xs) :
    Agrees (Fault.locate (encode s)) Eq (Checked.slice (encode s) n m) (Scan.textBefore xs rest) := by
  obtain ⟨t, hn, hx⟩ := h.slice hr hs
  rw [hn, hx]
  exact rfl

theorem At.within {whole rest : Bytes} {n : Nat} (h : At whole n rest) : within whole n = .ok n := if_pos h.le

end StyleScope.Checked
