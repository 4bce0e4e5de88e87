/-
Bytes below 0x80 in a text. Such a byte is a whole character, so a delimiter can be looked for among the
bytes of a text or among its characters, and a text may be cut before or after one.
-/
import StyleScope.Text

namespace StyleScope.Text

/-! ## Going through a text -/

section Decidable

variable {α : Type} {p : α → Prop} [DecidablePred p]

/-- What holds of each member of a list is decided member by member, though there may be finitely many bytes and
characters to go through as well. -/
instance (priority := high) decidableForallMem (xs : List α) : Decidable (∀ a ∈ xs, p a) := List.decidableBAll p xs

instance (priority := high) decidableForallMemOption (o : Option α) : Decidable (∀ a ∈ o, p a) := Option.decidableForallMem o

end Decidable

/-! ## Single characters -/

/-- A character is one byte below 0x80 or several bytes from 0x80 on. -/
theorem utf8EncodeChar_cases (c : Char) :
    c.toNat < 0x80 ∧ String.utf8EncodeChar c = [UInt8.ofNat c.toNat] ∨
      0x80 ≤ c.toNat ∧ ∀ b ∈ String.utf8EncodeChar c, 0x80 ≤ b := by
  have key {n : Nat} (h1 : 0x80 ≤ n) (h2 : n < 0x100) : (0x80 : UInt8) ≤ UInt8.ofNat n := by
    rw [UInt8.le_iff_toNat_le, UInt8.toNat_ofNat']
    have : (0x80 : UInt8).toNat = 0x80 := rfl
    omega
  have hv : c.val.toNat = c.toNat := rfl
  unfold String.utf8EncodeChar
  simp only [hv]
  split
  · next h => exact .inl ⟨by omega, rfl⟩
  · next h =>
    refine .inr ⟨by omega, ?_⟩
    split
    · intro b hb
      simp only [List.mem_cons, List.not_mem_nil, or_false] at hb
      rcases hb with rfl | rfl <;> exact key (by omega) (by omega)
    · split
      · intro b hb
        simp only [List.mem_cons, List.not_mem_nil, or_false] at hb
        rcases hb with rfl | rfl | rfl <;> exact key (by omega) (by omega)
      · intro b hb
        simp only [List.mem_cons, List.not_mem_nil, or_false] at hb
        rcases hb with rfl | rfl | rfl | rfl <;> exact key (by omega) (by omega)

theorem toNat_toChar {b : UInt8} (hb : b < 0x80) : (Byte.toChar b).toNat = b.toNat := by
  have h : b.toNat < 0x80 := UInt8.lt_iff_toNat_lt.1 hb
  rw [Byte.toChar, Char.ofNat, dif_pos (.inl (by omega))]
  rfl

theorem utf8EncodeChar_toChar {b : UInt8} (hb : b < 0x80) : String.utf8EncodeChar (Byte.toChar b) = [b] := by
  have hn := toNat_toChar hb
  have h : b.toNat < 0x80 := UInt8.lt_iff_toNat_lt.1 hb
  rcases utf8EncodeChar_cases (Byte.toChar b) with ⟨-, he⟩ | ⟨hc, -⟩
  · rw [he, hn, UInt8.ofNat_toNat]
  · omega

/-- A byte below 0x80 is the whole of the character to which it belongs. -/
theorem eq_toChar_of_mem {c : Char} {b : UInt8} (h : b ∈ String.utf8EncodeChar c) (hb : b < 0x80) :
    c = Byte.toChar b := by
  rcases utf8EncodeChar_cases c with ⟨hc, he⟩ | ⟨-, hc⟩
  · rw [he, List.mem_singleton] at h
    subst h
    rw [Byte.toChar, UInt8.toNat_ofNat', Nat.mod_eq_of_lt (by omega), Char.ofNat_toNat]
  · exact absurd (hc b h) (UInt8.not_le.2 hb)

/-! ## Texts -/

@[simp] theorem encode_empty : encode "" = [] := rfl

theorem encode_eq_nil {s : String} (h : encode s = []) : s = "" := by
  have := decode?_encode s
  rw [h, ← encode_empty, decode?_encode] at this
  exact (Option.some.inj this).symm

theorem encode_inj {s t : String} (h : encode s = encode t) : s = t := by
  have := decode?_encode s
  rw [h, decode?_encode] at this
  exact (Option.some.inj this).symm

/-- A byte below 0x80 stands among the bytes of a text exactly when its character stands in the text. -/
theorem mem_encode {s : String} {b : UInt8} (hb : b < 0x80) : b ∈ encode s ↔ Byte.toChar b ∈ s.toList := by
  simp only [encode, List.mem_flatMap]
  constructor
  · intro h
    obtain ⟨c, hc, h⟩ := h
    exact eq_toChar_of_mem h hb ▸ hc
  · intro h
    exact ⟨_, h, by rw [utf8EncodeChar_toChar hb]; exact List.mem_singleton_self b⟩

/-- A text that begins with a byte below 0x80 begins with its character. -/
theorem encode_eq_cons {s : String} {b : UInt8} {xs : Bytes} (hb : b < 0x80) (h : encode s = b :: xs) :
    ∃ cs, s.toList = Byte.toChar b :: cs ∧ cs.flatMap String.utf8EncodeChar = xs := by
  unfold encode at h
  cases hs : s.toList with
  | nil => rw [hs] at h; cases h
  | cons c cs =>
    rw [hs, List.flatMap_cons] at h
    have hm : b ∈ String.utf8EncodeChar c := by
      cases hc : String.utf8EncodeChar c with
      | nil => exact absurd hc String.utf8EncodeChar_ne_nil
      | cons a as => rw [hc] at h; cases h; exact List.mem_cons_self
    obtain rfl := eq_toChar_of_mem hm hb
    rw [utf8EncodeChar_toChar hb] at h
    cases h
    exact ⟨cs, rfl, rfl⟩

theorem lt_of_isSpace {b : UInt8} (h : Byte.isSpace b) : b < 0x80 := by
  simp only [Byte.isSpace, List.contains_eq_mem, decide_eq_true_eq, Byte.spaces, List.mem_cons,
    List.not_mem_nil, or_false] at h
  rcases h with rfl | rfl | rfl | rfl | rfl | rfl <;> decide

end StyleScope.Text
