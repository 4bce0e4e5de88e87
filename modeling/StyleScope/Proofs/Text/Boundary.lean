/-
Where a text may be cut. A place is a boundary if the byte there does not continue a character; the byte alone
decides that. At each boundary the bytes before and after are texts, so a slice between two boundaries is a text.
Scans look for bytes below 0x80, and both sides of such a byte are boundaries.
-/
import StyleScope.Proofs.Text.Ascii

namespace StyleScope.Text

/-! ## Bytes of a character -/

theorem and_eq_of_continues {n : Nat} (hl : 0x80 ≤ n) (hu : n < 0xC0) : UInt8.ofNat n &&& 0xC0 = 0x80 := by
  have key : ∀ i : Fin 64, (0x80 + i.val) &&& 0xC0 = 0x80 := by decide +kernel
  have h := key ⟨n - 0x80, by omega⟩
  have hn : 0x80 + (n - 0x80) = n := by omega
  rw [hn] at h
  rw [← UInt8.toNat_inj, UInt8.toNat_and, UInt8.toNat_ofNat', Nat.mod_eq_of_lt (by omega)]
  exact h

theorem isBoundary_cons {b : UInt8} (h : b < 0x80 ∨ 0xC0 ≤ b) (xs : Bytes) : isBoundary (b :: xs) := by
  rw [isBoundary, bne_iff_ne]
  intro he
  have hn : b.toNat &&& 0xC0 = 0x80 := by simpa using congrArg UInt8.toNat he
  have hle : b.toNat &&& 0xC0 ≤ b.toNat := Nat.and_le_left
  have key : ∀ i : Fin 64, (0xC0 + i.val) &&& 0xC0 = 0xC0 := by decide +kernel
  rcases h with h | h
  · have hb : b.toNat < 0x80 := UInt8.lt_iff_toNat_lt.1 h
    omega
  · have hb : 0xC0 ≤ b.toNat := UInt8.le_iff_toNat_le.1 h
    have hlt := b.toNat_lt
    have hk := key ⟨b.toNat - 0xC0, by omega⟩
    have hadd : 0xC0 + (b.toNat - 0xC0) = b.toNat := by omega
    rw [hadd] at hk
    omega

/-- A character is one byte that begins it, and then bytes that continue it. -/
theorem utf8EncodeChar_eq_cons (c : Char) :
    ∃ b bs, String.utf8EncodeChar c = b :: bs ∧ (b < 0x80 ∨ 0xC0 ≤ b) ∧ ∀ a ∈ bs, a &&& 0xC0 = 0x80 := by
  have hfirst {n : Nat} (hl : 0xC0 ≤ n) (hu : n < 0x100) : (0xC0 : UInt8) ≤ UInt8.ofNat n := by
    rw [UInt8.le_iff_toNat_le, UInt8.toNat_ofNat', Nat.mod_eq_of_lt hu]
    exact hl
  have hnext (n : Nat) : UInt8.ofNat (n % 64 + 128) &&& 0xC0 = 0x80 :=
    and_eq_of_continues (by omega) (by omega)
  unfold String.utf8EncodeChar
  simp only
  split
  · next h =>
    refine ⟨_, [], rfl, .inl ?_, nofun⟩
    rw [UInt8.lt_iff_toNat_lt, UInt8.toNat_ofNat', Nat.mod_eq_of_lt (by omega)]
    exact Nat.lt_succ_of_le h
  · split
    · exact ⟨_, _, rfl, .inr (hfirst (by omega) (by omega)), List.forall_mem_cons.2 ⟨hnext _, nofun⟩⟩
    · split
      · exact ⟨_, _, rfl, .inr (hfirst (by omega) (by omega)),
          List.forall_mem_cons.2 ⟨hnext _, List.forall_mem_cons.2 ⟨hnext _, nofun⟩⟩⟩
      · exact ⟨_, _, rfl, .inr (hfirst (by omega) (by omega)),
          List.forall_mem_cons.2 ⟨hnext _, List.forall_mem_cons.2 ⟨hnext _, List.forall_mem_cons.2 ⟨hnext _, nofun⟩⟩⟩⟩

/-! ## Cutting a text -/

/-- A text begins at a boundary. -/
theorem isBoundary_encode (s : String) : isBoundary (encode s) := by
  unfold encode
  cases s.toList with
  | nil => rfl
  | cons c cs =>
    obtain ⟨b, bs, he, hb, -⟩ := utf8EncodeChar_eq_cons c
    rw [List.flatMap_cons, he]
    exact isBoundary_cons hb _

/-- **A text can be cut at each boundary**: what stands before and after it are texts. -/
theorem encode_eq_append {s : String} {x y : Bytes} (h : encode s = x ++ y) (hy : isBoundary y) :
    ∃ s₁ s₂, encode s₁ = x ∧ encode s₂ = y := by
  have key (cs : List Char) : ∀ x, cs.flatMap String.utf8EncodeChar = x ++ y →
      ∃ s₁ s₂, encode s₁ = x ∧ encode s₂ = y := by
    induction cs with
    | nil =>
      intro x h
      obtain ⟨rfl, rfl⟩ := List.append_eq_nil_iff.1 h.symm
      exact ⟨"", "", rfl, rfl⟩
    | cons c cs ih =>
      intro x h
      have hcons (t : String) : encode (String.ofList (c :: t.toList)) = String.utf8EncodeChar c ++ encode t := by
        simp [encode]
      rw [List.flatMap_cons] at h
      rcases List.append_eq_append_iff.1 h with ⟨z, rfl, hz⟩ | ⟨z, hc, hz⟩
      · obtain ⟨s₁, s₂, rfl, rfl⟩ := ih z hz
        exact ⟨String.ofList (c :: s₁.toList), s₂, hcons s₁, rfl⟩
      · cases x with
        | nil => exact ⟨"", String.ofList (c :: cs), rfl, by rw [hz, ← List.nil_append z, ← hc]; simp [encode]⟩
        | cons a x =>
          cases z with
          | nil =>
            obtain ⟨s₁, s₂, h₁, rfl⟩ := ih [] hz.symm
            exact ⟨String.ofList (c :: s₁.toList), s₂, by rw [hcons, h₁, hc, List.append_nil, List.append_nil], rfl⟩
          | cons b z =>
            -- the place is inside the character, so its byte continues the character
            obtain ⟨_, bs, he, -, hbs⟩ := utf8EncodeChar_eq_cons c
            rw [he, List.cons_append] at hc
            obtain ⟨-, rfl⟩ := List.cons.inj hc
            have hb := hbs b (by simp)
            rw [hz, List.cons_append, isBoundary, hb] at hy
            cases hy
  exact key s.toList x h

/-- **A text can be cut at a byte below 0x80**: what stands before and after it are texts. -/
theorem encode_eq_append_cons {s : String} {x y : Bytes} {b : UInt8} (hb : b < 0x80) (h : encode s = x ++ b :: y) :
    ∃ s₁ s₂, encode s₁ = x ∧ encode s₂ = y := by
  obtain ⟨s₁, t, hx, ht⟩ := encode_eq_append h (isBoundary_cons (.inl hb) y)
  obtain ⟨cs, -, hy⟩ := encode_eq_cons hb ht
  exact ⟨s₁, String.ofList cs, hx, by rw [← hy]; simp [encode]⟩

theorem isBoundary_of_encode_eq {s : String} {x y : Bytes} {b : UInt8} (h : encode s = x ++ b :: y)
    (hb : b < 0x80) : isBoundary y := by
  obtain ⟨_, s₂, -, rfl⟩ := encode_eq_append_cons hb h
  exact isBoundary_encode s₂

/-! ## Slices -/

/-- **A slice between two boundaries is a text.** -/
theorem slice?_eq_some {s : String} {x y z : Bytes} (h : encode s = x ++ (y ++ z)) (hy : isBoundary (y ++ z))
    (hz : isBoundary z) :
    ∃ t, slice? (encode s) x.length (x ++ y).length = some t ∧ encode t = y := by
  obtain ⟨_, s', -, hs'⟩ := encode_eq_append h hy
  obtain ⟨t, _, rfl, -⟩ := encode_eq_append hs' hz
  refine ⟨t, ?_, rfl⟩
  have hstart : (encode s).drop x.length = encode t ++ z := by rw [h, List.drop_left]
  have hstop : (encode s).drop (x ++ encode t).length = z := by rw [h, ← List.append_assoc, List.drop_left]
  have hle : (x ++ encode t).length ≤ (encode s).length := by simp [h]
  have hlen : (x ++ encode t).length - x.length = (encode t).length := by simp
  have hge : x.length ≤ (x ++ encode t).length := by simp
  rw [slice?, hstart, hstop, hy, hz, hlen, List.take_left, decode?_encode, if_pos]
  simp only [Bool.and_true, Bool.and_eq_true, decide_eq_true_eq]
  exact ⟨hge, hle⟩

end StyleScope.Text
