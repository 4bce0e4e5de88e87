/-
How much a text weighs. What is printed of a tree is never heavier than a text that it was read from: comments,
blanks and gaps can only add weight. Two texts of the same piece that weigh the same are also equally solid, and
then one stands exactly where the other does. So where a printed text is read back as the tree it was printed
from, it must be read piece by piece as it was printed.
-/
import StyleScope.Proofs.Scan.Clean

namespace StyleScope.Scan

open Byte Text

/-! ## Weighing -/

/-- The number of bytes that are neither spaces nor semicolons: a tree does not say how many of those there are. -/
def weight (xs : Bytes) : Nat := xs.countP fun b => !isSpace b && b != semicolon

/-- The number of bytes that are no spaces. -/
def solid (xs : Bytes) : Nat := xs.countP fun b => !isSpace b

/-- The first text is no heavier, and where it is as heavy it is as solid. -/
def Lighter (xs ys : Bytes) : Prop := weight xs ≤ weight ys ∧ (weight ys ≤ weight xs → solid xs = solid ys)

@[simp] theorem weight_nil : weight [] = 0 := rfl

@[simp] theorem weight_append (xs ys : Bytes) : weight (xs ++ ys) = weight xs + weight ys := List.countP_append

@[simp] theorem solid_append (xs ys : Bytes) : solid (xs ++ ys) = solid xs + solid ys := List.countP_append

/-- The weight of one byte. -/
def byteWeight (b : UInt8) : Nat := if !isSpace b && b != semicolon then 1 else 0

@[simp] theorem weight_cons (b : UInt8) (xs : Bytes) : weight (b :: xs) = byteWeight b + weight xs := by
  rw [weight, List.countP_cons, Nat.add_comm]
  rfl

@[simp] theorem byteWeight_space : byteWeight 0x20 = 0 := by decide

@[simp] theorem byteWeight_lineFeed : byteWeight 0x0A = 0 := by decide

@[simp] theorem byteWeight_semicolon : byteWeight semicolon = 0 := by decide

theorem solid_cons (b : UInt8) (xs : Bytes) : solid (b :: xs) = solid [b] + solid xs := solid_append [b] xs

theorem solid_pos {b : UInt8} (h : isSpace b = false) : solid [b] = 1 := by simp [solid, h]

theorem weight_eq_zero {b : UInt8} (h : isSpace b) : weight [b] = 0 := by simp [weight, h]

theorem solid_eq_zero {b : UInt8} (h : isSpace b) : solid [b] = 0 := by simp [solid, h]

theorem lighter_refl (xs : Bytes) : Lighter xs xs := ⟨Nat.le_refl _, fun _ => rfl⟩

theorem lighter_of_eq {xs ys : Bytes} (hw : weight xs = weight ys) (hs : solid xs = solid ys) : Lighter xs ys :=
  ⟨Nat.le_of_eq hw, fun _ => hs⟩

theorem Lighter.trans {xs ys zs : Bytes} (h : Lighter xs ys) (h' : Lighter ys zs) : Lighter xs zs := by
  refine ⟨Nat.le_trans h.1 h'.1, fun hw => ?_⟩
  have h1 := h.1
  have h2 := h'.1
  rw [h.2 (by omega), h'.2 (by omega)]

theorem Lighter.append {xs ys zs ws : Bytes} (h : Lighter xs ys) (h' : Lighter zs ws) :
    Lighter (xs ++ zs) (ys ++ ws) := by
  have h1 := h.1
  have h2 := h'.1
  refine ⟨by simp only [weight_append]; omega, fun hw => ?_⟩
  simp only [weight_append] at hw
  rw [solid_append, solid_append, h.2 (by omega), h'.2 (by omega)]

theorem Lighter.cons {xs ys : Bytes} (b : UInt8) (h : Lighter xs ys) : Lighter (b :: xs) (b :: ys) :=
  (lighter_refl [b]).append h

/-- What weighs nothing may be left out. -/
theorem Lighter.nil_append {g xs ys : Bytes} (hg : Lighter [] g) (h : Lighter xs ys) : Lighter xs (g ++ ys) :=
  hg.append h

/-- Where equally solid texts stand before bytes that are no spaces, they are the same. -/
theorem eq_of_solid {xs ys xs' ys' : Bytes} {b b' : UInt8} (hs : solid xs = solid xs') (hb : isSpace b = false)
    (hb' : isSpace b' = false) (h : xs ++ b :: ys = xs' ++ b' :: ys') : xs = xs' ∧ b = b' ∧ ys = ys' := by
  rcases List.append_eq_append_iff.1 h with ⟨z, rfl, hz⟩ | ⟨z, rfl, hz⟩
  · cases z with
    | nil =>
      obtain ⟨rfl, rfl⟩ := List.cons.inj hz
      exact ⟨(List.append_nil xs).symm, rfl, rfl⟩
    | cons c z =>
      obtain ⟨rfl, -⟩ := List.cons.inj hz
      rw [solid_append, solid_cons, solid_pos hb] at hs
      omega
  · cases z with
    | nil =>
      obtain ⟨rfl, rfl⟩ := List.cons.inj hz
      exact ⟨List.append_nil xs', rfl, rfl⟩
    | cons c z =>
      obtain ⟨rfl, -⟩ := List.cons.inj hz
      rw [solid_append, solid_cons, solid_pos hb'] at hs
      omega

/-! ## Spaces before a text -/

/-- The text does not begin with a space. -/
def Unspaced (xs : Bytes) : Prop := ∀ b ∈ xs.head?, isSpace b = false

theorem unspaced_cons {b : UInt8} {xs : Bytes} (h : isSpace b = false) : Unspaced (b :: xs) := by
  intro c hc
  cases hc
  exact h

theorem Unspaced.append_cons {xs ys : Bytes} {b : UInt8} (h : Unspaced xs) (hb : isSpace b = false) :
    Unspaced (xs ++ b :: ys) := by
  cases xs with
  | nil => exact unspaced_cons hb
  | cons c xs => exact unspaced_cons (h c rfl)

theorem Flush.unspaced {xs : Bytes} (h : Flush xs) : Unspaced xs := by
  cases xs with
  | nil => nofun
  | cons b xs => exact unspaced_cons h.1

theorem unspaced_of_trimmed {s : String} (h : Trimmed s) : Unspaced (encode s) := by
  cases he : encode s with
  | nil => nofun
  | cons b xs => exact unspaced_cons (h.isSpace_eq_false he)

theorem all_isSpace_iff {g : Bytes} : solid g = 0 ↔ ∀ b ∈ g, isSpace b := by
  simp [solid, List.countP_eq_zero]

theorem dropWhile_isSpace_append {g xs : Bytes} (hg : ∀ b ∈ g, isSpace b) (hx : Unspaced xs) :
    (g ++ xs).dropWhile isSpace = xs := by
  rw [List.dropWhile_append_of_pos hg]
  cases xs with
  | nil => rfl
  | cons b xs => rw [List.dropWhile_cons_of_neg (by simp [hx b rfl])]

/-- Where texts stand after spaces and begin with none, they are the same. -/
theorem eq_of_isSpace {g k xs ys : Bytes} (hg : ∀ b ∈ g, isSpace b) (hk : ∀ b ∈ k, isSpace b)
    (hx : Unspaced xs) (hy : Unspaced ys) (h : g ++ xs = k ++ ys) : xs = ys := by
  rw [← dropWhile_isSpace_append hg hx, h, dropWhile_isSpace_append hk hy]

/-! ## What is left out -/

theorem lighter_blank {u : String} (h : Blank u) : Lighter [] (encode u) := by
  have key (xs : Bytes) (hx : ∀ b ∈ xs, inBlank b) : Lighter [] xs := by
    induction xs with
    | nil => exact lighter_refl []
    | cons b xs ih =>
      have hb := hx b List.mem_cons_self
      have ih := ih fun c hc => hx c (List.mem_cons_of_mem b hc)
      have hne : b ≠ semicolon := ne_of_inBlank hb (by decide)
      have hone : Lighter [] [b] := by
        refine ⟨Nat.zero_le _, fun hw => ?_⟩
        cases hs : isSpace b with
        | true => exact (solid_eq_zero hs).symm
        | false => simp [weight, hs, hne] at hw
      exact hone.append ih
  exact key _ (inBlank_of_mem_encode h)

theorem lighter_gap {g : Bytes} (h : Gap g) : Lighter [] g := by
  induction h with
  | nil => exact lighter_refl []
  | @space b g hb _ ih =>
    have hone : Lighter [] [b] := lighter_of_eq (weight_eq_zero hb).symm (solid_eq_zero hb).symm
    exact hone.append ih
  | comment _ _ _ =>
    have hone : byteWeight slash = 1 := by decide
    refine ⟨Nat.zero_le _, fun hw => ?_⟩
    rw [weight_cons, hone, weight_nil] at hw
    omega

theorem lighter_openComment {c : Bytes} (h : OpenComment c) : Lighter [] c ∧ 0 < weight c := by
  obtain ⟨inside, rfl, -⟩ := h
  have hone : byteWeight slash = 1 := by decide
  have hw : 0 < weight (slash :: star :: inside) := by
    rw [weight_cons, hone]
    omega
  exact ⟨⟨Nat.zero_le _, fun h => absurd h (by simp only [weight_nil]; omega)⟩, hw⟩

/-- A gap that weighs nothing is spaces. -/
theorem Gap.isSpace_of_weight {g : Bytes} (h : Gap g) (hw : weight g = 0) : ∀ b ∈ g, isSpace b :=
  all_isSpace_iff.1 ((lighter_gap h).2 (Nat.le_of_eq hw)).symm

theorem lighter_skipGap (xs : Bytes) : Lighter (skipGap xs) xs := by
  rcases skipGap_cases xs with ⟨g, hg, he, -⟩ | ⟨g, c, hg, hc, rfl, hn⟩
  · have := (lighter_gap hg).nil_append (lighter_refl (skipGap xs))
    rwa [← he] at this
  · rw [hn]
    exact (lighter_gap hg).append (lighter_openComment hc).1

theorem lighter_trim (s : String) : Lighter (encode (trim s)) (encode s) := by
  obtain ⟨u, w, hu, hw, he⟩ := exists_pad s
  have := ((lighter_blank hu).append (lighter_refl (encode (trim s)))).append (lighter_blank hw)
  rw [List.nil_append, List.append_nil, ← encode_append, ← encode_append, ← he] at this
  exact this

/-! ## The lightest text -/

/-- **Where the lightest text could stand before a byte, it does**: nothing but spaces can stand before it. -/
theorem eq_of_lighter {g k xs ys rest rest' : Bytes} {b b' : UInt8} (hl : Lighter ys xs) (hg : Gap g)
    (hw : weight g + weight xs ≤ weight ys) (hk : ∀ b ∈ k, isSpace b) (hx : Unspaced xs) (hy : Unspaced ys)
    (hb : isSpace b = false) (hb' : isSpace b' = false)
    (h : g ++ (xs ++ b :: rest) = k ++ (ys ++ b' :: rest')) : xs = ys ∧ b = b' ∧ rest = rest' := by
  have hle := hl.1
  have hgs := hg.isSpace_of_weight (by omega)
  have hs : solid (g ++ xs) = solid (k ++ ys) := by
    rw [solid_append, solid_append, all_isSpace_iff.2 hgs, all_isSpace_iff.2 hk, hl.2 (by omega)]
  rw [← List.append_assoc, ← List.append_assoc] at h
  obtain ⟨he, hbb, hr⟩ := eq_of_solid hs hb hb' h
  exact ⟨eq_of_isSpace hgs hk hx hy he, hbb, hr⟩

end StyleScope.Scan
