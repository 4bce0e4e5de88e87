/-
What trimming takes away and what it keeps. A text is its trimmed text between blanks, so padding a text
with blanks does not change what is kept of it; and no byte of a blank is a delimiter.
-/
import Mathlib.Data.List.TakeWhile
import StyleScope.Proofs.Text.Ascii

namespace StyleScope.Text

/-- A text of blanks only. -/
def Blank (s : String) : Prop := ∀ c ∈ s.toList, isBlank c

/-- A text with no blank at its start or end. -/
def Trimmed (s : String) : Prop := trim s = s

instance (s : String) : Decidable (Blank s) := inferInstanceAs (Decidable (∀ c ∈ s.toList, isBlank c))

instance (s : String) : Decidable (Trimmed s) := inferInstanceAs (Decidable (trim s = s))

theorem blank_empty : Blank "" := by simp [Blank]

/-! ## Padding -/

theorem dropBlanks_blank_append {us cs : List Char} (h : ∀ c ∈ us, isBlank c) :
    dropBlanks (us ++ cs) = dropBlanks cs :=
  List.dropWhile_append_of_pos h

theorem dropEndBlanks_append_blank {cs ws : List Char} (h : ∀ c ∈ ws, isBlank c) :
    dropEndBlanks (cs ++ ws) = dropEndBlanks cs := by
  rw [dropEndBlanks, List.reverse_append, dropBlanks_blank_append (by simpa using h), dropEndBlanks]

/-- **Padding a text with blanks changes nothing that is kept of it.** -/
theorem trim_pad {u s w : String} (hu : Blank u) (hw : Blank w) : trim (u ++ s ++ w) = trim s := by
  unfold trim
  congr 1
  rw [String.toList_append, String.toList_append, List.append_assoc, dropBlanks_blank_append hu]
  simp only [dropBlanks, List.dropWhile_append]
  split
  · next h =>
    rw [List.isEmpty_iff.1 h]
    have hall : w.toList.dropWhile isBlank = [] := List.dropWhile_eq_nil_iff.2 hw
    rw [hall]
  · exact dropEndBlanks_append_blank hw

/-- A text is its trimmed text between blanks. -/
theorem exists_pad (s : String) : ∃ u w, Blank u ∧ Blank w ∧ s = u ++ trim s ++ w := by
  have hd (cs : List Char) : ∃ ws, (∀ c ∈ ws, isBlank c) ∧ cs = dropEndBlanks cs ++ ws := by
    refine ⟨(cs.reverse.takeWhile isBlank).reverse, fun c hc => ?_, ?_⟩
    · exact List.mem_takeWhile_imp (List.mem_reverse.1 hc)
    · rw [dropEndBlanks, dropBlanks, ← List.reverse_append, List.takeWhile_append_dropWhile,
        List.reverse_reverse]
  obtain ⟨ws, hws, he⟩ := hd (dropBlanks s.toList)
  refine ⟨String.ofList (s.toList.takeWhile isBlank), String.ofList ws, ?_, ?_, ?_⟩
  · intro c hc
    rw [String.toList_ofList] at hc
    exact List.mem_takeWhile_imp hc
  · simpa [Blank] using hws
  · apply String.toList_injective
    rw [String.toList_append, String.toList_append, String.toList_ofList, String.toList_ofList, trim,
      String.toList_ofList, List.append_assoc, ← he, dropBlanks, List.takeWhile_append_dropWhile]

theorem trimmed_trim (s : String) : Trimmed (trim s) := by
  obtain ⟨u, w, hu, hw, hs⟩ := exists_pad s
  have := trim_pad (s := trim s) hu hw
  rw [← hs] at this
  exact this.symm

theorem Trimmed.trim_pad {u s w : String} (hs : Trimmed s) (hu : Blank u) (hw : Blank w) :
    trim (u ++ s ++ w) = s :=
  (Text.trim_pad hu hw).trans hs

theorem length_trim_le (s : String) : (trim s).length ≤ s.length := by
  obtain ⟨u, w, -, -, hs⟩ := exists_pad s
  have := congrArg String.length hs
  simp only [String.length_append] at this
  omega

/-- A trimmed text has no blank at either end. -/
theorem trimmed_iff {s : String} :
    Trimmed s ↔ (∀ c ∈ s.toList.head?, isBlank c = false) ∧ ∀ c ∈ s.toList.getLast?, isBlank c = false := by
  constructor
  · intro h
    -- a blank at an end could be taken for padding, and then less than `s` would be kept
    have key {u t w : String} (hu : Blank u) (hw : Blank w) (hs : s = u ++ t ++ w) : u = "" ∧ w = "" := by
      have h1 : trim s = trim t := hs ▸ Text.trim_pad hu hw
      have h2 := length_trim_le t
      have h3 := congrArg String.length hs
      rw [← h1, h] at h2
      simp only [String.length_append] at h3
      exact ⟨String.length_eq_zero_iff.1 (by omega), String.length_eq_zero_iff.1 (by omega)⟩
    constructor
    · intro c hc
      by_contra hb
      obtain ⟨cs, hs⟩ := List.head?_eq_some_iff.1 hc
      have := key (u := String.ofList [c]) (t := String.ofList cs) (w := "")
        (by simpa [Blank] using hb) blank_empty (String.toList_injective (by simp [hs]))
      exact absurd this.1 (by simp [String.ext_iff])
    · intro c hc
      by_contra hb
      obtain ⟨cs, hs⟩ := List.getLast?_eq_some_iff.1 hc
      have := key (u := "") (t := String.ofList cs) (w := String.ofList [c])
        blank_empty (by simpa [Blank] using hb) (String.toList_injective (by simp [hs]))
      exact absurd this.2 (by simp [String.ext_iff])
  · intro h
    obtain ⟨hh, hl⟩ := h
    obtain ⟨u, w, hu, hw, hs⟩ := exists_pad s
    have hu' : u = "" := by
      apply String.toList_injective
      cases hc : u.toList with
      | nil => rfl
      | cons c cs =>
        have := hh c (by rw [hs]; simp [hc])
        rw [hu c (by simp [hc])] at this
        cases this
    have hw' : w = "" := by
      apply String.toList_injective
      rcases List.eq_nil_or_concat w.toList with hn | ⟨cs, c, hc⟩
      · exact hn
      · have := hl c (by rw [hs]; simp [hc])
        rw [hw c (by simp [hc])] at this
        cases this
    rw [hu', hw', String.empty_append, String.append_empty] at hs
    exact hs.symm

theorem Trimmed.append {s t : String} (hs : Trimmed s) (ht : Trimmed t) (hs0 : s ≠ "") (ht0 : t ≠ "")
    (m : String) : Trimmed (s ++ m ++ t) := by
  have hsl : s.toList ≠ [] := fun h => hs0 (String.toList_injective h)
  have htl : t.toList ≠ [] := fun h => ht0 (String.toList_injective h)
  have hlast (l : List Char) : (l ++ t.toList).getLast? = t.toList.getLast? := by
    rw [List.getLast?_append, List.getLast?_eq_some_getLast htl, Option.some_or]
  have hhead (l : List Char) : (s.toList ++ l).head? = s.toList.head? := by
    rw [List.head?_append, List.head?_eq_some_head hsl, Option.some_or]
  rw [trimmed_iff, String.toList_append, String.toList_append, hlast, List.append_assoc, hhead]
  exact ⟨(trimmed_iff.1 hs).1, (trimmed_iff.1 ht).2⟩

theorem intercalate_ne_empty {sep : String} {ss : List String} (h : ∀ s ∈ ss, s ≠ "") (hne : ss ≠ []) :
    sep.intercalate ss ≠ "" := by
  match ss, hne with
  | [s], _ => simpa using h s (by simp)
  | s :: t :: ss, _ =>
    rw [String.intercalate_cons_cons]
    simp [h s (by simp)]

theorem Trimmed.intercalate {sep : String} {ss : List String} (h : ∀ s ∈ ss, Trimmed s ∧ s ≠ "") (hne : ss ≠ []) :
    Trimmed (sep.intercalate ss) := by
  induction ss with
  | nil => exact absurd rfl hne
  | cons s ss ih =>
    cases ss with
    | nil => simpa using (h s (by simp)).1
    | cons t ss =>
      have hrest : sep.intercalate (t :: ss) ≠ "" :=
        intercalate_ne_empty (fun r hr => (h r (List.mem_cons_of_mem s hr)).2) (List.cons_ne_nil t ss)
      rw [String.intercalate_cons_cons]
      exact (h s (by simp)).1.append (ih (fun r hr => h r (List.mem_cons_of_mem s hr)) (by simp))
        (h s (by simp)).2 hrest sep

/-! ## The bytes of blanks -/

theorem isBlank_toChar {b : UInt8} (h : Byte.isSpace b) : isBlank (Byte.toChar b) := by
  simp only [Byte.isSpace, List.contains_eq_mem, decide_eq_true_eq, Byte.spaces, List.mem_cons,
    List.not_mem_nil, or_false] at h
  rcases h with rfl | rfl | rfl | rfl | rfl | rfl <;> decide

/-- A byte of a blank is a space or belongs to a longer character. -/
theorem space_or_le_of_mem {s : String} (h : Blank s) {b : UInt8} (hb : b ∈ encode s) :
    Byte.isSpace b ∨ 0x80 ≤ b := by
  by_cases hlt : b < 0x80
  · left
    have hc : isBlank (Byte.toChar b) := h _ ((mem_encode hlt).1 hb)
    have hn : b.toNat < 0x80 := UInt8.lt_iff_toNat_lt.1 hlt
    simp only [isBlank, toNat_toChar hlt, blankCodes, List.contains_eq_mem, decide_eq_true_eq,
      List.mem_cons, List.not_mem_nil, or_false] at hc
    have hb : b = UInt8.ofNat b.toNat := (UInt8.ofNat_toNat).symm
    have : b.toNat = 9 ∨ b.toNat = 10 ∨ b.toNat = 11 ∨ b.toNat = 12 ∨ b.toNat = 13 ∨ b.toNat = 32 := by
      omega
    rw [hb]
    rcases this with h | h | h | h | h | h <;> rw [h] <;> decide
  · exact .inr (UInt8.not_lt.1 hlt)

/-- A trimmed text does not begin with a space. -/
theorem Trimmed.isSpace_eq_false {s : String} (h : Trimmed s) {b : UInt8} {xs : Bytes}
    (hs : encode s = b :: xs) : Byte.isSpace b = false := by
  by_contra hb
  have hb : Byte.isSpace b := by simpa using hb
  obtain ⟨cs, hc, -⟩ := encode_eq_cons (lt_of_isSpace hb) hs
  have := (trimmed_iff.1 h).1 _ (by rw [hc]; rfl)
  rw [isBlank_toChar hb] at this
  cases this

end StyleScope.Text
