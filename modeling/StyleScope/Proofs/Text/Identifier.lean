/-
Identifiers, without escapes. What makes a text an identifier is how it begins and which characters it holds, so an
identifier can be made longer by any characters of names, and by no others.
-/

namespace StyleScope.Text

/-- Begins a name: a letter, an underscore, or a character beyond ASCII. -/
def isNameStart (c : Char) : Bool := c.isAlpha || c == '_' || 0x80 ≤ c.toNat

/-- Stands in a name. -/
def isNameChar (c : Char) : Bool := isNameStart c || c.isDigit || c == '-'

/-- The characters begin as an identifier does, perhaps after one hyphen or two. -/
def beginsName : List Char → Bool
  | [] => false
  | '-' :: c :: _ => c == '-' || isNameStart c
  | c :: _ => isNameStart c

/-- The text is an identifier. -/
structure Identifier (s : String) : Prop where
  start : beginsName s.toList
  inside : ∀ c ∈ s.toList, isNameChar c

instance (s : String) : Decidable (Identifier s) :=
  decidable_of_iff (beginsName s.toList ∧ s.toList.all isNameChar)
    ⟨fun ⟨h, h'⟩ => ⟨h, List.all_eq_true.1 h'⟩, fun ⟨h, h'⟩ => ⟨h, List.all_eq_true.2 h'⟩⟩

theorem beginsName_append {cs : List Char} (h : beginsName cs) (ds : List Char) : beginsName (cs ++ ds) := by
  unfold beginsName at h
  split at h
  · cases h
  · exact h
  · next c cs hc =>
    unfold beginsName
    split
    · next he => cases he
    · next d es he =>
      -- a hyphen alone begins no name
      obtain ⟨rfl, he⟩ := List.cons.inj he
      cases cs with
      | nil => exact absurd h (by decide)
      | cons e cs => exact (hc e cs rfl rfl).elim
    · next he =>
      obtain ⟨rfl, -⟩ := List.cons.inj he
      exact h

/-- **An identifier is made longer by characters of names only.** -/
theorem Identifier.append_iff {s t : String} (h : Identifier s) :
    Identifier (s ++ t) ↔ ∀ c ∈ t.toList, isNameChar c := by
  constructor
  · intro h' c hc
    exact h'.inside c (by simp [hc])
  · intro ht
    refine ⟨?_, fun c hc => ?_⟩
    · rw [String.toList_append]
      exact beginsName_append h.start _
    · rw [String.toList_append, List.mem_append] at hc
      exact hc.elim (h.inside c) (ht c)

theorem Identifier.toList_ne_nil {s : String} (h : Identifier s) : s.toList ≠ [] := by
  intro he
  have := h.start
  rw [he] at this
  cases this

end StyleScope.Text
