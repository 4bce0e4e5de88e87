/-
Values in another order. Two values compete if one slot accepts both; values that do not compete can be placed one
before the other or the other way round, since neither takes a slot that the other would get. So the values of a
definition may be written in any order in which those that compete stand as before (`Reordered`): what becomes of the
definition is the same (`assign_reordered`).

The order is given by the places of the values, as a definition may hold the same value twice. What placing depends on
is less: the values that a slot accepts, in their order, for each slot.
-/
import Mathlib.Data.Fin.VecNotation
import Mathlib.Data.List.NodupEquivFin
import StyleScope.Proofs.Animation.Selection

namespace StyleScope.Animation

/-- Some slot accepts both values. -/
def Compete (s t : String) : Prop := ∃ slot ∈ candidates s, slot ∈ candidates t

instance (s t : String) : Decidable (Compete s t) :=
  inferInstanceAs (Decidable (∃ slot ∈ candidates s, slot ∈ candidates t))

/-- The same values in another order: each place of the one list is a place of the other, and of two values that compete
the one that stands first in the one list stands first in the other. -/
def Reordered (ts us : List String) : Prop :=
  ∃ place : Fin ts.length ≃ Fin us.length,
    (∀ i, us[place i] = ts[i]) ∧ ∀ i j, i < j → Compete ts[i] ts[j] → place i < place j

theorem compete_iff {s t : String} : Compete s t ↔ ∃ slot : Slot, slot.accepts s ∧ slot.accepts t := by
  simp only [Compete, mem_candidates]

theorem Compete.symm {s t : String} (h : Compete s t) : Compete t s := by
  obtain ⟨slot, hs, ht⟩ := h
  exact ⟨slot, ht, hs⟩

/-- **Some slot accepts the value**, whatever it is: what cannot be a name is one of the reserved words, a number, a time
or a curve. -/
theorem exists_accepts (token : String) : ∃ slot : Slot, slot.accepts token := by
  by_cases hname : isKeyframesName token
  · exact ⟨.name, hname⟩
  · simp only [isKeyframesName, Bool.and_eq_true, Bool.not_eq_eq_eq_not, Bool.not_true, not_and_or,
      Bool.not_eq_false] at hname
    rcases hname with ((hreserved | hnumber) | htime) | hcurve
    · simp only [reservedKeywords, List.contains_eq_mem, List.mem_cons, List.not_mem_nil, or_false,
        decide_eq_true_eq] at hreserved
      rcases hreserved with rfl | rfl | rfl | rfl
      · exact ⟨.fillMode, by decide⟩
      · exact ⟨.timingFunction, by decide +kernel⟩
      · exact ⟨.timingFunction, by decide +kernel⟩
      · exact ⟨.timingFunction, by decide +kernel⟩
    · exact ⟨.iterationCount, by simp [Slot.accepts, hnumber]⟩
    · exact ⟨.duration, htime⟩
    · exact ⟨.timingFunction, by simp [Slot.accepts, hcurve]⟩

/-! ## What a slot accepts, in order -/

section Reordered

variable {ts us : List String}

theorem Reordered.length_eq (h : Reordered ts us) : ts.length = us.length := by
  obtain ⟨place, -, -⟩ := h
  exact Fin.equiv_iff_eq.1 ⟨place⟩

theorem Reordered.symm (h : Reordered ts us) : Reordered us ts := by
  obtain ⟨place, hsame, horder⟩ := h
  have hback (i : Fin us.length) : ts[place.symm i] = us[i] := by
    have he := hsame (place.symm i)
    simp only [Equiv.apply_symm_apply] at he
    exact he.symm
  refine ⟨place.symm, hback, fun i j hlt hc => ?_⟩
  by_contra hle
  have hne : place.symm j ≠ place.symm i := fun he => hlt.ne' (place.symm.injective he)
  have hgt : place.symm j < place.symm i := lt_of_le_of_ne (not_lt.1 hle) hne
  have hback := horder _ _ hgt (by rw [hback, hback]; exact hc.symm)
  rw [Equiv.apply_symm_apply, Equiv.apply_symm_apply] at hback
  exact absurd hlt hback.asymm

/-- The values that a slot accepts compete with each other, so they stand in the other list in their order. -/
theorem Reordered.filter_sublist (h : Reordered ts us) (slot : Slot) :
    (ts.filter (slot.accepts ·)).Sublist (us.filter (slot.accepts ·)) := by
  obtain ⟨place, hsame, horder⟩ := h
  obtain ⟨index, hindex⟩ := List.sublist_iff_exists_fin_orderEmbedding_get_eq.1
    (List.filter_sublist (p := (slot.accepts ·)) (l := ts))
  have haccepts (i) : slot.accepts ts[index i] := by
    have hm := List.getElem_mem i.isLt
    rw [List.mem_filter] at hm
    have he := hindex i
    simp only [List.get_eq_getElem] at he
    exact he ▸ hm.2
  have hmono : StrictMono fun i => place (index i) := fun i j hlt =>
    horder _ _ (index.lt_iff_lt.2 hlt) (compete_iff.2 ⟨slot, haccepts i, haccepts j⟩)
  have hsub : (ts.filter (slot.accepts ·)).Sublist us := by
    refine List.sublist_iff_exists_fin_orderEmbedding_get_eq.2 ⟨OrderEmbedding.ofStrictMono _ hmono, fun i => ?_⟩
    rw [hindex i]
    exact (hsame (index i)).symm
  have hfilter := hsub.filter (slot.accepts ·)
  rwa [List.filter_filter, List.filter_congr fun a _ => Bool.and_self _] at hfilter

/-- **Each slot accepts the same values in the same order.** -/
theorem Reordered.filter_eq (h : Reordered ts us) (slot : Slot) :
    ts.filter (slot.accepts ·) = us.filter (slot.accepts ·) :=
  (h.filter_sublist slot).antisymm (h.symm.filter_sublist slot)

end Reordered

section Filter

variable {t : String} {ts us front rest : List String}

/-- No slot accepts a value of the empty list, so there is none in the other. -/
theorem eq_nil_of_filter (h : ∀ slot : Slot, [].filter (slot.accepts ·) = us.filter (slot.accepts ·)) : us = [] := by
  cases us with
  | nil => rfl
  | cons u us =>
    obtain ⟨slot, hu⟩ := exists_accepts u
    have hslot := h slot
    rw [List.filter_cons_of_pos (p := (slot.accepts ·)) hu] at hslot
    cases hslot

/-- Where `t` is the first value that the slot accepts, it accepts nothing that stands before the first `t`. -/
theorem filter_front_eq_nil {slot : Slot} (ht : slot.accepts t) (hfirst : t ∉ front)
    (h : (t :: ts).filter (slot.accepts ·) = (front ++ t :: rest).filter (slot.accepts ·)) :
    front.filter (slot.accepts ·) = [] := by
  rw [List.filter_append, List.filter_cons_of_pos (p := (slot.accepts ·)) ht] at h
  cases hf : front.filter (slot.accepts ·) with
  | nil => rfl
  | cons s ss =>
    rw [hf, List.cons_append] at h
    obtain rfl := (List.cons.inj h).1
    have hm : t ∈ front.filter (slot.accepts ·) := hf ▸ List.mem_cons_self
    exact absurd (List.mem_filter.1 hm).1 hfirst

/-- **Where each slot accepts the same values in the same order, the first value of the one list stands in the other
behind values that it does not compete with**, and the same holds of what the lists hold besides. -/
theorem exists_split_of_filter
    (h : ∀ slot : Slot, (t :: ts).filter (slot.accepts ·) = us.filter (slot.accepts ·)) :
    ∃ front rest, us = front ++ t :: rest ∧ (∀ s ∈ front, ¬ Compete s t) ∧
      ∀ slot : Slot, ts.filter (slot.accepts ·) = (front ++ rest).filter (slot.accepts ·) := by
  -- some slot accepts the value, so it stands in the other list too
  obtain ⟨slot, ht⟩ := exists_accepts t
  have hmem : t ∈ us := by
    have hm : t ∈ (t :: ts).filter (slot.accepts ·) := List.mem_filter.2 ⟨List.mem_cons_self, ht⟩
    rw [h slot] at hm
    exact (List.mem_filter.1 hm).1
  obtain ⟨front, rest, rfl, hfirst⟩ := List.eq_append_cons_of_mem hmem
  have hnone {slot : Slot} (ht : slot.accepts t) : front.filter (slot.accepts ·) = [] :=
    filter_front_eq_nil ht hfirst (h slot)
  refine ⟨front, rest, rfl, fun s hs hc => ?_, fun slot => ?_⟩
  · obtain ⟨slot, has, hat⟩ := compete_iff.1 hc
    have hm : s ∈ front.filter (slot.accepts ·) := List.mem_filter.2 ⟨hs, has⟩
    rw [hnone hat] at hm
    cases hm
  · have hslot := h slot
    rw [List.filter_append] at hslot ⊢
    cases ht : slot.accepts t with
    | false =>
      rwa [List.filter_cons_of_neg (by simp [ht]), List.filter_cons_of_neg (by simp [ht])] at hslot
    | true =>
      rw [hnone ht, List.filter_cons_of_pos (by simp [ht]), List.filter_cons_of_pos (by simp [ht])] at hslot
      rw [hnone ht]
      exact (List.cons.inj hslot).2

end Filter

/-! ## Placing values that do not compete -/

namespace Assignment

variable {A : Assignment} {slot : Slot} {s t : String} {front rest ts us : List String}

/-- A slot that does not accept a value may be taken before the value is placed. -/
theorem place?_fill (A : Assignment) (t : String) (h : slot.accepts s = false) :
    (A.fill slot t).place? s = (A.place? s).map fun p => (p.1, (A.fill slot t).fill p.1 s) := by
  have hfind : (A.openSlots.erase slot).find? (·.accepts s) = A.openSlots.find? (·.accepts s) := by
    rw [(nodup_openSlots A).erase_eq_filter, List.find?_filter]
    congr 1
    funext other
    by_cases ho : other = slot
    · simp [ho, h]
    · simp [ho]
  rw [place?, place?, openSlots_fill, hfind, Option.map_map]
  rfl

/-- **Two values that do not compete can be placed in either order.** -/
theorem placeAll_swap (h : ¬ Compete s t) :
    (A.placeAll (s :: t :: rest)).toOption = (A.placeAll (t :: s :: rest)).toOption := by
  have hrefuse {slot : Slot} (hs : slot.accepts s) : slot.accepts t = false :=
    Bool.eq_false_iff.2 fun ht => h (compete_iff.2 ⟨slot, hs, ht⟩)
  cases hs : A.place? s with
  | none =>
    cases ht : A.place? t with
    | none => simp only [placeAll, hs, ht, Except.toOption]
    | some p =>
      obtain ⟨slot, B⟩ := p
      obtain ⟨-, hat, rfl⟩ := of_place?_eq_some ht
      have hno : slot.accepts s = false := Bool.eq_false_iff.2 fun has => by
        rw [hrefuse has] at hat
        cases hat
      simp only [placeAll, hs, ht, place?_fill A t hno, Option.map_none, Except.toOption]
  | some p =>
    obtain ⟨slot, B⟩ := p
    obtain ⟨-, has, rfl⟩ := of_place?_eq_some hs
    cases ht : A.place? t with
    | none => simp only [placeAll, hs, ht, place?_fill A s (hrefuse has), Option.map_none, Except.toOption]
    | some q =>
      obtain ⟨other, C⟩ := q
      obtain ⟨-, hat, rfl⟩ := of_place?_eq_some ht
      have hne : slot ≠ other := by
        rintro rfl
        rw [hrefuse has] at hat
        cases hat
      have hno : other.accepts s = false := Bool.eq_false_iff.2 fun hos => by
        rw [hrefuse hos] at hat
        cases hat
      simp only [placeAll, hs, ht, place?_fill A s (hrefuse has), place?_fill A t hno, Option.map_some]
      rw [fill_comm A hne]

theorem placeAll_cons_congr (h : ∀ B : Assignment, (B.placeAll ts).toOption = (B.placeAll us).toOption) :
    (A.placeAll (t :: ts)).toOption = (A.placeAll (t :: us)).toOption := by
  cases hp : A.place? t with
  | none => simp only [placeAll, hp]
  | some p => simp only [placeAll, hp, h]

/-- A value can be placed before those that it does not compete with. -/
theorem placeAll_front (h : ∀ s ∈ front, ¬ Compete s t) :
    (A.placeAll (front ++ t :: rest)).toOption = (A.placeAll (t :: (front ++ rest))).toOption := by
  induction front generalizing A with
  | nil => rfl
  | cons s front ih =>
    have htail (B : Assignment) := ih (A := B) fun u hu => h u (List.mem_cons_of_mem s hu)
    calc (A.placeAll (s :: (front ++ t :: rest))).toOption
        = (A.placeAll (s :: t :: (front ++ rest))).toOption := placeAll_cons_congr htail
      _ = (A.placeAll (t :: s :: (front ++ rest))).toOption := placeAll_swap (h s List.mem_cons_self)

/-- **Where each slot accepts the same values in the same order, placing comes to the same.** -/
theorem placeAll_of_filter (h : ∀ slot : Slot, ts.filter (slot.accepts ·) = us.filter (slot.accepts ·)) :
    (A.placeAll ts).toOption = (A.placeAll us).toOption := by
  induction ts generalizing A us with
  | nil => rw [eq_nil_of_filter h]
  | cons t ts ih =>
    obtain ⟨front, rest, rfl, hfree, hrest⟩ := exists_split_of_filter h
    rw [placeAll_front hfree]
    exact placeAll_cons_congr fun B => ih hrest

end Assignment

/-! ## Definitions -/

theorem Definition.assign_eq_ok_iff {d : Definition} {a : Animation} :
    d.assign = .ok a ↔ ∃ arity B, Arity.ofCount? d.tokens.length = some arity ∧
      (Assignment.empty arity).placeAll d.tokens = .ok B ∧ B.build? = some a := by
  cases hc : Arity.ofCount? d.tokens.length with
  | none => simp [assign, hc]
  | some arity =>
    cases hp : (Assignment.empty arity).placeAll d.tokens with
    | error token => simp [assign, hc, hp]
    | ok B => cases hb : B.build? <;> simp [assign, hc, hp, hb]

theorem toOption_eq_some_iff {ε α : Type} {x : Except ε α} {a : α} : x.toOption = some a ↔ x = .ok a := by
  cases x <;> simp [Except.toOption]

/-- **Values may come in any order unless they compete.** A definition is an animation in one order of its values exactly
when it is in another in which values that compete stand as before, and then it is the same animation. -/
theorem assign_reordered {ts us : List String} (h : Reordered ts us) (text other : String) (a : Animation) :
    Definition.assign ⟨text, ts⟩ = .ok a ↔ Definition.assign ⟨other, us⟩ = .ok a := by
  have hplace (arity : Arity) (B : Assignment) :
      (Assignment.empty arity).placeAll ts = .ok B ↔ (Assignment.empty arity).placeAll us = .ok B := by
    rw [← toOption_eq_some_iff, ← toOption_eq_some_iff, Assignment.placeAll_of_filter h.filter_eq]
  simp only [Definition.assign_eq_ok_iff, h.length_eq, hplace]

/-- Five of the values could be names, and stand in one order in both lists; so do the two times. `none` can be nothing
but a fill mode, and is free to stand anywhere. -/
theorem assign_reordered_eight :
    let ts := ["2s", "ease", "1s", "infinite", "normal", "none", "running", "paused"]
    let us := ["ease", "none", "infinite", "normal", "2s", "running", "paused", "1s"]
    let a := Animation.eight "2s" "ease" "1s" "infinite" "normal" "none" "running" "paused"
    Reordered ts us ∧ Definition.assign ⟨"", ts⟩ = .ok a ∧ Definition.assign ⟨"", us⟩ = .ok a :=
  let place : Fin 8 ≃ Fin 8 :=
    ⟨![4, 0, 7, 2, 3, 1, 5, 6], ![1, 5, 3, 4, 0, 6, 7, 2], fun i => by decide +revert, fun i => by decide +revert⟩
  have h : Reordered ["2s", "ease", "1s", "infinite", "normal", "none", "running", "paused"]
      ["ease", "none", "infinite", "normal", "2s", "running", "paused", "1s"] :=
    ⟨place, by decide, by decide +kernel⟩
  have ha : Definition.assign ⟨"", ["2s", "ease", "1s", "infinite", "normal", "none", "running", "paused"]⟩ =
      .ok (.eight "2s" "ease" "1s" "infinite" "normal" "none" "running" "paused") := by decide +kernel
  ⟨h, ha, (assign_reordered h "" "" _).1 ha⟩

end StyleScope.Animation
