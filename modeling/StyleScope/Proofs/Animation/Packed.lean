/-
A byte and an array in step. Placing values keeps `Kept`: a cell holds a value exactly if the bit of its slot is set, and
the value is that of the one call that was told this slot. So the byte and the array are together what an assignment is
(`InStep`), each call answers as it does there, and what is built in the end is the values by the calls that placed them
(`packed_in_step`).
-/
import Mathlib.Data.List.Induction
import StyleScope.Animation.Packed
import StyleScope.Proofs.Animation.Filling

namespace StyleScope.Animation

/-! ## Sets of slots -/

theorem Slot.index_injective : Function.Injective Slot.index := by
  intro s t h
  revert h
  cases s <;> cases t <;> decide

theorem Slot.exists_index (i : Fin 8) : ∃ slot : Slot, slot.index = i := by
  have hall : ∀ i : Fin 8, ∃ slot ∈ Slot.all, slot.index = i := by decide
  obtain ⟨slot, -, h⟩ := hall i
  exact ⟨slot, h⟩

/-- The slots stand in `Slot.all` in the order of their indices. -/
theorem Slot.pairwise_all : Slot.all.Pairwise fun s t => s.index < t.index := by decide

/-- Of slots in the order of their indices, the first of a kind is the one with the least index. -/
theorem Slot.find?_eq_some_iff {slots : List Slot} (h : slots.Pairwise fun s t => s.index < t.index) {f : Slot → Bool}
    {slot : Slot} :
    slots.find? f = some slot ↔ slot ∈ slots ∧ f slot ∧ ∀ other ∈ slots, f other → slot.index ≤ other.index := by
  have hleast {slot : Slot} (hs : slots.find? f = some slot) :
      f slot ∧ ∀ other ∈ slots, f other → slot.index ≤ other.index := by
    obtain ⟨hf, front, rest, rfl, hfront⟩ := List.find?_eq_some_iff_append.1 hs
    refine ⟨hf, fun other hmem ho => ?_⟩
    rcases List.mem_append.1 hmem with hm | hm
    · have hnot := hfront other hm
      rw [ho] at hnot
      cases hnot
    · rcases List.mem_cons.1 hm with rfl | hm
      · exact Fin.le_refl _
      · exact Fin.le_of_lt ((List.pairwise_cons.1 (List.pairwise_append.1 h).2.1).1 other hm)
  refine ⟨fun hs => ⟨List.mem_of_find?_eq_some hs, hleast hs⟩, fun ⟨hmem, hf, hfirst⟩ => ?_⟩
  obtain ⟨s, hs⟩ := Option.isSome_iff_exists.1 (List.find?_isSome.2 ⟨slot, hmem, hf⟩)
  obtain ⟨hfs, hsfirst⟩ := hleast hs
  have hle := hfirst s (List.mem_of_find?_eq_some hs) hfs
  rw [hs, Slot.index_injective (Fin.le_antisymm hle (hsfirst slot hmem hf))]

namespace SlotSet

variable {set other : SlotSet} {slot s : Slot}

theorem contains_eq_getLsbD (set : SlotSet) (slot : Slot) : set.contains slot = set.getLsbD slot.index := by
  rw [contains, Slot.flag, BitVec.and_twoPow]
  cases hb : set.getLsbD slot.index with
  | true => exact beq_self_eq_true _
  | false =>
    refine beq_eq_false_iff_ne.2 fun he => ?_
    have hbit := congrArg (·.getLsbD slot.index) he
    simp at hbit

theorem contains_empty (slot : Slot) : contains 0#8 slot = false := by
  rw [contains_eq_getLsbD, BitVec.getLsbD_zero]

theorem contains_flag (slot s : Slot) : slot.flag.contains s = decide (s = slot) := by
  rw [contains_eq_getLsbD, Slot.flag, BitVec.getLsbD_twoPow, Bool.eq_iff_iff]
  simp only [slot.index.isLt, decide_true, Bool.true_and, decide_eq_true_eq, Fin.val_inj, Slot.index_injective.eq_iff]
  exact eq_comm

theorem contains_or (set other : SlotSet) (slot : Slot) :
    (set ||| other).contains slot = (set.contains slot || other.contains slot) := by
  simp only [contains_eq_getLsbD, BitVec.getLsbD_or]

theorem contains_and (set other : SlotSet) (slot : Slot) :
    (set &&& other).contains slot = (set.contains slot && other.contains slot) := by
  simp only [contains_eq_getLsbD, BitVec.getLsbD_and]

theorem contains_not (set : SlotSet) (slot : Slot) : (~~~set).contains slot = !set.contains slot := by
  simp only [contains_eq_getLsbD, BitVec.getLsbD_not, slot.index.isLt, decide_true, Bool.true_and]

/-- Sets are equal if they have the same slots: every bit is the bit of a slot. -/
theorem ext_contains (h : ∀ slot, set.contains slot = other.contains slot) : set = other := by
  refine BitVec.eq_of_getLsbD_eq fun i hi => ?_
  obtain ⟨slot, hs⟩ := Slot.exists_index ⟨i, hi⟩
  have hbit := h slot
  rwa [contains_eq_getLsbD, contains_eq_getLsbD, hs] at hbit

theorem eq_empty_iff : set = 0#8 ↔ ∀ slot, set.contains slot = false := by
  constructor
  · rintro rfl slot
    exact contains_empty slot
  · intro h
    exact ext_contains fun slot => by rw [h, contains_empty]

theorem contains_ofList {slots : List Slot} : (ofList slots).contains slot ↔ slot ∈ slots := by
  have hfold (slots : List Slot) : ∀ set : SlotSet,
      (slots.foldl (fun set slot => set ||| slot.flag) set).contains slot ↔ set.contains slot ∨ slot ∈ slots := by
    induction slots with
    | nil => simp
    | cons s slots ih =>
      intro set
      rw [List.foldl_cons, ih, contains_or, contains_flag, Bool.or_eq_true, decide_eq_true_eq, List.mem_cons, or_assoc]
  rw [ofList, hfold, contains_empty]
  simp

end SlotSet

/-! ## One call -/

namespace Packed

variable {p q : Packed} {slot other : Slot} {token text : String}

theorem contains_openSlots :
    p.openSlots.contains slot ↔ slot ∈ p.arity.slots ∧ p.filled.contains slot = false := by
  rw [openSlots, SlotSet.contains_and, SlotSet.contains_not, Bool.and_eq_true, SlotSet.contains_ofList,
    Bool.not_eq_true']

theorem contains_filled_fill : (p.fill slot token).filled.contains other ↔ other = slot ∨ p.filled.contains other := by
  rw [fill, SlotSet.contains_or, SlotSet.contains_flag, Bool.or_eq_true, decide_eq_true_eq, or_comm]

theorem cell_fill : (p.fill slot token).cell other = if other = slot then some token else p.cell other := by
  by_cases h : other = slot
  · subst h
    simp [fill, cell]
  · have hne : (slot.index : Nat) ≠ other.index := fun he => h (Slot.index_injective (Fin.val_inj.1 he)).symm
    simp [fill, cell, h, Vector.getElem_set_ne _ _ hne]

theorem ext_cells (ha : p.arity = q.arity) (hf : ∀ slot, p.filled.contains slot = q.filled.contains slot)
    (hc : ∀ slot, p.cell slot = q.cell slot) : p = q := by
  have hcells : p.cells = q.cells := by
    refine Vector.ext fun i hi => ?_
    obtain ⟨slot, hs⟩ := Slot.exists_index ⟨i, hi⟩
    obtain rfl : (slot.index : Nat) = i := congrArg Fin.val hs
    exact hc slot
  obtain ⟨arity, filled, cells⟩ := p
  obtain rfl : filled = q.filled := SlotSet.ext_contains hf
  obtain rfl := ha
  obtain rfl := hcells
  rfl

/-- What a call comes to: no slot that accepts the value is open, and nothing changes; or the value goes to the first
that is. -/
inductive Placed (p : Packed) (token : String) : Option Slot × Packed → Prop
  | refused : (∀ slot ∈ candidates token, p.openSlots.contains slot = false) → Placed p token (none, p)
  | filled {slot : Slot} {q : Packed} :
    slot ∈ candidates token → p.openSlots.contains slot →
      (∀ other ∈ candidates token, p.openSlots.contains other → slot.index ≤ other.index) →
      q.arity = p.arity → (∀ other, q.filled.contains other ↔ other = slot ∨ p.filled.contains other) →
      (∀ other, q.cell other = if other = slot then some token else p.cell other) → Placed p token (some slot, q)

theorem contains_candidates :
    (SlotSet.ofList (candidates token) &&& p.openSlots).contains slot ↔
      slot ∈ candidates token ∧ p.openSlots.contains slot := by
  rw [SlotSet.contains_and, Bool.and_eq_true, SlotSet.contains_ofList]

/-- **A call comes to this, and to nothing else.** -/
theorem place_eq_iff {outcome : Option Slot × Packed} : p.place token = outcome ↔ p.Placed token outcome := by
  constructor
  · rintro rfl
    unfold place
    split
    · next slot h =>
      obtain ⟨-, hs, hfirst⟩ := (Slot.find?_eq_some_iff Slot.pairwise_all).1 h
      obtain ⟨hc, ho⟩ := contains_candidates.1 hs
      exact .filled hc ho (fun other hc ho => hfirst other (Slot.mem_all other) (contains_candidates.2 ⟨hc, ho⟩)) rfl
        (fun _ => contains_filled_fill) fun _ => cell_fill
    · next h =>
      refine .refused fun slot hc => Bool.eq_false_iff.2 fun ho => ?_
      exact List.find?_eq_none.1 h slot (Slot.mem_all slot) (contains_candidates.2 ⟨hc, ho⟩)
  · intro h
    unfold place
    cases h with
    | refused h =>
      rw [List.find?_eq_none.2]
      intro slot _ hs
      obtain ⟨hc, ho⟩ := contains_candidates.1 hs
      rw [h slot hc] at ho
      cases ho
    | @filled slot q hc ho hfirst ha hf hq =>
      have hfind : Slot.all.find? (SlotSet.ofList (candidates token) &&& p.openSlots).contains = some slot :=
        (Slot.find?_eq_some_iff Slot.pairwise_all).2 ⟨Slot.mem_all slot, contains_candidates.2 ⟨hc, ho⟩,
          fun other _ hs => hfirst other (contains_candidates.1 hs).1 (contains_candidates.1 hs).2⟩
      rw [hfind]
      refine Prod.ext rfl (ext_cells ha.symm (fun other => ?_) fun other => ?_)
      · rw [Bool.eq_iff_iff, contains_filled_fill, hf]
      · rw [cell_fill, hq]

end Packed

/-! ## In step with an assignment -/

/-- The byte and the array hold what the assignment holds. -/
structure InStep (p : Packed) (A : Assignment) : Prop where
  arity : p.arity = A.arity
  filled : ∀ slot, p.filled.contains slot ↔ slot ∈ A.filled
  cell : ∀ slot, p.cell slot = A.texts slot

theorem Assignment.mem_filled {A : Assignment} {slot : Slot} : slot ∈ A.filled ↔ (A.texts slot).isSome := by
  simp [Assignment.filled, Slot.mem_all]

theorem Assignment.pairwise_openSlots (A : Assignment) : A.openSlots.Pairwise fun s t => s.index < t.index :=
  Slot.pairwise_all.sublist (List.filter_sublist.trans A.arity.slots_sublist)

namespace InStep

variable {p q : Packed} {A : Assignment} {slot : Slot} {token : String}

theorem empty (arity : Arity) : InStep (.empty arity) (.empty arity) where
  arity := rfl
  filled := fun slot => by simp [Packed.empty, SlotSet.contains_empty, Assignment.empty, Assignment.mem_filled]
  cell := fun slot => by simp [Packed.empty, Packed.cell, Assignment.empty]

theorem openSlots (h : InStep p A) : p.openSlots.contains slot ↔ slot ∈ A.openSlots := by
  rw [Packed.contains_openSlots, Assignment.mem_openSlots, h.arity, ← Bool.not_eq_true, h.filled, Assignment.mem_filled,
    Bool.not_eq_true, Option.isSome_eq_false_iff, Option.isNone_iff_eq_none]

/-- **A call answers as it does to the assignment**, and leaves the two in step. -/
theorem offer (h : InStep p A) {placed : Option Slot} (hp : p.Placed token (placed, q)) :
    ∃ B, A.offer token = (placed, B) ∧ InStep q B := by
  cases hp with
  | refused hno =>
    have hnone : A.place? token = none := by
      refine Assignment.place?_eq_none_iff.2 fun slot ho => Bool.eq_false_iff.2 fun hacc => ?_
      have hclosed := hno slot (mem_candidates.2 hacc)
      rw [h.openSlots.2 ho] at hclosed
      cases hclosed
    exact ⟨A, by rw [Assignment.offer, hnone], h⟩
  | @filled slot _ hc ho hfirst ha hf hq =>
    have hfind : A.openSlots.find? (·.accepts token) = some slot :=
      (Slot.find?_eq_some_iff A.pairwise_openSlots).2 ⟨h.openSlots.1 ho, mem_candidates.1 hc, fun other hopen hacc =>
        hfirst other (mem_candidates.2 hacc) (h.openSlots.2 hopen)⟩
    refine ⟨A.fill slot token, ?_, ha.trans h.arity, fun other => ?_, fun other => ?_⟩
    · rw [Assignment.offer, Assignment.place?, hfind]
      rfl
    · rw [hf, h.filled, Assignment.mem_filled, Assignment.mem_filled, Assignment.fill]
      by_cases he : other = slot
      · simp [he]
      · simp [he]
    · rw [hq, h.cell]
      rfl

/-- **What is built is what the assignment builds.** -/
theorem build? (h : InStep p A) : p.build? = A.build? := by
  have hcell : p.cell = A.texts := funext h.cell
  unfold Packed.build?
  split
  · rw [hcell, h.arity]
    rfl
  · next hopen =>
    cases hb : A.build? with
    | none => rfl
    | some a =>
      -- a slot that is open has no value
      obtain ⟨harity, hget⟩ := of_ofTexts? hb
      refine absurd (SlotSet.eq_empty_iff.2 fun slot => Bool.eq_false_iff.2 fun ho => ?_) hopen
      obtain ⟨hs, hnone⟩ := Assignment.mem_openSlots.1 (h.openSlots.1 ho)
      have hsome := (a.get?_isSome_iff slot).2 (harity ▸ hs)
      rw [hget slot hs, hnone] at hsome
      cases hsome

end InStep

/-! ## Runs -/

section Run

variable {σ : Type} (place : σ → String → Option Slot × σ) (start : σ)

theorem run_snoc (tokens : List String) (token : String) :
    run place start (tokens ++ [token]) =
      ((run place start tokens).1 ++ [(token, (place (run place start tokens).2 token).1)],
        (place (run place start tokens).2 token).2) := by
  simp [run]

theorem tokens_run (tokens : List String) : (run place start tokens).1.map (·.1) = tokens := by
  induction tokens using List.reverseRecOn with
  | nil => rfl
  | append_singleton tokens token ih => simp [run_snoc, ih]

end Run

/-- What the calls so far have left in the byte and the array. -/
structure Kept (arity : Arity) (calls : List (String × Option Slot)) (p : Packed) : Prop where
  arity : p.arity = arity
  /-- Only slots of the arity are filled. -/
  expected : ∀ slot, p.filled.contains slot → slot ∈ p.arity.slots
  /-- The byte and the array agree. -/
  stored : ∀ slot, (p.cell slot).isSome ↔ p.filled.contains slot
  /-- A value stands at the slot that its call was told. -/
  told : ∀ slot text, p.cell slot = some text ↔ (text, some slot) ∈ calls
  /-- No two calls were told the same slot. -/
  once : (calls.filterMap (·.2)).Nodup
  /-- A call is told a slot that accepts its value. -/
  accepted : ∀ slot text, (text, some slot) ∈ calls → slot ∈ candidates text

namespace Kept

variable {arity : Arity} {calls : List (String × Option Slot)} {p q : Packed} {token : String} {placed : Option Slot}

theorem empty (arity : Arity) : Kept arity [] (.empty arity) where
  arity := rfl
  expected := fun slot h => by simp [Packed.empty, SlotSet.contains_empty] at h
  stored := fun slot => by simp [Packed.empty, Packed.cell, SlotSet.contains_empty]
  told := fun slot text => by simp [Packed.empty, Packed.cell]
  once := List.nodup_nil
  accepted := nofun

theorem mem_filterMap_snd {slot : Slot} : slot ∈ calls.filterMap (·.2) ↔ ∃ text, (text, some slot) ∈ calls := by
  simp

/-- **One call keeps it.** -/
theorem call (h : Kept arity calls p) (hp : p.Placed token (placed, q)) : Kept arity (calls ++ [(token, placed)]) q := by
  cases hp with
  | refused =>
    refine ⟨h.arity, h.expected, h.stored, fun slot text => ?_, ?_, fun slot text hm => ?_⟩
    · rw [h.told]
      simp
    · simpa using h.once
    · exact h.accepted slot text (by simpa using hm)
  | @filled slot _ hc ho _ ha hf hq =>
    obtain ⟨hslot, hempty⟩ := Packed.contains_openSlots.1 ho
    -- no call before was told this slot, as nothing stands there
    have hnew : ∀ text, (text, some slot) ∉ calls := by
      intro text hm
      have hsome := (h.stored slot).1 (by rw [(h.told slot text).2 hm]; rfl)
      rw [hempty] at hsome
      cases hsome
    refine ⟨ha.trans h.arity, fun other hfilled => ?_, fun other => ?_, fun other text => ?_, ?_, fun other text hm => ?_⟩
    · rw [ha]
      rcases (hf other).1 hfilled with rfl | hbefore
      · exact hslot
      · exact h.expected other hbefore
    · rw [hq, hf]
      by_cases he : other = slot
      · simp [he]
      · simp [he, h.stored]
    · rw [hq]
      by_cases he : other = slot
      · subst he
        simp [hnew, eq_comm]
      · simp [he, h.told]
    · have hfresh : slot ∉ calls.filterMap (·.2) := by
        rw [mem_filterMap_snd, not_exists]
        exact hnew
      rw [List.filterMap_append]
      refine List.nodup_append.2 ⟨h.once, List.nodup_cons.2 ⟨List.not_mem_nil, List.nodup_nil⟩, fun s hs t ht => ?_⟩
      rintro rfl
      exact hfresh (List.mem_singleton.1 ht ▸ hs)
    · rcases List.mem_append.1 hm with hm | hm
      · exact h.accepted other text hm
      · cases List.mem_singleton.1 hm
        exact hc

variable (h : Kept arity calls p)
include h

/-- **As many slots are filled as calls succeeded**: those that the calls were told. -/
theorem count_filled : Slot.all.countP p.filled.contains = calls.countP (·.2.isSome) := by
  have hperm : (Slot.all.filter p.filled.contains).Perm (calls.filterMap (·.2)) := by
    refine (List.perm_ext_iff_of_nodup (Slot.nodup_all.filter _) h.once).2 fun slot => ?_
    rw [List.mem_filter, mem_filterMap_snd, ← h.stored, Option.isSome_iff_exists]
    simp only [Slot.mem_all, true_and, h.told]
  rw [List.countP_eq_length_filter, hperm.length_eq, List.length_filterMap_eq_countP]

variable {A : Assignment} (hA : InStep p A)
include hA

/-- What is built holds what the cells hold, and none of that is empty. -/
theorem of_build?_eq_some {a : Animation} (hb : p.build? = some a) :
    a.arity = arity ∧ (∀ slot, a.get? slot = p.cell slot) ∧ ∀ slot text, p.cell slot = some text → text ≠ "" := by
  obtain ⟨harity, hget⟩ := of_ofTexts? (hA.build? ▸ hb)
  rw [← hA.arity] at harity hget
  have hheld (slot : Slot) (hs : slot ∈ p.arity.slots) :
      ∃ text, a.get? slot = some text ∧ p.cell slot = some text ∧ text ≠ "" := by
    obtain ⟨text, ht⟩ := Option.isSome_iff_exists.1 ((a.get?_isSome_iff slot).2 (harity ▸ hs))
    have hfilter := ht
    rw [hget slot hs, Option.filter_eq_some_iff, ← hA.cell] at hfilter
    exact ⟨text, ht, hfilter.1, by simpa using hfilter.2⟩
  refine ⟨harity.trans h.arity, fun slot => ?_, fun slot text ht => ?_⟩
  · by_cases hs : slot ∈ p.arity.slots
    · obtain ⟨text, ht, hc, -⟩ := hheld slot hs
      rw [ht, hc]
    · have hno : ¬ (a.get? slot).isSome := fun hsome => hs (harity ▸ (a.get?_isSome_iff slot).1 hsome)
      have hno' : ¬ (p.cell slot).isSome := fun hsome => hs (h.expected slot ((h.stored slot).1 hsome))
      rw [Option.not_isSome_iff_eq_none.1 hno, Option.not_isSome_iff_eq_none.1 hno']
  · have hsome : (p.cell slot).isSome := by rw [ht]; rfl
    obtain ⟨held, -, hc, hne⟩ := hheld slot (h.expected slot ((h.stored slot).1 hsome))
    rw [ht] at hc
    cases hc
    exact hne

/-- **The values make an animation** exactly if no slot is open and no value that was placed is empty. -/
theorem exists_build?_iff :
    (∃ a, p.build? = some a) ↔ p.openSlots = 0#8 ∧ ∀ slot text, (text, some slot) ∈ calls → text ≠ "" := by
  constructor
  · rintro ⟨a, hb⟩
    obtain ⟨-, -, hne⟩ := h.of_build?_eq_some hA hb
    refine ⟨by_contra fun hopen => ?_, fun slot text hm => hne slot text ((h.told slot text).2 hm)⟩
    rw [Packed.build?, if_neg hopen] at hb
    cases hb
  · rintro ⟨hopen, hne⟩
    have hnone : A.openSlots = [] := by
      refine List.eq_nil_iff_forall_not_mem.2 fun slot hs => ?_
      have hset := hA.openSlots.2 hs
      rw [hopen, SlotSet.contains_empty] at hset
      cases hset
    obtain ⟨a, hb, -⟩ := Assignment.exists_build? hnone fun slot text ht =>
      hne slot text ((h.told slot text).1 ((hA.cell slot).trans ht))
    exact ⟨a, hA.build?.trans hb⟩

end Kept

/-! ## A run from the start -/

theorem inStep_run (arity : Arity) (tokens : List String) :
    ∃ calls p A, run Packed.place (.empty arity) tokens = (calls, p) ∧
      run Assignment.offer (.empty arity) tokens = (calls, A) ∧ InStep p A ∧ Kept arity calls p := by
  induction tokens using List.reverseRecOn with
  | nil => exact ⟨[], _, _, rfl, rfl, .empty arity, .empty arity⟩
  | append_singleton tokens token ih =>
    obtain ⟨calls, p, A, hp, hA, hstep, hkept⟩ := ih
    rcases hplace : p.place token with ⟨placed, q⟩
    have hcall : p.Placed token (placed, q) := Packed.place_eq_iff.1 hplace
    obtain ⟨B, hB, hstep'⟩ := hstep.offer hcall
    refine ⟨calls ++ [(token, placed)], q, B, ?_, ?_, hstep', hkept.call hcall⟩
    · rw [run_snoc, hp, hplace]
    · rw [run_snoc, hA, hB]

/-- **The byte and the array stay in step through any run.** Place any values one after the other, from the start. Only
slots of the arity are filled, a cell holds a value exactly if the bit of its slot is set, and this is the value of the
one call that was told the slot, which accepts it (`Kept`); as many slots are filled as calls succeeded. Each further call
fails and changes nothing exactly if no slot that accepts the value is open, and else fills the first that is (`Placed`).
An animation can be built exactly if no slot is open and no value that was placed is empty; it has this arity, and in
each of its slots, and in no other, the value that was placed there. All this is as it is for an assignment (`InStep`). -/
theorem packed_in_step (arity : Arity) (tokens : List String) :
    ∃ calls p A, run Packed.place (.empty arity) tokens = (calls, p) ∧
      run Assignment.offer (.empty arity) tokens = (calls, A) ∧ calls.map (·.1) = tokens ∧
      InStep p A ∧ p.build? = A.build? ∧
      Kept arity calls p ∧ Slot.all.countP p.filled.contains = calls.countP (·.2.isSome) ∧
      (∀ token outcome, p.place token = outcome ↔ p.Placed token outcome) ∧
      ((∃ a, p.build? = some a) ↔ p.openSlots = 0#8 ∧ ∀ slot text, (text, some slot) ∈ calls → text ≠ "") ∧
      ∀ a, p.build? = some a → a.arity = arity ∧ (∀ slot, (a.get? slot).isSome ↔ slot ∈ arity.slots) ∧
        ∀ slot text, a.get? slot = some text ↔ (text, some slot) ∈ calls := by
  obtain ⟨calls, p, A, hp, hA, hstep, hkept⟩ := inStep_run arity tokens
  refine ⟨calls, p, A, hp, hA, ?_, hstep, hstep.build?, hkept, hkept.count_filled, fun _ _ => Packed.place_eq_iff,
    hkept.exists_build?_iff hstep, fun a hb => ?_⟩
  · rw [← tokens_run Packed.place (.empty arity) tokens, hp]
  · obtain ⟨harity, hget, -⟩ := hkept.of_build?_eq_some hstep hb
    refine ⟨harity, fun slot => ?_, fun slot text => ?_⟩
    · rw [a.get?_isSome_iff, harity]
    · rw [hget, hkept.told]

/-- The third time finds no slot, and the empty word, which could name keyframes, stands in the way of what is built. -/
example :
    (run Packed.place (.empty .four) ["2s", "3s", "4s", "ease", "spin"]).1 =
        [("2s", some .duration), ("3s", some .delay), ("4s", none), ("ease", some .timingFunction), ("spin", some .name)] ∧
      (run Packed.place (.empty .four) ["2s", "3s", "4s", "ease", "spin"]).2.build? =
        some (.four "2s" "ease" "3s" "spin") ∧
      (run Packed.place (.empty .two) ["", "2s"]).1 = [("", some .name), ("2s", some .duration)] ∧
      (run Packed.place (.empty .two) ["", "2s"]).2.build? = none := by decide +kernel

end StyleScope.Animation
