/-
Assigning slot by slot. `Assignment.placeAll` goes through the values of a definition and gives each the first open
slot that accepts it. `bySlot` goes through the slots and gives each the first value that it accepts of those that are
left. For a definition that has as many values as slots, both come to the same (`assign_iff_bySlot`): the first value
that the first slot accepts gets that slot in either way, whatever becomes of the values before it, and the rest is an
assignment of fewer values to fewer slots.
-/
import StyleScope.Proofs.Animation.Filling

namespace StyleScope.Animation

/-- Slots with their values: each slot in turn takes the first value that it fits of those that are left. -/
def bySlot : List Slot → List String → Option (List (Slot × String))
  | [], _ => some []
  | slot :: slots, tokens => do
    let token ← tokens.find? fun token => slot ∈ candidates token
    let more ← bySlot slots (tokens.eraseP fun token => slot ∈ candidates token)
    return (slot, token) :: more

theorem entries_eq (a : Animation) :
    a.entries = a.arity.slots.filterMap fun slot => (a.get? slot).map (slot, ·) := by cases a <;> rfl

/-- The values of an animation by their slots determine it. -/
theorem entries_injective {a b : Animation} (h : a.entries = b.entries) : a = b := by
  have hget : a.get? = b.get? := by
    funext slot
    refine Option.ext fun text => ?_
    rw [← mem_entries, ← mem_entries, h]
  have hslots : a.arity.slots = b.arity.slots := by rw [← map_fst_entries, ← map_fst_entries, h]
  have harity : a.arity = b.arity := by
    have hcount := congrArg List.length hslots
    rw [Arity.length_slots, Arity.length_slots] at hcount
    rw [← Option.some.injEq, ← Arity.ofCount?_count, hcount, Arity.ofCount?_count]
  have ha := ofTexts?_get? a
  rw [hget, harity, ofTexts?_get?] at ha
  exact (Option.some.inj ha).symm

theorem bySlot_cons_none {slot : Slot} {slots : List Slot} {tokens : List String}
    (h : ∀ token ∈ tokens, slot.accepts token = false) : bySlot (slot :: slots) tokens = none := by
  have hfind : tokens.find? (fun token => slot ∈ candidates token) = none :=
    List.find?_eq_none.2 fun token ht => by simp [mem_candidates, h token ht]
  rw [bySlot, hfind]
  rfl

theorem bySlot_cons_some {slot : Slot} {slots : List Slot} {front rest : List String} {token : String}
    (hfront : ∀ t ∈ front, slot.accepts t = false) (ht : slot.accepts token) :
    bySlot (slot :: slots) (front ++ token :: rest) = (bySlot slots (front ++ rest)).map ((slot, token) :: ·) := by
  have hskip : ∀ t ∈ front, ¬ decide (slot ∈ candidates t) = true := fun t hm => by
    simp [mem_candidates, hfront t hm]
  have htake : decide (slot ∈ candidates token) = true := by simpa [mem_candidates] using ht
  have hfind : (front ++ token :: rest).find? (fun token => slot ∈ candidates token) = some token :=
    List.find?_eq_some_iff_append.2 ⟨htake, front, rest, rfl, fun t hm => by simpa using hskip t hm⟩
  have herase : (front ++ token :: rest).eraseP (fun token => slot ∈ candidates token) = front ++ rest := by
    rw [List.eraseP_append_right _ hskip, List.eraseP_cons_of_pos (p := fun t => slot ∈ candidates t) htake]
  rw [bySlot, hfind, herase]
  cases bySlot slots (front ++ rest) <;> rfl

namespace Assignment

variable {A : Assignment} {slot : Slot} {slots : List Slot} {token : String} {tokens front rest : List String}

theorem fill_comm (A : Assignment) {slot other : Slot} (h : slot ≠ other) (token text : String) :
    (A.fill slot token).fill other text = (A.fill other text).fill slot token := by
  simp only [fill, Assignment.mk.injEq, true_and]
  funext s
  by_cases hs : s = slot
  · subst hs
    simp [h]
  · simp [hs]

/-- **The first value that the first open slot accepts gets that slot**, and the other values are placed as they are
without the two. -/
theorem placeAll_extract (hopen : A.openSlots = slot :: slots) (hfront : ∀ t ∈ front, slot.accepts t = false)
    (ht : slot.accepts token) :
    A.placeAll (front ++ token :: rest) = (A.fill slot token).placeAll (front ++ rest) := by
  induction front generalizing A slots with
  | nil =>
    have hp : A.place? token = some (slot, A.fill slot token) := by
      rw [place?, hopen, List.find?_cons, ht]
      rfl
    rw [List.nil_append, List.nil_append, placeAll, hp]
  | cons t front ih =>
    have hslots : slots.Nodup ∧ slot ∉ slots := by
      have hn := nodup_openSlots A
      rw [hopen, List.nodup_cons] at hn
      exact ⟨hn.2, hn.1⟩
    have hrest : (A.fill slot token).openSlots = slots := by
      rw [openSlots_fill, hopen, List.erase_cons_head]
    have hskip : slot.accepts t = false := hfront t List.mem_cons_self
    rw [List.cons_append, List.cons_append, placeAll, placeAll, place?, place?, hopen, hrest, List.find?_cons, hskip]
    cases hfind : slots.find? (·.accepts t) with
    | none => rfl
    | some other =>
      have hne : slot ≠ other := fun h => hslots.2 (h ▸ List.mem_of_find?_eq_some hfind)
      have hopen' : (A.fill other t).openSlots = slot :: slots.erase other := by
        rw [openSlots_fill, hopen, List.erase_cons_tail (by simpa using hne)]
      simp only [Option.map_some]
      rw [ih hopen' fun s hs => hfront s (List.mem_cons_of_mem t hs), fill_comm A hne]

/-- **Placing value by value fills the slots as choosing slot by slot does**, where there are as many values as open
slots. -/
theorem bySlot_eq (hopen : A.openSlots = slots) (hlen : tokens.length = slots.length) :
    bySlot slots tokens =
      (A.placeAll tokens).toOption.map fun B => slots.filterMap fun slot => (B.texts slot).map (slot, ·) := by
  induction slots generalizing A tokens with
  | nil =>
    obtain rfl := List.length_eq_zero_iff.1 hlen
    rfl
  | cons slot slots ih =>
    cases hfind : tokens.find? (slot.accepts ·) with
    | none =>
      have hskip : ∀ t ∈ tokens, slot.accepts t = false := by simpa using List.find?_eq_none.1 hfind
      rw [bySlot_cons_none hskip]
      cases hp : A.placeAll tokens with
      | error t => rfl
      | ok B =>
        -- all slots would be filled, but this one accepts no value
        have hfull := length_openSlots_of_placeAll hp
        have hB : B.openSlots = [] := List.length_eq_zero_iff.1 (by rw [hopen, hlen] at hfull; omega)
        have hslot := mem_openSlots.1 (hopen ▸ List.mem_cons_self : slot ∈ A.openSlots)
        obtain ⟨text, htext⟩ := exists_text_of_openSlots hB (arity_of_placeAll hp ▸ hslot.1)
        obtain ⟨hacc, hmem⟩ := accepts_of_placeAll hp hslot.2 htext
        rw [hskip text hmem] at hacc
        cases hacc
    | some token =>
      obtain ⟨htoken, front, rest, rfl, hfront⟩ := List.find?_eq_some_iff_append.1 hfind
      have hskip : ∀ t ∈ front, slot.accepts t = false := by simpa using hfront
      have hrest : (A.fill slot token).openSlots = slots := by
        rw [openSlots_fill, hopen, List.erase_cons_head]
      have hlen' : (front ++ rest).length = slots.length := by
        simp only [List.length_append, List.length_cons] at hlen ⊢
        omega
      rw [bySlot_cons_some hskip htoken, placeAll_extract hopen hskip htoken, ih hrest hlen']
      cases hp : (A.fill slot token).placeAll (front ++ rest) with
      | error t => rfl
      | ok B =>
        have hheld := texts_of_placeAll hp (texts_fill_self A slot token)
        simp only [Except.toOption, Option.map_some]
        rw [List.filterMap_cons_some (by rw [hheld]; rfl)]

end Assignment

/-- **Assigning value by value is assigning slot by slot.** A definition with as many values as its arity has slots, none
of them empty, is an animation exactly when each slot in turn finds a value that it fits among those that are left;
and then the animation has these values in these slots. -/
theorem assign_iff_bySlot {arity : Arity} {tokens : List String} (hlen : tokens.length = arity.count)
    (hne : ∀ token ∈ tokens, token ≠ "") (text : String) :
    ((∃ a, Definition.assign ⟨text, tokens⟩ = .ok a) ↔ ∃ entries, bySlot arity.slots tokens = some entries) ∧
      ∀ a, Definition.assign ⟨text, tokens⟩ = .ok a ↔
        a.arity = arity ∧ bySlot arity.slots tokens = some a.entries := by
  have hcount : Arity.ofCount? tokens.length = some arity := by rw [hlen, Arity.ofCount?_count]
  have hslots := Assignment.bySlot_eq (Assignment.openSlots_empty arity) (hlen.trans arity.length_slots.symm)
  cases hp : (Assignment.empty arity).placeAll tokens with
  | error token =>
    rw [hp] at hslots
    have hfail : Definition.assign ⟨text, tokens⟩ = .error (.animationSlot text token) := by
      simp only [Definition.assign, hcount, hp]
    rw [hfail, hslots]
    simp [Except.toOption]
  | ok B =>
    rw [hp] at hslots
    obtain ⟨a, ha, harity, hget⟩ := Definition.exists_assign (d := ⟨text, tokens⟩) hcount hne hp
    have hentries : bySlot arity.slots tokens = some a.entries := by
      rw [hslots, entries_eq, harity]
      exact congrArg some (List.filterMap_congr fun slot hs => by rw [hget slot hs])
    rw [ha, hentries]
    refine ⟨⟨fun _ => ⟨a.entries, rfl⟩, fun _ => ⟨a, rfl⟩⟩, fun b => ⟨?_, ?_⟩⟩
    · intro h
      cases h
      exact ⟨harity, rfl⟩
    · intro h
      rw [entries_injective (Option.some.inj h.2)]

/-- Here `normal` and `none`, which could be names, and the times, which could be durations or delays, are told apart by
the order of the slots, though the values stand in an order of their own. -/
theorem assign_iff_bySlot_shuffled :
    let tokens := ["infinite", "ease", "2s", "normal", "none", "running", "1s", "paused"]
    let a := Animation.eight "2s" "ease" "1s" "infinite" "normal" "none" "running" "paused"
    tokens.length = Arity.eight.count ∧ (∀ token ∈ tokens, token ≠ "") ∧ bySlot Arity.eight.slots tokens = some a.entries ∧
      Definition.assign ⟨"", tokens⟩ = .ok a :=
  have hslots : bySlot Arity.eight.slots ["infinite", "ease", "2s", "normal", "none", "running", "1s", "paused"] =
      some (Animation.eight "2s" "ease" "1s" "infinite" "normal" "none" "running" "paused").entries := by decide +kernel
  ⟨rfl, by decide, hslots, ((assign_iff_bySlot rfl (by decide) "").2 _).2 ⟨rfl, hslots⟩⟩

end StyleScope.Animation
