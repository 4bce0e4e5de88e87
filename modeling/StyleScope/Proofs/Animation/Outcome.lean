/-
What becomes of an animation value. Each definition of it becomes one animation, which holds the values of the
definition and no other, all of them in slots that they fit (`Definition.Describes`). A definition of which that cannot
be made fails by the number of its values or by a value whose slots are all taken (`Definition.Fails`), and the first
such definition is the one that is reported. That a slot stays empty is never reported: no value is empty, and each
takes one slot. Written in the order of their slots, the values are read again as the same animations
(`ofValue_print`).
-/
import StyleScope.Proofs.Animation.Fault
import StyleScope.Proofs.Animation.Filling

namespace StyleScope.Animation

open Byte Scan Text

/-- The animation holds exactly the values of the definition, each in a slot of its arity that the value fits. -/
structure Definition.Describes (d : Definition) (a : Animation) : Prop where
  /-- There are as many slots as values. -/
  count : a.arity.count = d.tokens.length
  /-- The slots are those of the arity. -/
  slots : a.entries.map (·.1) = a.arity.slots
  /-- No value is lost, and none is added. -/
  texts : (a.entries.map (·.2)).Perm d.tokens
  /-- Every value can stand where it does. -/
  fits : ∀ entry ∈ a.entries, entry.1 ∈ candidates entry.2

/-- The error that refuses the definition. -/
inductive Definition.Fails (d : Definition) : Error → Prop
  | arity : d.tokens.length ∉ [2, 4, 8] → d.Fails (.animationArity d.text d.tokens.length)
  | slot {arity : Arity} {front rest : List String} {token : String} {A : Assignment} :
    arity.count = d.tokens.length → d.tokens = front ++ token :: rest →
      (Assignment.empty arity).placeAll front = .ok A → (∀ slot ∈ candidates token, slot ∉ A.openSlots) →
        d.Fails (.animationSlot d.text token)

/-! ## Definitions -/

theorem Definition.describes_of_assign {d : Definition} {a : Animation} (h : d.assign = .ok a) : d.Describes a := by
  obtain ⟨hfits, hperm⟩ := Definition.of_assign h
  refine ⟨?_, map_fst_entries a, hperm, ?_⟩
  · rw [← length_texts, hperm.length_eq]
  · rintro ⟨slot, text⟩ he
    exact mem_candidates.2 (hfits slot text (mem_entries.1 he))

theorem ofCount?_eq_none {n : Nat} (h : Arity.ofCount? n = none) : n ∉ [2, 4, 8] := by
  intro hn
  simp only [List.mem_cons, List.not_mem_nil, or_false] at hn
  rcases hn with rfl | rfl | rfl <;> cases h

theorem Definition.fails_of_assign {d : Definition} {e : Error} (hne : ∀ token ∈ d.tokens, token ≠ "")
    (h : d.assign = .error e) : d.Fails e := by
  rcases Definition.of_assign_eq_error hne h with ⟨hc, rfl⟩ | ⟨arity, token, hc, hp, rfl⟩
  · exact .arity (ofCount?_eq_none hc)
  · obtain ⟨front, rest, A, ht, hfront, hnone⟩ := Assignment.of_placeAll_eq_error hp
    refine .slot (Arity.count_of_ofCount? hc) ht hfront fun slot hs hopen => ?_
    have hrefuse := Assignment.place?_eq_none_iff.1 hnone slot hopen
    rw [mem_candidates.1 hs] at hrefuse
    cases hrefuse

/-! ## Values -/

theorem ne_empty_of_tokens {xs rest : Bytes} {ts : List String} (h : tokens xs = .ok (ts, rest)) :
    ∀ token ∈ ts, token ≠ "" := by
  rintro token ht rfl
  exact ((lighter_of_tokens h).2.1 "" ht).1 encode_empty

/-- A value begins where a gap has been skipped. -/
theorem flush_of_tokens {xs rest : Bytes} {ts : List String} (h : tokens xs = .ok (ts, rest)) :
    ∀ token ∈ ts, Flush (encode token) := by
  fun_induction tokens xs generalizing ts with
  | case1 => cases h; exact fun _ ht => by cases ht
  | case2 => cases h; exact fun _ ht => by cases ht
  | case3 => cases h
  | case4 xs b ys hs _ after hv ih =>
    simp only [bind_eq_ok_iff] at h
    obtain ⟨token, ht, ⟨more, _⟩, hm, hr⟩ := h
    cases hr
    have hflush := flush_skipGap xs
    rw [hs, textBefore_eq_ok (afterValue_suffix hv) ht] at hflush
    intro t htm
    rcases List.mem_cons.1 htm with rfl | htm
    · exact hflush.of_append
    · exact ih hm t htm

/-- The values of each definition are read from some place on. -/
theorem exists_tokens_of_definitionsFrom {xs : Bytes} {ds : List Definition} (h : definitionsFrom xs = .ok ds) :
    ∀ d ∈ ds, ∃ ys rest, tokens ys = .ok (d.tokens, rest) := by
  fun_induction definitionsFrom xs generalizing ds with
  | case1 => cases h
  | case2 xs ts ht =>
    simp only [bind_eq_ok_iff] at h
    obtain ⟨text, -, hr⟩ := h
    cases hr
    intro d hd
    obtain rfl := List.mem_singleton.1 hd
    exact ⟨xs, [], ht⟩
  | case3 xs ts b rest ht ih =>
    simp only [bind_eq_ok_iff] at h
    obtain ⟨text, -, more, hmore, hr⟩ := h
    cases hr
    intro d hd
    rcases List.mem_cons.1 hd with rfl | hd
    · exact ⟨xs, b :: rest, ht⟩
    · exact ih hmore d hd

/-- **No value of a definition is empty.** -/
theorem ne_empty_of_definitionsFrom {xs : Bytes} {ds : List Definition} (h : definitionsFrom xs = .ok ds) :
    ∀ d ∈ ds, ∀ token ∈ d.tokens, token ≠ "" := by
  intro d hd
  obtain ⟨_, _, ht⟩ := exists_tokens_of_definitionsFrom h d hd
  exact ne_empty_of_tokens ht

/-- A value of a definition is a token if it is read whole before a comma. -/
theorem token_of_definitionsFrom {xs : Bytes} {ds : List Definition} (h : definitionsFrom xs = .ok ds)
    {d : Definition} (hd : d ∈ ds) {t : String} (ht : t ∈ d.tokens)
    (hc : afterValue [comma] (encode t ++ [comma]) = .ok [comma]) : Token comma t := by
  obtain ⟨_, _, htokens⟩ := exists_tokens_of_definitionsFrom h d hd
  exact ⟨ne_empty_of_tokens htokens t ht, not_beginsWithComment_of_flush (flush_of_tokens htokens t ht), hc⟩

/-- The first definition that fails is the one that is reported. -/
theorem fails_of_mapM {ds : List Definition} {e : Error} (hne : ∀ d ∈ ds, ∀ token ∈ d.tokens, token ≠ "")
    (h : ds.mapM Definition.assign = .error e) :
    ∃ front d rest, ds = front ++ d :: rest ∧ (∀ c ∈ front, ∃ a, c.assign = .ok a) ∧ d.assign = .error e ∧
      d.Fails e := by
  obtain ⟨front, d, rest, rfl, hfront, hd⟩ := of_mapM_assign_eq_error h
  exact ⟨front, d, rest, rfl, hfront, hd, Definition.fails_of_assign (hne d (by simp)) hd⟩

/-- **No value is lost, added or left without a slot.** An animation value is never refused because a slot stays empty;
if it is read, then into one animation for each definition, in their order, that holds exactly the values of the
definition in slots that they fit; and if it is refused after it was split, then for the first definition that fails,
by the number of its values or the first of them for which no slot is left. -/
theorem ofValue_outcome (value : String) :
    (∀ text, ofValue value ≠ .error (.animationIncomplete text)) ∧
      (∀ as, ofValue value = .ok as → ∃ ds, locating definitions (encode value) = .ok ds ∧
        List.Forall₂ Definition.Describes ds as) ∧
      ∀ ds e, locating definitions (encode value) = .ok ds → ofValue value = .error e →
        ∃ front d rest, ds = front ++ d :: rest ∧ (∀ c ∈ front, ∃ a, c.assign = .ok a) ∧ d.assign = .error e ∧
          d.Fails e := by
  cases hd : locating definitions (encode value) with
  | error e =>
    have hv : ofValue value = .error e := by rw [ofValue, hd]; rfl
    refine ⟨fun text h => ?_, fun as h => ?_, fun ds e' h _ => by cases h⟩
    · rw [hv] at h
      obtain ⟨_, _, _, -, -, -, -, he⟩ | he := of_locating_definitions_eq_error hd <;>
        exact absurd (he.symm.trans (Except.error.inj h)) (by simp)
    · rw [hv] at h
      cases h
  | ok ds =>
    have hv : ofValue value = ds.mapM Definition.assign := by rw [ofValue, hd]; rfl
    have hfrom := locating_eq_ok_iff.1 hd
    have hne := ne_empty_of_definitionsFrom hfrom
    rw [hv]
    refine ⟨fun text h => ?_, fun as h => ?_, fun ds' e hds h => ?_⟩
    · obtain ⟨_, _, _, -, -, -, hf⟩ := fails_of_mapM hne h
      cases hf
    · exact ⟨ds, rfl, (assigned_of_mapM h).imp fun _ _ => Definition.describes_of_assign⟩
    · obtain rfl := Except.ok.inj hds
      exact fails_of_mapM hne h

/-- The second of three definitions is the one that is reported, though the third would fail too: `none` is no name. -/
theorem ofValue_outcome_none :
    let ds : List Definition := [⟨"1s a", ["1s", "a"]⟩, ⟨"2s none", ["2s", "none"]⟩, ⟨"3s", ["3s"]⟩]
    let e := Error.animationSlot "2s none" "none"
    locating definitions (encode "1s a, 2s none, 3s") = .ok ds ∧ ofValue "1s a, 2s none, 3s" = .error e ∧
      ∃ front d rest, ds = front ++ d :: rest ∧ (∀ c ∈ front, ∃ a, c.assign = .ok a) ∧ d.assign = .error e ∧
        d.Fails e := by
  intro ds e
  have hsplit : locating definitions (encode "1s a, 2s none, 3s") = .ok ds := by decide +kernel
  have hfail : ofValue "1s a, 2s none, 3s" = .error e := by decide +kernel
  exact ⟨hsplit, hfail, (ofValue_outcome "1s a, 2s none, 3s").2.2 ds e hsplit hfail⟩

/-- Splitting comes first: a string that the second definition leaves open is reported before the first is counted. -/
example : ofValue "a, f('" = .error (.unterminatedQuote singleQuote 5) := by decide +kernel

/-! ## Reading again -/

/-- **The order of the slots is stable.** A value that was read, written with the values of each definition in the order
of their slots, is read again as the same animations, provided that each value is read whole before a comma. Only the
last value of the text can fail to be, as it may end within a group. -/
theorem ofValue_print {value : String} {ds : List Definition} {as : List Animation}
    (hd : locating definitions (encode value) = .ok ds) (h : ofValue value = .ok as)
    (hc : ∀ d ∈ ds, ∀ t ∈ d.tokens, afterValue [comma] (encode t ++ [comma]) = .ok [comma]) :
    ofValue (",".intercalate (as.map print)) = .ok as := by
  have hm : ds.mapM Definition.assign = .ok as := by
    rw [ofValue, hd] at h
    exact h
  have hfrom := locating_eq_ok_iff.1 hd
  have htoken : ∀ a ∈ as, ∀ t ∈ a.texts, Token comma t := by
    intro a ha t ht
    obtain ⟨d, hdm, hassign⟩ := exists_definition_of_mapM hm ha
    have htd := (Definition.of_assign hassign).2.mem_iff.1 ht
    exact token_of_definitionsFrom hfrom hdm htd (hc d hdm t htd)
  have hne : as ≠ [] := (lighter_of_definitionsFrom hfrom hm).1
  exact ofValue_of_layout (definitionsLayout_print hne) (fun a ha => fits_of_ofValue h ha) htoken

/-- A definition of four values has no play state, so `paused` is the name; it is written behind `ease-in`, which could
be a name as well. -/
theorem ofValue_print_paused :
    let value := "4s paused ease-in /**/1s , fade\t3s"
    let ds : List Definition :=
      [⟨"4s paused ease-in /**/1s", ["4s", "paused", "ease-in", "1s"]⟩, ⟨"fade\t3s", ["fade", "3s"]⟩]
    let as := [Animation.four "4s" "ease-in" "1s" "paused", .two "3s" "fade"]
    locating definitions (encode value) = .ok ds ∧ ofValue value = .ok as ∧
      (∀ d ∈ ds, ∀ t ∈ d.tokens, afterValue [comma] (encode t ++ [comma]) = .ok [comma]) ∧
      ofValue (",".intercalate (as.map print)) = .ok as := by
  intro value ds as
  have hd : locating definitions (encode value) = .ok ds := by decide +kernel
  have h : ofValue value = .ok as := by decide +kernel
  have hc : ∀ d ∈ ds, ∀ t ∈ d.tokens, afterValue [comma] (encode t ++ [comma]) = .ok [comma] := by decide +kernel
  exact ⟨hd, h, hc, ofValue_print hd h hc⟩

end StyleScope.Animation
