/-
The places that a reading of a sheet comes to, whether or not it ends well: where it starts a rule (`ruleStarts`), a
condition and a property. On a sheet that is read these are the rules of the tree, in its order (`items_of_read`). What
is read from such a place on may be exchanged for any bytes that are read as the same rule, and the sheet is read as
before (`exists_front_of_mem`).
-/
import StyleScope.Proofs.Sheet.Soundness

namespace StyleScope

open Byte Scan Text

namespace Sheet

/-! ## Places -/

deriving instance DecidableEq for Item

/-- The blocks that an item leaves open. -/
def Item.opened : Item → Nat
  | .rule _ => 0
  | .opening .. => 1

/-- What a rule at the place begins with, and what remains after that, if it can be read. -/
def itemAt? : Bytes → Option (Item × Bytes)
  | [] => none
  | b :: xs => (item b xs).toOption

/-- The places where reading starts a rule, with as many conditional rules open. It ends at the first fault. -/
def ruleStartsFrom (opened : Nat) (xs : Bytes) : List Bytes :=
  match _hg : skipGap xs with
  | [] => []
  | b :: ys =>
    if b = closeBrace then
      match opened with
      | 0 => []
      | opened + 1 => ruleStartsFrom opened ys
    else
      match _hi : item b ys with
      | .error _ => [b :: ys]
      | .ok (i, rest) => (b :: ys) :: ruleStartsFrom (opened + i.opened) rest
termination_by xs.length
decreasing_by
  all_goals
    have hle := length_skipGap_le xs
    rw [_hg] at hle
  · exact hle
  · exact Nat.lt_of_lt_of_le (item_length_lt _hi) hle

/-- The places where reading a sheet starts a rule, in order and at every depth. -/
def ruleStarts (xs : Bytes) : List Bytes := ruleStartsFrom 0 xs

/-- The places where reading a block of declarations starts a property. -/
def propertyStarts (xs : Bytes) : List Bytes :=
  match _hg : skipGap xs with
  | [] => []
  | b :: ys =>
    if b = closeBrace then []
    else if b = semicolon then propertyStarts ys
    else
      match _hd : declaration (b :: ys) with
      | .error _ => [b :: ys]
      | .ok (_, rest) => (b :: ys) :: propertyStarts rest
termination_by xs.length
decreasing_by
  all_goals
    have hle := length_skipGap_le xs
    rw [_hg] at hle
  · exact hle
  · exact Nat.lt_of_lt_of_le (declaration_length_lt _hd) hle

/-- Reading the sheet starts a condition at the place: after the keyword of a conditional rule and a gap. -/
def StartsCondition (xs : Bytes) (kind : ConditionalKind) (start : Bytes) : Prop :=
  ∃ place ∈ ruleStarts xs, place.head? = some atSign ∧
    textBefore place (seek endsKeyword place) = .ok kind.keyword ∧ start = skipGap (seek endsKeyword place)

/-- Reading the sheet starts a property at the place, in the block of a style rule. -/
def StartsProperty (xs start : Bytes) : Prop :=
  ∃ place ∈ ruleStarts xs, place.head? ≠ some atSign ∧
    ∃ ss inside, selectors place = .ok (ss, openBrace :: inside) ∧ start ∈ propertyStarts inside

variable {xs front place place' rest : Bytes} {b : UInt8} {i : Item} {opened : Nat}

theorem ruleStartsFrom_eq (opened : Nat) (xs : Bytes) :
    ruleStartsFrom opened xs =
      match skipGap xs with
      | [] => []
      | b :: ys =>
        if b = closeBrace then
          match opened with
          | 0 => []
          | opened + 1 => ruleStartsFrom opened ys
        else
          match item b ys with
          | .error _ => [b :: ys]
          | .ok (i, rest) => (b :: ys) :: ruleStartsFrom (opened + i.opened) rest := by
  rw [ruleStartsFrom.eq_def]
  split
  · next hg => rw [hg]
  · next b ys hg =>
    rw [hg]
    simp only
    split
    · rfl
    · split <;> next hi => rw [hi]

theorem propertyStarts_eq (xs : Bytes) :
    propertyStarts xs =
      match skipGap xs with
      | [] => []
      | b :: ys =>
        if b = closeBrace then []
        else if b = semicolon then propertyStarts ys
        else
          match declaration (b :: ys) with
          | .error _ => [b :: ys]
          | .ok (_, rest) => (b :: ys) :: propertyStarts rest := by
  rw [propertyStarts.eq_def]
  split
  · next hg => rw [hg]
  · next b ys hg =>
    rw [hg]
    simp only
    split
    · rfl
    · split
      · rfl
      · split <;> next hd => rw [hd]

theorem itemAt?_eq_some_iff {p : Item × Bytes} : itemAt? (b :: xs) = some p ↔ item b xs = .ok p := by
  rw [itemAt?]
  cases item b xs with
  | error fault => simp [Except.toOption]
  | ok q => simp [Except.toOption]

/-- What is read from the start of a condition is what the rule begins with. -/
theorem StartsCondition.condition {kind : ConditionalKind} {start : Bytes} (h : StartsCondition xs kind start) :
    ∃ place ∈ ruleStarts xs, itemAt? place = (condition kind start).toOption := by
  obtain ⟨place, hp, ha, hk, rfl⟩ := h
  refine ⟨place, hp, ?_⟩
  cases place with
  | nil => cases ha
  | cons b place =>
    cases ha
    rw [itemAt?, item, if_pos rfl, atRule, hk]
    simp only [bind, Except.bind, ConditionalKind.ofKeyword?_keyword]

/-- What is read at the places where properties start is what the block holds, in its order. -/
theorem declarations_of_propertyStarts {ds : List Declaration} (h : declarations xs = .ok (ds, rest)) :
    (propertyStarts xs).filterMap (fun start => (declaration start).toOption.map Prod.fst) = ds := by
  fun_induction declarations xs generalizing ds with
  | case1 => cases h
  | case2 xs ys hg =>
    cases h
    rw [propertyStarts_eq, hg]
    rfl
  | case3 xs ys hg hne ih =>
    rw [propertyStarts_eq, hg]
    exact ih h
  | case4 => cases h
  | case5 xs b ys hg hb hs first after hd ih =>
    simp only [bind_eq_ok_iff] at h
    obtain ⟨⟨more, r⟩, hm, hr⟩ := h
    cases hr
    rw [propertyStarts_eq, hg]
    simp only [if_neg hb, if_neg hs, hd, List.filterMap_cons, ih hm]
    rfl

/-! ## One rule -/

/-- A rule is read at the place, as what it begins with, and reading would come to it: no gap and no closing brace stands
there. -/
structure ReadsItem (place : Bytes) (i : Item) (rest : Bytes) : Prop where
  flush : Flush place
  head?_ne : place.head? ≠ some closeBrace
  read : itemAt? place = some (i, rest)

theorem ItemText.readsItem {rule : Rule} {x : Bytes} (h : ItemText rule x) (rest : Bytes) :
    ReadsItem (x ++ rest) (.rule rule) rest := by
  have hflush := h.flush rest
  obtain ⟨c, ys, hcons, hc, hitem⟩ := h.item rest
  rw [hcons] at hflush ⊢
  exact ⟨hflush, head?_cons_ne hc ys, itemAt?_eq_some_iff.2 hitem⟩

theorem ConditionText.readsItem {kind : ConditionalKind} {condition : String} {x : Bytes}
    (h : ConditionText kind condition x) (rest : Bytes) : ReadsItem (x ++ rest) (.opening kind condition) rest := by
  have hflush := h.flush rest
  have hrule := h.atRule rest
  obtain ⟨c, rfl⟩ : ∃ c, x = atSign :: c := by
    obtain ⟨-, -, -, -⟩ := h
    cases kind <;> exact ⟨_, rfl⟩
  rw [List.cons_append] at hflush hrule ⊢
  refine ⟨hflush, head?_cons_ne (by decide) _, itemAt?_eq_some_iff.2 ?_⟩
  rw [item, if_pos rfl, hrule]

/-- **What a rule begins with is read alike whatever follows it.** -/
theorem exists_readsItem_append (hi : item b xs = .ok (i, rest)) (hf : Flush (b :: xs)) :
    ∃ x, b :: xs = x ++ rest ∧ ∀ more, ReadsItem (x ++ more) i more := by
  obtain ⟨x, he, ⟨rule, rfl, hx⟩ | ⟨kind, text, rfl, hx⟩⟩ := item_sound hi hf
  · exact ⟨x, he, hx.readsItem⟩
  · exact ⟨x, he, hx.readsItem⟩

theorem ReadsItem.itemText {rule : Rule} (h : ReadsItem place (.rule rule) rest) :
    ∃ x, place = x ++ rest ∧ ItemText rule x := by
  obtain ⟨hf, -, hr⟩ := h
  cases place with
  | nil => cases hr
  | cons b xs =>
    obtain ⟨x, he, ⟨_, hrule, hx⟩ | ⟨_, _, hrule, -⟩⟩ := item_sound (itemAt?_eq_some_iff.1 hr) hf
    · cases hrule
      exact ⟨x, he, hx⟩
    · cases hrule

/-- The conditional rules that are open after what a rule begins with, and the rules read in the innermost. -/
def Item.after (outer : List Frame) (done : List Rule) : Item → List Frame × List Rule
  | .rule whole => (outer, whole :: done)
  | .opening kind condition => (⟨kind, condition, done⟩ :: outer, [])

theorem Item.length_after (outer : List Frame) (done : List Rule) (i : Item) :
    (i.after outer done).1.length = outer.length + i.opened := by
  cases i <;> rfl

theorem ReadsItem.rulesFrom (h : ReadsItem place i rest) (outer : List Frame) (done : List Rule) :
    rulesFrom outer done place = Sheet.rulesFrom (i.after outer done).1 (i.after outer done).2 rest := by
  obtain ⟨hf, hc, hr⟩ := h
  cases place with
  | nil => cases hr
  | cons b xs =>
    have hb : b ≠ closeBrace := fun hb => hc (by rw [hb]; rfl)
    rw [rulesFrom_eq, skipGap_of_flush hf]
    simp only [if_neg hb, itemAt?_eq_some_iff.1 hr]
    cases i <;> rfl

/-- **Reading comes to a rule in a state that only depends on what stands before it.** -/
theorem exists_state_of_mem (outer : List Frame) (done : List Rule) (hn : outer.length = opened)
    (h : place ∈ ruleStartsFrom opened xs) :
    Flush place ∧ place.head? ≠ some closeBrace ∧ ∃ front outer' done', xs = front ++ place ∧
      ∀ more, Sheet.rulesFrom outer done (front ++ more) = Sheet.rulesFrom outer' done' more := by
  fun_induction Sheet.ruleStartsFrom opened xs generalizing outer done with
  | case1 => cases h
  | case2 => cases h
  | case3 xs ys opened hg ih =>
    cases outer with
    | nil => cases hn
    | cons frame outer =>
      obtain ⟨g, hgap, rfl, -⟩ := exists_gap_of_skipGap hg
      obtain ⟨hf, hc, front, outer', done', rfl, hall⟩ := ih outer (frame.close done) (Nat.succ.inj hn) h
      refine ⟨hf, hc, g ++ closeBrace :: front, outer', done', by simp, fun more => ?_⟩
      rw [List.append_assoc, List.cons_append, rulesFrom_gap hgap, rulesFrom_closeBrace, hall]
  | case4 opened xs b ys hg hb fault hi =>
    obtain rfl := List.mem_singleton.1 h
    obtain ⟨g, hgap, rfl, hf⟩ := exists_gap_of_skipGap hg
    exact ⟨hf, head?_cons_ne hb ys, g, outer, done, rfl, fun more => rulesFrom_gap hgap more⟩
  | case5 opened xs b ys hg hb i rest hi ih =>
    obtain ⟨g, hgap, rfl, hf⟩ := exists_gap_of_skipGap hg
    rcases List.mem_cons.1 h with rfl | h
    · exact ⟨hf, head?_cons_ne hb ys, g, outer, done, rfl, fun more => rulesFrom_gap hgap more⟩
    · obtain ⟨x, he, hx⟩ := exists_readsItem_append hi hf
      have hlen : (i.after outer done).1.length = opened + i.opened := by rw [Item.length_after, hn]
      obtain ⟨hf, hc, front, outer', done', rfl, hall⟩ := ih _ _ hlen h
      refine ⟨hf, hc, g ++ (x ++ front), outer', done', by rw [he]; simp, fun more => ?_⟩
      rw [List.append_assoc, List.append_assoc, rulesFrom_gap hgap, (hx _).rulesFrom, hall]

/-- **A rule may be exchanged for any bytes that are read as what it begins with**: the sheet is read as before. -/
theorem exists_front_of_mem (h : place ∈ ruleStarts xs) (hi : itemAt? place = some (i, rest)) :
    ReadsItem place i rest ∧
      ∃ front, xs = front ++ place ∧ ∀ place', ReadsItem place' i rest → read (front ++ place') = read xs := by
  obtain ⟨hf, hc, front, outer, done, rfl, hall⟩ := exists_state_of_mem [] [] rfl h
  have hplace : ReadsItem place i rest := ⟨hf, hc, hi⟩
  exact ⟨hplace, front, rfl, fun place' h' => by rw [read, read, hall, hall, h'.rulesFrom, hplace.rulesFrom]⟩

end Sheet

/-! ## The rules of a tree -/

mutual

/-- What the rule begins with, and the rules in it. -/
def Rule.items : Rule → List Sheet.Item
  | .style selectors declarations => [.rule (.style selectors declarations)]
  | .keyframes name body => [.rule (.keyframes name body)]
  | .conditional kind condition rules => .opening kind condition :: Sheet.items rules

/-- What rules begin with, in order and at every depth. -/
def Sheet.items : List Rule → List Sheet.Item
  | [] => []
  | rule :: rules => rule.items ++ Sheet.items rules

end

namespace Sheet

theorem items_append (rules more : List Rule) : items (rules ++ more) = items rules ++ items more := by
  induction rules with
  | nil => rfl
  | cons rule rules ih => rw [List.cons_append, items, items, ih, List.append_assoc]

/-- What has been read, within the conditional rules that are open. -/
def itemsRead : List Frame → List Rule → List Item
  | [], done => items done.reverse
  | frame :: outer, done =>
    itemsRead outer frame.earlier ++ .opening frame.kind frame.condition :: items done.reverse

theorem itemsRead_append (outer : List Frame) (done more : List Rule) :
    itemsRead outer (more ++ done) = itemsRead outer done ++ items more.reverse := by
  cases outer with
  | nil => rw [itemsRead, itemsRead, List.reverse_append, items_append]
  | cons frame outer => rw [itemsRead, itemsRead, List.reverse_append, items_append, List.append_assoc, List.cons_append]

theorem itemsRead_close (frame : Frame) (outer : List Frame) (done : List Rule) :
    itemsRead outer (frame.close done) = itemsRead (frame :: outer) done := by
  have hclose : frame.close done = [.conditional frame.kind frame.condition done.reverse] ++ frame.earlier := rfl
  rw [hclose, itemsRead_append, itemsRead]
  simp [items, Rule.items]

/-- The rules that are read at the places. -/
def itemsAt (places : List Bytes) : List Item := places.filterMap fun place => (itemAt? place).map Prod.fst

theorem itemsAt_cons (hi : item b xs = .ok (i, rest)) (places : List Bytes) :
    itemsAt ((b :: xs) :: places) = i :: itemsAt places := by
  rw [itemsAt, List.filterMap_cons, itemAt?_eq_some_iff.2 hi]
  rfl

/-- A rule that is read to its end is no conditional rule. -/
theorem ItemText.items {rule : Rule} {x : Bytes} (h : ItemText rule x) : rule.items = [.rule rule] := by
  cases h <;> rfl

theorem ruleStartsFrom_item (hg : skipGap place = b :: xs) (hb : b ≠ closeBrace) (hi : item b xs = .ok (i, rest)) :
    ruleStartsFrom opened place = (b :: xs) :: ruleStartsFrom (opened + i.opened) rest := by
  rw [ruleStartsFrom_eq, hg]
  simp only [if_neg hb, hi]

/-- What is read at the places where rules start is what the rules hold, within the conditional rules that are open. -/
theorem items_of_rulesFrom {outer : List Frame} {done : List Rule} {sheet : Sheet}
    (h : rulesFrom outer done xs = .ok sheet) :
    items sheet = itemsRead outer done ++ itemsAt (ruleStartsFrom outer.length xs) := by
  fun_induction rulesFrom outer done xs with
  | case1 done xs hg =>
    cases h
    rw [ruleStartsFrom_eq, hg, itemsAt, List.filterMap_nil, List.append_nil, itemsRead]
  | case2 => cases h
  | case3 => cases h
  | case4 done xs ys frame outer hg ih =>
    have hstarts := ruleStartsFrom_eq (outer.length + 1) xs
    rw [hg] at hstarts
    rw [ih h, itemsRead_close, List.length_cons, hstarts]
    rfl
  | case5 => cases h
  | case6 outer done xs b ys hg hb whole rest hi ih =>
    obtain ⟨-, -, -, hf⟩ := exists_gap_of_skipGap hg
    have hread : ReadsItem (b :: ys) (.rule whole) rest := ⟨hf, head?_cons_ne hb ys, itemAt?_eq_some_iff.2 hi⟩
    obtain ⟨x, -, hx⟩ := hread.itemText
    have hdone : itemsRead outer (whole :: done) = itemsRead outer done ++ [.rule whole] := by
      rw [← List.singleton_append, itemsRead_append, List.reverse_singleton, Sheet.items, Sheet.items, hx.items,
        List.append_nil]
    rw [ih h, hdone, ruleStartsFrom_item hg hb hi, itemsAt_cons hi, List.append_assoc]
    rfl
  | case7 outer done xs b ys hg hb kind text rest hi ih =>
    have hdone : itemsRead (⟨kind, text, done⟩ :: outer) [] = itemsRead outer done ++ [.opening kind text] := rfl
    rw [ih h, hdone, ruleStartsFrom_item hg hb hi, itemsAt_cons hi, List.append_assoc]
    rfl

/-- **What is read at the places where rules start is what the tree holds**, in its order. -/
theorem items_of_read {sheet : Sheet} (h : read xs = .ok sheet) : itemsAt (ruleStarts xs) = items sheet :=
  (items_of_rulesFrom h).symm

end Sheet

end StyleScope
