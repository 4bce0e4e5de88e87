/-
When the braces of a sheet that is read balance. Between selectors the reader stops at every brace that counts, and in
a block of keyframes it counts them. In three places it looks for one delimiter only and steps over braces that would
count: in declarations, in conditions, and between the name of keyframes and their block. Where these texts are level,
each of them by itself, the sheet is balanced (`balanced_of_parse`); a brace in one of them can leave a block open.
-/
import StyleScope.Proofs.Scan.Balance
import StyleScope.Proofs.Sheet.Places

namespace StyleScope.Sheet

open Byte Scan Text

/-! ## Where braces are stepped over -/

/-- The declaration with which the bytes begin, from its property to the end of its value. -/
def declarationText (xs : Bytes) : Bytes :=
  match topLevel [semicolon, closeBrace] (skipGap (seek endsProperty xs).tail) with
  | .ok stop => before xs stop
  | .error _ => []

/-- The declarations of a block whose opening brace has been read. -/
def declarationTexts (xs : Bytes) : List Bytes :=
  match _hg : skipGap xs with
  | [] => []
  | b :: ys =>
    if b = closeBrace then []
    else if b = semicolon then declarationTexts ys
    else
      match _hd : declaration (b :: ys) with
      | .error _ => []
      | .ok (_, rest) => declarationText (b :: ys) :: declarationTexts rest
termination_by xs.length
decreasing_by
  all_goals
    have hle := length_skipGap_le xs
    rw [_hg] at hle
  · exact hle
  · exact Nat.lt_of_lt_of_le (declaration_length_lt _hd) hle

/-- A condition, up to the brace that opens its rules. -/
def conditionText (xs : Bytes) : Bytes := before xs (seek (· == openBrace) xs)

/-- The name of keyframes and what stands before their block. -/
def keyframesText (xs : Bytes) : Bytes :=
  match afterValue [openBrace] xs with
  | .ok rest => before xs (toOpenBrace (skipGap rest))
  | .error _ => []

/-- The texts of an item in which braces are stepped over. -/
def Item.looseTexts (xs : Bytes) : Item → List Bytes
  | .opening .. => [conditionText (skipGap (seek endsKeyword xs))]
  | .rule (.keyframes ..) => [keyframesText (skipGap (seek endsKeyword xs))]
  | .rule (.style ..) =>
    match selectors xs with
    | .ok (_, rest) => declarationTexts rest.tail
    | .error _ => []
  | .rule (.conditional ..) => []

/-- The texts of a sheet in which braces are stepped over: the declarations, the conditions, and what stands before
the blocks of keyframes, in order and at every depth. -/
def looseTexts (xs : Bytes) : List Bytes :=
  match _hg : skipGap xs with
  | [] => []
  | b :: ys =>
    if b = closeBrace then looseTexts ys
    else
      match _hi : item b ys with
      | .error _ => []
      | .ok (i, rest) => i.looseTexts (b :: ys) ++ looseTexts rest
termination_by xs.length
decreasing_by
  all_goals
    have hle := length_skipGap_le xs
    rw [_hg] at hle
  · exact hle
  · exact Nat.lt_of_lt_of_le (item_length_lt _hi) hle

/-! ## The braces of each piece -/

variable {xs rest : Bytes} {n : Nat}

/-- A text up to where a scan for braces stops, among others. -/
theorem braces_of_topLevel {stops : Bytes} {b : UInt8} (h : topLevel stops xs = .ok (b :: rest))
    (ho : openBrace ∈ stops) (hc : closeBrace ∈ stops) (hb : b ≠ star) : braces xs = braces (b :: rest) := by
  obtain ⟨ys, d, rfl, hp, -, -⟩ := passes_of_topLevelFrom h
  exact braces_passes hp ho hc (head?_cons_ne hb rest)

theorem braces_of_selectors {ss : List String} (h : selectors xs = .ok (ss, openBrace :: rest)) :
    braces xs = braces (openBrace :: rest) := by
  fun_induction selectors xs generalizing ss with
  | case1 => cases h
  | case2 xs stop ht hc =>
    simp only [bind_eq_ok_iff] at h
    obtain ⟨_, _, hr⟩ := h
    cases hr
    exact braces_of_topLevel ht (by decide) (by decide) (by decide)
  | case3 xs stop ht after hc ih =>
    simp only [bind_eq_ok_iff] at h
    obtain ⟨_, _, ⟨more, r⟩, hm, hr⟩ := h
    cases hr
    rw [after?_eq_some_iff] at hc
    subst hc
    rw [braces_of_topLevel ht (by decide) (by decide) (by decide), braces_plain (by decide) (by decide),
      ← braces_skipGap, ih hm]

theorem braces_of_before (hs : rest <:+ xs) (hl : Level (before xs rest)) (hr : rest.head? ≠ some star) :
    braces xs = braces rest := by
  conv_lhs => rw [← before_append_rest hs]
  exact hl.braces_append hr

theorem braces_of_declaration {d : Declaration} (h : declaration xs = .ok (d, rest))
    (hl : Level (declarationText xs)) : braces xs = braces rest := by
  simp only [declaration, bind_eq_ok_iff] at h
  obtain ⟨_, _, inside, hc, stop, ht, _, _, after, ha, _, _, hr⟩ := h
  cases hr
  rw [expect_eq_ok_iff] at hc
  rw [declarationText, hc, List.tail_cons, ht] at hl
  have hs : stop <:+ xs :=
    (topLevel_suffix ht).trans ((skipGap_suffix inside).trans ((List.suffix_cons colon inside).trans
      (hc ▸ seek_suffix endsProperty xs)))
  cases stop with
  | nil => cases ha
  | cons b ys =>
    cases ha
    obtain ⟨-, d, -, -, hb, -⟩ := passes_of_topLevelFrom ht
    rcases eq_of_stopsAt hb with rfl | rfl
    · rw [if_pos rfl, braces_of_before hs hl (head?_cons_ne (by decide) _), braces_plain (by decide) (by decide)]
    · rw [if_neg (by decide), braces_of_before hs hl (head?_cons_ne (by decide) _)]

/-- A block of declarations closes with its brace, and with no other. -/
theorem closes_of_declarations {ds : List Declaration} (h : declarations xs = .ok (ds, rest))
    (hl : ∀ p ∈ declarationTexts xs, Level p) (hr : Closes n (braces rest)) : Closes (n + 1) (braces xs) := by
  fun_induction declarationTexts xs generalizing ds with
  | case1 xs hg =>
    rw [declarations_eq, hg] at h
    cases h
  | case2 xs ys hg =>
    rw [declarations_eq, hg] at h
    cases h
    rw [← braces_skipGap, hg, braces_closeBrace]
    exact .closing hr
  | case3 xs ys hg _ ih =>
    rw [declarations_eq, hg] at h
    rw [← braces_skipGap, hg, braces_plain (by decide) (by decide)]
    exact ih h hl
  | case4 xs b ys hg hb hs fault hd =>
    rw [declarations_eq, hg] at h
    simp only [if_neg hb, if_neg hs, hd] at h
    cases h
  | case5 xs b ys hg hb hs first after hd ih =>
    rw [declarations_eq, hg] at h
    simp only [if_neg hb, if_neg hs, hd] at h
    obtain ⟨⟨more, r⟩, hm, he⟩ := map_eq_ok_iff.1 h
    cases he
    obtain ⟨hfirst, hmore⟩ := List.forall_mem_cons.1 hl
    rw [← braces_skipGap, hg, braces_of_declaration hd hfirst]
    exact ih hm hmore

/-! ## Items -/

/-- The keyword of an at-rule that is read holds no braces. -/
theorem braces_keyword {keyword : String}
    (h : keyword = "@keyframes" ∨ ∃ kind : ConditionalKind, keyword = kind.keyword) (rest : Bytes) :
    braces (encode keyword ++ rest) = braces rest := by
  refine braces_plain_append ?_ rest
  rcases h with rfl | ⟨kind, rfl⟩
  · decide
  · cases kind <;> decide

theorem closes_of_condition {kind : ConditionalKind} {i : Item}
    (h : condition kind (skipGap (seek endsKeyword xs)) = .ok (i, rest)) (hl : ∀ p ∈ i.looseTexts xs, Level p)
    (hr : Closes (n + i.opened) (braces rest)) : Closes n (braces (seek endsKeyword xs)) := by
  simp only [condition, bind_eq_ok_iff] at h
  obtain ⟨_, _, inside, ho, hi⟩ := h
  cases hi
  rw [expect_eq_ok_iff] at ho
  have hlevel := hl _ (List.mem_singleton_self _)
  have hstar : (seek (· == openBrace) (skipGap (seek endsKeyword xs))).head? ≠ some star := by
    rw [ho]
    exact head?_cons_ne (by decide) _
  rw [← braces_skipGap, braces_of_before (seek_suffix _ _) hlevel hstar, ho, braces_openBrace]
  exact .opening hr

theorem closes_of_keyframes {i : Item} (h : keyframes (skipGap (seek endsKeyword xs)) = .ok (i, rest))
    (hl : ∀ p ∈ i.looseTexts xs, Level p) (hr : Closes (n + i.opened) (braces rest)) :
    Closes n (braces (seek endsKeyword xs)) := by
  simp only [keyframes, keyframesName, block, bind_eq_ok_iff] at h
  obtain ⟨⟨name, r⟩, ⟨after, hv, _, _, hn⟩, span, ⟨inside, ho, last, hb, hspan⟩, _, _, hi⟩ := h
  split at hn
  · cases hn
  · cases hn
    cases hspan
    cases hi
    rw [expect_eq_ok_iff] at ho
    simp only at ho
    have hlevel := hl _ (List.mem_singleton_self _)
    rw [keyframesText, hv] at hlevel
    have hs : toOpenBrace (skipGap r) <:+ skipGap (seek endsKeyword xs) :=
      (toOpenBrace_suffix _).trans ((skipGap_suffix r).trans (afterValue_suffix hv))
    have hstar : (toOpenBrace (skipGap r)).head? ≠ some star := by
      rw [ho]
      exact head?_cons_ne (by decide) _
    obtain ⟨ys, rfl, hy⟩ := encloses_of_afterBlockFrom hb
    rw [← braces_skipGap, braces_of_before hs hlevel hstar, ho, braces_openBrace]
    exact .opening (hy.closes hr)

theorem closes_of_style {rule : Rule} (h : style xs = .ok (rule, rest))
    (hl : ∀ p ∈ Item.looseTexts xs (.rule rule), Level p) (hr : Closes n (braces rest)) : Closes n (braces xs) := by
  simp only [style, bind_eq_ok_iff] at h
  obtain ⟨⟨ss, r⟩, hs, inside, ho, ⟨ds, r'⟩, hd, hr'⟩ := h
  cases hr'
  rw [expect_eq_ok_iff] at ho
  simp only at ho hd
  subst ho
  simp only [Item.looseTexts, hs] at hl
  rw [braces_of_selectors hs, braces_openBrace]
  exact .opening (closes_of_declarations hd hl hr)

/-- **An item leaves open what it opens**, and closes no block that it is in. -/
theorem closes_of_item {b : UInt8} {i : Item} (h : item b xs = .ok (i, rest))
    (hl : ∀ p ∈ i.looseTexts (b :: xs), Level p) (hr : Closes (n + i.opened) (braces rest)) :
    Closes n (braces (b :: xs)) := by
  unfold item at h
  split at h
  · simp only [atRule, bind_eq_ok_iff] at h
    obtain ⟨keyword, ht, h⟩ := h
    have hx := textBefore_eq_ok (seek_suffix endsKeyword (b :: xs)) ht
    rw [hx]
    split at h
    · next kind hk =>
      obtain rfl := ConditionalKind.keyword_of_ofKeyword? hk
      rw [braces_keyword (.inr ⟨kind, rfl⟩)]
      exact closes_of_condition h hl hr
    · split at h
      · next hk =>
        rw [braces_keyword (.inl hk)]
        exact closes_of_keyframes h hl hr
      · cases h
  · obtain ⟨⟨rule, r⟩, hs, hi⟩ := map_eq_ok_iff.1 h
    cases hi
    exact closes_of_style hs hl hr

/-! ## Sheets -/

/-- **What is read within open conditional rules closes them**, each with a brace of its own. -/
theorem closes_of_rulesFrom {outer : List Frame} {done : List Rule} {sheet : Sheet}
    (h : rulesFrom outer done xs = .ok sheet) (hl : ∀ p ∈ looseTexts xs, Level p) :
    Closes outer.length (braces xs) := by
  fun_induction looseTexts xs generalizing outer done with
  | case1 xs hg =>
    rw [rulesFrom_eq, hg] at h
    rw [← braces_skipGap, hg, braces_nil]
    cases outer with
    | nil => exact .nil
    | cons frame outer => cases h
  | case2 xs ys hg ih =>
    rw [rulesFrom_eq, hg] at h
    rw [← braces_skipGap, hg, braces_closeBrace]
    cases outer with
    | nil => cases h
    | cons frame outer => exact .closing (ih h hl)
  | case3 xs b ys hg hb fault hi =>
    rw [rulesFrom_eq, hg] at h
    simp only [if_neg hb, hi] at h
    cases h
  | case4 xs b ys hg hb i rest hi ih =>
    rw [rulesFrom_eq, hg] at h
    simp only [if_neg hb, hi] at h
    obtain ⟨hitem, hrest⟩ := List.forall_mem_append.1 hl
    rw [← braces_skipGap, hg]
    refine closes_of_item hi hitem ?_
    cases i with
    | rule rule => exact ih h hrest
    | opening kind condition => exact ih h hrest

/-- **A sheet that is read is balanced** where its declarations, its conditions and what stands before its blocks of
keyframes are level, each by itself. -/
theorem balanced_of_parse {text : String} {rules : Sheet} (h : parse text = .ok rules)
    (hl : ∀ p ∈ looseTexts (encode text), Level p) : Balanced (encode text) := by
  have hr : read (encode text) = .ok rules := read_eq_ok_iff.2 (parse_eq_ok_iff.1 h)
  exact balanced_of_closes (closes_of_rulesFrom hr hl)

/-- Braces in an escape, in a comment, in a string and in a block of keyframes. -/
theorem balanced_of_parse_hidden :
    parse "@media x\x7ba\\\x7d,/*\x7b*/c\x7bb:'\x7d'\x7d\x7d@keyframes k \x7b0%\x7b\x7d\x7d" =
        .ok [.conditional .media "x" [.style ["a\\\x7d", "c"] [.other "b" "'\x7d'"]],
          .keyframes "k" "\x7b0%\x7b\x7d\x7d"] ∧
      looseTexts (encode "@media x\x7ba\\\x7d,/*\x7b*/c\x7bb:'\x7d'\x7d\x7d@keyframes k \x7b0%\x7b\x7d\x7d") =
        [encode "x", encode "b:'\x7d'", encode "k "] ∧
      Balanced (encode "@media x\x7ba\\\x7d,/*\x7b*/c\x7bb:'\x7d'\x7d\x7d@keyframes k \x7b0%\x7b\x7d\x7d") := by
  have h : parse "@media x\x7ba\\\x7d,/*\x7b*/c\x7bb:'\x7d'\x7d\x7d@keyframes k \x7b0%\x7b\x7d\x7d" =
      .ok [.conditional .media "x" [.style ["a\\\x7d", "c"] [.other "b" "'\x7d'"]],
        .keyframes "k" "\x7b0%\x7b\x7d\x7d"] := by decide +kernel
  have ht : looseTexts (encode "@media x\x7ba\\\x7d,/*\x7b*/c\x7bb:'\x7d'\x7d\x7d@keyframes k \x7b0%\x7b\x7d\x7d") =
      [encode "x", encode "b:'\x7d'", encode "k "] := by decide +kernel
  exact ⟨h, ht, balanced_of_parse h (by rw [ht]; decide +kernel)⟩

/-- A brace that is stepped over leaves a block open or closes one too many: in a value, in a condition, before a block
of keyframes; and so does an escape or a comment that reaches beyond the end of a condition or a property. -/
theorem parse_not_balanced :
    (parse "a\x7bb:\x7b\x7d" = .ok [.style ["a"] [.other "b" "\x7b"]] ∧ ¬ Balanced (encode "a\x7bb:\x7b\x7d")) ∧
    (parse "@media \x7d\x7b\x7d" = .ok [.conditional .media "\x7d" []] ∧
      ¬ Balanced (encode "@media \x7d\x7b\x7d")) ∧
    (parse "@keyframes k\x7d\x7b\x7d" = .ok [.keyframes "k\x7d" "\x7b\x7d"] ∧
      ¬ Balanced (encode "@keyframes k\x7d\x7b\x7d")) ∧
    (parse "@media \\\x7b\x7d" = .ok [.conditional .media "\\" []] ∧
      ¬ Balanced (encode "@media \\\x7b\x7d")) ∧
    (parse "a\x7bb/*:c\x7d" = .ok [.style ["a"] [.other "b/*" "c"]] ∧ ¬ Balanced (encode "a\x7bb/*:c\x7d")) := by
  decide +kernel

end StyleScope.Sheet
