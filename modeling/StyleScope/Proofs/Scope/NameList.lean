/-
Lists of names under a scope. A list is split at its top-level commas, and an item may hold more than a name: strings,
escapes, comments, groups that stay open. The texts that commas set apart so that a list of them is split at these commas
and no others are named `Separate`, and every list that is split is made of such texts (`exists_separate`). Trimming may
cut an item within an escape, and then the backslash escapes the hyphen before the scope. Still the items under the
scope are separate, so the list keeps its items, and under a second scope it keeps them again (`items_renameEach`).
-/
import StyleScope.Proofs.Scan.Walk
import StyleScope.Proofs.Scope.Name
import StyleScope.Proofs.Sheet.Printing

namespace StyleScope

open Byte Scan Text

/-! ## Another end -/

namespace Scan

variable {stops xs y w : Bytes} {d d' : Nat}

/-- Blanks at the end may give way to other bytes that are passed over, though a backslash before the blanks escapes the
first of them, and then escapes the first of the other bytes. -/
theorem Passes.replace {ys : Bytes} {b : UInt8} (h : Passes stops d ys d') (he : ys = xs ++ w) (hw : ∀ c ∈ w, inBlank c)
    (hy : ∀ c ∈ b :: y, isOrdinary stops c) (hb : b ≠ star) : Passes stops d (xs ++ b :: y) d' := by
  induction h generalizing xs with
  | nil =>
    obtain ⟨rfl, -⟩ := List.append_eq_nil_iff.1 he.symm
    exact passes_ordinary hy
  | @inert d d' u zs hu hz ih =>
    rcases hu.eq_append he hw with ⟨v, rfl, rfl⟩ | rfl
    · rw [List.append_assoc]
      exact .inert hu (ih rfl)
    · -- the unit is the escape that the blanks cut
      cases hu with
      | escape c =>
        obtain ⟨-, rfl⟩ := List.cons.inj he
        rw [hz.eq_of_blank fun e hm => hw e (List.mem_cons_of_mem c hm)]
        have hrest : Passes stops d y d := passes_ordinary fun e hm => hy e (List.mem_cons_of_mem b hm)
        have hescape : Passes stops d ([backslash, b] ++ y) d := .inert (.escape b) hrest
        exact hescape
      | comment => exact absurd (List.cons.inj he).1 (by decide)
      | quoted hq => exact absurd (List.cons.inj he).1 (ne_backslash_of_isQuote hq)
  | @byte d d' c zs hs hn hz ih =>
    cases xs with
    | nil =>
      rw [(Passes.byte hs hn hz).eq_of_blank (he ▸ hw)]
      exact passes_ordinary hy
    | cons a xs =>
      obtain ⟨rfl, rfl⟩ := List.cons.inj he
      exact .byte (hs.of_append.append (head?_cons_ne hb y)) hn (ih rfl)

theorem topLevelFrom_ordinary_append (hx : ∀ b ∈ xs, isOrdinary stops b) (rest : Bytes) :
    topLevelFrom stops d (xs ++ rest) = topLevelFrom stops d rest := by
  induction xs with
  | nil => rfl
  | cons b xs ih =>
    obtain ⟨hp, hs, hn⟩ := of_isOrdinary (hx b List.mem_cons_self) d
    rw [List.cons_append, topLevelFrom_byte (single_of_isPlain hp _), if_neg (by simp [hs]), hn]
    exact ih fun c hm => hx c (List.mem_cons_of_mem b hm)

theorem topLevelFrom_ordinary (hx : ∀ b ∈ xs, isOrdinary stops b) : topLevelFrom stops d xs = .ok [] := by
  have h := topLevelFrom_ordinary_append (d := d) hx []
  rwa [List.append_nil, topLevelFrom] at h

theorem topLevelFrom_openComment (h : OpenComment xs) : topLevelFrom stops d xs = .ok [] := by
  obtain ⟨inside, rfl, hi⟩ := h
  have hl := lexeme_slash inside
  rw [afterComment_eq_nil hi] at hl
  rw [topLevelFrom]
  split
  · next hx => rw [hl] at hx; cases hx
  · next hx => rw [hl] at hx; cases hx
  · next hx => rw [hl] at hx; cases hx; rw [topLevelFrom]

/-- What the scan reads to its end it reads with more behind it, though that may be within a comment or an escape. -/
theorem topLevelFrom_append {b : UInt8} (h : topLevelFrom stops d xs = .ok []) (hy : ∀ c ∈ b :: y, isOrdinary stops c)
    (hb : b ≠ star) : topLevelFrom stops d (xs ++ b :: y) = .ok [] := by
  have hslash : slash ∉ b :: y := fun hm => absurd (hy slash hm) (by simp [isOrdinary, isPlain])
  fun_induction topLevelFrom stops d xs with
  | case1 => exact topLevelFrom_ordinary hy
  | case2 => cases h
  | case3 => cases h
  | case4 d c xs _ hl hs ih =>
    have hsingle := (lexeme_eq_byte_iff.1 hl).1.append (head?_cons_ne hb y)
    rw [List.cons_append, topLevelFrom_byte hsingle, if_neg hs]
    exact ih h
  | case5 d c xs unit rest hu hl ih =>
    obtain ⟨u, he, hunit⟩ := lexeme_eq_ok_iff.1 hl
    rw [he]
    cases hunit with
    | escape e =>
      rw [List.append_assoc, topLevelFrom_inert (.escape e)]
      exact ih h
    | lastBackslash =>
      exact (topLevelFrom_inert (.escape b) y).trans (topLevelFrom_ordinary fun e hm => hy e (List.mem_cons_of_mem b hm))
    | comment hi =>
      rw [List.append_assoc, topLevelFrom_inert (.comment hi)]
      exact ih h
    | openComment hc =>
      rw [List.append_nil]
      exact topLevelFrom_openComment (hc.append hslash)
    | quoted hq hi =>
      rw [List.append_assoc, topLevelFrom_inert (.quoted hq hi)]
      exact ih h
    | byte => exact absurd rfl hu

end Scan

/-! ## Splitting and joining -/

/-- A list of the texts is split at the commas between them alone. -/
inductive Separate : List String → Prop
  | last {raw : String} : topLevel [comma] (encode raw) = .ok [] → Separate [raw]
  | cons {raw : String} {raws : List String} : Passes [comma] 0 (encode raw) 0 → Separate raws → Separate (raw :: raws)

theorem itemsOf_eq (xs : Bytes) :
    itemsOf xs = do
      let stop ← topLevel [comma] xs
      let first ← textBefore xs stop
      match after? comma stop with
      | none => return [trim first]
      | some rest => return trim first :: (← itemsOf rest) := by
  rw [itemsOf]
  split
  · next ht => rw [ht]; rfl
  · next ht =>
    rw [ht]
    split <;> next hc => simp only [bind, Except.bind, hc]

theorem items?_eq_some_iff {value : String} {items : List String} :
    items? value = some items ↔ itemsOf (encode value) = .ok items := by
  rw [items?]
  cases itemsOf (encode value) <;> simp [Except.toOption]

theorem Separate.ne_nil {raws : List String} (h : Separate raws) : raws ≠ [] := by
  cases h <;> exact List.cons_ne_nil _ _

theorem encode_intercalate_separate {raw : String} {raws : List String} (h : Separate raws) :
    encode (",".intercalate (raw :: raws)) = encode raw ++ comma :: encode (",".intercalate raws) := by
  obtain ⟨t, ts, rfl⟩ := List.exists_cons_of_ne_nil h.ne_nil
  exact Sheet.encode_intercalate_cons raw t ts

theorem itemsOf_intercalate {raws : List String} (h : Separate raws) :
    itemsOf (encode (",".intercalate raws)) = .ok (raws.map trim) := by
  induction h with
  | @last raw h =>
    have htext := textBefore_encode raw []
    rw [List.append_nil] at htext
    rw [itemsOf_eq]
    simp [h, htext, bind, Except.bind, after?, pure, Except.pure]
  | @cons raw raws hp hr ih =>
    have hstop : topLevel [comma] (encode raw ++ comma :: encode (",".intercalate raws)) = .ok _ :=
      hp.topLevelFrom_stop (by decide) (by decide) (by decide)
    rw [encode_intercalate_separate hr, itemsOf_eq, hstop]
    simp [textBefore_encode, bind, Except.bind, after?, pure, Except.pure, ih]

/-- **A list that is split was put together of separate texts.** -/
theorem exists_separate {xs : Bytes} {items : List String} (h : itemsOf xs = .ok items) :
    ∃ raws, Separate raws ∧ xs = encode (",".intercalate raws) ∧ items = raws.map trim := by
  fun_induction itemsOf xs generalizing items with
  | case1 => cases h
  | case2 xs stop hs hc =>
    simp only [bind_eq_ok_iff] at h
    obtain ⟨raw, hraw, hr⟩ := h
    cases hr
    obtain rfl : stop = [] := by
      cases stop with
      | nil => rfl
      | cons b rest =>
        obtain ⟨_, _, -, -, hb, -⟩ := passes_of_topLevelFrom hs
        simp only [stopsAt, List.contains_eq_mem, List.mem_singleton, Bool.and_eq_true, decide_eq_true_eq] at hb
        simp [after?, hb.1] at hc
    have he := textBefore_eq_ok List.nil_suffix hraw
    rw [List.append_nil] at he
    subst he
    exact ⟨[raw], .last hs, by simp, rfl⟩
  | case3 xs stop hs rest hc ih =>
    simp only [bind_eq_ok_iff] at h
    obtain ⟨raw, hraw, more, hm, hr⟩ := h
    cases hr
    rw [after?_eq_some_iff] at hc
    subst hc
    have he := textBefore_eq_ok (topLevel_suffix hs) hraw
    obtain ⟨ys, d, hys, hp, hb, -⟩ := passes_of_topLevelFrom hs
    obtain rfl : ys = encode raw := List.append_cancel_right (hys.symm.trans he)
    obtain rfl := eq_zero_of_stopsAt hb (by decide)
    obtain ⟨raws, hr, rfl, rfl⟩ := ih hm
    exact ⟨raw :: raws, .cons hp hr, by rw [encode_intercalate_separate hr, he], rfl⟩

/-! ## Items under a scope -/

/-- A name that begins and ends with the same quote is one string. -/
def Sound (name : String) : Prop :=
  ∀ quote inside, isQuote quote → encode name = quote :: (inside ++ [quote]) → QuotedText quote inside

section Items

variable {scope name raw : String} {raws : List String}

theorem sound_iff : Sound name ↔ ∀ quote ∈ (encode name).head?, isQuote quote →
    (encode name).tail.getLast? = some quote → afterQuoted? quote (encode name).tail = some [] := by
  constructor
  · intro h quote hhead hq hlast
    obtain ⟨xs, he⟩ := List.head?_eq_some_iff.1 hhead
    rw [he, List.tail_cons] at hlast ⊢
    obtain ⟨inside, rfl⟩ := List.getLast?_eq_some_iff.1 hlast
    exact afterQuoted?_append (ne_backslash_of_isQuote hq) (h quote inside hq he) []
  · intro h quote inside hq he
    rw [he] at h
    obtain ⟨i, hi, hie⟩ := eq_of_afterQuoted? (h quote rfl hq List.getLast?_concat)
    rwa [(List.append_inj' hie rfl).1]

instance (name : String) : Decidable (Sound name) := decidable_of_iff _ sound_iff.symm

/-- A string is a string under the scope. -/
theorem exists_quotedText_rename {p : Char × String} (h : quotedContent? name = some p) (hs : Harmless scope)
    (hn : Sound name) :
    ∃ b inside, isQuote b ∧ QuotedText b inside ∧ encode (rename scope name) = b :: (inside ++ [b]) := by
  obtain ⟨b, hb, -, he⟩ := encode_of_quotedContent? h
  obtain ⟨hq, hname⟩ := of_quotedContent? h
  have hv : ValueText [comma] (encode (p.1.toString ++ p.2 ++ p.1.toString)) := by
    rw [← hname, he]
    exact .quoted hb (hn b _ hb he)
  rw [rename_of_some h]
  exact quotedText_rename hq hs hv

theorem passes_of_quotedText {stops : Bytes} {d : Nat} {b : UInt8} {inside : Bytes} (hb : isQuote b)
    (hi : QuotedText b inside) : Passes stops d (b :: (inside ++ [b])) d := by
  have hp : Passes stops d (b :: (inside ++ [b]) ++ []) d := .inert (.quoted hb hi) .nil
  rwa [List.append_nil] at hp

theorem encode_hyphen_append (scope : String) : encode ("-" ++ scope) = 0x2D :: encode scope := encode_append "-" scope

theorem Harmless.isOrdinary_hyphen (hs : Harmless scope) : ∀ b ∈ 0x2D :: encode scope, Scan.isOrdinary [comma] b := by
  rw [← encode_hyphen_append]
  exact (harmless_hyphen.append hs).isOrdinary (by decide)

/-- An item that a comma follows is passed over under the scope. -/
theorem passes_rename (hp : Passes [comma] 0 (encode raw) 0) (hs : Harmless scope) (hn : Sound (trim raw)) :
    Passes [comma] 0 (encode (rename scope (trim raw))) 0 := by
  cases hc : quotedContent? (trim raw) with
  | none =>
    obtain ⟨u, w, hu, hw, he⟩ := exists_pad raw
    rw [he, encode_append, encode_append, List.append_assoc] at hp
    have hp := hp.of_blank_append (inBlank_of_mem_encode hu)
    rw [rename_of_none hc, encode_append, encode_hyphen_append]
    exact hp.replace rfl (inBlank_of_mem_encode hw) hs.isOrdinary_hyphen (by decide)
  | some p =>
    obtain ⟨b, inside, hb, hi, he⟩ := exists_quotedText_rename hc hs hn
    rw [he]
    exact passes_of_quotedText hb hi

/-- The last item is read to its end under the scope, if no blank stands behind it. -/
theorem topLevel_rename (h : topLevel [comma] (encode raw) = .ok []) (hend : ∀ c ∈ raw.toList.getLast?, isBlank c = false)
    (hs : Harmless scope) (hn : Sound (trim raw)) : topLevel [comma] (encode (rename scope (trim raw))) = .ok [] := by
  cases hc : quotedContent? (trim raw) with
  | none =>
    obtain ⟨u, w, hu, hw, he⟩ := exists_pad raw
    obtain rfl : w = "" := by
      rcases List.eq_nil_or_concat w.toList with hnil | ⟨cs, c, hlast⟩
      · exact String.toList_injective hnil
      · have hc := hend c (by rw [he]; simp [hlast])
        rw [hw c (by simp [hlast])] at hc
        cases hc
    rw [String.append_empty] at he
    have hblank : ∀ b ∈ encode u, isOrdinary [comma] b := fun b hb =>
      isOrdinary_of_inBlank (by decide) (inBlank_of_mem_encode hu b hb)
    rw [he, encode_append, topLevel, topLevelFrom_ordinary_append hblank] at h
    rw [rename_of_none hc, encode_append, encode_hyphen_append]
    exact topLevelFrom_append h hs.isOrdinary_hyphen (by decide)
  | some p =>
    obtain ⟨b, inside, hb, hi, he⟩ := exists_quotedText_rename hc hs hn
    have hp : Passes [comma] 0 (b :: (inside ++ [b])) 0 := passes_of_quotedText hb hi
    rw [he, topLevel, ← List.append_nil (b :: (inside ++ [b])), hp.topLevelFrom_append (by simp), topLevelFrom]

theorem trimmed_rename (hn : Trimmed name) (hs : Harmless scope) : Trimmed (rename scope name) := by
  cases hc : quotedContent? name with
  | none =>
    have htrim := (harmless_hyphen.append hs).trimmed
    rw [rename_of_none hc]
    by_cases hname : name = ""
    · rw [hname, String.empty_append]
      exact htrim
    · have happend := hn.append htrim hname (by simp) ""
      rwa [String.append_empty] at happend
  | some p =>
    have hq : Trimmed p.1.toString ∧ p.1.toString ≠ "" := by
      rcases (of_quotedContent? hc).1 with h | h <;> rw [h] <;> decide
    rw [rename_of_some hc]
    exact hq.1.append hq.1 hq.2 hq.2 _

/-- A name under the scope is a string if it begins and ends with the same quote: no quote ends the scope. -/
theorem sound_rename (hn : Sound name) (hs : Harmless scope) : Sound (rename scope name) := by
  intro quote inside hq he
  cases hc : quotedContent? name with
  | none =>
    have hne : encode ("-" ++ scope) ≠ [] := by simp [encode_hyphen_append]
    have hlast := congrArg List.getLast? he
    rw [rename_of_none hc, encode_append, List.getLast?_append, List.getLast?_eq_some_getLast hne, Option.some_or,
      ← List.cons_append, List.getLast?_concat, Option.some.injEq] at hlast
    have hharmless := isHarmless_of_mem (harmless_hyphen.append hs) (List.getLast_mem hne)
    rw [hlast] at hharmless
    rcases isQuote_iff.1 hq with rfl | rfl <;> exact absurd hharmless (by decide)
  | some p =>
    obtain ⟨b, i, -, hi, hb⟩ := exists_quotedText_rename hc hs hn
    obtain ⟨rfl, hie⟩ := List.cons.inj (hb.symm.trans he)
    obtain ⟨rfl, -⟩ := List.append_inj' hie rfl
    exact hi

/-- **Separate items are separate under the scope.** -/
theorem Separate.rename (h : Separate raws) (hend : ∀ c ∈ (",".intercalate raws).toList.getLast?, isBlank c = false)
    (hs : Harmless scope) (hn : ∀ raw ∈ raws, Sound (trim raw)) :
    Separate ((raws.map trim).map (StyleScope.rename scope)) := by
  induction h with
  | last h =>
    rw [String.intercalate_singleton] at hend
    exact .last (topLevel_rename h hend hs (hn _ List.mem_cons_self))
  | @cons raw raws hp hr ih =>
    have hrest : ∀ c ∈ (",".intercalate raws).toList.getLast?, isBlank c = false := by
      obtain ⟨t, ts, rfl⟩ := List.exists_cons_of_ne_nil hr.ne_nil
      intro c hc
      refine hend c ?_
      rw [String.intercalate_cons_cons, String.toList_append, List.getLast?_append, Option.mem_def.1 hc]
      rfl
    exact .cons (passes_rename hp hs (hn raw List.mem_cons_self)) (ih hrest fun t ht => hn t (List.mem_cons_of_mem raw ht))

end Items

/-! ## Lists under a scope -/

/-- The value is a list of these names. -/
structure NameList (value : String) (items : List String) : Prop where
  /-- No blank stands around the list. -/
  trimmed : Trimmed value
  /-- It is split into these names. -/
  split : items? value = some items
  /-- What looks like a string is one. -/
  sound : ∀ item ∈ items, Sound item

section NameList

variable {scope value : String} {items : List String}

theorem NameList.exists_separate (h : NameList value items) :
    ∃ raws, Separate raws ∧ value = ",".intercalate raws ∧ items = raws.map trim := by
  obtain ⟨raws, hr, hv, hm⟩ := StyleScope.exists_separate (items?_eq_some_iff.1 h.split)
  exact ⟨raws, hr, encode_inj hv, hm⟩

/-- A list is renamed item by item: one of a single item is that item, as no blank stands around it. -/
theorem NameList.renameEach_eq (h : NameList value items) (scope : String) :
    renameEach scope value = ",".intercalate (items.map (rename scope)) := by
  obtain ⟨raws, hr, hv, rfl⟩ := h.exists_separate
  unfold StyleScope.renameEach
  rw [h.split]
  split
  · next he =>
    rw [Option.some.injEq] at he
    rw [he]
  · next hfew =>
    cases hr with
    | @last raw =>
      rw [String.intercalate_singleton] at hv
      rw [List.map_singleton, List.map_singleton, String.intercalate_singleton, ← hv, h.trimmed]
    | cons _ hr =>
      obtain ⟨t, ts, rfl⟩ := List.exists_cons_of_ne_nil hr.ne_nil
      exact absurd rfl (hfew _ _ _)

/-- **A list of names is one under the scope**, and has the same names in the same order. -/
theorem NameList.renameEach (h : NameList value items) (hs : Harmless scope) :
    NameList (renameEach scope value) (items.map (rename scope)) := by
  rw [h.renameEach_eq]
  obtain ⟨raws, hr, hv, rfl⟩ := h.exists_separate
  have htrim : ∀ name ∈ (raws.map trim).map (rename scope), Trimmed name := by
    intro name hm
    obtain ⟨item, hi, rfl⟩ := List.mem_map.1 hm
    obtain ⟨raw, -, rfl⟩ := List.mem_map.1 hi
    exact trimmed_rename (trimmed_trim raw) hs
  have hend : ∀ c ∈ (",".intercalate raws).toList.getLast?, isBlank c = false := hv ▸ (trimmed_iff.1 h.trimmed).2
  have hsep := hr.rename hend hs fun raw hm => h.sound _ (List.mem_map_of_mem hm)
  constructor
  · refine .intercalate (fun name hm => ⟨htrim name hm, ?_⟩) hsep.ne_nil
    obtain ⟨item, -, rfl⟩ := List.mem_map.1 hm
    exact rename_ne_empty scope item
  · have hmap := List.map_congr_left htrim
    rw [items?_eq_some_iff, itemsOf_intercalate hsep, hmap, List.map_id']
  · intro name hm
    obtain ⟨item, hi, rfl⟩ := List.mem_map.1 hm
    exact sound_rename (h.sound item hi) hs

/-- What scoping again and again keeps. -/
theorem NameList.foldl (h : NameList value items) {scopes : List String} (hs : ∀ scope ∈ scopes, Harmless scope) :
    NameList (scopes.foldl (fun value scope => StyleScope.renameEach scope value) value)
      (scopes.foldl (fun items scope => items.map (rename scope)) items) := by
  induction scopes generalizing value items with
  | nil => exact h
  | cons scope scopes ih =>
    exact ih (h.renameEach (hs scope List.mem_cons_self)) fun s hm => hs s (List.mem_cons_of_mem scope hm)

end NameList

/-- **A list of names keeps its items under a scope.** If no blank stands around the list and each item that begins and
ends with the same quote is one string, then the list under a harmless scope is split into the items under that scope, in
their order: none is merged with another, split, lost or moved, whatever else the items hold. A scope of letters, digits,
hyphens and underscores is harmless, and so is the empty one. Scoped again, the list keeps its items again. -/
theorem items_renameEach {value : String} {items : List String} (hv : Trimmed value) (h : items? value = some items)
    (hsound : ∀ item ∈ items, Sound item) :
    (∀ scope, Harmless scope → items? (renameEach scope value) = some (items.map (rename scope))) ∧
      ∀ scopes : List String, (∀ scope ∈ scopes, Harmless scope) →
        items? (scopes.foldl (fun value scope => renameEach scope value) value) =
          some (scopes.foldl (fun items scope => items.map (rename scope)) items) := by
  have hlist : NameList value items := ⟨hv, h, hsound⟩
  exact ⟨fun scope hs => (hlist.renameEach hs).split, fun scopes hs => (hlist.foldl hs).split⟩

/-- The blank of an escape is trimmed away, and a group is left open at the end. -/
theorem items_renameEach_escape :
    let value := "a\\ , 'b, c',f(x"
    let items := ["a\\", "'b, c'", "f(x"]
    Trimmed value ∧ items? value = some items ∧ (∀ item ∈ items, Sound item) ∧ Harmless "s_1" ∧
      renameEach "s_1" value = "a\\-s_1,'b, c s_1',f(x-s_1" ∧
      items? "a\\-s_1,'b, c s_1',f(x-s_1" = some ["a\\-s_1", "'b, c s_1'", "f(x-s_1"] ∧
      items? (renameEach "t" (renameEach "s_1" value)) = some ["a\\-s_1-t", "'b, c s_1 t'", "f(x-s_1-t"] := by
  intro value items
  have hv : Trimmed value := by decide +kernel
  have h : items? value = some items := by decide +kernel
  have hsound : ∀ item ∈ items, Sound item := by decide +kernel
  have hs : Harmless "s_1" := by decide
  obtain ⟨hone, hmany⟩ := items_renameEach hv h hsound
  have hvalue : renameEach "s_1" value = "a\\-s_1,'b, c s_1',f(x-s_1" := by decide +kernel
  have hitems := hone "s_1" hs
  rw [hvalue] at hitems
  have htwice := hmany ["s_1", "t"] (by decide)
  simp only [List.foldl_cons, List.foldl_nil] at htwice
  have hrenamed : items.map (rename "s_1") = ["a\\-s_1", "'b, c s_1'", "f(x-s_1"] := by decide +kernel
  rw [hrenamed] at hitems htwice
  have hagain : ["a\\-s_1", "'b, c s_1'", "f(x-s_1"].map (rename "t") =
      ["a\\-s_1-t", "'b, c s_1 t'", "f(x-s_1-t"] := by decide +kernel
  rw [hagain] at htwice
  exact ⟨hv, h, hsound, hs, hvalue, hitems, htwice⟩

/-- An item that ends in an escaped quote is no string, and under a scope nothing closes what it opens. -/
example : ¬ Sound "''\\'" ∧ items? "''\\'" = some ["''\\'"] ∧ items? (renameEach "s" "''\\'") = none := by
  decide +kernel

end StyleScope
