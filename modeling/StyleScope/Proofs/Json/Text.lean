/-
The text of a JSON value determines the value, and no text of one begins the text of another (`ends`). A
string that is written is read back, so it ends at the quote that is written last; the items of an array and the fields
of an object are told apart by the commas between them, as each ends where it does whatever follows.
-/
import StyleScope.Json

namespace StyleScope.Json

variable {x y cs rest : List Char} {c : Char}

/-! ## Strings -/

theorem hexNumber?_digitChar : ∀ n < 0x20, hexNumber? '0' '0' (Nat.digitChar (n / 16)) (Nat.digitChar (n % 16)) = some n := by
  decide

/-- The unit writes the character. -/
def StringUnit.Writes (unit : StringUnit) (c : Char) : Prop :=
  ∀ units, text? (unit :: units) = (text? units).map (c :: ·)

theorem writes_char (c : Char) : (StringUnit.char c).Writes c := fun _ => rfl

/-- A control character is no half of a surrogate pair. -/
theorem writes_code (hc : c.toNat < 0x20) : (StringUnit.code c.toNat).Writes c := by
  intro units
  have hhigh : isHighSurrogate c.toNat = false := by
    rw [isHighSurrogate, Bool.and_eq_false_iff, decide_eq_false_iff_not, decide_eq_false_iff_not]
    omega
  have hlow : isLowSurrogate c.toNat = false := by
    rw [isLowSurrogate, Bool.and_eq_false_iff, decide_eq_false_iff_not, decide_eq_false_iff_not]
    omega
  rw [text?.eq_def]
  simp only [hhigh, hlow, Bool.false_eq_true, if_false, Char.ofNat_toNat]

/-- The characters that are escaped by a letter, each with its letter. -/
def letters : List (Char × Char) :=
  [('"', '"'), ('\\', '\\'), ('\x08', 'b'), ('\t', 't'), ('\n', 'n'), ('\x0c', 'f'), ('\r', 'r')]

theorem escape_of_mem_letters :
    ∀ p ∈ letters, escape p.1 = ['\\', p.2] ∧ letterEscape? p.2 = some p.1 := by
  decide +kernel

theorem escape_of_not_mem_letters (h : c ∉ letters.map (·.1)) : escape c =
    if c.toNat < 0x20 then ['\\', 'u', '0', '0', Nat.digitChar (c.toNat / 16), Nat.digitChar (c.toNat % 16)] else [c] := by
  simp only [letters, List.map_cons, List.map_nil, List.mem_cons, List.not_mem_nil, or_false, not_or] at h
  simp only [escape, h, if_false]

theorem escaped?_letter {letter : Char} (h : letterEscape? letter = some c) (rest : List Char) :
    escaped? (letter :: rest) = some (.char c, rest) := by
  unfold escaped?
  split
  · next he =>
    cases he
    cases h
  · next he =>
    cases he
    rw [h]
    rfl
  · next he => cases he

/-- A character stands for itself, or for it stands a backslash with what is read back as the character. -/
theorem escape_cases (c : Char) :
    (escape c = [c] ∧ c ≠ '"' ∧ c ≠ '\\' ∧ ¬ c.toNat < 0x20) ∨
      ∃ tail unit, escape c = '\\' :: tail ∧ (∀ rest, escaped? (tail ++ rest) = some (unit, rest)) ∧ unit.Writes c := by
  by_cases hc : c ∈ letters.map (·.1)
  · obtain ⟨⟨c, letter⟩, hp, rfl⟩ := List.mem_map.1 hc
    obtain ⟨he, hl⟩ := escape_of_mem_letters _ hp
    exact .inr ⟨[letter], .char c, he, fun rest => escaped?_letter hl rest, writes_char c⟩
  · have he := escape_of_not_mem_letters hc
    split at he
    · next hlt =>
      refine .inr ⟨_, .code c.toNat, he, fun rest => ?_, writes_code hlt⟩
      simp only [List.cons_append, List.nil_append, escaped?, hexNumber?_digitChar c.toNat hlt, Option.map_some]
    · next hge => exact .inl ⟨he, (ne_of_mem_of_not_mem (by decide) hc).symm, (ne_of_mem_of_not_mem (by decide) hc).symm, hge⟩

/-- **A string that is written is read back**, whatever follows its closing quote. -/
theorem stringUnits?_escape (cs : List Char) :
    ∃ units, text? units = some cs ∧
      ∀ rest, stringUnits? (cs.flatMap escape ++ '"' :: rest) = some (units, rest) := by
  induction cs with
  | nil =>
    refine ⟨[], rfl, fun rest => ?_⟩
    rw [List.flatMap_nil, List.nil_append, stringUnits?, if_pos rfl]
  | cons c cs ih =>
    obtain ⟨units, htext, hread⟩ := ih
    rcases escape_cases c with ⟨he, hq, hb, hc⟩ | ⟨tail, unit, he, hread', hwrites⟩
    · refine ⟨.char c :: units, by rw [writes_char, htext]; rfl, fun rest => ?_⟩
      rw [List.flatMap_cons, List.append_assoc, he, List.singleton_append, stringUnits?, if_neg hq, if_neg hb, if_neg hc,
        hread]
      rfl
    · refine ⟨unit :: units, by rw [hwrites, htext]; rfl, fun rest => ?_⟩
      rw [List.flatMap_cons, List.append_assoc, he, List.cons_append, stringUnits?, if_neg (by decide), if_pos rfl]
      split
      · next hx => rw [hread'] at hx; cases hx
      · next hx =>
        rw [hread'] at hx
        cases hx
        rw [hread]
        rfl

theorem toList_quote (s : String) : (quote s).toList = '"' :: (s.toList.flatMap escape ++ ['"']) := by
  simp [quote]

theorem quote_append_inj {s t : String} (h : (quote s).toList ++ x = (quote t).toList ++ y) : s = t ∧ x = y := by
  simp only [toList_quote, List.cons_append, List.append_assoc, List.nil_append, List.cons.injEq, true_and] at h
  obtain ⟨us, hst, hs⟩ := stringUnits?_escape s.toList
  obtain ⟨ut, htt, ht⟩ := stringUnits?_escape t.toList
  have hunits := hs x
  rw [h, ht y] at hunits
  cases hunits
  rw [hst] at htt
  exact ⟨String.toList_inj.1 (Option.some.inj htt), rfl⟩

/-! ## Lists -/

/-- What follows the first part of a list of parts with commas between them and an end. -/
def afterPart {α : Type} (code : α → List Char) (close : Char) (x : List Char) : List α → List Char
  | [] => close :: x
  | b :: bs => ',' :: (code b ++ afterPart code close x bs)

theorem intercalate_append {α : Type} (code : α → List Char) (close : Char) (a : α) (as : List α) (x : List Char) :
    [','].intercalate ((a :: as).map code) ++ close :: x = code a ++ afterPart code close x as := by
  induction as generalizing a with
  | nil => simp [afterPart]
  | cons b as ih =>
    rw [List.map_cons, List.map_cons, List.intercalate_cons_cons, ← List.map_cons, List.append_assoc, ih, afterPart]
    simp

section

variable {α : Type} {code : α → List Char} {close : Char} (hclose : close ≠ ',')

include hclose in
theorem afterPart_inj {as bs : List α}
    (hcode : ∀ a ∈ as, ∀ b x y, code a ++ x = code b ++ y → a = b ∧ x = y)
    (h : afterPart code close x as = afterPart code close y bs) : as = bs ∧ x = y := by
  induction as generalizing bs with
  | nil =>
    cases bs with
    | nil => exact ⟨rfl, (List.cons.inj h).2⟩
    | cons b bs => exact absurd (List.cons.inj h).1 hclose
  | cons a as ih =>
    cases bs with
    | nil => exact absurd (List.cons.inj h).1.symm hclose
    | cons b bs =>
      obtain ⟨rfl, hrest⟩ := hcode a List.mem_cons_self b _ _ (List.cons.inj h).2
      obtain ⟨rfl, rfl⟩ := ih (fun a ha => hcode a (List.mem_cons_of_mem _ ha)) hrest
      exact ⟨rfl, rfl⟩

/-- **Parts with commas between them are told apart**, if each ends where it does whatever follows, and none begins as the
list ends. -/
theorem intercalate_append_inj (hclose : close ≠ ',') {as bs : List α}
    (hcode : ∀ a ∈ as, ∀ b x y, code a ++ x = code b ++ y → a = b ∧ x = y)
    (hhead : ∀ a x, (code a ++ x).head? ≠ some close)
    (h : [','].intercalate (as.map code) ++ close :: x = [','].intercalate (bs.map code) ++ close :: y) :
    as = bs ∧ x = y := by
  cases as with
  | nil =>
    cases bs with
    | nil => exact ⟨rfl, by simpa using h⟩
    | cons b bs =>
      rw [intercalate_append] at h
      exact absurd (congrArg List.head? h).symm (hhead b _)
  | cons a as =>
    cases bs with
    | nil =>
      rw [intercalate_append] at h
      exact absurd (congrArg List.head? h) (hhead a _)
    | cons b bs =>
      rw [intercalate_append, intercalate_append] at h
      obtain ⟨rfl, hrest⟩ := hcode a List.mem_cons_self b _ _ h
      obtain ⟨rfl, rfl⟩ := afterPart_inj hclose (fun a ha => hcode a (List.mem_cons_of_mem _ ha)) hrest
      exact ⟨rfl, rfl⟩

end

/-! ## Values -/

/-- Induction along a value, through its items and its fields. -/
theorem induction_on {motive : Json → Prop} (str : ∀ s, motive (str s))
    (arr : ∀ items, (∀ item ∈ items, motive item) → motive (arr items))
    (obj : ∀ fields, (∀ field ∈ fields, motive field.2) → motive (obj fields)) : ∀ a, motive a
  | .str s => str s
  | .arr items => arr items fun item _ => induction_on str arr obj item
  | .obj fields => obj fields fun field hmem => by
    have hfield := List.sizeOf_lt_of_mem hmem
    have hvalue : sizeOf field.2 < sizeOf field := by
      obtain ⟨key, value⟩ := field
      simp only [Prod.mk.sizeOf_spec]
      omega
    exact induction_on str arr obj field.2
termination_by a => sizeOf a

/-- The text of a field. -/
def fieldText (field : String × Json) : List Char := (quote field.1).toList ++ ':' :: field.2.render.toList

theorem toList_renderItems (items : List Json) :
    (renderItems items).map String.toList = items.map fun item => item.render.toList := by
  rw [renderItems_eq_map, List.map_map]
  rfl

theorem toList_renderFields (fields : List (String × Json)) :
    (renderFields fields).map String.toList = fields.map fieldText := by
  induction fields with
  | nil => rfl
  | cons field fields ih =>
    obtain ⟨key, value⟩ := field
    rw [renderFields, List.map_cons, ih, List.map_cons]
    simp [fieldText]

theorem toList_render_arr (items : List Json) : (arr items).render.toList =
    '[' :: ([','].intercalate (items.map fun item => item.render.toList) ++ [']']) := by
  simp [render, toList_renderItems]

theorem toList_render_obj (fields : List (String × Json)) : (obj fields).render.toList =
    '\x7b' :: ([','].intercalate (fields.map fieldText) ++ ['\x7d']) := by
  simp [render, toList_renderFields]

/-- The character with which the text of a value begins. -/
def first : Json → Char
  | .str _ => '"'
  | .arr _ => '['
  | .obj _ => '\x7b'

theorem head?_render (a : Json) (x : List Char) : (a.render.toList ++ x).head? = some a.first := by
  cases a with
  | str text => simp [render, toList_quote, first]
  | arr items => simp [toList_render_arr, first]
  | obj fields => simp [toList_render_obj, first]

theorem head?_fieldText (field : String × Json) (x : List Char) : (fieldText field ++ x).head? = some '"' := by
  simp [fieldText, toList_quote]

theorem first_eq {a b : Json} (h : a.render.toList ++ x = b.render.toList ++ y) : a.first = b.first := by
  have hhead := congrArg List.head? h
  rwa [head?_render, head?_render, Option.some.injEq] at hhead

/-- The text of the value is the text of no other, and it ends where it does whatever follows. -/
def Ends (a : Json) : Prop := ∀ b x y, a.render.toList ++ x = b.render.toList ++ y → a = b ∧ x = y

theorem ends_str (s : String) : (str s).Ends := by
  intro b x y h
  have hfirst := first_eq h
  cases b with
  | str t =>
    rw [render, render] at h
    obtain ⟨rfl, rfl⟩ := quote_append_inj h
    exact ⟨rfl, rfl⟩
  | _ => simp [first] at hfirst

theorem ends_arr {items : List Json} (hitems : ∀ item ∈ items, item.Ends) : (arr items).Ends := by
  intro b x y h
  have hfirst := first_eq h
  cases b with
  | arr others =>
    simp only [toList_render_arr, List.cons_append, List.append_assoc, List.nil_append, List.cons.injEq, true_and] at h
    have hhead (a : Json) (x : List Char) : (a.render.toList ++ x).head? ≠ some ']' := by
      rw [head?_render]
      cases a <;> simp [first]
    obtain ⟨rfl, rfl⟩ := intercalate_append_inj (by decide) hitems hhead h
    exact ⟨rfl, rfl⟩
  | _ => simp [first] at hfirst

theorem ends_obj {fields : List (String × Json)} (hfields : ∀ field ∈ fields, field.2.Ends) : (obj fields).Ends := by
  intro b x y h
  have hfirst := first_eq h
  cases b with
  | obj others =>
    simp only [toList_render_obj, List.cons_append, List.append_assoc, List.nil_append, List.cons.injEq, true_and] at h
    have hcode : ∀ field ∈ fields, ∀ other x y, fieldText field ++ x = fieldText other ++ y → field = other ∧ x = y := by
      rintro ⟨key, value⟩ hmem ⟨key', value'⟩ x y h
      simp only [fieldText, List.append_assoc, List.cons_append] at h
      obtain ⟨rfl, hvalue⟩ := quote_append_inj h
      obtain ⟨rfl, rfl⟩ := hfields _ hmem value' x y (List.cons.inj hvalue).2
      exact ⟨rfl, rfl⟩
    have hhead (field : String × Json) (x : List Char) : (fieldText field ++ x).head? ≠ some '\x7d' := by
      rw [head?_fieldText]
      decide
    obtain ⟨rfl, rfl⟩ := intercalate_append_inj (by decide) hcode hhead h
    exact ⟨rfl, rfl⟩
  | _ => simp [first] at hfirst

/-- **The text of a value determines it**, whatever follows. -/
theorem ends (a : Json) : a.Ends := by
  induction a using induction_on with
  | str s => exact ends_str s
  | arr items ih => exact ends_arr ih
  | obj fields ih => exact ends_obj ih

end StyleScope.Json
