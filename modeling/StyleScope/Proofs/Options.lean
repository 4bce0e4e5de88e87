/-
Which options a JSON value gives once it is written. Of the fields of an object the prefix alone matters, wherever it
stands and whatever the others hold: an object without one gives the standard options, and one with two, or with one
that is no text, gives none. An array gives the prefix as its one item, and is standard if it is empty
(`ofJson?_render`).
-/
import StyleScope.Options
import StyleScope.Proofs.Json.Token

namespace StyleScope.Options

open Json

/-! ## What a value gives -/

/-- The options that fields give: those of the one prefix, if it is a text, and the standard ones if there is none. -/
def ofFields? (fields : List (String × Json)) : Option Options :=
  match fields.filter (·.1 = "attributePrefix") with
  | [] => some standard
  | [(_, .str text)] => some ⟨text⟩
  | _ => none

/-- The options that a value gives. -/
def ofValue? : Json → Option Options
  | .arr [] => some standard
  | .arr [.str text] => some ⟨text⟩
  | .obj fields => ofFields? fields
  | _ => none

/-! ## The fields of an object -/

/-- What has been found already, as a field. -/
def foundField : Option String → List (String × Json)
  | none => []
  | some text => [("attributePrefix", .str text)]

/-- The options that an object gives, from behind one of its values on. -/
def afterMember? (found : Option String) : List Token → Option Options
  | [.closing .object] => some ⟨found.getD standard.attributePrefix⟩
  | .comma :: ts => ofMembers? found ts
  | _ => none

variable {found : Option String} {key : String} {value : Json} {units : List StringUnit} {ts us : List Token}
  {fields : List (String × Json)}

theorem ofMembers?_other (hkey : text? units = some key.toList) (hne : key ≠ "attributePrefix") (hts : OneValue ts) :
    ofMembers? found (.string units :: .colon :: (ts ++ us)) = afterMember? found us := by
  have hkey' : key.toList ≠ "attributePrefix".toList := fun h => hne (String.toList_inj.1 h)
  have hafter : afterValue? [] (ts ++ us) = some us := by rw [hts, afterItem?]
  rw [ofMembers?.eq_def]
  simp only [hkey, bind, Option.bind_some, hkey', if_false, pure]
  split
  · next h => rw [hafter] at h; cases h; rfl
  · next h => rw [hafter] at h; cases h; rfl
  · next hclosing hcomma =>
    unfold afterMember?
    split
    · exact (hclosing hafter).elim
    · exact (hcomma _ hafter).elim
    · rfl

theorem ofMembers?_attribute (hkey : text? units = some "attributePrefix".toList) :
    ofMembers? found (.string units :: .colon :: ts) =
      match found, ts with
      | none, .string units :: ts => do afterMember? (some (String.ofList (← text? units))) ts
      | _, _ => none := by
  rw [ofMembers?.eq_def]
  simp only [hkey, bind, Option.bind_some, if_true, pure]
  rfl

theorem ofFields?_other (hne : key ≠ "attributePrefix") :
    ofFields? (foundField found ++ (key, value) :: fields) = ofFields? (foundField found ++ fields) := by
  have hskip : ((key, value) :: fields).filter (·.1 = "attributePrefix") = fields.filter (·.1 = "attributePrefix") :=
    List.filter_cons_of_neg (by simpa using hne)
  rw [ofFields?, ofFields?, List.filter_append, List.filter_append, hskip]

theorem afterMember?_closing (found : Option String) :
    afterMember? found [.closing .object] = ofFields? (foundField found) := by
  cases found <;> rfl

/-- A prefix is what a field gives, unless one has been found already. -/
theorem ofMembers?_attribute_value (hkey : text? units = some "attributePrefix".toList) (hts : Begins ts value)
    (hus : ∀ found, afterMember? found us = ofFields? (foundField found ++ fields)) :
    ofMembers? found (.string units :: .colon :: (ts ++ us)) =
      ofFields? (foundField found ++ ("attributePrefix", value) :: fields) := by
  rw [ofMembers?_attribute hkey]
  cases found with
  | some text => simp [ofFields?, foundField]
  | none =>
    cases value with
    | str text =>
      obtain ⟨units', rfl, htext⟩ := hts
      simp only [List.cons_append, List.nil_append, htext, bind, Option.bind_some, String.ofList_toList, hus, foundField]
    | _ =>
      obtain ⟨b, tail, rfl⟩ := hts
      simp [ofFields?, foundField]

theorem exists_readAs_field (field : String × Json) (hread : ReadAs (afterPart fieldText '\x7d' [] fields) us)
    (hus : ∀ found, afterMember? found us = ofFields? (foundField found ++ fields)) :
    ∃ units ts, ReadAs (fieldText field ++ afterPart fieldText '\x7d' [] fields) (.string units :: ts) ∧
      ∀ found, ofMembers? found (.string units :: ts) = ofFields? (foundField found ++ field :: fields) := by
  obtain ⟨key, value⟩ := field
  obtain ⟨units, hquote, hkey⟩ := exists_readAs_quote key
  obtain ⟨ts, hvalue, hone, hbegins⟩ := exists_tokens value
  refine ⟨units, .colon :: (ts ++ us), (hquote.append (readAs_colon.cons hvalue)).append hread, fun found => ?_⟩
  by_cases hne : key = "attributePrefix"
  · subst hne
    exact ofMembers?_attribute_value hkey hbegins hus
  · rw [ofMembers?_other hkey hne hone, hus, ofFields?_other hne]

/-- What follows a field is read as the fields that are left, with what has been found in front of them. -/
theorem exists_readAs_fields (fields : List (String × Json)) :
    ∃ us, ReadAs (afterPart fieldText '\x7d' [] fields) us ∧
      ∀ found, afterMember? found us = ofFields? (foundField found ++ fields) := by
  induction fields with
  | nil =>
    refine ⟨[.closing .object], readAs_closing .object, fun found => ?_⟩
    rw [List.append_nil, afterMember?_closing]
  | cons field fields ih =>
    obtain ⟨us, hread, hus⟩ := ih
    obtain ⟨units, ts, hread, hts⟩ := exists_readAs_field field hread hus
    exact ⟨.comma :: .string units :: ts, readAs_comma.cons hread, hts⟩

theorem ofJson?_of_readAs {a : Json} (h : ReadAs a.render.toList ts) : ofJson? a.render = ofTokens? ts := by
  rw [ofJson?, h.tokens?_eq]
  rfl

theorem ofJson?_render_obj (fields : List (String × Json)) : ofJson? (obj fields).render = ofFields? fields := by
  cases fields with
  | nil =>
    have hread : ReadAs (obj []).render.toList [.opening .object, .closing .object] :=
      (readAs_opening .object).cons (readAs_closing .object)
    rw [ofJson?_of_readAs hread]
    rfl
  | cons field fields =>
    obtain ⟨us, hread, hus⟩ := exists_readAs_fields fields
    obtain ⟨units, ts, hread, hts⟩ := exists_readAs_field field hread hus
    have hread : ReadAs (obj (field :: fields)).render.toList (.opening .object :: .string units :: ts) := by
      rw [toList_render_obj, intercalate_append]
      exact (readAs_opening .object).cons hread
    rw [ofJson?_of_readAs hread]
    exact hts none

/-! ## Arrays and other values -/

/-- What follows the first item is the end of the array, or a comma. -/
theorem exists_readAs_items (items : List Json) :
    ∃ us, ReadAs (afterPart (fun item => item.render.toList) ']' [] items) us ∧
      (items = [] ∧ us = [.closing .array] ∨ items ≠ [] ∧ ∃ tail, us = .comma :: tail) := by
  cases items with
  | nil => exact ⟨_, readAs_closing .array, .inl ⟨rfl, rfl⟩⟩
  | cons item items =>
    obtain ⟨ts, hitem, -⟩ := exists_tokens item
    obtain ⟨us, hread, -⟩ := exists_readAs_afterPart fun item (_ : item ∈ items) =>
      (exists_tokens item).imp fun ts h => And.intro h.1 (Part.item h.2.1)
    exact ⟨_, readAs_comma.cons (hitem.append hread), .inr ⟨List.cons_ne_nil _ _, _, rfl⟩⟩

theorem ofJson?_render_arr (items : List Json) : ofJson? (arr items).render = ofValue? (arr items) := by
  cases items with
  | nil =>
    have hread : ReadAs (arr []).render.toList [.opening .array, .closing .array] :=
      (readAs_opening .array).cons (readAs_closing .array)
    rw [ofJson?_of_readAs hread]
    rfl
  | cons item items =>
    obtain ⟨ts, hitem, -, hts⟩ := exists_tokens item
    obtain ⟨us, hread, hus⟩ := exists_readAs_items items
    have hread : ReadAs (arr (item :: items)).render.toList (.opening .array :: (ts ++ us)) := by
      rw [toList_render_arr, intercalate_append]
      exact (readAs_opening .array).cons (hitem.append hread)
    rw [ofJson?_of_readAs hread]
    cases item with
    | str text =>
      obtain ⟨units, rfl, htext⟩ := hts
      rcases hus with ⟨rfl, rfl⟩ | ⟨hne, tail, rfl⟩
      · simp [ofTokens?, ofValue?, htext]
      · obtain ⟨other, items, rfl⟩ := List.exists_cons_of_ne_nil hne
        rfl
    | _ =>
      obtain ⟨b, tail, rfl⟩ := hts
      cases items <;> rfl

/-- **What every value that is written gives.** -/
theorem ofJson?_render (a : Json) : ofJson? a.render = ofValue? a := by
  cases a with
  | str text =>
    obtain ⟨ts, hread, -, units, rfl, -⟩ := exists_tokens (str text)
    rw [ofJson?_of_readAs hread]
    rfl
  | arr items => exact ofJson?_render_arr items
  | obj fields => exact ofJson?_render_obj fields

/-- What stands beside the prefix does not matter in an object, though it does in an array. -/
example : ofJson? "\x7b\"a\":[\"b\",\x7b\x7d],\"attributePrefix\":\"x-\"\x7d" = some ⟨"x-"⟩ ∧
    ofJson? "[\"x-\",\"b\"]" = none := by
  decide +kernel

/-- Options that are written are read back. -/
theorem ofJson?_toJson (options : Options) : ofJson? options.toJson.render = some options := ofJson?_render _

end StyleScope.Options
