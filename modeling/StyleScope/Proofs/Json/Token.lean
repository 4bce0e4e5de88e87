/-
The tokens of a value that is written. Its text is read as these tokens whatever follows it, and inside any brackets they
are passed over as one value, however deep the value is (`exists_tokens`).
-/
import StyleScope.Proofs.Json.Text

namespace StyleScope.Json

variable {cs cs' : List Char} {ts ts' : List Token} {b : Bracket}

/-! ## Tokens of a text -/

/-- The characters are read as these tokens, whatever follows. -/
def ReadAs (cs : List Char) (ts : List Token) : Prop := ∀ rest, tokens? (cs ++ rest) = (tokens? rest).map (ts ++ ·)

theorem ReadAs.append (h : ReadAs cs ts) (h' : ReadAs cs' ts') : ReadAs (cs ++ cs') (ts ++ ts') := by
  intro rest
  rw [List.append_assoc, h, h', Option.map_map]
  simp [Function.comp_def]

theorem ReadAs.cons {c : Char} {t : Token} (h : ReadAs [c] [t]) (h' : ReadAs cs ts) : ReadAs (c :: cs) (t :: ts) :=
  h.append h'

theorem ReadAs.tokens?_eq (h : ReadAs cs ts) : tokens? cs = some ts := by
  have hnil : tokens? [] = some [] := by rw [tokens?]
  have hall := h []
  rwa [List.append_nil, hnil, Option.map_some, List.append_nil] at hall

theorem readAs_token {c : Char} {t : Token} (hb : isBlank c = false) (ht : ∀ rest, token? c (cs ++ rest) = some (t, rest)) :
    ReadAs (c :: cs) [t] := by
  intro rest
  rw [List.cons_append, tokens?, hb, if_neg Bool.false_ne_true]
  split
  · next h => rw [ht] at h; cases h
  · next h =>
    rw [ht] at h
    cases h
    rfl

theorem readAs_comma : ReadAs [','] [.comma] := readAs_token (by decide) fun _ => rfl

theorem readAs_colon : ReadAs [':'] [.colon] := readAs_token (by decide) fun _ => rfl

/-- The two characters of a bracket. -/
def Bracket.chars : Bracket → Char × Char
  | .array => ('[', ']')
  | .object => ('\x7b', '\x7d')

theorem readAs_opening (b : Bracket) : ReadAs [b.chars.1] [.opening b] := by
  cases b <;> exact readAs_token (by decide) fun _ => rfl

theorem readAs_closing (b : Bracket) : ReadAs [b.chars.2] [.closing b] := by
  cases b <;> exact readAs_token (by decide) fun _ => rfl

theorem exists_readAs_quote (s : String) :
    ∃ units, ReadAs (quote s).toList [.string units] ∧ text? units = some s.toList := by
  obtain ⟨units, htext, hread⟩ := stringUnits?_escape s.toList
  refine ⟨units, ?_, htext⟩
  rw [toList_quote]
  refine readAs_token (by decide) fun rest => ?_
  rw [List.append_assoc, List.singleton_append, token?, hread, Option.map_some]

/-! ## One value -/

/-- The tokens are those of one value: inside any brackets they are passed over. -/
def OneValue (ts : List Token) : Prop := ∀ outer rest, afterValue? outer (ts ++ rest) = afterItem? outer rest

/-- The tokens are those of one part of an array or of an object. -/
inductive Part : Bracket → List Token → Prop
  | item {ts : List Token} : OneValue ts → Part .array ts
  | field {ts : List Token} (units : List StringUnit) : OneValue ts → Part .object (.string units :: .colon :: ts)

theorem oneValue_string (units : List StringUnit) : OneValue [.string units] := fun outer rest => by
  rw [List.singleton_append, afterValue?]

theorem oneValue_empty (b : Bracket) : OneValue [.opening b, .closing b] := fun outer rest => by
  cases b <;> rw [List.cons_append, List.singleton_append, afterValue?]

/-- No value begins as an array ends. -/
theorem OneValue.ne_closing (h : OneValue ts) (rest tail : List Token) : ts ++ rest ≠ .closing .array :: tail := by
  intro he
  have hread := h [] rest
  rw [he] at hread
  simp [afterValue?, afterItem?] at hread

theorem afterItem?_closing (b : Bracket) (outer : List Bracket) (rest : List Token) :
    afterItem? (b :: outer) (.closing b :: rest) = afterItem? outer rest := by
  cases b <;> rw [afterItem?]

theorem Part.after_opening (h : Part b ts) (outer : List Bracket) (rest : List Token) :
    afterValue? outer (.opening b :: (ts ++ rest)) = afterItem? (b :: outer) rest := by
  cases h with
  | item h =>
    rw [afterValue?, h]
    exact h.ne_closing rest
  | field units h => rw [List.cons_append, List.cons_append, afterValue?, h]

theorem Part.after_comma (h : Part b ts) (outer : List Bracket) (rest : List Token) :
    afterItem? (b :: outer) (.comma :: (ts ++ rest)) = afterItem? (b :: outer) rest := by
  cases h with
  | item h => rw [afterItem?, h]
  | field units h => rw [List.cons_append, List.cons_append, afterItem?, h]

section

variable {α : Type} {code : α → List Char} {as : List α}

/-- What follows a part is passed over, up to the end of the brackets. -/
theorem exists_readAs_afterPart (has : ∀ a ∈ as, ∃ ts, ReadAs (code a) ts ∧ Part b ts) :
    ∃ ts, ReadAs (afterPart code b.chars.2 [] as) ts ∧
      ∀ outer rest, afterItem? (b :: outer) (ts ++ rest) = afterItem? outer rest := by
  induction as with
  | nil => exact ⟨[.closing b], readAs_closing b, afterItem?_closing b⟩
  | cons a as ih =>
    obtain ⟨ts, hread, hpart⟩ := has a List.mem_cons_self
    obtain ⟨ts', hread', hends⟩ := ih fun a ha => has a (List.mem_cons_of_mem _ ha)
    refine ⟨.comma :: (ts ++ ts'), readAs_comma.cons (hread.append hread'), fun outer rest => ?_⟩
    rw [List.cons_append, List.append_assoc, hpart.after_comma, hends]

theorem exists_readAs_brackets (has : ∀ a ∈ as, ∃ ts, ReadAs (code a) ts ∧ Part b ts) :
    ∃ ts, ReadAs (b.chars.1 :: ([','].intercalate (as.map code) ++ [b.chars.2])) (.opening b :: ts) ∧
      OneValue (.opening b :: ts) := by
  cases as with
  | nil => exact ⟨[.closing b], (readAs_opening b).cons (readAs_closing b), oneValue_empty b⟩
  | cons a as =>
    obtain ⟨ts, hread, hpart⟩ := has a List.mem_cons_self
    obtain ⟨ts', hread', hends⟩ := exists_readAs_afterPart fun a ha => has a (List.mem_cons_of_mem _ ha)
    refine ⟨ts ++ ts', ?_, fun outer rest => ?_⟩
    · rw [intercalate_append]
      exact (readAs_opening b).cons (hread.append hread')
    · rw [List.cons_append, List.append_assoc, hpart.after_opening, hends]

end

/-- How the tokens of a value begin: a text is one token, which writes it, and all else begins with a bracket. -/
def Begins (ts : List Token) : Json → Prop
  | .str s => ∃ units, ts = [.string units] ∧ text? units = some s.toList
  | _ => ∃ b tail, ts = .opening b :: tail

/-- **A value that is written is read as tokens, and these are passed over as one value.** -/
theorem exists_tokens (a : Json) : ∃ ts, ReadAs a.render.toList ts ∧ OneValue ts ∧ Begins ts a := by
  induction a using induction_on with
  | str s =>
    obtain ⟨units, hread, htext⟩ := exists_readAs_quote s
    exact ⟨[.string units], by rwa [render], oneValue_string units, units, rfl, htext⟩
  | arr items ih =>
    have hitems : ∀ item ∈ items, ∃ ts, ReadAs item.render.toList ts ∧ Part .array ts := fun item hmem =>
      (ih item hmem).imp fun ts h => ⟨h.1, .item h.2.1⟩
    obtain ⟨ts, hread, hone⟩ := exists_readAs_brackets hitems
    exact ⟨_, by rwa [toList_render_arr], hone, _, ts, rfl⟩
  | obj fields ih =>
    have hfields : ∀ field ∈ fields, ∃ ts, ReadAs (fieldText field) ts ∧ Part .object ts := fun field hmem => by
      obtain ⟨units, hkey, -⟩ := exists_readAs_quote field.1
      obtain ⟨ts, hread, hone, -⟩ := ih field hmem
      exact ⟨_, hkey.append (readAs_colon.cons hread), .field units hone⟩
    obtain ⟨ts, hread, hone⟩ := exists_readAs_brackets hfields
    exact ⟨_, by rwa [toList_render_obj], hone, _, ts, rfl⟩

end StyleScope.Json
