/-
Layouts of an animation value. The values of a definition stand in the order of their slots with gaps between
them, and definitions stand between commas; gaps may also stand around a comma and at the end. However a value is
laid out, it is split into the values that it lays out (`definitions_of_layout`), and if these are those of animations,
it is read as these animations (`ofValue_of_layout`). What is printed is one layout.
-/
import StyleScope.Proofs.Animation.Assignment
import StyleScope.Proofs.Scan.Clean
import StyleScope.Proofs.Text.Boundary
import StyleScope.Sheet.Rule

namespace StyleScope.Animation

open Byte Scan Text

/-- The gap sets two values apart. Only after a string may it begin with a comment: elsewhere the comment would
be taken for part of the value. -/
def SetsApart (token : String) (g : Bytes) : Prop :=
  Gap g ∧ g ≠ [] ∧ (BeginsQuoted (encode token) ∨ ∃ b ∈ g.head?, isSpace b)

/-- The values of one definition, and the gap at its end. -/
inductive TokensLayout : List String → Bytes → Prop
  | last {t : String} {g : Bytes} : g = [] ∨ SetsApart t g → TokensLayout [t] (encode t ++ g)
  | cons {t : String} {ts : List String} {g x : Bytes} :
    SetsApart t g → TokensLayout ts x → TokensLayout (t :: ts) (encode t ++ (g ++ x))

/-- Definitions set apart by commas. -/
inductive DefinitionsLayout : List Animation → Bytes → Prop
  | last {a : Animation} {x : Bytes} : TokensLayout a.texts x → DefinitionsLayout [a] x
  | cons {a : Animation} {as : List Animation} {x g y : Bytes} :
    TokensLayout a.texts x → Gap g → DefinitionsLayout as y → DefinitionsLayout (a :: as) (x ++ comma :: (g ++ y))

/-- The values of one definition, of which there may be none, and the gap at its end. -/
inductive ListLayout : List String → Bytes → Prop
  | nil : ListLayout [] []
  | values {ts : List String} {x : Bytes} : TokensLayout ts x → ListLayout ts x

/-- Values of definitions set apart by commas, whatever the values are. -/
inductive ListsLayout : List (List String) → Bytes → Prop
  | last {ts : List String} {x : Bytes} : ListLayout ts x → ListsLayout [ts] x
  | cons {ts : List String} {tss : List (List String)} {x g y : Bytes} :
    ListLayout ts x → Gap g → ListsLayout tss y → ListsLayout (ts :: tss) (x ++ comma :: (g ++ y))

theorem DefinitionsLayout.lists {as : List Animation} {x : Bytes} (h : DefinitionsLayout as x) :
    ListsLayout (as.map texts) x := by
  induction h with
  | last hx => exact .last (.values hx)
  | cons hx hg _ ih => exact .cons (.values hx) hg ih

/-! ## Splitting -/

theorem tokens_eq (xs : Bytes) :
    tokens xs =
      match skipGap xs with
      | [] => .ok ([], [])
      | b :: ys =>
        if b = comma then .ok ([], b :: ys)
        else do
          let rest ← afterValue [comma] (b :: ys)
          let token ← textBefore (b :: ys) rest
          let (more, rest) ← tokens rest
          return (token :: more, rest) := by
  rw [tokens]
  split
  · next hg => rw [hg]
  · next b ys hg =>
    rw [hg]
    simp only
    split
    · rfl
    · split <;> next hv => rw [hv]; rfl

/-- What remains after the values of a definition: nothing, or the next definition after a comma. -/
def EndsDefinition (rest : Bytes) : Prop := ∀ b ∈ rest.head?, b = comma

theorem tokens_end {g rest : Bytes} (hg : Gap g) (hr : EndsDefinition rest) : tokens (g ++ rest) = .ok ([], rest) := by
  rw [tokens_eq]
  cases rest with
  | nil => rw [skipGap_append_flush hg flush_nil]
  | cons b rest =>
    obtain rfl := hr b rfl
    rw [skipGap_append_flush hg (.cons (by decide) (by decide))]
    rfl

theorem tokens_gap {g : Bytes} (hg : Gap g) (rest : Bytes) : tokens (g ++ rest) = tokens rest := by
  rw [tokens_eq, skipGap_append hg, ← tokens_eq]

theorem tokens_token {t : String} (ht : Token comma t) {rest : Bytes}
    (hr : BeginsQuoted (encode t) ∨ EndsValue [comma] rest) :
    tokens (encode t ++ rest) = (tokens rest).map fun (more, rest) => (t :: more, rest) := by
  have hv := ht.valueText.afterValue (by decide) hr
  have hf := ht.valueText.flush_append (ht.flush (by decide) (by decide)) (by decide) hr
  have htext := textBefore_encode t rest
  obtain ⟨b, xs, he, -, hne⟩ := ht.head_ne (by decide) (by decide)
  rw [tokens_eq, skipGap_of_flush hf]
  rw [he, List.cons_append] at hv htext ⊢
  simp only [if_neg hne, hv, bind, Except.bind, htext]
  cases tokens rest <;> rfl

theorem setsApart_singleton {b : UInt8} (hb : isSpace b) (t : String) : SetsApart t [b] :=
  ⟨.space hb .nil, List.cons_ne_nil _ _, .inr ⟨b, rfl, hb⟩⟩

theorem setsApart_space (t : String) : SetsApart t [0x20] := setsApart_singleton (by decide) t

theorem SetsApart.endsValue {t : String} {g : Bytes} (h : SetsApart t g) (rest : Bytes) :
    BeginsQuoted (encode t) ∨ EndsValue [comma] (g ++ rest) := by
  obtain ⟨-, hne, hq | ⟨b, hb, hs⟩⟩ := h
  · exact .inl hq
  · refine .inr (EndsValue.append (fun c hc => ?_) hne rest)
    rw [Option.mem_unique hc hb, hs]
    rfl

theorem EndsDefinition.endsValue {rest : Bytes} (h : EndsDefinition rest) : EndsValue [comma] rest := by
  intro b hb
  rw [h b hb]
  rfl

section Last

variable {t : String} {g : Bytes}

/-- A gap stands behind the last value of a definition, if anything does. -/
theorem gap_of_last (h : g = [] ∨ SetsApart t g) : Gap g := by
  rcases h with rfl | h
  · exact .nil
  · exact h.1

theorem endsValue_of_last (h : g = [] ∨ SetsApart t g) {rest : Bytes} (hr : EndsDefinition rest) :
    BeginsQuoted (encode t) ∨ EndsValue [comma] (g ++ rest) := by
  rcases h with rfl | h
  · exact .inr hr.endsValue
  · exact h.endsValue rest

end Last

theorem TokensLayout.tokens {ts : List String} {x : Bytes} (h : TokensLayout ts x) (ht : ∀ t ∈ ts, Token comma t)
    {rest : Bytes} (hr : EndsDefinition rest) : tokens (x ++ rest) = .ok (ts, rest) := by
  induction h with
  | @last t g hg =>
    rw [List.append_assoc, tokens_token (ht t (by simp)) (endsValue_of_last hg hr), tokens_end (gap_of_last hg) hr]
    rfl
  | @cons t ts g x hg _ ih =>
    rw [List.append_assoc, List.append_assoc, tokens_token (ht t (by simp)) (hg.endsValue _), tokens_gap hg.1,
      ih fun s hs => ht s (List.mem_cons_of_mem t hs)]
    rfl

theorem definitionsFrom_eq (xs : Bytes) :
    definitionsFrom xs = do
      let (ts, rest) ← tokens xs
      let text ← textBefore xs rest
      match rest with
      | [] => return [⟨trimEnd text, ts⟩]
      | _ :: rest => return ⟨trimEnd text, ts⟩ :: (← definitionsFrom (skipGap rest)) := by
  rw [definitionsFrom]
  split <;> next ht => rw [ht]; rfl

/-- The text begins with the first value of its first definition. -/
theorem TokensLayout.flush {ts : List String} {x : Bytes} (h : TokensLayout ts x) (ht : ∀ t ∈ ts, Token comma t)
    (rest : Bytes) (hr : EndsDefinition rest) : Flush (x ++ rest) := by
  cases h with
  | @last t g hg =>
    have htok := ht t (by simp)
    rw [List.append_assoc]
    exact htok.valueText.flush_append (htok.flush (by decide) (by decide)) (by decide) (endsValue_of_last hg hr)
  | @cons t ts g x hg _ =>
    have htok := ht t (by simp)
    rw [List.append_assoc, List.append_assoc]
    exact htok.valueText.flush_append (htok.flush (by decide) (by decide)) (by decide) (hg.endsValue _)

theorem EndsDefinition.flush {rest : Bytes} (h : EndsDefinition rest) : Flush rest := by
  cases rest with
  | nil => exact flush_nil
  | cons b rest =>
    obtain rfl := h b rfl
    exact .cons (by decide) (by decide)

theorem ListLayout.tokens {ts : List String} {x : Bytes} (h : ListLayout ts x) (ht : ∀ t ∈ ts, Token comma t)
    {rest : Bytes} (hr : EndsDefinition rest) : tokens (x ++ rest) = .ok (ts, rest) := by
  cases h with
  | nil => exact tokens_end .nil hr
  | values hx => exact hx.tokens ht hr

theorem ListLayout.flush {ts : List String} {x : Bytes} (h : ListLayout ts x) (ht : ∀ t ∈ ts, Token comma t)
    (rest : Bytes) (hr : EndsDefinition rest) : Flush (x ++ rest) := by
  cases h with
  | nil => exact hr.flush
  | values hx => exact hx.flush ht rest hr

theorem endsDefinition_comma (rest : Bytes) : EndsDefinition (comma :: rest) :=
  fun _ hb => (Option.some.inj hb).symm

theorem ListsLayout.flush {tss : List (List String)} {x : Bytes} (h : ListsLayout tss x)
    (ht : ∀ ts ∈ tss, ∀ t ∈ ts, Token comma t) : Flush x := by
  cases h with
  | @last ts x hx =>
    rw [← List.append_nil x]
    exact hx.flush (ht ts (by simp)) [] nofun
  | @cons ts tss x g y hx _ _ => exact hx.flush (ht ts (by simp)) _ (endsDefinition_comma _)

theorem exists_encode_of_gap {g y : Bytes} {s : String} (hg : Gap g) (h : encode s = g ++ y) :
    ∃ t, encode t = y := by
  cases hn : g with
  | nil => exact ⟨s, by rw [h, hn, List.nil_append]⟩
  | cons c cs =>
    obtain ⟨g', b, he, hb⟩ := hg.getLast_lt (by simp [hn])
    rw [he, List.append_assoc, List.singleton_append] at h
    obtain ⟨_, t, -, ht⟩ := encode_eq_append_cons hb h
    exact ⟨t, ht⟩

theorem ListsLayout.definitionsFrom {tss : List (List String)} {x : Bytes} (h : ListsLayout tss x)
    (ht : ∀ ts ∈ tss, ∀ t ∈ ts, Token comma t) {v : String} (hv : encode v = x) :
    ∃ ds, definitionsFrom x = .ok ds ∧ ds.map (·.tokens) = tss := by
  induction h generalizing v with
  | @last ts x hx =>
    have htok := hx.tokens (ht ts (by simp)) (show EndsDefinition [] from nofun)
    have htext := textBefore_encode v []
    rw [List.append_nil] at htok
    rw [List.append_nil, hv] at htext
    refine ⟨[⟨trimEnd v, ts⟩], ?_, rfl⟩
    rw [definitionsFrom_eq, htok]
    simp only [bind, Except.bind, htext]
    rfl
  | @cons ts tss x g y hx hg hy ih =>
    have htok := hx.tokens (ht ts (by simp)) (endsDefinition_comma (g ++ y))
    obtain ⟨v₁, v₂, rfl, hv₂⟩ := encode_eq_append_cons (by decide) hv
    obtain ⟨v₃, hv₃⟩ := exists_encode_of_gap hg hv₂
    have hrest := fun us hu => ht us (List.mem_cons_of_mem ts hu)
    obtain ⟨ds, hds, hmap⟩ := ih hrest hv₃
    refine ⟨⟨trimEnd v₁, ts⟩ :: ds, ?_, by simp [hmap]⟩
    rw [definitionsFrom_eq, htok]
    simp only [bind, Except.bind, textBefore_encode, skipGap_append_flush hg (hy.flush hrest), hds]
    rfl

theorem DefinitionsLayout.flush {as : List Animation} {x : Bytes} (h : DefinitionsLayout as x)
    (ht : ∀ a ∈ as, ∀ t ∈ a.texts, Token comma t) : Flush x :=
  h.lists.flush (by simpa using ht)

/-- **Splitting undoes joining.** A text that lays out lists of values, after a gap, is split into exactly these lists,
wherever its gaps and commas stand; a list may be empty. -/
theorem definitions_of_layout {tss : List (List String)} {g x : Bytes} {v : String} (hg : Gap g)
    (h : ListsLayout tss x) (hv : encode v = g ++ x) (ht : ∀ ts ∈ tss, ∀ t ∈ ts, Token comma t) :
    ∃ ds, locating definitions (encode v) = .ok ds ∧ ds.map (·.tokens) = tss := by
  obtain ⟨w, hw⟩ := exists_encode_of_gap hg hv
  obtain ⟨ds, hds, hmap⟩ := h.definitionsFrom ht hw
  refine ⟨ds, ?_, hmap⟩
  rw [locating_eq_ok_iff, definitions, hv, skipGap_append_flush hg (h.flush ht), hds]

/-- The commas of a comment, a function and a string end no definition, and the second of the three is empty. -/
theorem definitions_of_layout_commas :
    let v := "/*a,b*/f(1, 2)\t'x, y'/*,*/,, z "
    let tss := [["f(1, 2)", "'x, y'"], [], ["z"]]
    (∃ g x, Gap g ∧ ListsLayout tss x ∧ encode v = g ++ x) ∧ (∀ ts ∈ tss, ∀ t ∈ ts, Token comma t) ∧
      ∃ ds, locating definitions (encode v) = .ok ds ∧ ds.map (·.tokens) = tss := by
  intro v tss
  have ht : ∀ ts ∈ tss, ∀ t ∈ ts, Token comma t := by decide +kernel
  have hcomment {inside : Bytes} (hi : CommentText inside) : Gap (slash :: star :: (inside ++ [star, slash])) :=
    .comment hi .nil
  have hstring : SetsApart "'x, y'" (encode "/*,*/") :=
    ⟨hcomment (show CommentText [comma] by decide), by decide, .inl ⟨singleQuote, rfl, by decide⟩⟩
  have hfirst := TokensLayout.cons (setsApart_singleton (b := 0x09) (by decide) "f(1, 2)") (.last (.inr hstring))
  have hlast := TokensLayout.last (.inr (setsApart_space "z"))
  have hl : ListsLayout tss _ :=
    .cons (.values hfirst) .nil (.cons .nil (setsApart_space "").1 (.last (.values hlast)))
  have hg := hcomment (show CommentText (encode "a,b") by decide)
  obtain ⟨x, hl, hv⟩ : ∃ x, ListsLayout tss x ∧ encode v = slash :: star :: (encode "a,b" ++ [star, slash]) ++ x :=
    ⟨_, hl, by decide +kernel⟩
  exact ⟨⟨_, x, hg, hl, hv⟩, ht, definitions_of_layout hg hl hv ht⟩

/-! ## Reading -/

theorem mapM_assign {as : List Animation} {ds : List Definition} (h : ds.map (·.tokens) = as.map texts)
    (hfit : ∀ a ∈ as, a.Fits) (hne : ∀ a ∈ as, ∀ t ∈ a.texts, t ≠ "") : ds.mapM Definition.assign = .ok as := by
  induction as generalizing ds with
  | nil =>
    rw [List.map_nil, List.map_eq_nil_iff] at h
    rw [h]
    rfl
  | cons a as ih =>
    cases ds with
    | nil => cases h
    | cons d ds =>
      obtain ⟨text, ts⟩ := d
      simp only [List.map_cons, List.cons.injEq] at h
      obtain ⟨rfl, h⟩ := h
      rw [List.mapM_cons, Definition.assign_texts (hfit a (by simp)) (hne a (by simp)),
        ih h (fun b hb => hfit b (List.mem_cons_of_mem a hb)) fun b hb => hne b (List.mem_cons_of_mem a hb)]
      rfl

/-- **However a value is laid out, it is read as its animations.** -/
theorem ofValue_of_layout {as : List Animation} {v : String} (h : DefinitionsLayout as (encode v))
    (hfit : ∀ a ∈ as, a.Fits) (ht : ∀ a ∈ as, ∀ t ∈ a.texts, Token comma t) : ofValue v = .ok as := by
  obtain ⟨ds, hd, hm⟩ := h.lists.definitionsFrom (by simpa using ht) rfl
  have hsplit : locating definitions (encode v) = .ok ds := by
    rw [locating_eq_ok_iff, definitions, skipGap_of_flush (h.flush ht), hd]
  rw [ofValue, hsplit]
  exact mapM_assign hm hfit fun a ha t hta => (ht a ha t hta).ne_empty

/-! ## Scanning -/

section Passes

variable {stops : Bytes}

theorem SetsApart.head?_ne_star {t : String} {g : Bytes} (h : SetsApart t g) (rest : Bytes) :
    (g ++ rest).head? ≠ some star := by
  obtain ⟨hg, hne, -⟩ := h
  cases g with
  | nil => exact absurd rfl hne
  | cons b g => exact hg.head?_ne_star

theorem TokensLayout.passes {ts : List String} {x : Bytes} (h : TokensLayout ts x)
    (hs : ∀ c ∈ stops, inBlank c = false) (ht : ∀ t ∈ ts, Passes stops 0 (encode t) 0) : Passes stops 0 x 0 := by
  induction h with
  | @last t g hg =>
    have hgap := gap_of_last hg
    have hp := hgap.passes_append (d := 0) hs .nil
    rw [List.append_nil] at hp
    exact (ht t (by simp)).append hp hgap.head?_ne_star
  | @cons t ts g x hg _ ih =>
    have hx := ih fun s hm => ht s (List.mem_cons_of_mem t hm)
    exact (ht t (by simp)).append (hg.1.passes_append hs hx) (hg.head?_ne_star x)

/-- A scan that no comma ends passes over a value however it is laid out. -/
theorem DefinitionsLayout.passes {as : List Animation} {x : Bytes} (h : DefinitionsLayout as x)
    (hs : ∀ c ∈ stops, inBlank c = false) (hcomma : isOrdinary stops comma)
    (ht : ∀ a ∈ as, ∀ t ∈ a.texts, Passes stops 0 (encode t) 0) : Passes stops 0 x 0 := by
  induction h with
  | @last a x hx => exact hx.passes hs (ht a (by simp))
  | @cons a as x g y hx hg _ ih =>
    have hy := ih fun b hb => ht b (List.mem_cons_of_mem a hb)
    exact (hx.passes hs (ht a (by simp))).append (.ordinary hcomma (hg.passes_append hs hy))
      (head?_cons_ne (by decide) _)

end Passes

/-! ## The layout that is printed -/

theorem texts_ne_nil (a : Animation) : a.texts ≠ [] := by cases a <;> exact List.cons_ne_nil _ _

theorem print_eq (a : Animation) : a.print = " ".intercalate a.texts := rfl

theorem tokensLayout_intercalate {ts : List String} (h : ts ≠ []) :
    TokensLayout ts (encode (" ".intercalate ts)) := by
  induction ts with
  | nil => exact absurd rfl h
  | cons t ts ih =>
    cases ts with
    | nil =>
      have := TokensLayout.last (t := t) (g := []) (.inl rfl)
      rwa [List.append_nil] at this
    | cons s ts =>
      rw [String.intercalate_cons_cons, encode_append, encode_append, List.append_assoc]
      exact .cons (setsApart_space t) (ih (List.cons_ne_nil s ts))

theorem definitionsLayout_print {as : List Animation} (h : as ≠ []) :
    DefinitionsLayout as (encode (",".intercalate (as.map print))) := by
  induction as with
  | nil => exact absurd rfl h
  | cons a as ih =>
    have ha := tokensLayout_intercalate a.texts_ne_nil
    cases as with
    | nil => exact .last ha
    | cons b as =>
      have := DefinitionsLayout.cons ha .nil (ih (List.cons_ne_nil b as))
      rw [List.map_cons, List.map_cons, String.intercalate_cons_cons, encode_append, encode_append, List.append_assoc]
      exact this

end StyleScope.Animation
