/-
What is read is what the grammar describes. Each reader has one lemma: where it succeeds, the bytes it took are
a piece of the grammar that stands for what it gave, and a piece is complete in itself, so that no success
depends on what follows. Together with completeness: `read` accepts exactly the sheets of the grammar
(`read_eq_ok_iff`).
-/
import StyleScope.Proofs.Sheet.Completeness
import StyleScope.Proofs.Text.Ascii

namespace StyleScope.Sheet

open Byte Scan Text

theorem exists_of_seek {stop : UInt8 → Bool} {xs rest : Bytes} {b : UInt8} (h : seek stop xs = b :: rest) :
    ∃ ys, xs = ys ++ b :: rest ∧ (∀ c ∈ ys, stop c = false) ∧ stop b := by
  induction xs with
  | nil => cases h
  | cons c xs ih =>
    rw [seek, List.dropWhile_cons] at h
    split at h
    · next hc =>
      obtain ⟨ys, rfl, hy, hb⟩ := ih h
      refine ⟨c :: ys, rfl, ?_, hb⟩
      intro a ha
      rcases List.mem_cons.1 ha with rfl | ha
      · simpa using hc
      · exact hy a ha
    · next hc =>
      cases h
      refine ⟨[], rfl, ?_, by simpa using hc⟩
      intro a ha
      cases ha

/-! ## Style rules -/

theorem pieceText_of_topLevel {stops xs rest : Bytes} {b : UInt8} {raw : String}
    (ht : topLevel stops xs = .ok (b :: rest)) (hs : textBefore xs (b :: rest) = .ok raw) (hf : Flush xs) :
    ∃ x d, xs = x ++ b :: rest ∧ PieceText stops (trim raw) x d ∧ stopsAt stops d b := by
  obtain ⟨ys, d, he, hp, hb, -⟩ := passes_of_topLevelFrom ht
  have hraw := textBefore_eq_ok (topLevel_suffix ht) hs
  obtain rfl : ys = encode raw := List.append_cancel_right (he.symm.trans hraw)
  exact ⟨_, d, he, .mk rfl (he ▸ hf).of_append hp, hb⟩

theorem selectorsText_of_selectors {ss : List String} {xs rest : Bytes}
    (h : selectors xs = .ok (ss, openBrace :: rest)) (hf : Flush xs) :
    ∃ x, xs = x ++ openBrace :: rest ∧ SelectorsText ss x := by
  fun_induction selectors xs generalizing ss with
  | case1 => cases h
  | case2 xs stop ht hc =>
    simp only [bind_eq_ok_iff] at h
    obtain ⟨raw, hs, hr⟩ := h
    cases hr
    obtain ⟨x, d, he, hp, -⟩ := pieceText_of_topLevel ht hs hf
    exact ⟨x, he, .last hp⟩
  | case3 xs stop ht after hc ih =>
    simp only [bind_eq_ok_iff] at h
    obtain ⟨raw, hs, ⟨more, r⟩, hm, hr⟩ := h
    cases hr
    rw [after?_eq_some_iff] at hc
    subst hc
    obtain ⟨x, d, he, hp, hb⟩ := pieceText_of_topLevel ht hs hf
    obtain rfl := eq_zero_of_stopsAt hb (by decide)
    cases hg : skipGap after with
    | nil =>
      have hlen := selectors_length_le hm
      rw [hg] at hlen
      exact absurd hlen (by simp)
    | cons c ys =>
      obtain ⟨g, hgap, hga, hflush⟩ := exists_gap_of_skipGap hg
      rw [hg] at hm ih
      obtain ⟨y, hy, hst⟩ := ih hm hflush
      refine ⟨x ++ comma :: (g ++ y), ?_, .cons hp hgap hst⟩
      rw [he, hga, hy]
      simp

theorem declarationText_of_declaration {d : Declaration} {xs rest : Bytes}
    (h : declaration xs = .ok (d, rest)) (hf : Flush xs) :
    ∃ x depth b ys, xs = x ++ b :: ys ∧ DeclarationText d x depth ∧
      stopsAt [semicolon, closeBrace] depth b ∧ rest = if b = semicolon then ys else b :: ys := by
  simp only [declaration, bind_eq_ok_iff] at h
  obtain ⟨property, hp, inside, hc, stop, ht, value, hv, after, ha, d', hd, hr⟩ := h
  cases hr
  rw [expect_eq_ok_iff] at hc
  rw [hc] at hp
  obtain ⟨ys, he, hys, -⟩ := exists_of_seek hc
  have hpe := textBefore_eq_ok ⟨ys, he.symm⟩ hp
  obtain rfl : ys = encode property := List.append_cancel_right (he.symm.trans hpe)
  cases stop with
  | nil => cases ha
  | cons b zs =>
    obtain ⟨c, ws, hstart⟩ : ∃ c ws, skipGap inside = c :: ws := by
      obtain ⟨pre, hpre⟩ := topLevel_suffix ht
      cases hpre' : pre ++ b :: zs with
      | nil => exact absurd hpre' (by simp)
      | cons c ws => exact ⟨c, ws, hpre.symm.trans hpre'⟩
    obtain ⟨g, hg, hin, hflush⟩ := exists_gap_of_skipGap hstart
    rw [hstart] at ht hv
    obtain ⟨v, depth, hve, hpv, hb⟩ := pieceText_of_topLevel ht hv hflush
    refine ⟨encode property ++ colon :: (g ++ v), depth, b, zs, ?_, ?_, hb, ?_⟩
    · rw [he, hin, hve]
      simp
    · exact .mk (he ▸ hf).of_append hys hg hpv (mapError_eq_ok_iff.1 hd)
    · exact (Except.ok.inj ha).symm

theorem declarationsText_of_declarations {ds : List Declaration} {xs rest : Bytes}
    (h : declarations xs = .ok (ds, rest)) : ∃ x, xs = x ++ rest ∧ DeclarationsText ds x := by
  fun_induction declarations xs generalizing ds with
  | case1 => cases h
  | case2 xs ys hg =>
    cases h
    obtain ⟨g, hgap, rfl, -⟩ := exists_gap_of_skipGap hg
    exact ⟨g ++ [closeBrace], by simp, .nil hgap⟩
  | case3 xs ys hg _ ih =>
    obtain ⟨g, hgap, rfl, -⟩ := exists_gap_of_skipGap hg
    obtain ⟨x, rfl, hx⟩ := ih h
    exact ⟨g ++ semicolon :: x, by simp, .semicolon hgap hx⟩
  | case4 => cases h
  | case5 xs b ys hg _ _ first after hd ih =>
    simp only [bind_eq_ok_iff] at h
    obtain ⟨⟨more, r⟩, hm, hr⟩ := h
    cases hr
    obtain ⟨g, hgap, rfl, hf⟩ := exists_gap_of_skipGap hg
    obtain ⟨x, depth, c, zs, he, hx, hc, rfl⟩ := declarationText_of_declaration hd hf
    rw [he]
    rcases eq_of_stopsAt hc with rfl | rfl
    · obtain rfl := eq_zero_of_stopsAt hc (by decide)
      rw [if_pos rfl] at ih hm
      obtain ⟨y, rfl, hy⟩ := ih hm
      exact ⟨g ++ (x ++ semicolon :: y), by simp, .cons hgap hx hy⟩
    · rw [if_neg (by decide)] at hm
      have hend := declarations_closeBrace .nil zs
      rw [List.nil_append, hm] at hend
      cases hend
      exact ⟨g ++ (x ++ [closeBrace]), by simp, .last hgap hx⟩

/-! ## At-rules -/

theorem eq_of_seek_keyword {keyword : String} {xs rest : Bytes} {b : UInt8}
    (hs : seek endsKeyword xs = b :: rest) (ht : textBefore xs (seek endsKeyword xs) = .ok keyword) :
    xs = encode keyword ++ b :: rest ∧ EndsKeyword (b :: rest) := by
  obtain ⟨-, -, -, hb⟩ := exists_of_seek hs
  have := textBefore_eq_ok (seek_suffix _ xs) ht
  rw [hs] at this
  exact ⟨this, b, rfl, hb⟩

/-- A name is a value, and what follows it is what may end it. -/
theorem valueText_of_keyframesName {name : String} {xs rest : Bytes} {b : UInt8}
    (h : keyframesName xs = .ok (name, b :: rest)) :
    xs = encode name ++ b :: rest ∧ ValueText [openBrace] (encode name) ∧
      (BeginsQuoted (encode name) ∨ EndsValue [openBrace] (b :: rest)) := by
  simp only [keyframesName, bind_eq_ok_iff] at h
  obtain ⟨r, hv, raw, ht, h⟩ := h
  split at h
  · cases h
  · next hne =>
    cases h
    have he := textBefore_eq_ok (afterValue_suffix hv) ht
    rw [he] at hv
    refine ⟨he, valueText_of_afterValue hv fun hn => hne ?_⟩
    rw [encode_eq_nil hn]
    rfl

theorem conditionText_of_condition {kind : ConditionalKind} {g xs rest : Bytes} {i : Item}
    (h : condition kind xs = .ok (i, rest)) (hg : Gap g) (hk : EndsKeyword (g ++ xs)) (hf : Flush xs) :
    ∃ text x, i = .opening kind text ∧ encode kind.keyword ++ (g ++ xs) = x ++ rest ∧
      ConditionText kind text x := by
  simp only [condition, bind_eq_ok_iff] at h
  obtain ⟨text, ht, inside, ho, hr⟩ := h
  cases hr
  rw [expect_eq_ok_iff] at ho
  rw [ho] at ht
  obtain ⟨ys, he, hy, -⟩ := exists_of_seek ho
  obtain rfl : ys = encode text := List.append_cancel_right (he.symm.trans (textBefore_eq_ok ⟨ys, he.symm⟩ ht))
  have hx : g ++ xs = g ++ (encode text ++ [openBrace]) ++ rest := by rw [he]; simp
  refine ⟨text, encode kind.keyword ++ (g ++ (encode text ++ [openBrace])), rfl, by rw [hx]; simp, ?_⟩
  rw [hx] at hk
  exact .mk hg (hk.of_append (by simp)) (he ▸ hf).of_append fun hm => absurd (hy _ hm) (by decide)

theorem itemText_of_keyframes {g xs rest : Bytes} {i : Item} (h : keyframes xs = .ok (i, rest)) (hg : Gap g)
    (hk : EndsKeyword (g ++ xs)) (hf : Flush xs) :
    ∃ rule x, i = .rule rule ∧ encode "@keyframes" ++ (g ++ xs) = x ++ rest ∧ ItemText rule x := by
  simp only [keyframes, bind_eq_ok_iff] at h
  obtain ⟨⟨name, r⟩, hn, span, hb, body, ht, hr⟩ := h
  cases hr
  simp only at hb hn
  obtain ⟨k, block, hu, hbt, he, hs⟩ := blockText_of_block hb
  rw [hs] at ht
  obtain rfl : block = encode body := List.append_cancel_right (textBefore_eq_ok ⟨block, rfl⟩ ht)
  cases hgap : skipGap r with
  | nil =>
    rw [hgap] at he
    exact absurd (List.append_eq_nil_iff.1 (List.append_eq_nil_iff.1 he.symm).2).1 hbt.ne_nil
  | cons c cs =>
    obtain ⟨j, hj, hjr, hfj⟩ := exists_gap_of_skipGap hgap
    rw [← hgap, he] at hfj hjr
    cases hr : r with
    | nil => rw [hr, skipGap] at hgap; cases hgap
    | cons b bs =>
      rw [hr] at hn
      obtain ⟨hx, hv, hend⟩ := valueText_of_keyframesName hn
      rw [← hr, hjr] at hx hend
      have hend' : BeginsQuoted (encode name) ∨ EndsValue [openBrace] (j ++ (k ++ encode body)) :=
        hend.imp id fun h => EndsValue.of_append (by simpa using h)
      rw [hx, ← List.append_assoc] at hk
      have hk' := hk.of_append (by simpa using fun _ => hv.ne_nil)
      exact ⟨.keyframes name body, encode "@keyframes" ++ (g ++ (encode name ++ (j ++ (k ++ encode body)))),
        rfl, by rw [hx]; simp, .keyframes hg hk' (hx ▸ hf).of_append hv hj hfj.of_append hu hbt hend'⟩

/-- The start of an at-rule is a whole rule, or a condition with its brace. -/
theorem atRule_sound {xs rest : Bytes} {i : Item} (h : atRule xs = .ok (i, rest)) :
    ∃ x, xs = x ++ rest ∧
      ((∃ rule, i = .rule rule ∧ ItemText rule x) ∨
        ∃ kind text, i = .opening kind text ∧ ConditionText kind text x) := by
  simp only [atRule, bind_eq_ok_iff] at h
  obtain ⟨keyword, ht, h⟩ := h
  -- a keyword that ends the text is followed by no name and no brace
  cases hg : skipGap (seek endsKeyword xs) with
  | nil =>
    rw [hg] at h
    split at h
    · simp only [condition, bind_eq_ok_iff] at h
      obtain ⟨_, _, _, ho, -⟩ := h
      cases expect_eq_ok_iff.1 ho
    · split at h
      · simp only [keyframes, keyframesName, bind_eq_ok_iff] at h
        obtain ⟨_, ⟨_, hv, _, hn, he⟩, -⟩ := h
        cases hv
        cases hn
        cases he
      · cases h
  | cons c cs =>
    obtain ⟨g, hgap, hs, hf⟩ := exists_gap_of_skipGap hg
    obtain ⟨b, bs, hb⟩ : ∃ b bs, seek endsKeyword xs = b :: bs := by
      cases hx : seek endsKeyword xs with
      | nil => rw [hx, skipGap] at hg; cases hg
      | cons b bs => exact ⟨b, bs, rfl⟩
    obtain ⟨hx, hk⟩ := eq_of_seek_keyword hb ht
    rw [← hb, hs] at hx hk
    rw [hg] at h
    split at h
    · next kind hkind =>
      obtain rfl := ConditionalKind.keyword_of_ofKeyword? hkind
      obtain ⟨text, x, rfl, he, hc⟩ := conditionText_of_condition h hgap hk hf
      exact ⟨x, hx.trans he, .inr ⟨kind, text, rfl, hc⟩⟩
    · split at h
      · next hkw =>
        subst hkw
        obtain ⟨rule, x, rfl, he, hi⟩ := itemText_of_keyframes h hgap hk hf
        exact ⟨x, hx.trans he, .inl ⟨rule, rfl, hi⟩⟩
      · cases h

/-! ## Rules -/

/-- **The start of a rule is a whole rule, or a condition with its brace.** -/
theorem item_sound {b : UInt8} {xs rest : Bytes} {i : Item} (h : item b xs = .ok (i, rest))
    (hf : Flush (b :: xs)) :
    ∃ x, b :: xs = x ++ rest ∧
      ((∃ rule, i = .rule rule ∧ ItemText rule x) ∨
        ∃ kind text, i = .opening kind text ∧ ConditionText kind text x) := by
  unfold item at h
  split at h
  · exact atRule_sound h
  · next hne =>
    obtain ⟨⟨rule, after⟩, hs, hi⟩ := map_eq_ok_iff.1 h
    cases hi
    simp only [style, bind_eq_ok_iff] at hs
    obtain ⟨⟨ss, r⟩, hsel, inside, ho, ⟨ds, r'⟩, hd, hr⟩ := hs
    cases hr
    rw [expect_eq_ok_iff] at ho
    simp only at ho hd
    rw [ho] at hsel
    obtain ⟨x, hx, hst⟩ := selectorsText_of_selectors hsel hf
    obtain ⟨y, rfl, hdt⟩ := declarationsText_of_declarations hd
    refine ⟨x ++ openBrace :: y, by rw [hx]; simp, .inl ⟨_, rfl, .style hst ?_ hdt⟩⟩
    intro ha
    cases x with
    | nil => cases ha
    | cons c x => cases ha; cases hx; exact hne rfl

/-- How reading goes on from `rest`, after rules of the innermost conditional rule that is open: with its
closing brace, or not at all where none is open. -/
def GoesOn (outer : List Frame) (done : List Rule) (rest : Bytes) (sheet : Sheet) : Prop :=
  match outer with
  | [] => (rest = [] ∨ OpenComment rest) ∧ sheet = done.reverse
  | frame :: outer => ∃ ys, rest = closeBrace :: ys ∧ rulesFrom outer (frame.close done) ys = .ok sheet

/-- **What rules are read from**: all of the text up to where reading goes on outside them. -/
theorem rulesText_of_rulesFrom {outer : List Frame} {done : List Rule} {xs : Bytes} {sheet : Sheet}
    (h : rulesFrom outer done xs = .ok sheet) :
    ∃ rules x rest, xs = x ++ rest ∧ RulesText rules x ∧ GoesOn outer (rules.reverse ++ done) rest sheet := by
  induction hn : xs.length using Nat.strongRecOn generalizing outer done xs sheet with
  | _ n ih =>
    subst hn
    rw [rulesFrom_eq] at h
    cases hg : skipGap xs with
    | nil =>
      rw [hg] at h
      cases outer with
      | cons frame outer => cases h
      | nil =>
        cases h
        rcases skipGap_cases xs with ⟨g, hgap, he, -⟩ | ⟨g, c, hgap, hc, he, -⟩
        · rw [hg] at he
          exact ⟨[], g, [], he, .nil hgap, .inl rfl, rfl⟩
        · exact ⟨[], g, c, he, .nil hgap, .inr hc, rfl⟩
    | cons b ys =>
      rw [hg] at h
      obtain ⟨g, hgap, rfl, hf⟩ := exists_gap_of_skipGap hg
      simp only [List.length_append, List.length_cons] at ih h
      split at h
      · next hb =>
        subst hb
        cases outer with
        | nil => cases h
        | cons frame outer => exact ⟨[], g, closeBrace :: ys, rfl, .nil hgap, ys, rfl, h⟩
      · cases hi : item b ys with
        | error f => rw [hi] at h; cases h
        | ok p =>
          obtain ⟨i, after⟩ := p
          rw [hi] at h
          have hlt := item_length_lt hi
          simp only [List.length_cons] at hlt
          obtain ⟨x, he, ⟨rule, rfl, hx⟩ | ⟨kind, text, rfl, hx⟩⟩ := item_sound hi hf
          · obtain ⟨rules, y, rest, rfl, hy, hrest⟩ := ih after.length (by omega) h rfl
            refine ⟨rule :: rules, g ++ (x ++ y), rest, by rw [he]; simp, .item hgap hx hy, ?_⟩
            simpa using hrest
          · obtain ⟨inner, y, _, rfl, hy, zs, rfl, hc⟩ := ih after.length (by omega) h rfl
            simp only [List.length_append, List.length_cons] at hlt
            obtain ⟨rules, z, rest, rfl, hz, hrest⟩ := ih zs.length (by omega) hc rfl
            refine ⟨.conditional kind text inner :: rules, g ++ (x ++ (y ++ closeBrace :: z)), rest,
              by rw [he]; simp, .conditional hgap hx hy hz, ?_⟩
            simpa [Frame.close] using hrest

/-- **The reader accepts exactly the sheets of the grammar**, as the rules that they stand for. -/
theorem read_eq_ok_iff {xs : Bytes} {rules : Sheet} : read xs = .ok rules ↔ SheetText rules xs := by
  constructor
  · intro h
    obtain ⟨rs, x, rest, rfl, hx, hrest, he⟩ := rulesText_of_rulesFrom h
    obtain rfl : rules = rs := by simpa using he
    exact ⟨x, rest, rfl, hx, hrest⟩
  · exact read_of_sheetText

theorem parse_eq_ok_iff {text : String} {rules : Sheet} :
    parse text = .ok rules ↔ SheetText rules (encode text) := by
  rw [← read_eq_ok_iff, parse, locating_eq_ok_iff]

end StyleScope.Sheet
