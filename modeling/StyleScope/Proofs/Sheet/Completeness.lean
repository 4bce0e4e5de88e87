/-
What the grammar describes is read, and read alike whatever follows it. Each reader has one lemma: it takes
exactly the bytes of its piece and leaves the rest untouched, up to whole rules (`RulesText.rulesFrom`), which
the stack machine reads inside any open conditional rules. A sheet of the grammar is therefore read as the
rules it stands for (`read_of_sheetText`).
-/
import StyleScope.Proofs.Sheet.Grammar

namespace StyleScope.Sheet

open Byte Scan Text

/-! ## Single steps -/

theorem seek_append {stop : UInt8 → Bool} {xs rest : Bytes} {b : UInt8} (hx : ∀ c ∈ xs, stop c = false)
    (hb : stop b) : seek stop (xs ++ b :: rest) = b :: rest := by
  rw [seek, List.dropWhile_append_of_pos (by simpa using hx), List.dropWhile_cons, if_neg (by simp [hb])]

theorem declarations_eq (xs : Bytes) :
    declarations xs =
      match skipGap xs with
      | [] => .error (.missingDelimiter closeBrace [])
      | b :: ys =>
        if b = closeBrace then .ok ([], ys)
        else if b = semicolon then declarations ys
        else
          match declaration (b :: ys) with
          | .error fault => .error fault
          | .ok (first, rest) => (declarations rest).map fun (more, rest) => (first :: more, rest) := by
  rw [declarations]
  split
  · next hg => rw [hg]
  · next b ys hg =>
    rw [hg]
    simp only
    split
    · rfl
    · split
      · rfl
      · split
        · next hd => rw [hd]
        · next hd =>
          rw [hd]
          simp only
          cases declarations _ <;> rfl

theorem rulesFrom_eq (outer : List Frame) (done : List Rule) (xs : Bytes) :
    rulesFrom outer done xs =
      match skipGap xs with
      | [] =>
        match outer with
        | [] => .ok done.reverse
        | _ :: _ => .error (.missingDelimiter closeBrace [])
      | b :: ys =>
        if b = closeBrace then
          match outer with
          | [] => .error (.unexpectedCharacter closeBrace (b :: ys))
          | frame :: outer => rulesFrom outer (frame.close done) ys
        else
          match item b ys with
          | .error fault => .error fault
          | .ok (.rule rule, rest) => rulesFrom outer (rule :: done) rest
          | .ok (.opening kind condition, rest) => rulesFrom (⟨kind, condition, done⟩ :: outer) [] rest := by
  rw [rulesFrom.eq_def]
  split
  · next hg => cases outer <;> simp only [hg]
  · next b ys hg =>
    rw [hg]
    simp only
    split
    · rfl
    · split <;> next hi => rw [hi]

/-! ## Style rules -/

theorem PieceText.topLevel {stops : Bytes} {kept : String} {x : Bytes} {d : Nat} {b : UInt8}
    (h : PieceText stops kept x d) (rest : Bytes) (hb : stopsAt stops d b) (hp : isPlain b) (hstar : b ≠ star) :
    topLevel stops (x ++ b :: rest) = .ok (b :: rest) := by
  obtain ⟨-, -, hx⟩ := h
  exact hx.topLevelFrom_stop hb hp hstar

theorem SelectorsText.selectors {ss : List String} {x : Bytes} (h : SelectorsText ss x) (rest : Bytes) :
    selectors (x ++ openBrace :: rest) = .ok (ss, openBrace :: rest) := by
  induction h with
  | @last s x d hp =>
    have ht := hp.topLevel (b := openBrace) rest (by simp [stopsAt, isBrace]) (by decide) (by decide)
    obtain ⟨rfl, -, -⟩ := hp
    rw [Sheet.selectors]
    split
    · next he => rw [ht] at he; cases he
    · next he =>
      rw [ht] at he
      cases he
      split
      · rw [textBefore_encode]; rfl
      · next hc => rw [after?_eq_some_iff] at hc; exact absurd (List.cons.inj hc).1 (by decide)
  | @cons s ss x g y hp hg hs ih =>
    have ht := hp.topLevel (b := comma) (g ++ (y ++ openBrace :: rest)) (by decide) (by decide) (by decide)
    have he : x ++ comma :: (g ++ y) ++ openBrace :: rest = x ++ comma :: (g ++ (y ++ openBrace :: rest)) := by
      simp
    obtain ⟨rfl, -, -⟩ := hp
    rw [he, Sheet.selectors]
    split
    · next he => rw [ht] at he; cases he
    · next he =>
      rw [ht] at he
      cases he
      split
      · next hc => simp [after?] at hc
      · next hc =>
        rw [after?_eq_some_iff] at hc
        cases hc
        rw [textBefore_encode, skipGap_append_flush hg (hs.flush rest), ih]
        rfl

theorem eq_of_stopsAt {d : Nat} {b : UInt8} (h : stopsAt [semicolon, closeBrace] d b) :
    b = semicolon ∨ b = closeBrace := by
  simp only [stopsAt, List.contains_eq_mem, List.mem_cons, List.not_mem_nil, or_false, Bool.and_eq_true,
    decide_eq_true_eq] at h
  exact h.1

/-- A declaration is read up to its end, and the semicolon there if there is one. -/
theorem DeclarationText.declaration {d : Declaration} {x : Bytes} {depth : Nat} {b : UInt8}
    (h : DeclarationText d x depth) (rest : Bytes) (hb : stopsAt [Byte.semicolon, closeBrace] depth b) :
    declaration (x ++ b :: rest) = .ok (d, if b = Byte.semicolon then rest else b :: rest) := by
  have hplain : isPlain b ∧ b ≠ slash ∧ b ≠ star ∧ isSpace b = false := by
    rcases eq_of_stopsAt hb with rfl | rfl <;> decide
  obtain ⟨hpl, hslash, hstar, hspace⟩ := hplain
  obtain ⟨-, hp, hg, hv, hd⟩ := h
  have ht := hv.topLevel rest hb hpl hstar
  obtain ⟨rfl, hf, -⟩ := hv
  simp only [Sheet.declaration, bind_eq_ok_iff, List.append_assoc, List.cons_append]
  rw [seek_append hp (by decide)]
  refine ⟨_, textBefore_encode _ _, _, expect_eq_ok_iff.2 rfl, ?_⟩
  rw [skipGap_append_flush hg (hf.append_cons hspace hslash hstar)]
  refine ⟨_, ht, _, textBefore_encode _ _, _, rfl, d, ?_, rfl⟩
  rw [hd]
  rfl

theorem DeclarationText.ends_neither {d : Declaration} {x : Bytes} {depth : Nat}
    (h : DeclarationText d x depth) (rest : Bytes) :
    ∃ b ys, x ++ rest = b :: ys ∧ b ≠ closeBrace ∧ b ≠ Byte.semicolon := by
  obtain ⟨-, hp, -, -, -⟩ := h
  rename_i property value g v
  cases hx : encode property with
  | nil => exact ⟨colon, _, rfl, by decide, by decide⟩
  | cons b ys =>
    have hb := hp b (by simp [hx])
    refine ⟨b, _, rfl, ?_, ?_⟩ <;> rintro rfl <;> exact absurd hb (by decide)

theorem declarations_closeBrace {g : Bytes} (hg : Gap g) (rest : Bytes) :
    declarations (g ++ closeBrace :: rest) = .ok ([], rest) := by
  rw [declarations_eq, skipGap_append_flush hg (.cons (by decide) (by decide))]
  rfl

theorem declarations_semicolon {g : Bytes} (hg : Gap g) (rest : Bytes) :
    declarations (g ++ semicolon :: rest) = declarations rest := by
  rw [declarations_eq, skipGap_append_flush hg (.cons (by decide) (by decide))]
  rfl

theorem DeclarationsText.declarations {ds : List Declaration} {x : Bytes} (h : DeclarationsText ds x)
    (rest : Bytes) : declarations (x ++ rest) = .ok (ds, rest) := by
  induction h with
  | nil hg => rw [List.append_assoc]; exact declarations_closeBrace hg rest
  | semicolon hg _ ih => rw [List.append_assoc, List.cons_append, declarations_semicolon hg, ih]
  | @cons d ds g x y hg hd _ ih =>
    obtain ⟨b, ys, he, hc, hs⟩ := hd.ends_neither (Byte.semicolon :: (y ++ rest))
    have hr := hd.declaration (b := Byte.semicolon) (y ++ rest) (by decide)
    have hf := hd.flush (Byte.semicolon :: (y ++ rest))
    rw [if_pos rfl] at hr
    rw [List.append_assoc, List.append_assoc, List.cons_append, declarations_eq, skipGap_append_flush hg hf]
    rw [he] at hr ⊢
    simp only [if_neg hc, if_neg hs, hr, ih]
    rfl
  | @last d g x depth hg hd =>
    obtain ⟨b, ys, he, hc, hs⟩ := hd.ends_neither (closeBrace :: rest)
    have hr := hd.declaration (b := closeBrace) rest (by simp [stopsAt, isBrace])
    have hf := hd.flush (closeBrace :: rest)
    have hend : Sheet.declarations (closeBrace :: rest) = .ok ([], rest) := declarations_closeBrace .nil rest
    rw [if_neg (by decide)] at hr
    rw [List.append_assoc, List.append_assoc, List.singleton_append, declarations_eq, skipGap_append_flush hg hf]
    rw [he] at hr ⊢
    simp only [if_neg hc, if_neg hs, hr, hend]
    rfl

/-! ## At-rules -/

theorem seek_keyword (keyword : String) (hk : ∀ b ∈ encode keyword, endsKeyword b = false) {xs : Bytes}
    (h : EndsKeyword xs) : seek endsKeyword (encode keyword ++ xs) = xs := by
  obtain ⟨b, hb, he⟩ := h
  cases xs with
  | nil => cases hb
  | cons c xs => cases hb; exact seek_append hk he

theorem keyframesName_append {name : String} {rest : Bytes} (h : ValueText [openBrace] (encode name))
    (hr : BeginsQuoted (encode name) ∨ EndsValue [openBrace] rest) :
    keyframesName (encode name ++ rest) = .ok (name, rest) := by
  have hne : name.isEmpty = false := by
    rw [← Bool.not_eq_true, String.isEmpty_iff]
    rintro rfl
    exact nomatch h
  simp only [keyframesName, bind_eq_ok_iff]
  refine ⟨rest, h.afterValue (by decide) hr, name, textBefore_encode _ _, ?_⟩
  rw [hne]
  rfl

theorem ConditionText.atRule {kind : ConditionalKind} {condition : String} {x : Bytes}
    (h : ConditionText kind condition x) (rest : Bytes) :
    atRule (x ++ rest) = .ok (.opening kind condition, rest) := by
  obtain ⟨hg, hk, hf, hc⟩ := h
  have hb : ∀ b ∈ encode kind.keyword, endsKeyword b = false := by cases kind <;> decide
  have hstop : ∀ b ∈ encode condition, (b == openBrace) = false := fun b hb => by
    rw [beq_eq_false_iff_ne]
    rintro rfl
    exact hc hb
  simp only [Sheet.atRule, bind_eq_ok_iff, List.append_assoc, List.singleton_append]
  have hs := seek_keyword _ hb (hk.append rest)
  simp only [List.append_assoc, List.singleton_append] at hs
  rw [hs]
  refine ⟨_, textBefore_encode _ _, ?_⟩
  rw [ConditionalKind.ofKeyword?_keyword, skipGap_append_flush hg (hf.append_cons (by decide) (by decide) (by decide))]
  simp only [Sheet.condition, bind_eq_ok_iff]
  rw [seek_append hstop (by decide)]
  exact ⟨_, textBefore_encode _ _, _, expect_eq_ok_iff.2 rfl, rfl⟩

/-! ## Rules -/

/-- **A rule is read to its end**, whatever follows it. -/
theorem ItemText.item {rule : Rule} {x : Bytes} (h : ItemText rule x) (rest : Bytes) :
    ∃ b y, x ++ rest = b :: y ∧ b ≠ closeBrace ∧ item b y = .ok (.rule rule, rest) := by
  cases h with
  | @style ss ds x y hs ha hd =>
    have hr : Sheet.style (x ++ openBrace :: (y ++ rest)) = .ok (.style ss ds, rest) := by
      simp only [Sheet.style, bind_eq_ok_iff]
      exact ⟨_, hs.selectors _, _, expect_eq_ok_iff.2 rfl, _, hd.declarations rest, rfl⟩
    have hc := hs.head?_ne
    rw [List.append_assoc, List.cons_append]
    have hitem (b : UInt8) (z : Bytes) (hz : x ++ openBrace :: (y ++ rest) = b :: z) (hb : b ≠ atSign) :
        Sheet.item b z = .ok (.rule (.style ss ds), rest) := by
      rw [hz] at hr
      rw [Sheet.item, if_neg hb, hr]
      rfl
    cases x with
    | nil => exact ⟨openBrace, _, rfl, by decide, hitem _ _ rfl (by decide)⟩
    | cons b x => exact ⟨b, _, rfl, fun hb => hc (by rw [hb]; rfl), hitem _ _ rfl fun hb => ha (by rw [hb]; rfl)⟩
  | @keyframes name body g j k hg hk hf hv hj hfk hu hb hend =>
    have hne : j ++ (k ++ encode body) ≠ [] := by simpa using fun _ _ => hb.ne_nil
    have hn := keyframesName_append hv (hend.imp id fun h => EndsValue.append h hne rest)
    have hs := seek_keyword "@keyframes" (by decide) (hk.append (j ++ (k ++ (encode body ++ rest))))
    have hflush := hv.flush_append hf (by decide) (hend.imp id fun h => EndsValue.append h hne rest)
    simp only [List.append_assoc] at hs hn hflush ⊢
    refine ⟨atSign, _, rfl, by decide, ?_⟩
    have hx : Sheet.atRule (encode "@keyframes" ++ (g ++ (encode name ++ (j ++ (k ++ (encode body ++ rest)))))) =
        .ok (.rule (.keyframes name body), rest) := by
      simp only [Sheet.atRule, bind_eq_ok_iff]
      rw [hs]
      refine ⟨_, textBefore_encode _ _, ?_⟩
      have hkind : ConditionalKind.ofKeyword? "@keyframes" = none := by decide
      rw [hkind, skipGap_append_flush hg hflush]
      simp only [if_pos, Sheet.keyframes, bind_eq_ok_iff]
      refine ⟨_, hn, ?_⟩
      rw [skipGap_append_flush hj (hfk.append_block hb rest), block_append hu hb]
      exact ⟨_, rfl, body, textBefore_encode _ _, rfl⟩
    exact hx

/-- Only what remains after the gap matters to the rules. -/
theorem rulesFrom_gap {outer : List Frame} {done : List Rule} {g : Bytes} (hg : Gap g) (rest : Bytes) :
    rulesFrom outer done (g ++ rest) = rulesFrom outer done rest := by
  rw [rulesFrom_eq, skipGap_append hg, ← rulesFrom_eq]

theorem rulesFrom_closeBrace {frame : Frame} {outer : List Frame} {done : List Rule} (rest : Bytes) :
    rulesFrom (frame :: outer) done (closeBrace :: rest) = rulesFrom outer (frame.close done) rest := by
  rw [rulesFrom_eq, skipGap_of_flush (.cons (by decide) (by decide))]
  rfl

/-- **Rules are read within any conditional rules that are open, and whatever follows them.** -/
theorem RulesText.rulesFrom {rules : List Rule} {x : Bytes} (h : RulesText rules x) (outer : List Frame)
    (done : List Rule) (rest : Bytes) :
    rulesFrom outer done (x ++ rest) = rulesFrom outer (rules.reverse ++ done) rest := by
  induction h generalizing outer done rest with
  | nil hg => exact rulesFrom_gap hg rest
  | @item rule rules g x y hg hi _ ih =>
    obtain ⟨b, z, he, hb, hr⟩ := hi.item (y ++ rest)
    have hf := hi.flush (y ++ rest)
    rw [List.append_assoc, List.append_assoc, rulesFrom_gap hg, rulesFrom_eq, skipGap_of_flush hf, he]
    simp only [if_neg hb, hr]
    rw [ih, List.reverse_cons, List.append_assoc, List.singleton_append]
  | @conditional kind condition inner rules g x y z hg hc _ _ ihi ih =>
    have hr := hc.atRule (y ++ (closeBrace :: z ++ rest))
    have hf := hc.flush (y ++ (closeBrace :: z ++ rest))
    obtain ⟨c, hx⟩ : ∃ c, x = atSign :: c := by
      obtain ⟨-, -, -, -⟩ := hc
      cases kind <;> exact ⟨_, rfl⟩
    subst hx
    simp only [List.append_assoc, List.cons_append] at hr hf ⊢
    rw [rulesFrom_gap hg, rulesFrom_eq, skipGap_of_flush hf]
    have hne : atSign ≠ closeBrace := by decide
    simp only [if_neg hne, Sheet.item, if_true, hr]
    rw [ihi, rulesFrom_closeBrace, ih]
    simp [Frame.close]

theorem rulesFrom_end {done : List Rule} {c : Bytes} (hc : c = [] ∨ OpenComment c) :
    rulesFrom [] done c = .ok done.reverse := by
  have hg : skipGap c = [] := by
    rcases hc with rfl | hc
    · rw [skipGap]
    · exact skipGap_of_openComment hc
  rw [rulesFrom_eq, hg]

/-- **What the grammar describes is read.** -/
theorem read_of_sheetText {rules : Sheet} {xs : Bytes} (h : SheetText rules xs) : read xs = .ok rules := by
  obtain ⟨x, c, rfl, hx, hc⟩ := h
  rw [read, hx.rulesFrom, rulesFrom_end hc]
  simp

theorem parse_of_rulesText {text : String} {rules : Sheet} (h : RulesText rules (encode text)) :
    parse text = .ok rules :=
  locating_eq_ok_iff.2 (read_of_sheetText ⟨_, [], (List.append_nil _).symm, h, .inl rfl⟩)

end StyleScope.Sheet
