/-
The reader of sheets, with its checks. Names, selectors, values and conditions are slices; each begins behind a gap or
a delimiter and ends where a scan came to an end, and all these are places where the text may be cut.
-/
import StyleScope.Proofs.Checked.Animation
import StyleScope.Proofs.Sheet.Completeness

namespace StyleScope.Checked

open Byte Text
open Sheet (Item Frame endsProperty endsKeyword)

/-! ## Declarations -/

/-- After the semicolon that ends a value, if it is there; the text may not end here. -/
def afterSemicolon (whole : Bytes) (n : Nat) : Run Nat :=
  match whole[n]? with
  | none => refuse (.missingDelimiter semicolon n)
  | some b => if b = semicolon then expect whole semicolon n else return n

/-- The declaration of a property. -/
def ofProperty (property value : String) : Run Declaration :=
  if property = "animation" then return .animation (← ofValue value)
  else if property = "animation-name" then return .animationName value
  else return .other property value

/-- A property, a colon and a value. -/
def declaration (whole : Bytes) (n : Nat) : Run (Declaration × Nat) := do
  let stop ← seek whole endsProperty n
  let property ← slice whole n stop
  let inside ← expect whole colon stop
  let start ← skipGap whole inside
  let stop ← topLevel whole [semicolon, closeBrace] 0 start
  let value ← slice whole start stop
  let last ← afterSemicolon whole stop
  let declaration ← ofProperty (trim property) (trim value)
  return (declaration, last)

/-- The declarations of a block whose opening brace has been read, through its closing brace. -/
def declarations (whole : Bytes) (n : Nat) : Run (List Declaration × Nat) := do
  let start ← skipGap whole n
  match whole[start]? with
  | none => refuse (.missingDelimiter closeBrace start)
  | some b =>
    if b = closeBrace then return ([], ← expect whole closeBrace start)
    else if b = semicolon then do
      let next ← expect whole semicolon start
      let ⟨m, _⟩ ← onward whole n next
      declarations whole m
    else do
      let (first, next) ← declaration whole start
      let ⟨m, _⟩ ← onward whole n next
      let (more, last) ← declarations whole m
      return (first :: more, last)
termination_by whole.length - n

section Declarations

variable {s : String} {n : Nat} {xs : Bytes}

theorem lt_of_endsProperty {b : UInt8} (h : endsProperty b) : b < 0x80 := by
  simp only [endsProperty, isBrace, Bool.or_eq_true, beq_iff_eq] at h
  rcases h with (rfl | rfl) | rfl | rfl <;> decide

theorem agrees_afterSemicolon (h : CutAt (encode s) n xs) :
    Agrees (Fault.locate (encode s)) (CutAt (encode s)) (afterSemicolon (encode s) n)
      (Sheet.afterSemicolon xs) := by
  rw [afterSemicolon, h.getElem?]
  cases xs with
  | nil => exact agrees_missing h.toAt semicolon
  | cons b xs =>
    rw [Sheet.afterSemicolon]
    by_cases hb : b = semicolon
    · simp only [List.head?_cons, if_pos hb]
      exact agrees_expect_cons (hb ▸ h.toAt) (by decide)
    · simp only [List.head?_cons, if_neg hb]
      exact h

theorem agrees_ofProperty (property value : String) :
    Agrees id Eq (ofProperty property value) (Declaration.ofProperty property value) := by
  rw [ofProperty, Declaration.ofProperty]
  by_cases ha : property = "animation"
  · rw [if_pos ha, if_pos ha]
    exact .bind_map (agrees_ofValue value) fun _ _ _ h => congrArg Declaration.animation h
  · rw [if_neg ha, if_neg ha]
    split <;> exact rfl

theorem agrees_declaration (h : CutAt (encode s) n xs) :
    Agrees (Fault.locate (encode s)) (SameRead (encode s)) (declaration (encode s) n) (Sheet.declaration xs) := by
  rw [declaration, Sheet.declaration]
  refine .bind_ok (cut_seek h.toAt fun _ => lt_of_endsProperty) fun stop hstop => ?_
  refine .bind (agrees_slice h hstop (Scan.seek_suffix _ _)) fun property _ _ hproperty => ?_
  refine .bind (agrees_expect hstop.toAt (by decide)) fun inside rest _ hinside => ?_
  refine .bind_ok (cut_skipGap hinside) fun start hstart => ?_
  refine .bind (cut_topLevel hstart.toAt (by decide)) fun stop after hafter hstop => ?_
  refine .bind (agrees_slice hstart hstop (Scan.topLevel_suffix hafter)) fun value _ _ hvalue => ?_
  refine .bind (agrees_afterSemicolon hstop) fun last _ _ hlast => ?_
  rw [hproperty, hvalue]
  refine .bind ((agrees_ofProperty _ _).mapError fun _ => rfl) fun d _ _ hd => ?_
  exact ⟨hd, hlast⟩

theorem agrees_declarations (h : CutAt (encode s) n xs) :
    Agrees (Fault.locate (encode s)) (SameRead (encode s)) (declarations (encode s) n)
      (Sheet.declarations xs) := by
  induction hk : xs.length using Nat.strongRecOn generalizing n xs with
  | ind k ih =>
    rw [declarations, Sheet.declarations_eq]
    refine .bind_ok (cut_skipGap h) fun start hstart => ?_
    have hgap := Scan.length_skipGap_le xs
    rw [hstart.getElem?]
    cases hg : Scan.skipGap xs with
    | nil =>
      rw [hg] at hstart
      exact agrees_missing hstart.toAt closeBrace
    | cons b ys =>
      rw [hg] at hstart hgap
      rw [List.length_cons] at hgap
      simp only [List.head?_cons]
      by_cases hclose : b = closeBrace
      · rw [if_pos hclose, if_pos hclose]
        exact .bind_ok (agrees_expect_cons (hclose ▸ hstart.toAt) (by decide)) fun _ hlast => ⟨rfl, hlast⟩
      rw [if_neg hclose, if_neg hclose]
      by_cases hsemi : b = semicolon
      · rw [if_pos hsemi, if_pos hsemi]
        refine .bind_ok (agrees_expect_cons (hsemi ▸ hstart.toAt) (by decide)) fun next hnext => ?_
        exact .onward h.toAt hnext.toAt (by omega) fun _ => ih _ (by omega) hnext rfl
      rw [if_neg hsemi, if_neg hsemi]
      have hfirst := agrees_declaration hstart
      cases hd : Sheet.declaration (b :: ys) with
      | error fault => exact .bind_error (hd ▸ hfirst)
      | ok q =>
        obtain ⟨first, rest⟩ := q
        have hlt := Sheet.declaration_length_lt hd
        rw [List.length_cons] at hlt
        refine .bind_ok (hd ▸ hfirst) fun p hp => ?_
        obtain ⟨first', next⟩ := p
        obtain ⟨(rfl : first' = first), (hnext : CutAt (encode s) next rest)⟩ := hp
        refine .onward h.toAt hnext.toAt (by omega) fun _ => ?_
        refine .bind_map (ih _ (by omega) hnext rfl) fun p q _ hpq => ?_
        exact ⟨congrArg (first' :: ·) hpq.1, hpq.2⟩

end Declarations

/-! ## Style rules -/

/-- Selectors set apart by commas, up to the byte that ends the last. -/
def selectors (whole : Bytes) (n : Nat) : Run (List String × Nat) := do
  let stop ← topLevel whole [comma, openBrace, closeBrace] 0 n
  let text ← slice whole n stop
  if whole[stop]? = some comma then do
    let inside ← expect whole comma stop
    let next ← skipGap whole inside
    let ⟨m, _⟩ ← onward whole n next
    let (more, last) ← selectors whole m
    return (trim text :: more, last)
  else return ([trim text], stop)
termination_by whole.length - n

/-- Selectors and a block of declarations. -/
def style (whole : Bytes) (n : Nat) : Run (Rule × Nat) := do
  let (selectors, stop) ← selectors whole n
  let inside ← expect whole openBrace stop
  let (declarations, last) ← declarations whole inside
  return (.style selectors declarations, last)

section Style

variable {s : String} {n : Nat} {xs : Bytes}

theorem agrees_selectors (h : CutAt (encode s) n xs) :
    Agrees (Fault.locate (encode s)) (SameRead (encode s)) (selectors (encode s) n) (Sheet.selectors xs) := by
  fun_induction Sheet.selectors xs generalizing n with
  | case1 xs fault ht =>
    rw [selectors]
    exact .bind_error (ht ▸ cut_topLevel h.toAt (by decide))
  | case2 xs rest ht hc =>
    rw [selectors]
    refine .bind_ok (ht ▸ cut_topLevel h.toAt (by decide)) fun stop hstop => ?_
    refine .bind (agrees_slice h hstop (Scan.topLevel_suffix ht)) fun text _ _ htext => ?_
    rw [hstop.getElem?, if_neg (after?_eq_none_iff.1 hc), htext]
    exact ⟨rfl, hstop⟩
  | case3 xs rest ht after hc ih =>
    obtain rfl := Scan.after?_eq_some_iff.1 hc
    have hsuffix := Scan.topLevel_suffix ht
    have hlt := hsuffix.length_le
    have hgap := Scan.length_skipGap_le after
    rw [List.length_cons] at hlt
    rw [selectors]
    refine .bind_ok (ht ▸ cut_topLevel h.toAt (by decide)) fun stop hstop => ?_
    refine .bind (agrees_slice h hstop hsuffix) fun text _ _ htext => ?_
    rw [hstop.getElem?, List.head?_cons, if_pos rfl, htext]
    refine .bind_ok (agrees_expect_cons hstop.toAt (by decide)) fun inside hinside => ?_
    refine .bind_ok (cut_skipGap hinside) fun next hnext => ?_
    refine .onward h.toAt hnext.toAt (by omega) fun _ => ?_
    refine .bind (ih hnext) fun p q _ hpq => ?_
    exact ⟨congrArg (_ :: ·) hpq.1, hpq.2⟩

theorem agrees_style (h : CutAt (encode s) n xs) :
    Agrees (Fault.locate (encode s)) (SameRead (encode s)) (style (encode s) n) (Sheet.style xs) := by
  rw [style, Sheet.style]
  refine .bind (agrees_selectors h) fun p q _ hpq => ?_
  obtain ⟨hselectors, hstop⟩ := hpq
  refine .bind (agrees_expect hstop.toAt (by decide)) fun inside rest _ hinside => ?_
  refine .bind (agrees_declarations hinside) fun p' q' _ hpq' => ?_
  obtain ⟨hdeclarations, hlast⟩ := hpq'
  exact ⟨by rw [hselectors, hdeclarations], hlast⟩

end Style

/-! ## At-rules -/

/-- A condition, up to and with the brace that opens its rules. -/
def condition (whole : Bytes) (kind : ConditionalKind) (n : Nat) : Run (Item × Nat) := do
  let stop ← seek whole (· == openBrace) n
  let condition ← slice whole n stop
  let inside ← expect whole openBrace stop
  return (.opening kind condition, inside)

/-- The error of a text in which no name begins at the cursor. -/
def noName (whole : Bytes) (n : Nat) : Error :=
  match whole[n]? with
  | none => .missingDelimiter openBrace n
  | some b => .unexpectedCharacter b n

/-- The name of keyframes, one value that is not empty. -/
def keyframesName (whole : Bytes) (n : Nat) : Run (String × Nat) := do
  let stop ← afterValue whole [openBrace] n
  let name ← slice whole n stop
  if name.isEmpty then refuse (noName whole n) else return (name, stop)

/-- The name and the block of keyframes. -/
def keyframes (whole : Bytes) (n : Nat) : Run (Item × Nat) := do
  let (name, stop) ← keyframesName whole n
  let next ← skipGap whole stop
  let block ← block whole next
  return (.rule (.keyframes name block.text), block.stop)

/-- The start of an at-rule. -/
def atRule (whole : Bytes) (n : Nat) : Run (Item × Nat) := do
  let stop ← seek whole endsKeyword n
  let keyword ← slice whole n stop
  let next ← skipGap whole stop
  match ConditionalKind.ofKeyword? keyword with
  | some kind => condition whole kind next
  | none =>
    if keyword = "@keyframes" then keyframes whole next
    else refuse (.unsupportedAtRule keyword n)

/-- The start of a rule, given its first byte. -/
def item (whole : Bytes) (b : UInt8) (n : Nat) : Run (Item × Nat) :=
  if b = atSign then atRule whole n
  else do
    let (rule, last) ← style whole n
    return (.rule rule, last)

section AtRules

variable {s : String} {n : Nat} {xs : Bytes}

theorem agrees_condition (kind : ConditionalKind) (h : CutAt (encode s) n xs) :
    Agrees (Fault.locate (encode s)) (SameRead (encode s)) (condition (encode s) kind n)
      (Sheet.condition kind xs) := by
  have hbrace : ∀ b, (b == openBrace) = true → b < 0x80 := by
    intro b hb
    rw [eq_of_beq hb]
    decide
  rw [condition, Sheet.condition]
  refine .bind_ok (cut_seek h.toAt hbrace) fun stop hstop => ?_
  refine .bind (agrees_slice h hstop (Scan.seek_suffix _ _)) fun text _ _ htext => ?_
  refine .bind (agrees_expect hstop.toAt (by decide)) fun inside _ _ hinside => ?_
  exact ⟨by rw [htext], hinside⟩

theorem locate_noName (h : At (encode s) n xs) :
    (Sheet.noName xs).locate (encode s) = noName (encode s) n := by
  rw [noName, h.getElem?, ← h.offsetOf_eq]
  cases xs <;> rfl

theorem agrees_keyframesName (h : CutAt (encode s) n xs) :
    Agrees (Fault.locate (encode s)) (SameRead (encode s)) (keyframesName (encode s) n)
      (Sheet.keyframesName xs) := by
  rw [keyframesName, Sheet.keyframesName]
  refine .bind (cut_afterValue h.toAt (by decide)) fun stop rest hrest hstop => ?_
  refine .bind (agrees_slice h hstop (Scan.afterValue_suffix hrest)) fun name _ _ hname => ?_
  rw [hname]
  split
  · refine agrees_refuse (locate_noName h.toAt).symm ?_
    rw [noName]
    split <;> (intro he; cases he)
  · exact ⟨rfl, hstop⟩

theorem agrees_keyframes (h : CutAt (encode s) n xs) :
    Agrees (Fault.locate (encode s)) (SameRead (encode s)) (keyframes (encode s) n) (Sheet.keyframes xs) := by
  rw [keyframes, Sheet.keyframes]
  refine .bind (agrees_keyframesName h) fun p q _ hpq => ?_
  obtain ⟨hname, hstop⟩ := hpq
  refine .bind_ok (cut_skipGap hstop) fun next hnext => ?_
  rw [block, bind_assoc]
  refine .bind (agrees_span hnext.toAt) fun ends span _ hspan => ?_
  obtain ⟨hstart, hlast, hsuffix⟩ := hspan
  rw [bind_assoc]
  refine .bind (agrees_slice hstart hlast hsuffix) fun body _ _ hbody => ?_
  exact ⟨by rw [hname, hbody], hlast⟩

theorem lt_of_endsKeyword {b : UInt8} (h : endsKeyword b) : b < 0x80 := by
  simp only [endsKeyword, isQuote, Bool.or_eq_true, beq_iff_eq] at h
  rcases h with (((h | rfl | rfl) | rfl) | rfl) | rfl
  · exact lt_of_isSpace h
  all_goals decide

theorem agrees_atRule (h : CutAt (encode s) n xs) :
    Agrees (Fault.locate (encode s)) (SameRead (encode s)) (atRule (encode s) n) (Sheet.atRule xs) := by
  rw [atRule, Sheet.atRule]
  refine .bind_ok (cut_seek h.toAt fun _ => lt_of_endsKeyword) fun stop hstop => ?_
  refine .bind (agrees_slice h hstop (Scan.seek_suffix _ _)) fun keyword keyword' _ hkeyword => ?_
  obtain rfl := hkeyword
  refine .bind_ok (cut_skipGap hstop) fun next hnext => ?_
  cases hkind : ConditionalKind.ofKeyword? keyword with
  | some kind => exact agrees_condition kind hnext
  | none =>
    simp only
    by_cases hk : keyword = "@keyframes"
    · rw [if_pos hk, if_pos hk]
      exact agrees_keyframes hnext
    · rw [if_neg hk, if_neg hk]
      exact agrees_refuse (by rw [Fault.locate, h.offsetOf_eq]) fun he => by cases he

theorem agrees_item {b : UInt8} (h : CutAt (encode s) n (b :: xs)) :
    Agrees (Fault.locate (encode s)) (SameRead (encode s)) (item (encode s) b n) (Sheet.item b xs) := by
  rw [item, Sheet.item]
  by_cases hb : b = atSign
  · rw [if_pos hb, if_pos hb]
    exact agrees_atRule h
  · rw [if_neg hb, if_neg hb]
    exact .bind_map (agrees_style h) fun _ _ _ hpq => ⟨congrArg Item.rule hpq.1, hpq.2⟩

end AtRules

/-! ## Sheets -/

/-- The rules of a sheet, given the conditional rules that are open and the rules that have been read. -/
def rulesFrom (whole : Bytes) (outer : List Frame) (done : List Rule) (n : Nat) : Run Sheet := do
  let start ← skipGap whole n
  match whole[start]? with
  | none =>
    match outer with
    | [] => return done.reverse
    | _ :: _ => refuse (.missingDelimiter closeBrace start)
  | some b =>
    if b = closeBrace then
      match outer with
      | [] => refuse (.unexpectedCharacter closeBrace start)
      | frame :: outer => do
        let next ← expect whole closeBrace start
        let ⟨m, _⟩ ← onward whole n next
        rulesFrom whole outer (frame.close done) m
    else do
      match ← item whole b start with
      | (.rule rule, next) => do
        let ⟨m, _⟩ ← onward whole n next
        rulesFrom whole outer (rule :: done) m
      | (.opening kind condition, next) => do
        let ⟨m, _⟩ ← onward whole n next
        rulesFrom whole (⟨kind, condition, done⟩ :: outer) [] m
termination_by whole.length - n

/-- The sheet that a text holds. -/
def parse (text : String) : Run Sheet := rulesFrom (encode text) [] [] 0

theorem agrees_rulesFrom {s : String} {outer : List Frame} {done : List Rule} {n : Nat} {xs : Bytes}
    (h : CutAt (encode s) n xs) :
    Agrees (Fault.locate (encode s)) Eq (rulesFrom (encode s) outer done n) (Sheet.rulesFrom outer done xs) := by
  induction hk : xs.length using Nat.strongRecOn generalizing outer done n xs with
  | ind k ih =>
    rw [rulesFrom, Sheet.rulesFrom_eq]
    refine .bind_ok (cut_skipGap h) fun start hstart => ?_
    have hgap := Scan.length_skipGap_le xs
    rw [hstart.getElem?]
    cases hg : Scan.skipGap xs with
    | nil =>
      rw [hg] at hstart
      cases outer with
      | nil => exact rfl
      | cons frame outer => exact agrees_missing hstart.toAt closeBrace
    | cons b ys =>
      rw [hg] at hstart hgap
      rw [List.length_cons] at hgap
      simp only [List.head?_cons]
      by_cases hclose : b = closeBrace
      · rw [if_pos hclose, if_pos hclose]
        cases outer with
        | nil => exact agrees_refuse (by rw [Fault.locate, hstart.offsetOf_eq]) fun he => by cases he
        | cons frame outer =>
          refine .bind_ok (agrees_expect_cons (hclose ▸ hstart.toAt) (by decide)) fun next hnext => ?_
          exact .onward h.toAt hnext.toAt (by omega) fun _ => ih _ (by omega) hnext rfl
      rw [if_neg hclose, if_neg hclose]
      have hitem := agrees_item hstart
      cases hi : Sheet.item b ys with
      | error fault => exact .bind_error (hi ▸ hitem)
      | ok q =>
        obtain ⟨i, rest⟩ := q
        have hlt : rest.length < ys.length + 1 := Sheet.item_length_lt hi
        refine .bind_ok (hi ▸ hitem) fun p hp => ?_
        obtain ⟨i', next⟩ := p
        obtain ⟨(rfl : i' = i), (hnext : CutAt (encode s) next rest)⟩ := hp
        cases i' with
        | rule rule => exact .onward h.toAt hnext.toAt (by omega) fun _ => ih _ (by omega) hnext rfl
        | opening kind condition => exact .onward h.toAt hnext.toAt (by omega) fun _ => ih _ (by omega) hnext rfl

theorem agrees_parse (text : String) : Agrees id Eq (parse text) (Sheet.parse text) :=
  (agrees_rulesFrom (cutAt_zero text)).mapError fun _ => rfl

end StyleScope.Checked
