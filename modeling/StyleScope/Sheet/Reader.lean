/-
Reading a style sheet. Each reader takes what remains of the text and gives what it read with what remains
after it. There is no recovery: the first fault ends the reading, and no rule before it is kept.

Conditional rules nest, so the rules around the one being read wait on a stack of frames. The start of a rule
is never empty (`item_length_lt`), which is why the reading ends.
-/
import StyleScope.Scan.Block
import StyleScope.Scan.Nesting
import StyleScope.Sheet.Rule

namespace StyleScope.Sheet

open Byte Scan Text

/-! ## Declarations -/

/-- The bytes that end the name of a property. -/
def endsProperty (b : UInt8) : Bool := b == colon || b == semicolon || isBrace b

/-- What remains after the semicolon that ends a value; the last value of a block may lack it, but the text
may not end here. -/
def afterSemicolon : Bytes → Except Fault Bytes
  | [] => .error (.missingDelimiter semicolon [])
  | b :: xs => .ok (if b = semicolon then xs else b :: xs)

/-- A property, a colon and a value. -/
def declaration (xs : Bytes) : Except Fault (Declaration × Bytes) := do
  let stop := seek endsProperty xs
  let property ← textBefore xs stop
  let rest ← expect colon stop
  let start := skipGap rest
  let stop ← topLevel [semicolon, closeBrace] start
  let value ← textBefore start stop
  let rest ← afterSemicolon stop
  let declaration ← (Declaration.ofProperty (trim property) (trim value)).mapError .animation
  return (declaration, rest)

theorem afterSemicolon_suffix {xs rest : Bytes} (h : afterSemicolon xs = .ok rest) : rest <:+ xs := by
  unfold afterSemicolon at h
  split at h
  · cases h
  · cases h
    split
    · exact List.suffix_cons _ _
    · exact List.suffix_refl _

theorem declaration_length_lt {xs rest : Bytes} {d : Declaration} (h : declaration xs = .ok (d, rest)) :
    rest.length < xs.length := by
  simp only [declaration, bind_eq_ok_iff] at h
  obtain ⟨_, _, inside, hc, stop, ht, _, _, after, hs, _, _, hr⟩ := h
  cases hr
  have h1 := (seek_suffix endsProperty xs).length_le
  have h2 := length_lt_of_expect hc
  have h3 := length_skipGap_le inside
  have h4 := (topLevel_suffix ht).length_le
  have h5 := (afterSemicolon_suffix hs).length_le
  omega

/-- The declarations of a block whose opening brace has been read, through its closing brace. Semicolons
with nothing before them are passed over. -/
def declarations (xs : Bytes) : Except Fault (List Declaration × Bytes) :=
  match _hg : skipGap xs with
  | [] => .error (.missingDelimiter closeBrace [])
  | b :: ys =>
    if b = closeBrace then .ok ([], ys)
    else if b = semicolon then declarations ys
    else
      match _hd : declaration (b :: ys) with
      | .error fault => .error fault
      | .ok (first, rest) => do
        let (more, rest) ← declarations rest
        return (first :: more, rest)
termination_by xs.length
decreasing_by
  all_goals
    have hle := length_skipGap_le xs
    rw [_hg] at hle
  · exact hle
  · exact Nat.lt_of_lt_of_le (declaration_length_lt _hd) hle

/-! ## Style rules -/

/-- Selectors set apart by commas, up to the byte that ends the last. -/
def selectors (xs : Bytes) : Except Fault (List String × Bytes) :=
  match _ht : topLevel [comma, openBrace, closeBrace] xs with
  | .error fault => .error fault
  | .ok stop =>
    match _hc : after? comma stop with
    | none => do
      let last ← textBefore xs stop
      return ([trim last], stop)
    | some rest => do
      let first ← textBefore xs stop
      let (more, rest) ← selectors (skipGap rest)
      return (trim first :: more, rest)
termination_by xs.length
decreasing_by
  have h1 := (topLevel_suffix _ht).length_le
  have h2 := length_skipGap_le rest
  rw [after?_eq_some_iff.1 _hc] at h1
  simp only [List.length_cons] at h1
  omega

/-- Selectors and a block of declarations. -/
def style (xs : Bytes) : Except Fault (Rule × Bytes) := do
  let (selectors, rest) ← selectors xs
  let inside ← expect openBrace rest
  let (declarations, rest) ← declarations inside
  return (.style selectors declarations, rest)

theorem selectors_length_le {xs rest : Bytes} {ss : List String} (h : selectors xs = .ok (ss, rest)) :
    rest.length ≤ xs.length := by
  fun_induction selectors xs generalizing ss with
  | case1 => cases h
  | case2 xs stop ht hc =>
    simp only [bind_eq_ok_iff] at h
    obtain ⟨_, _, hr⟩ := h
    cases hr
    exact (topLevel_suffix ht).length_le
  | case3 xs stop ht after hc ih =>
    simp only [bind_eq_ok_iff] at h
    obtain ⟨_, _, ⟨more, r⟩, hm, hr⟩ := h
    cases hr
    have h1 := ih hm
    have h2 := length_skipGap_le after
    have h3 := (topLevel_suffix ht).length_le
    rw [after?_eq_some_iff.1 hc] at h3
    simp only [List.length_cons] at h3
    omega

theorem declarations_length_lt {xs rest : Bytes} {ds : List Declaration}
    (h : declarations xs = .ok (ds, rest)) : rest.length < xs.length := by
  fun_induction declarations xs generalizing ds with
  | case1 => cases h
  | case2 xs ys hg =>
    cases h
    have := length_skipGap_le xs
    rw [hg] at this
    exact this
  | case3 xs ys hg _ ih =>
    have h1 := ih h
    have h2 := length_skipGap_le xs
    rw [hg] at h2
    simp only [List.length_cons] at h2
    omega
  | case4 => cases h
  | case5 xs b ys hg _ _ first after hd ih =>
    simp only [bind_eq_ok_iff] at h
    obtain ⟨⟨more, r⟩, hm, hr⟩ := h
    cases hr
    have h1 := ih hm
    have h2 := declaration_length_lt hd
    have h3 := length_skipGap_le xs
    rw [hg] at h3
    omega

theorem style_length_lt {xs rest : Bytes} {rule : Rule} (h : style xs = .ok (rule, rest)) :
    rest.length < xs.length := by
  simp only [style, bind_eq_ok_iff] at h
  obtain ⟨⟨ss, r₁⟩, hs, r₂, ho, ⟨ds, r₃⟩, hd, hr⟩ := h
  cases hr
  have h1 := selectors_length_le hs
  have h2 := length_lt_of_expect ho
  have h3 := declarations_length_lt hd
  simp only at h2 h3 ⊢
  omega

/-! ## At-rules -/

/-- What a rule begins with: a rule read to its end, or a condition whose rules are still to come. -/
inductive Item where
  | rule (rule : Rule)
  | opening (kind : ConditionalKind) (condition : String)
deriving Repr

/-- The bytes that end the keyword of an at-rule. -/
def endsKeyword (b : UInt8) : Bool :=
  isSpace b || isQuote b || b == openBrace || b == openParen || b == semicolon

/-- A condition, up to and with the brace that opens its rules. No escape, string or comment hides the
brace, and blanks before it belong to the condition. -/
def condition (kind : ConditionalKind) (xs : Bytes) : Except Fault (Item × Bytes) := do
  let stop := seek (· == openBrace) xs
  let condition ← textBefore xs stop
  let inside ← expect openBrace stop
  return (.opening kind condition, inside)

/-- The fault of a text that does not begin with a name: its first byte should not be there, or there
should be a block. -/
def noName : Bytes → Fault
  | [] => .missingDelimiter openBrace []
  | b :: xs => .unexpectedCharacter b (b :: xs)

/-- The name of keyframes, one value that is not empty. -/
def keyframesName (xs : Bytes) : Except Fault (String × Bytes) := do
  let rest ← afterValue [openBrace] xs
  let name ← textBefore xs rest
  if name.isEmpty then throw (noName xs) else return (name, rest)

/-- The name and the block of keyframes. The block is the next one, whatever stands before it. -/
def keyframes (xs : Bytes) : Except Fault (Item × Bytes) := do
  let (name, rest) ← keyframesName xs
  let span ← block (skipGap rest)
  let body ← textBefore span.start span.rest
  return (.rule (.keyframes name body), span.rest)

/-- The start of an at-rule. -/
def atRule (xs : Bytes) : Except Fault (Item × Bytes) := do
  let stop := seek endsKeyword xs
  let keyword ← textBefore xs stop
  let rest := skipGap stop
  match ConditionalKind.ofKeyword? keyword with
  | some kind => condition kind rest
  | none =>
    if keyword = "@keyframes" then keyframes rest
    else throw (.unsupportedAtRule keyword xs)

/-- The start of a rule, given its first byte. -/
def item (b : UInt8) (xs : Bytes) : Except Fault (Item × Bytes) :=
  if b = atSign then atRule (b :: xs)
  else (style (b :: xs)).map fun (rule, rest) => (.rule rule, rest)

theorem block_length_lt {xs : Bytes} {span : Span} (h : block xs = .ok span) :
    span.rest.length < xs.length := by
  simp only [block, bind_eq_ok_iff] at h
  obtain ⟨inside, ho, rest, hb, hr⟩ := h
  cases hr
  have h1 := (toOpenBrace_suffix xs).length_le
  have h2 := length_lt_of_expect ho
  have h3 := (afterBlockFrom_suffix hb).length_le
  simp only
  omega

theorem keyframesName_suffix {xs rest : Bytes} {name : String}
    (h : keyframesName xs = .ok (name, rest)) : rest <:+ xs := by
  simp only [keyframesName, bind_eq_ok_iff] at h
  obtain ⟨r, hv, _, _, h⟩ := h
  split at h
  · cases h
  · cases h
    exact afterValue_suffix hv

/-- **The start of a rule is never empty.** -/
theorem item_length_lt {b : UInt8} {xs rest : Bytes} {i : Item} (h : item b xs = .ok (i, rest)) :
    rest.length < (b :: xs).length := by
  unfold item at h
  split at h
  · simp only [atRule, bind_eq_ok_iff] at h
    obtain ⟨keyword, _, h⟩ := h
    have h1 := (seek_suffix endsKeyword (b :: xs)).length_le
    have h2 := length_skipGap_le (seek endsKeyword (b :: xs))
    split at h
    · simp only [condition, bind_eq_ok_iff] at h
      obtain ⟨_, _, inside, ho, hr⟩ := h
      cases hr
      have h3 := (seek_suffix (· == openBrace) (skipGap (seek endsKeyword (b :: xs)))).length_le
      have h4 := length_lt_of_expect ho
      omega
    · split at h
      · simp only [keyframes, bind_eq_ok_iff] at h
        obtain ⟨⟨name, r⟩, hn, span, hb, _, _, hr⟩ := h
        cases hr
        have h3 := (keyframesName_suffix hn).length_le
        have h4 := length_skipGap_le r
        have h5 := block_length_lt hb
        simp only at h3 h4 h5
        omega
      · cases h
  · obtain ⟨⟨rule, r⟩, hs, hr⟩ := map_eq_ok_iff.1 h
    cases hr
    exact style_length_lt hs

/-! ## Sheets -/

/-- A conditional rule whose rules are being read. -/
structure Frame where
  /-- The kind of the conditional rule. -/
  kind : ConditionalKind
  /-- Its condition. -/
  condition : String
  /-- The rules before it, the last one first. -/
  earlier : List Rule
deriving Repr

/-- The rules up to and with a conditional rule that is now complete, the last one first. -/
def Frame.close (frame : Frame) (inner : List Rule) : List Rule :=
  .conditional frame.kind frame.condition inner.reverse :: frame.earlier

/-- The rules of a sheet, given the conditional rules that are open, innermost first, and the rules that
have been read in the innermost, the last one first. -/
def rulesFrom (outer : List Frame) (done : List Rule) (xs : Bytes) : Except Fault Sheet :=
  match _hg : skipGap xs with
  | [] =>
    match outer with
    | [] => .ok done.reverse
    | _ :: _ => .error (.missingDelimiter closeBrace [])
  | b :: ys =>
    if b = closeBrace then
      match outer with
      | [] => .error (.unexpectedCharacter closeBrace (b :: ys))
      | frame :: outer => rulesFrom outer (frame.close done) ys
    else
      match _hi : item b ys with
      | .error fault => .error fault
      | .ok (.rule rule, rest) => rulesFrom outer (rule :: done) rest
      | .ok (.opening kind condition, rest) => rulesFrom (⟨kind, condition, done⟩ :: outer) [] rest
termination_by xs.length
decreasing_by
  all_goals
    have hle := length_skipGap_le xs
    rw [_hg] at hle
  · exact hle
  · exact Nat.lt_of_lt_of_le (item_length_lt _hi) hle
  · exact Nat.lt_of_lt_of_le (item_length_lt _hi) hle

/-- The sheet that bytes hold. -/
def read (xs : Bytes) : Except Fault Sheet := rulesFrom [] [] xs

/-- The sheet that a text holds. -/
def parse (text : String) : Except Error Sheet := locating read (Text.encode text)

end StyleScope.Sheet
