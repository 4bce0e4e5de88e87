/-
Names under a scope, for a scope without blanks and delimiters. A name that is one token is one token under the
scope, and a clean one stays clean: nothing in the scope ends a scan, and nothing in it opens or closes a group.
It also stays a name, unless the scope begins with a digit; then a name such as `1e` turns into a number.
-/
import StyleScope.Proofs.Animation.Class
import StyleScope.Proofs.Scan.Clean
import StyleScope.Proofs.Text.Boundary
import StyleScope.Scope.Basic

namespace StyleScope

open Byte Scan Text

/-- The characters that mean something to a scan. -/
def delimiters : List Char := ['\\', '"', '\'', '(', ')', '[', ']', '\x7b', '\x7d', ',', ';', '/']

/-- The text has no blank and no delimiter in it. -/
def Harmless (s : String) : Prop := ∀ c ∈ s.toList, isBlank c = false ∧ c ∉ delimiters

instance (s : String) : Decidable (Harmless s) :=
  inferInstanceAs (Decidable (∀ c ∈ s.toList, isBlank c = false ∧ c ∉ delimiters))

/-! ## The bytes of a harmless text -/

/-- The byte means nothing to a scan, except that it may be a star. -/
def isHarmless (b : UInt8) : Bool :=
  !isSpace b && !([backslash, doubleQuote, singleQuote, openParen, closeParen, openBracket, closeBracket, openBrace,
    closeBrace, comma, semicolon, slash].contains b)

theorem isHarmless_of_mem {s : String} (h : Harmless s) {b : UInt8} (hb : b ∈ encode s) : isHarmless b := by
  simp only [isHarmless, Bool.and_eq_true, Bool.not_eq_eq_eq_not, Bool.not_true, List.contains_eq_mem,
    decide_eq_false_iff_not]
  by_cases hlt : b < 0x80
  · obtain ⟨hblank, hd⟩ := h _ ((mem_encode hlt).1 hb)
    constructor
    · cases hs : isSpace b with
      | false => rfl
      | true => rw [isBlank_toChar hs] at hblank; cases hblank
    · intro hm
      simp only [List.mem_cons, List.not_mem_nil, or_false] at hm
      rcases hm with rfl | rfl | rfl | rfl | rfl | rfl | rfl | rfl | rfl | rfl | rfl | rfl <;> exact hd (by decide)
  · constructor
    · cases hs : isSpace b with
      | false => rfl
      | true => exact absurd (lt_of_isSpace hs) hlt
    · intro hm
      simp only [List.mem_cons, List.not_mem_nil, or_false] at hm
      rcases hm with rfl | rfl | rfl | rfl | rfl | rfl | rfl | rfl | rfl | rfl | rfl | rfl <;> exact hlt (by decide)

theorem Harmless.append {s t : String} (hs : Harmless s) (ht : Harmless t) : Harmless (s ++ t) := by
  intro c hc
  rw [String.toList_append, List.mem_append] at hc
  exact hc.elim (hs c) (ht c)

theorem harmless_hyphen : Harmless "-" := by decide

theorem Harmless.trimmed {s : String} (h : Harmless s) : Trimmed s :=
  trimmed_iff.2 ⟨fun c hc => (h c (List.mem_of_mem_head? hc)).1, fun c hc => (h c (List.mem_of_getLast? hc)).1⟩

theorem ne_of_isHarmless {b c : UInt8} (hb : isHarmless b) (hc : isHarmless c = false) : b ≠ c := by
  rintro rfl
  rw [hb] at hc
  cases hc

/-- A harmless text is passed over at any depth. -/
theorem Harmless.isOrdinary {s : String} (h : Harmless s) {stops : Bytes} (hst : ∀ c ∈ stops, isHarmless c = false) :
    ∀ b ∈ encode s, isOrdinary stops b := by
  intro b hm
  have hb := isHarmless_of_mem h hm
  have hne (c : UInt8) (hc : isHarmless c = false) : b ≠ c := ne_of_isHarmless hb hc
  have hstops : b ∉ stops := fun hm => ne_of_isHarmless hb (hst b hm) rfl
  simp [Scan.isOrdinary, isPlain, opensGroup, closesGroup, hstops, hne backslash (by decide),
    hne singleQuote (by decide), hne doubleQuote (by decide), hne slash (by decide), hne openParen (by decide),
    hne openBracket (by decide), hne closeParen (by decide), hne closeBracket (by decide)]

/-- A value runs on over a harmless text. -/
theorem Harmless.runsOn {s : String} (h : Harmless s) {follow : UInt8} (hf : isHarmless follow = false) :
    RunsOn [follow] 0 (encode s) 0 := by
  have key (xs : Bytes) (hx : ∀ b ∈ xs, isHarmless b) : RunsOn [follow] 0 xs 0 := by
    induction xs with
    | nil => exact .nil
    | cons b xs ih =>
      have hb := hx b List.mem_cons_self
      have hne (c : UInt8) (hc : isHarmless c = false) : b ≠ c := ne_of_isHarmless hb hc
      have hs : isSpace b = false := by
        simp only [isHarmless, Bool.and_eq_true, Bool.not_eq_eq_eq_not, Bool.not_true] at hb
        exact hb.1
      refine .byte (hne backslash (by decide)) (by simp [hs, hne follow hf]) (by simp) ?_
      simp only [nesting, opensGroup, closesGroup, beq_false_of_ne (hne openParen (by decide)),
        beq_false_of_ne (hne openBracket (by decide)), beq_false_of_ne (hne closeParen (by decide)),
        beq_false_of_ne (hne closeBracket (by decide)), Bool.or_self, if_neg Bool.false_ne_true]
      exact ih fun c hc => hx c (List.mem_cons_of_mem b hc)
  exact key _ fun b hb => isHarmless_of_mem h hb

/-! ## The two forms of a name -/

theorem of_quotedContent? {name content : String} {q : Char} (h : quotedContent? name = some (q, content)) :
    (q = '\'' ∨ q = '"') ∧ name = q.toString ++ content ++ q.toString := by
  unfold quotedContent? at h
  split at h
  · cases h
  · next c cs hc =>
    split at h
    · next hq =>
      cases h
      refine ⟨hq.1, String.toList_injective ?_⟩
      obtain ⟨ds, hds⟩ := List.getLast?_eq_some_iff.1 hq.2
      simp [hc, hds]
    · cases h

theorem quotedContent?_quoted {q : Char} (hq : q = '\'' ∨ q = '"') (content : String) :
    quotedContent? (q.toString ++ content ++ q.toString) = some (q, content) := by
  have hl : (q.toString ++ content ++ q.toString).toList = q :: (content.toList ++ [q]) := by simp
  rw [quotedContent?, hl]
  simp [hq]

/-- The quotes and what they hold are given by the string. -/
theorem eq_of_quoted {q r : Char} {content other : String}
    (h : q.toString ++ content ++ q.toString = r.toString ++ other ++ r.toString) : q = r ∧ content = other := by
  have hl := congrArg String.toList h
  simp only [String.toList_append, Char.toString, String.toList_singleton, List.cons_append,
    List.cons.injEq] at hl
  obtain ⟨rfl, hl⟩ := hl
  exact ⟨rfl, String.toList_injective (List.append_cancel_right hl)⟩

theorem quotedContent?_eq_none {name : String} {c : Char} {cs : List Char} (hl : name.toList = c :: cs)
    (h : ¬ ((c = '\'' ∨ c = '"') ∧ cs.getLast? = some c)) : quotedContent? name = none := by
  rw [quotedContent?, hl]
  exact if_neg h

/-- A quote is one byte. -/
theorem exists_isQuote {q : Char} (h : q = '\'' ∨ q = '"') :
    ∃ b, isQuote b ∧ q = toChar b ∧ encode q.toString = [b] := by
  rcases h with rfl | rfl
  · exact ⟨singleQuote, by decide, by decide, by decide⟩
  · exact ⟨doubleQuote, by decide, by decide, by decide⟩

/-- The bytes of a name in quotes. -/
theorem encode_of_quotedContent? {name content : String} {q : Char} (h : quotedContent? name = some (q, content)) :
    ∃ b, isQuote b ∧ q = toChar b ∧ encode name = b :: (encode content ++ [b]) := by
  obtain ⟨hq, rfl⟩ := of_quotedContent? h
  obtain ⟨b, hb, hchar, he⟩ := exists_isQuote hq
  refine ⟨b, hb, hchar, ?_⟩
  rw [encode_append, encode_append, he, List.append_assoc, List.singleton_append]

/-- A name whose first and last bytes are the same quote is a name in quotes. -/
theorem quotedContent?_ne_none {name : String} {b : UInt8} {y : Bytes} (hq : isQuote b)
    (h : encode name = b :: (y ++ [b])) : quotedContent? name ≠ none := by
  have hb := lt_of_isQuote hq
  have hquote : toChar b = '\'' ∨ toChar b = '"' := by rcases isQuote_iff.1 hq with rfl | rfl <;> decide
  obtain ⟨cs, hcs, hbytes⟩ := encode_eq_cons hb h
  have hrest : encode (String.ofList cs) = y ++ b :: [] := by simpa [encode] using hbytes
  obtain ⟨t, _, ht, -⟩ := encode_eq_append_cons hb hrest
  have hchar : encode (toChar b).toString = [b] := by simp [encode, utf8EncodeChar_toChar hb]
  have hconcat : String.ofList cs = t ++ (toChar b).toString :=
    encode_inj (by rw [hrest, encode_append, ht, hchar])
  have hlist : cs = (t ++ (toChar b).toString).toList := by rw [← hconcat, String.toList_ofList]
  have hlast : cs.getLast? = some (toChar b) := by
    rw [hlist]
    simp
  rw [quotedContent?, hcs]
  simp [hlast, hquote]

/-- A token that is no name in quotes does not begin with a quote. -/
theorem runsOn_of_quotedContent? {name : String} {f : UInt8} (h : quotedContent? name = none)
    (hv : ValueText [f] (encode name)) :
    ∃ b xs, encode name = b :: xs ∧ isQuote b = false ∧ RunsOn [f] 0 (b :: xs) 0 := by
  generalize hn : encode name = n at hv
  cases hv with
  | bare hb hr => exact ⟨_, _, rfl, hb, hr⟩
  | quoted hq _ => exact absurd h (quotedContent?_ne_none hq hn)

/-! ## Renaming -/

section Rename

variable {name scope : String} {f : UInt8}

theorem rename_of_none (h : quotedContent? name = none) : rename scope name = name ++ ("-" ++ scope) := by
  rw [rename, h, String.append_assoc]

theorem rename_of_some {q : Char} {content : String} (h : quotedContent? name = some (q, content)) :
    rename scope name = q.toString ++ (content ++ " " ++ scope) ++ q.toString := by
  rw [rename, h]
  simp only [String.append_assoc]

theorem rename_ne_empty (scope name : String) : rename scope name ≠ "" := by
  unfold rename
  split <;> simp

/-- A string under the scope. -/
theorem rename_quoted {q : Char} (hq : q = '\'' ∨ q = '"') (scope content : String) :
    rename scope (q.toString ++ content ++ q.toString) = q.toString ++ (content ++ " " ++ scope) ++ q.toString :=
  rename_of_some (quotedContent?_quoted hq content)

/-- One quote alone is no pair of quotes. -/
example : rename "s" "'" = "'-s" ∧ rename "s" "''" = "' s'" := by decide +kernel

/-- A string under the scope, as bytes. -/
theorem quotedText_rename {content : String} {q : Char} (hq : q = '\'' ∨ q = '"') (hs : Harmless scope)
    (hv : ValueText [f] (encode (q.toString ++ content ++ q.toString))) :
    ∃ b inside, isQuote b ∧ QuotedText b inside ∧
      encode (q.toString ++ (content ++ " " ++ scope) ++ q.toString) = b :: (inside ++ [b]) := by
  obtain ⟨b, hb, -, he⟩ := exists_isQuote hq
  have hne (c : UInt8) (hc : isHarmless c) : c ≠ backslash ∧ c ≠ b :=
    ⟨ne_of_isHarmless hc (by decide), ne_of_isHarmless hc (by rcases isQuote_iff.1 hb with rfl | rfl <;> decide)⟩
  have hspace : QuotedText b (encode " ") :=
    .of_forall fun c hc => by
      obtain rfl := List.mem_singleton.1 hc
      rcases isQuote_iff.1 hb with rfl | rfl <;> decide
  have hscope : QuotedText b (encode scope) := .of_forall fun c hc => hne c (isHarmless_of_mem hs hc)
  have hcontent : QuotedText b (encode content) := by
    rw [encode_append, encode_append, he] at hv
    generalize hn : [b] ++ encode content ++ [b] = n at hv
    cases hv with
    | bare hc _ => cases hn; rw [hb] at hc; cases hc
    | @quoted b' inside _ hi =>
      simp only [List.cons_append, List.cons.injEq] at hn
      obtain ⟨rfl, hn⟩ := hn
      obtain ⟨rfl, -⟩ := List.append_inj' hn rfl
      exact hi
  refine ⟨b, encode content ++ (encode " " ++ encode scope), hb, hcontent.append (hspace.append hscope), ?_⟩
  simp only [encode_append, he, List.append_assoc, List.cons_append, List.nil_append]

/-- **A name that is a token is one under the scope.** -/
theorem Scan.Token.rename (h : Token f name) (hs : Harmless scope) (hb : f ≠ backslash)
    (hq : isQuote f = false) (hf : isHarmless f = false) : Token f (rename scope name) := by
  have hv := h.valueText
  cases hc : quotedContent? name with
  | none =>
    obtain ⟨b, xs, he, hnq, hr⟩ := runsOn_of_quotedContent? hc hv
    have hx := hr.append ((harmless_hyphen.append hs).runsOn hf)
    have hflush : Flush (encode name ++ encode ("-" ++ scope)) := by
      refine (h.flush hb hq).append (encode_ne_nil h.ne_empty) fun hh => ?_
      rw [encode_append] at hh
      exact absurd (Option.some.inj hh) (by decide)
    rw [rename_of_none hc]
    rw [← encode_append] at hflush
    refine .of_valueText ?_ hflush hb
    rw [encode_append, he, List.cons_append]
    exact .bare hnq hx
  | some p =>
    obtain ⟨q, content⟩ := p
    obtain ⟨hqc, rfl⟩ := of_quotedContent? hc
    obtain ⟨b, inside, hqb, hi, he⟩ := quotedText_rename hqc hs hv
    rw [rename_of_some hc]
    refine .of_valueText ?_ ?_ hb
    · rw [he]
      exact .quoted hqb hi
    · rw [he]
      refine .cons ?_ ?_ <;> rcases isQuote_iff.1 hqb with rfl | rfl <;> decide

/-- **A clean name is clean under the scope.** -/
theorem Scan.Clean.rename {stops : Bytes} {delimiter : UInt8} (h : Clean stops delimiter name) (ht : Token f name)
    (hs : Harmless scope) (hst : ∀ c ∈ stops, isHarmless c = false) (hd : stopsAt stops 0 delimiter)
    (hb : isBrace delimiter = false) (hpl : isPlain delimiter) (hstar : delimiter ≠ star) :
    Clean stops delimiter (rename scope name) := by
  cases hc : quotedContent? name with
  | none =>
    have hhs := harmless_hyphen.append hs
    have hne : "-" ++ scope ≠ "" := by simp
    have hhead : (encode ("-" ++ scope)).head? ≠ some star := fun hh => by
      rw [encode_append] at hh
      exact absurd (Option.some.inj hh) (by decide)
    have htrim := h.trimmed.append hhs.trimmed ht.ne_empty hne ""
    have hflush := h.flush.append (encode_ne_nil ht.ne_empty) hhead
    have hp := (h.passes_zero hb).append (passes_ordinary (hhs.isOrdinary hst)) hhead
    rw [String.append_empty] at htrim
    rw [← encode_append] at hflush hp
    rw [rename_of_none hc]
    exact .of_passes htrim (not_beginsWithComment_of_flush hflush) hp hd hpl hstar
  | some p =>
    obtain ⟨q, content⟩ := p
    obtain ⟨hqc, rfl⟩ := of_quotedContent? hc
    obtain ⟨b, inside, hqb, hi, he⟩ := quotedText_rename hqc hs ht.valueText
    have hq : Trimmed q.toString ∧ q.toString ≠ "" := by rcases hqc with rfl | rfl <;> decide
    have hflush : Flush (b :: (inside ++ [b])) := by
      refine .cons ?_ ?_ <;> rcases isQuote_iff.1 hqb with rfl | rfl <;> decide
    have hp : Passes stops 0 (b :: (inside ++ [b]) ++ []) 0 := .inert (.quoted hqb hi) .nil
    rw [List.append_nil] at hp
    rw [rename_of_some hc]
    refine .of_passes (hq.1.append hq.1 hq.2 hq.2 _) (not_beginsWithComment_of_flush ?_) ?_ hd hpl hstar
    · rwa [he]
    · rwa [he]

end Rename

/-! ## A name stays a name -/

section Hyphen

/-- The characters still hold the hyphen before the scope. -/
def HoldsHyphen (scope cs : List Char) : Prop := ∃ front, cs = front ++ '-' :: scope

variable {scope cs rest : List Char}

theorem HoldsHyphen.tail {c : Char} (h : HoldsHyphen scope (c :: cs)) (hc : c ≠ '-') : HoldsHyphen scope cs := by
  obtain ⟨front, he⟩ := h
  cases front with
  | nil => exact absurd (List.cons.inj he).1 hc
  | cons d front => exact ⟨front, (List.cons.inj he).2⟩

theorem HoldsHyphen.dropWhile (h : HoldsHyphen scope cs) : HoldsHyphen scope (cs.dropWhile isDecimalDigit) := by
  induction cs with
  | nil => exact h
  | cons c cs ih =>
    rw [List.dropWhile_cons]
    split
    · next hc => exact ih (h.tail (by rintro rfl; exact absurd hc (by decide)))
    · exact h

theorem HoldsHyphen.afterDigits? (h : HoldsHyphen scope cs) (hr : Animation.afterDigits? cs = some rest) :
    HoldsHyphen scope rest := by
  unfold Animation.afterDigits? at hr
  split at hr
  · cases hr
  · split at hr
    · next hc =>
      cases hr
      exact (h.tail (by rintro rfl; exact absurd hc (by decide))).dropWhile
    · cases hr

theorem HoldsHyphen.afterMantissa? (h : HoldsHyphen scope cs) (hr : Animation.afterMantissa? cs = some rest) :
    HoldsHyphen scope rest := by
  unfold Animation.afterMantissa? at hr
  split at hr
  · next r hd =>
    cases hr
    exact ((h.afterDigits? hd).tail (by decide)).dropWhile
  · next r _ hd =>
    cases hr
    exact h.afterDigits? hd
  · split at hr
    · next r _ => exact (h.tail (by decide)).afterDigits? hr
    · cases hr

theorem HoldsHyphen.afterSign (c : Char) (front : List Char) :
    HoldsHyphen scope (Animation.afterSign (c :: (front ++ '-' :: scope))) := by
  unfold Animation.afterSign
  split
  · next h => exact ⟨front, (List.cons.inj h).2.symm⟩
  · next h => exact ⟨front, (List.cons.inj h).2.symm⟩
  · exact ⟨c :: front, rfl⟩

/-- An exponent takes the hyphen for its sign only if a digit follows. -/
theorem HoldsHyphen.afterExponent (h : HoldsHyphen scope cs) (hd : ∀ c ∈ scope.head?, isDecimalDigit c = false) :
    HoldsHyphen scope (Animation.afterExponent cs) := by
  unfold Animation.afterExponent
  split
  · exact h
  · next c cs =>
    split
    · next hc =>
      have ht := h.tail (by rcases hc with rfl | rfl <;> decide)
      cases he : Animation.afterDigits? (Animation.afterSign cs) with
      | none => exact h
      | some r =>
        obtain ⟨front, rfl⟩ := ht
        cases front with
        | nil =>
          simp only [List.nil_append, Animation.afterSign] at he
          cases scope with
          | nil => cases he
          | cons s scope =>
            rw [Animation.afterDigits?, hd s rfl] at he
            cases he
        | cons a front => exact (HoldsHyphen.afterSign a front).afterDigits? he
    · exact h

theorem holdsHyphen_of_afterNumeral? {front : List Char} (hne : front ≠ [])
    (hd : ∀ c ∈ scope.head?, isDecimalDigit c = false)
    (h : Animation.afterNumeral? (front ++ '-' :: scope) = some rest) : HoldsHyphen scope rest := by
  cases front with
  | nil => exact absurd rfl hne
  | cons c front =>
    simp only [Animation.afterNumeral?, Option.map_eq_some_iff] at h
    obtain ⟨r, hr, rfl⟩ := h
    exact ((HoldsHyphen.afterSign c front).afterMantissa? hr).afterExponent hd

end Hyphen

section Names

open Animation

/-- A text that ends in no parenthesis is no call. -/
theorem isCall_of_getLast? {token : String} (h : token.toList.getLast? ≠ some ')') (function : String) :
    isCall function token = false := by
  unfold isCall
  split
  · next rest he =>
    rw [afterLiteral?_eq_some_iff] at he
    rw [he] at h
    rw [Bool.and_eq_false_iff, beq_eq_false_iff_ne]
    refine .inl fun hr => h ?_
    rw [List.getLast?_append, hr, Option.some_or]
  · rfl

/-- What is neither reserved nor a call is a name, unless a numeral and a unit are all of it. -/
theorem isKeyframesName_of_afterNumeral? {token : String} (hr : token ∉ reservedKeywords)
    (hl : token.toList.getLast? ≠ some ')')
    (hn : ∀ rest, afterNumeral? token.toList = some rest → '-' ∈ rest) : isKeyframesName token := by
  have hcall := isCall_of_getLast? hl
  have hunit (unit : List Char) (hu : '-' ∉ unit) : (afterNumeral? token.toList == some unit) = false := by
    rw [beq_eq_false_iff_ne]
    exact fun he => hu (hn unit he)
  simp [isKeyframesName, isNumber, isTime, isTimingCall, hcall, hr, hunit [] (by simp), hunit ['s'] (by decide),
    hunit ['m', 's'] (by decide)]

theorem not_mem_reservedKeywords {token : String} {c : Char} (hc : c ∈ token.toList)
    (hw : ∀ word ∈ reservedKeywords, c ∉ word.toList) : token ∉ reservedKeywords :=
  fun hm => hw token hm hc

theorem Harmless.getLast?_ne {s : String} (h : Harmless s) {c : Char} (hc : c ∈ delimiters) :
    s.toList.getLast? ≠ some c :=
  fun he => (h c (List.mem_of_getLast? he)).2 hc

/-- **A name stays a name** under a scope that does not begin with a digit. -/
theorem isKeyframesName_rename {name scope : String} (hne : name ≠ "") (hs : Harmless scope)
    (hd : ∀ c ∈ scope.toList.head?, isDecimalDigit c = false) : isKeyframesName (rename scope name) := by
  cases hc : quotedContent? name with
  | none =>
    have hhs := harmless_hyphen.append hs
    have hl : (rename scope name).toList = name.toList ++ '-' :: scope.toList := by
      rw [rename_of_none hc]
      simp
    have hlast : (rename scope name).toList.getLast? = ("-" ++ scope).toList.getLast? := by
      rw [rename_of_none hc, String.toList_append, List.getLast?_append, List.getLast?_eq_some_getLast (by simp),
        Option.some_or]
    have hname : name.toList ≠ [] := fun h => hne (String.toList_injective h)
    have hres : rename scope name ∉ reservedKeywords :=
      not_mem_reservedKeywords (c := '-') (by simp [hl]) (by decide)
    refine isKeyframesName_of_afterNumeral? hres (hlast ▸ hhs.getLast?_ne (by decide)) fun rest hr => ?_
    rw [hl] at hr
    obtain ⟨front, rfl⟩ := holdsHyphen_of_afterNumeral? hname hd hr
    simp
  | some p =>
    obtain ⟨q, content⟩ := p
    obtain ⟨hq, rfl⟩ := of_quotedContent? hc
    have hl : (rename scope (q.toString ++ content ++ q.toString)).toList =
        q :: (content ++ " " ++ scope).toList ++ [q] := by
      rw [rename_of_some hc]
      simp
    have hw : ∀ word ∈ reservedKeywords, q ∉ word.toList := by rcases hq with rfl | rfl <;> decide
    have hres : rename scope (q.toString ++ content ++ q.toString) ∉ reservedKeywords :=
      not_mem_reservedKeywords (by rw [hl]; simp) hw
    refine isKeyframesName_of_afterNumeral? hres ?_ fun rest hr => ?_
    · rw [hl, List.getLast?_concat]
      rcases hq with rfl | rfl <;> decide
    · have hb : beginsNumeral q = false := by rcases hq with rfl | rfl <;> decide
      rw [hl, List.cons_append, afterNumeral?_eq_none hb] at hr
      cases hr

end Names

end StyleScope
