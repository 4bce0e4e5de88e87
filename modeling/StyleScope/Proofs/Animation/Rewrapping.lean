/-
Line breaks in an animation value. A value may hold spaces within a group and within a string. Which spaces these are
makes no difference to the class of the value, with one exception: a call with a line feed in it (`BreaksLine`) is taken
for no call but for a name. Apart from that a value may be wrapped at will: it is split where it was, and its definitions
are accepted or refused as they were (`candidates_rewrapped`).
-/
import StyleScope.Proofs.Animation.Class
import StyleScope.Proofs.Animation.Layout
import StyleScope.Proofs.Scan.Rewrapping

namespace StyleScope.Animation

open Byte Scan Text

variable {s t token function : String}

/-! ## Numerals on one line -/

@[simp] theorem isDecimalDigit_unbreakChar (c : Char) : isDecimalDigit (unbreakChar c) = isDecimalDigit c := by
  have hall : ∀ d ∈ spaces.map toChar, isDecimalDigit d = isDecimalDigit ' ' := by decide +kernel
  unfold unbreakChar
  split
  · next hc => exact (hall c (List.contains_iff_mem.1 hc)).symm
  · rfl

theorem dropDigits_map (cs : List Char) :
    (cs.map unbreakChar).dropWhile isDecimalDigit = (cs.dropWhile isDecimalDigit).map unbreakChar := by
  simp only [List.dropWhile_map, Function.comp_def, isDecimalDigit_unbreakChar]

theorem afterSign_map (cs : List Char) : afterSign (cs.map unbreakChar) = (afterSign cs).map unbreakChar := by
  cases cs with
  | nil => rfl
  | cons c cs =>
    simp only [List.map_cons, afterSign_cons, unbreakChar_eq_iff (d := '+') (by decide),
      unbreakChar_eq_iff (d := '-') (by decide)]
    split <;> rfl

theorem afterDigits?_map (cs : List Char) :
    afterDigits? (cs.map unbreakChar) = (afterDigits? cs).map (List.map unbreakChar) := by
  cases cs with
  | nil => rfl
  | cons c cs =>
    rw [List.map_cons, afterDigits?, afterDigits?, isDecimalDigit_unbreakChar, dropDigits_map]
    split <;> rfl

theorem afterMantissa?_map (cs : List Char) :
    afterMantissa? (cs.map unbreakChar) = (afterMantissa? cs).map (List.map unbreakChar) := by
  have hdigits := afterDigits?_map cs
  have hdot (ds : List Char) : (ds.map unbreakChar).head? = some '.' ↔ ds.head? = some '.' := by
    cases ds <;> simp [unbreakChar_eq_iff (d := '.') (by decide)]
  cases h : afterDigits? cs with
  | none =>
    rw [h] at hdigits
    simp only [afterMantissa?_of_none hdigits, afterMantissa?_of_none h, hdot, ← List.map_tail, afterDigits?_map]
    split <;> rfl
  | some rest =>
    rw [h] at hdigits
    simp only [afterMantissa?_of_some hdigits, afterMantissa?_of_some h, hdot, ← List.map_tail, dropDigits_map]
    split <;> rfl

theorem afterExponent_map (cs : List Char) :
    afterExponent (cs.map unbreakChar) = (afterExponent cs).map unbreakChar := by
  cases cs with
  | nil => rfl
  | cons c cs =>
    simp only [List.map_cons, afterExponent, unbreakChar_eq_iff (d := 'e') (by decide),
      unbreakChar_eq_iff (d := 'E') (by decide), afterSign_map, afterDigits?_map]
    split
    · cases afterDigits? (afterSign cs) <;> rfl
    · rfl

theorem afterNumeral?_map (cs : List Char) :
    afterNumeral? (cs.map unbreakChar) = (afterNumeral? cs).map (List.map unbreakChar) := by
  rw [afterNumeral?, afterNumeral?, afterSign_map, afterMantissa?_map, Option.map_map, Option.map_map]
  simp only [Function.comp_def, afterExponent_map]

/-- A numeral has the same unit on one line. -/
theorem afterNumeral?_oneLine {unit : List Char} (hu : ∀ c ∈ unit, isSpacing c = false) (token : String) :
    (afterNumeral? (oneLine token).toList == some unit) = (afterNumeral? token.toList == some unit) := by
  rw [toList_oneLine, afterNumeral?_map, Bool.eq_iff_iff, beq_iff_eq, beq_iff_eq, Option.map_eq_some_iff]
  constructor
  · rintro ⟨rest, hr, hm⟩
    rw [hr, (map_unbreakChar_eq_iff hu).1 hm]
  · intro h
    exact ⟨unit, h, (map_unbreakChar_eq_iff hu).2 rfl⟩

/-! ## Calls on one line -/

/-- The value is a call of the function, whatever stands between its parentheses. -/
def Calls (function token : String) : Prop := ∃ inside : String, token = function ++ "(" ++ inside ++ ")"

/-- The value is a call with a line feed in it. -/
def BreaksLine (token : String) : Prop := (∃ function ∈ functions, Calls function token) ∧ '\n' ∈ token.toList

theorem calls_iff : Calls function token ↔
    ∃ rest ∈ afterLiteral? (function ++ "(") token.toList, rest.getLast? = some ')' := by
  constructor
  · rintro ⟨inside, rfl⟩
    refine ⟨inside.toList ++ [')'], afterLiteral?_eq_some_iff.2 ?_, List.getLast?_concat⟩
    simp
  · rintro ⟨rest, hr, hlast⟩
    obtain ⟨inside, rfl⟩ := List.getLast?_eq_some_iff.1 hlast
    refine ⟨String.ofList inside, String.toList_inj.1 ?_⟩
    rw [afterLiteral?_eq_some_iff.1 hr]
    simp

instance (function token : String) : Decidable (Calls function token) := decidable_of_iff _ calls_iff.symm

instance (token : String) : Decidable (BreaksLine token) :=
  inferInstanceAs (Decidable ((∃ function ∈ functions, Calls function token) ∧ '\n' ∈ token.toList))

theorem startsWith_of_calls (h : Calls function token) : (function ++ "(").toList <+: token.toList := by
  obtain ⟨inside, rfl⟩ := h
  exact ⟨inside.toList ++ [')'], by simp⟩

/-- The beginning of a call holds no space. -/
theorem isSpacing_of_function (hf : function ∈ functions) : ∀ c ∈ (function ++ "(").toList, isSpacing c = false :=
  (by decide : ∀ function ∈ functions, ∀ c ∈ (function ++ "(").toList, isSpacing c = false) function hf

/-- A call is taken for one where no line feed stands in it. -/
theorem isCall_iff (hf : function ∈ functions) : isCall function token ↔ Calls function token ∧ '\n' ∉ token.toList := by
  rw [calls_iff]
  unfold isCall
  cases h : afterLiteral? (function ++ "(") token.toList with
  | none => simp
  | some rest =>
    have hn : '\n' ∉ function.toList := fun hm => absurd (isSpacing_of_function hf '\n' (by simp [hm])) (by decide)
    rw [afterLiteral?_eq_some_iff.1 h]
    simp [hn]

theorem calls_oneLine (hf : function ∈ functions) : Calls function (oneLine token) ↔ Calls function token := by
  have hlast (rest : List Char) : (rest.map unbreakChar).getLast? = some ')' ↔ rest.getLast? = some ')' := by
    simp [List.getLast?_map, unbreakChar_eq_iff (d := ')') (by decide)]
  simp only [calls_iff, Option.mem_def, afterLiteral?_eq_some_iff, toList_oneLine]
  constructor
  · rintro ⟨_, hr, hl⟩
    obtain ⟨front, rest, he, hfront, rfl⟩ := List.map_eq_append_iff.1 hr
    rw [map_unbreakChar_eq_iff (isSpacing_of_function hf)] at hfront
    exact ⟨rest, by rw [he, hfront], (hlast rest).1 hl⟩
  · rintro ⟨rest, hr, hl⟩
    refine ⟨rest.map unbreakChar, ?_, (hlast rest).2 hl⟩
    rw [hr, List.map_append, (map_unbreakChar_eq_iff (isSpacing_of_function hf)).2 rfl]

theorem newline_not_mem_oneLine (token : String) : '\n' ∉ (oneLine token).toList := by
  rw [toList_oneLine, List.mem_map]
  rintro ⟨c, -, hc⟩
  have hspacing := isSpacing_unbreakChar c
  rw [hc] at hspacing
  rw [unbreakChar, if_pos (hspacing ▸ by decide)] at hc
  exact absurd hc (by decide)

theorem isCall_oneLine (hf : function ∈ functions) : isCall function (oneLine token) ↔ Calls function token := by
  rw [isCall_iff hf, calls_oneLine hf, and_iff_left (newline_not_mem_oneLine token)]

/-! ## Classes on one line -/

theorem isSpacing_of_keyword : ∀ word ∈ keywords, ∀ c ∈ word.toList, isSpacing c = false := by decide +kernel

/-- A word of the lists is one on one line. -/
theorem contains_oneLine {words : List String} (h : words ⊆ keywords) (token : String) :
    words.contains (oneLine token) = words.contains token := by
  rw [Bool.eq_iff_iff, List.contains_iff_mem, List.contains_iff_mem]
  constructor
  · intro hm
    rwa [(oneLine_eq_iff (isSpacing_of_keyword _ (h hm))).1 rfl]
  · intro hm
    rwa [(oneLine_eq_iff (isSpacing_of_keyword _ (h hm))).2 rfl]

/-- A call that breaks the line is no call, so it is a name. -/
theorem candidates_of_breaksLine (h : BreaksLine token) : candidates token = [.name] := by
  obtain ⟨⟨function, hf, hcalls⟩, hn⟩ := h
  have hkeyword : token ∉ keywords := fun hm => absurd (isSpacing_of_keyword token hm _ hn) (by decide)
  have hcall {f : String} (hf : f ∈ functions) : isCall f token = false :=
    Bool.eq_false_iff.2 fun hc => ((isCall_iff hf).1 hc).2 hn
  have hnumeral := afterNumeral?_of_startsWith hf (startsWith_of_calls hcalls)
  have htime : isTime token = false := by
    rw [isTime, hcall (by decide), hnumeral]
    rfl
  have htiming : isTimingCall token = false := by
    rw [isTimingCall, hcall (by decide), hcall (by decide)]
    rfl
  have hnumber : isNumber token = false := by
    rw [isNumber, hnumeral]
    rfl
  rw [candidates_of_not_mem hkeyword, htime, htiming, hnumber]
  rfl

/-- On one line, a call is no name. -/
theorem name_not_mem_of_calls (hf : function ∈ functions) (h : Calls function token) :
    .name ∉ candidates (oneLine token) := by
  have hcall := (isCall_oneLine hf).2 h
  rw [mem_candidates, Slot.accepts, isKeyframesName, isTime, isTimingCall]
  simp only [functions, List.mem_cons, List.not_mem_nil, or_false] at hf
  rcases hf with rfl | rfl | rfl <;> simp [hcall]

/-- **A value that breaks no line is on one line of the class that it was.** -/
theorem candidates_oneLine (h : ¬ BreaksLine token) : candidates (oneLine token) = candidates token := by
  have hcall {f : String} (hf : f ∈ functions) : isCall f (oneLine token) = isCall f token := by
    rw [Bool.eq_iff_iff, isCall_oneLine hf, isCall_iff hf, iff_self_and]
    exact fun hc hn => h ⟨⟨f, hf, hc⟩, hn⟩
  have htime : isTime (oneLine token) = isTime token := by
    rw [isTime, isTime, hcall (by decide), afterNumeral?_oneLine (by decide), afterNumeral?_oneLine (by decide)]
  have htiming : isTimingCall (oneLine token) = isTimingCall token := by
    rw [isTimingCall, isTimingCall, hcall (by decide), hcall (by decide)]
  have hnumber : isNumber (oneLine token) = isNumber token := afterNumeral?_oneLine (by decide) token
  have hinfinite : (oneLine token == "infinite") = (token == "infinite") := by
    rw [Bool.eq_iff_iff, beq_iff_eq, beq_iff_eq, oneLine_eq_iff (isSpacing_of_keyword _ (by decide))]
  refine List.filter_congr fun slot _ => ?_
  cases slot with
  | duration => exact htime
  | timingFunction => rw [Slot.accepts, Slot.accepts, htiming, contains_oneLine (by decide)]
  | delay => exact htime
  | iterationCount => rw [Slot.accepts, Slot.accepts, hinfinite, hnumber]
  | direction => exact contains_oneLine (by decide) token
  | fillMode => exact contains_oneLine (by decide) token
  | playState => exact contains_oneLine (by decide) token
  | name =>
    rw [Slot.accepts, Slot.accepts, isKeyframesName, isKeyframesName, contains_oneLine (by decide), hnumber, htime,
      htiming]

/-- Of two values that are rewrapped, the class is the same exactly if both break a line or neither does. -/
theorem candidates_eq_iff (h : Rewrapped s t) : candidates s = candidates t ↔ (BreaksLine s ↔ BreaksLine t) := by
  have hline := rewrapped_iff.1 h
  -- a value that breaks a line is a name, and one that does not is of the class that both have on one line
  have hdiffer {s t : String} (hline : oneLine s = oneLine t) (hs : BreaksLine s) (ht : ¬ BreaksLine t) :
      candidates s ≠ candidates t := by
    obtain ⟨function, hf, hcalls⟩ := hs.1
    have hname := name_not_mem_of_calls hf hcalls
    rw [hline, candidates_oneLine ht] at hname
    intro he
    rw [← he, candidates_of_breaksLine hs] at hname
    exact hname List.mem_cons_self
  by_cases hs : BreaksLine s <;> by_cases ht : BreaksLine t
  · simp only [hs, ht, candidates_of_breaksLine]
  · simp only [hs, ht, hdiffer hline hs ht, iff_false, not_true_eq_false]
  · simp only [hs, ht, (hdiffer hline.symm ht hs).symm, false_iff, not_true_eq_false]
  · simp only [hs, ht, ← candidates_oneLine hs, ← candidates_oneLine ht, hline]

/-! ## Splitting on one line -/

/-- The definition on one line. -/
def Definition.oneLine (d : Definition) : Definition := ⟨Text.oneLine d.text, d.tokens.map Text.oneLine⟩

theorem tokens_map (xs : Bytes) :
    tokens (xs.map unbreak) =
      mapOutcome Fault.oneLine (Prod.map (List.map Text.oneLine) (List.map unbreak)) (tokens xs) := by
  fun_induction tokens xs with
  | case1 xs hs => rw [tokens_eq, skipGap_map, hs]; rfl
  | case2 xs ys hs => rw [tokens_eq, skipGap_map, hs]; rfl
  | case3 xs b ys hs hb fault hv =>
    have hvalue := afterValue_map (by decide : ∀ c ∈ [comma], isSpace c = false) (b :: ys)
    rw [hv] at hvalue
    rw [tokens_eq, skipGap_map, hs, List.map_cons]
    simp only [unbreak_eq_iff (c := comma) (by decide), hb, if_false, ← List.map_cons, hvalue]
    rfl
  | case4 xs b ys hs hb rest hv ih =>
    have hvalue := afterValue_map (by decide : ∀ c ∈ [comma], isSpace c = false) (b :: ys)
    rw [hv] at hvalue
    rw [tokens_eq, skipGap_map, hs, List.map_cons]
    simp only [unbreak_eq_iff (c := comma) (by decide), hb, if_false, ← List.map_cons, hvalue, mapOutcome_ok]
    change textBefore _ _ >>= _ = _
    rw [textBefore_map]
    refine mapOutcome_bind _ fun token => ?_
    rw [ih]
    exact mapOutcome_bind _ fun _ => rfl

theorem definitionsFrom_map (xs : Bytes) :
    definitionsFrom (xs.map unbreak) =
      mapOutcome Fault.oneLine (List.map Definition.oneLine) (definitionsFrom xs) := by
  fun_induction definitionsFrom xs with
  | case1 xs fault ht =>
    rw [definitionsFrom_eq, tokens_map, ht]
    rfl
  | case2 xs ts ht =>
    rw [definitionsFrom_eq, tokens_map, ht]
    change textBefore _ ([].map unbreak) >>= _ = _
    rw [textBefore_map]
    refine mapOutcome_bind _ fun text => ?_
    simp [Definition.oneLine, trimEnd_oneLine, pure, Except.pure]
  | case3 xs ts b rest ht ih =>
    rw [definitionsFrom_eq, tokens_map, ht]
    change textBefore _ ((b :: rest).map unbreak) >>= _ = _
    rw [textBefore_map]
    refine mapOutcome_bind _ fun text => ?_
    simp only [List.map_cons, skipGap_map]
    rw [ih, trimEnd_oneLine]
    exact mapOutcome_bind _ fun _ => rfl

theorem definitions_map (xs : Bytes) :
    definitions (xs.map unbreak) = mapOutcome Fault.oneLine (List.map Definition.oneLine) (definitions xs) := by
  rw [definitions, skipGap_map, definitionsFrom_map, definitions]

/-- **A value is split on one line as it is split on several**, or refused at the same place. -/
theorem locating_definitions_oneLine (value : String) :
    locating definitions (encode (oneLine value)) =
      (locating definitions (encode value)).map (List.map Definition.oneLine) := by
  rw [locating, locating, encode_oneLine, definitions_map]
  cases definitions (encode value) with
  | error fault => exact congrArg Except.error (fault.locate_oneLine (encode value))
  | ok ds => rfl

/-! ## Assigning on one line -/

theorem isEmpty_oneLine (text : String) : (oneLine text).isEmpty = text.isEmpty := by
  rw [Bool.eq_iff_iff, String.isEmpty_iff, String.isEmpty_iff, oneLine_eq_iff (by decide)]

/-- The animation with another text for each of its values. -/
def mapTexts (f : String → String) : Animation → Animation
  | .two duration name => .two (f duration) (f name)
  | .four duration timingFunction delay name => .four (f duration) (f timingFunction) (f delay) (f name)
  | .eight duration timingFunction delay iterationCount direction fillMode playState name =>
    .eight (f duration) (f timingFunction) (f delay) (f iterationCount) (f direction) (f fillMode) (f playState) (f name)

theorem ofTexts?_map (f : String → String) (texts : Slot → Option String) (arity : Arity) :
    ofTexts? (fun slot => (texts slot).map f) arity = (ofTexts? texts arity).map (mapTexts f) := by
  cases arity <;> simp [ofTexts?, Option.bind_map, Option.map_bind, Function.comp_def, mapTexts]

namespace Assignment

variable {A B : Assignment} (f : String → String)

/-- The assignment with another text for each of its values. -/
def mapTexts (A : Assignment) : Assignment := ⟨A.arity, fun slot => (A.texts slot).map f⟩

theorem openSlots_mapTexts (A : Assignment) : (A.mapTexts f).openSlots = A.openSlots := by
  simp [openSlots, mapTexts]

theorem fill_mapTexts (A : Assignment) (slot : Slot) (token : String) :
    (A.fill slot token).mapTexts f = (A.mapTexts f).fill slot (f token) := by
  simp only [mapTexts, fill, Assignment.mk.injEq, true_and]
  funext s
  split <;> rfl

theorem build?_mapTexts (hf : ∀ text, (f text).isEmpty = text.isEmpty) (A : Assignment) :
    (A.mapTexts f).build? = A.build?.map (Animation.mapTexts f) := by
  rw [build?, build?, ← ofTexts?_map]
  congr 1
  funext slot
  simp only [mapTexts]
  cases A.texts slot with
  | none => rfl
  | some text => simp only [Option.map_some, Option.filter, hf]; split <;> rfl

/-- **Values of the same classes are placed alike**, whatever their texts are. -/
theorem placeAll_congr {ts us : List String} (h : List.Forall₂ (fun s t => f s = f t ∧ candidates s = candidates t) ts us)
    (hAB : A.mapTexts f = B.mapTexts f) :
    mapOutcome f (mapTexts f) (A.placeAll ts) = mapOutcome f (mapTexts f) (B.placeAll us) := by
  induction h generalizing A B with
  | nil => exact congrArg Except.ok hAB
  | @cons s t ts us hst _ ih =>
    have hfind : A.openSlots.find? (·.accepts s) = B.openSlots.find? (·.accepts t) := by
      have haccepts (slot : Slot) : slot.accepts s = slot.accepts t := by
        rw [Bool.eq_iff_iff, ← mem_candidates, ← mem_candidates, hst.2]
      rw [← openSlots_mapTexts f A, hAB, openSlots_mapTexts]
      simp only [haccepts]
    simp only [placeAll, place?, hfind]
    cases B.openSlots.find? (·.accepts t) with
    | none => exact congrArg Except.error hst.1
    | some slot => exact ih (by rw [fill_mapTexts, fill_mapTexts, hAB, hst.1])

end Assignment

/-- Which values of the definition break a line. -/
def Definition.breaks (d : Definition) : List Bool := d.tokens.map fun token => decide (BreaksLine token)

/-- Values that are the same on one line are of the same classes, if they break a line at the same places. -/
theorem forall₂_candidates {ts us : List String} (hline : ts.map oneLine = us.map oneLine)
    (hbreaks : (ts.map fun t => decide (BreaksLine t)) = us.map fun t => decide (BreaksLine t)) :
    List.Forall₂ (fun s t => oneLine s = oneLine t ∧ candidates s = candidates t) ts us := by
  induction ts generalizing us with
  | nil => rw [List.map_eq_nil_iff.1 hline.symm]; exact .nil
  | cons t ts ih =>
    cases us with
    | nil => cases hline
    | cons u us =>
      simp only [List.map_cons, List.cons.injEq, decide_eq_decide] at hline hbreaks
      exact .cons ⟨hline.1, (candidates_eq_iff (rewrapped_iff.2 hline.1)).2 hbreaks.1⟩ (ih hline.2 hbreaks.2)

/-- What becomes of the value, with each text of it on one line. -/
def outcome (value : String) : Except Error (List Animation) :=
  mapOutcome Error.oneLine (List.map (mapTexts oneLine)) (ofValue value)

theorem Definition.assign_congr {d e : Definition} (hline : d.oneLine = e.oneLine) (hbreaks : d.breaks = e.breaks) :
    mapOutcome Error.oneLine (mapTexts Text.oneLine) d.assign =
      mapOutcome Error.oneLine (mapTexts Text.oneLine) e.assign := by
  obtain ⟨htext, htokens⟩ := Definition.mk.inj hline
  have hlen : d.tokens.length = e.tokens.length := by simpa using congrArg List.length htokens
  unfold assign
  rw [hlen]
  cases Arity.ofCount? e.tokens.length with
  | none => exact congrArg (fun text => Except.error (Error.animationArity text e.tokens.length)) htext
  | some arity =>
    have hplace := Assignment.placeAll_congr (A := .empty arity) (B := .empty arity) Text.oneLine
      (forall₂_candidates htokens hbreaks) rfl
    dsimp only
    cases hd : (Assignment.empty arity).placeAll d.tokens with
    | error s =>
      cases he : (Assignment.empty arity).placeAll e.tokens with
      | error t =>
        rw [hd, he] at hplace
        simp only [mapOutcome_error, Error.oneLine, htext, Except.error.inj hplace]
      | ok B => rw [hd, he] at hplace; cases hplace
    | ok A =>
      cases he : (Assignment.empty arity).placeAll e.tokens with
      | error t => rw [hd, he] at hplace; cases hplace
      | ok B =>
        rw [hd, he] at hplace
        have hbuild := congrArg Assignment.build? (Except.ok.inj hplace)
        rw [Assignment.build?_mapTexts _ isEmpty_oneLine, Assignment.build?_mapTexts _ isEmpty_oneLine] at hbuild
        cases ha : A.build? with
        | none =>
          rw [ha, Option.map_none, eq_comm, Option.map_eq_none_iff] at hbuild
          simp only [ha, hbuild, mapOutcome_error, Error.oneLine, htext]
        | some a =>
          rw [ha, Option.map_some, eq_comm, Option.map_eq_some_iff] at hbuild
          obtain ⟨b, hb, hab⟩ := hbuild
          simp only [ha, hb, mapOutcome_ok, hab]

theorem mapM_assign_congr {ds es : List Definition} (hline : ds.map Definition.oneLine = es.map Definition.oneLine)
    (hbreaks : ds.map Definition.breaks = es.map Definition.breaks) :
    mapOutcome Error.oneLine (List.map (mapTexts oneLine)) (ds.mapM Definition.assign) =
      mapOutcome Error.oneLine (List.map (mapTexts oneLine)) (es.mapM Definition.assign) := by
  -- the definitions are assigned one after the other, each with its outcome on one line
  have hcons (d : Definition) (ds : List Definition) :
      mapOutcome Error.oneLine (List.map (mapTexts oneLine)) ((d :: ds).mapM Definition.assign) =
        mapOutcome Error.oneLine (mapTexts oneLine) d.assign >>= fun a =>
          mapOutcome Error.oneLine (List.map (mapTexts oneLine)) (ds.mapM Definition.assign) >>= fun as =>
            pure (a :: as) := by
    rw [List.mapM_cons]
    cases d.assign with
    | error e => rfl
    | ok a => cases ds.mapM Definition.assign <;> rfl
  induction ds generalizing es with
  | nil => rw [List.map_eq_nil_iff.1 hline.symm]
  | cons d ds ih =>
    cases es with
    | nil => cases hline
    | cons e es =>
      rw [List.map_cons, List.map_cons, List.cons.injEq] at hline hbreaks
      rw [hcons, hcons, Definition.assign_congr hline.1 hbreaks.1, ih hline.2 hbreaks.2]

theorem outcome_congr {v w : String} (h : Rewrapped v w)
    (hbreaks : ∀ ds es, locating definitions (encode v) = .ok ds → locating definitions (encode w) = .ok es →
      ds.map Definition.breaks = es.map Definition.breaks) : outcome v = outcome w := by
  have hsplit := locating_definitions_oneLine v
  rw [rewrapped_iff.1 h, locating_definitions_oneLine] at hsplit
  unfold outcome ofValue
  cases hv : locating definitions (encode v) with
  | error e =>
    cases hw : locating definitions (encode w) with
    | error e' => rw [hv, hw] at hsplit; cases hsplit; rfl
    | ok es => rw [hv, hw] at hsplit; cases hsplit
  | ok ds =>
    cases hw : locating definitions (encode w) with
    | error e' => rw [hv, hw] at hsplit; cases hsplit
    | ok es =>
      rw [hv, hw] at hsplit
      exact mapM_assign_congr (Except.ok.inj hsplit).symm (hbreaks ds es hv hw)

/-- **Where a line breaks does not matter, but for a line feed in a call.** Take two texts that are the same but for their
spaces. As values they are of the same class, unless one of them is a call with a line feed in it and the other is not;
such a call is nothing but a name. As lists of definitions they are split at the same places, and if the values of the one
break a line where those of the other do, then the one is accepted or refused as the other is, with the same slots. -/
theorem candidates_rewrapped {s t : String} (h : Rewrapped s t) :
    (candidates s = candidates t ↔ (BreaksLine s ↔ BreaksLine t)) ∧
      (BreaksLine s → candidates s = [.name]) ∧
      (locating definitions (encode s)).map (List.map Definition.oneLine) =
        (locating definitions (encode t)).map (List.map Definition.oneLine) ∧
      ((∀ ds es, locating definitions (encode s) = .ok ds → locating definitions (encode t) = .ok es →
        ds.map Definition.breaks = es.map Definition.breaks) → outcome s = outcome t) := by
  refine ⟨candidates_eq_iff h, candidates_of_breaksLine, ?_, outcome_congr h⟩
  rw [← locating_definitions_oneLine, rewrapped_iff.1 h, locating_definitions_oneLine]

/-- With a line feed between its operands a calculation is no time but a name. A tab in it changes nothing, nor does a
line feed between the values. -/
theorem candidates_rewrapped_calc :
    let v := "fade\n calc(1s +\t1s)"
    let w := "fade  calc(1s + 1s)"
    Rewrapped "calc(1s +\n1s)" "calc(1s + 1s)" ∧ BreaksLine "calc(1s +\n1s)" ∧ ¬ BreaksLine "calc(1s + 1s)" ∧
      candidates "calc(1s +\n1s)" = [.name] ∧ candidates "calc(1s +\n1s)" ≠ candidates "calc(1s + 1s)" ∧
      Rewrapped v w ∧ outcome v = outcome w ∧ ofValue w = .ok [.two "calc(1s + 1s)" "fade"] := by
  intro v w
  have hcalc : Rewrapped "calc(1s +\n1s)" "calc(1s + 1s)" := by decide +kernel
  have hbreaks : BreaksLine "calc(1s +\n1s)" := by decide +kernel
  have hline : ¬ BreaksLine "calc(1s + 1s)" := by decide +kernel
  obtain ⟨hclass, hname, -⟩ := candidates_rewrapped hcalc
  have hdiffer := mt hclass.1 fun h => hline (h.1 hbreaks)
  have hv : Rewrapped v w := by decide +kernel
  have hsame : outcome v = outcome w := by
    refine (candidates_rewrapped hv).2.2.2 fun ds es hds hes => ?_
    have hd : locating definitions (encode v) = .ok [⟨v, ["fade", "calc(1s +\t1s)"]⟩] := by decide +kernel
    have he : locating definitions (encode w) = .ok [⟨w, ["fade", "calc(1s + 1s)"]⟩] := by decide +kernel
    rw [hd] at hds
    rw [he] at hes
    cases hds
    cases hes
    decide +kernel
  exact ⟨hcalc, hbreaks, hline, hname hbreaks, hdiffer, hv, hsame, by decide +kernel⟩

end StyleScope.Animation
