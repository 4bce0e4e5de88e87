/-
The lexical classes of values. A value is a word of one of the lists, a call, a numeral with or without a unit, or none of
these. The classes exclude each other, so the slots that a value fits are one of ten sets (`exists_candidates_iff`): no
value fits no slot, a time fits the two slots for times alone, and a value of any other class fits the slot of that class
and perhaps the name.
-/
import StyleScope.Animation.Token

namespace StyleScope.Animation

open Text

/-! ## Calls and numerals -/

/-- The character may begin a numeral. -/
def beginsNumeral (c : Char) : Bool := c == '+' || c == '-' || c == '.' || isDecimalDigit c

theorem afterSign_cons (c : Char) (cs : List Char) :
    afterSign (c :: cs) = if c = '+' ∨ c = '-' then cs else c :: cs := by
  unfold afterSign
  split
  · next he => simp [(List.cons.inj he).1, (List.cons.inj he).2]
  · next he => simp [(List.cons.inj he).1, (List.cons.inj he).2]
  · next hplus hminus =>
    rw [if_neg]
    rintro (rfl | rfl)
    · exact hplus cs rfl
    · exact hminus cs rfl

theorem afterMantissa?_of_some {cs rest : List Char} (h : afterDigits? cs = some rest) :
    afterMantissa? cs = some (if rest.head? = some '.' then rest.tail.dropWhile isDecimalDigit else rest) := by
  unfold afterMantissa?
  rw [h]
  split
  · next he => cases he; rfl
  · next hdot he =>
    cases he
    rw [if_neg]
    intro hhead
    obtain ⟨tail, he⟩ := List.head?_eq_some_iff.1 hhead
    exact hdot tail he
  · next he => cases he

theorem afterMantissa?_of_none {cs : List Char} (h : afterDigits? cs = none) :
    afterMantissa? cs = if cs.head? = some '.' then afterDigits? cs.tail else none := by
  unfold afterMantissa?
  rw [h]
  simp only
  split
  · rfl
  · next hdot =>
    rw [if_neg]
    intro hhead
    obtain ⟨tail, he⟩ := List.head?_eq_some_iff.1 hhead
    exact hdot tail he

theorem afterNumeral?_eq_none {c : Char} (h : beginsNumeral c = false) (cs : List Char) :
    afterNumeral? (c :: cs) = none := by
  simp only [beginsNumeral, Bool.or_eq_false_iff, beq_eq_false_iff_ne] at h
  obtain ⟨⟨⟨hplus, hminus⟩, hdot⟩, hd⟩ := h
  have hsign : afterSign (c :: cs) = c :: cs := by rw [afterSign_cons, if_neg (by simp [hplus, hminus])]
  have hdigits : afterDigits? (c :: cs) = none := by rw [afterDigits?, hd]; rfl
  have hmantissa : afterMantissa? (c :: cs) = none := by
    rw [afterMantissa?_of_none hdigits, List.head?_cons, if_neg (by simp [hdot])]
  rw [afterNumeral?, hsign, hmantissa]
  rfl

/-- The functions that a value may call. -/
def functions : List String := ["calc", "cubic-bezier", "steps"]

theorem startsWith_of_isCall {function token : String} (h : isCall function token) :
    (function ++ "(").toList <+: token.toList := by
  unfold isCall at h
  split at h
  · next rest he => exact ⟨rest, (afterLiteral?_eq_some_iff.1 he).symm⟩
  · cases h

/-- A value calls one function only. -/
theorem function_unique {f g token : String} (hf : f ∈ functions) (hg : g ∈ functions) (h : isCall f token)
    (h' : isCall g token) : f = g := by
  have hall : ∀ f ∈ functions, ∀ g ∈ functions, (f ++ "(").toList <+: (g ++ "(").toList → f = g := by decide
  rcases List.prefix_or_prefix_of_prefix (startsWith_of_isCall h) (startsWith_of_isCall h') with hp | hp
  · exact hall f hf g hg hp
  · exact (hall g hg f hf hp).symm

/-- A value that begins like a call is no numeral. -/
theorem afterNumeral?_of_startsWith {function token : String} (hf : function ∈ functions)
    (h : (function ++ "(").toList <+: token.toList) : afterNumeral? token.toList = none := by
  have hfirst : ∀ f ∈ functions, ∃ c cs, f.toList = c :: cs ∧ beginsNumeral c = false := by
    intro f hf
    simp only [functions, List.mem_cons, List.not_mem_nil, or_false] at hf
    rcases hf with rfl | rfl | rfl <;> exact ⟨_, _, rfl, by decide +kernel⟩
  obtain ⟨c, cs, hc, hb⟩ := hfirst function hf
  obtain ⟨rest, hr⟩ := h
  rw [← hr, String.toList_append, hc]
  exact afterNumeral?_eq_none hb _

theorem afterNumeral?_of_isCall {function token : String} (hf : function ∈ functions) (h : isCall function token) :
    afterNumeral? token.toList = none :=
  afterNumeral?_of_startsWith hf (startsWith_of_isCall h)

/-! ## Classes exclude each other -/

theorem isNumber_of_isTime {token : String} (h : isTime token) : isNumber token = false := by
  rw [isTime, Bool.or_eq_true, Bool.or_eq_true, beq_iff_eq, beq_iff_eq] at h
  rcases h with (h | h) | h
  · rw [isNumber, afterNumeral?_of_isCall (by decide) h]
    rfl
  · rw [isNumber, h]
    rfl
  · rw [isNumber, h]
    rfl

theorem afterNumeral?_of_isTimingCall {token : String} (h : isTimingCall token) :
    afterNumeral? token.toList = none := by
  rw [isTimingCall, Bool.or_eq_true] at h
  rcases h with h | h <;> exact afterNumeral?_of_isCall (by decide) h

theorem isTime_of_isTimingCall {token : String} (h : isTimingCall token) : isTime token = false := by
  have hn := afterNumeral?_of_isTimingCall h
  have hcalc : isCall "calc" token = false := Bool.eq_false_iff.2 fun hc => by
    rw [isTimingCall, Bool.or_eq_true] at h
    rcases h with h | h <;> exact absurd (function_unique (by decide) (by decide) hc h) (by decide)
  rw [isTime, hn, hcalc]
  rfl

theorem isNumber_of_isTimingCall {token : String} (h : isTimingCall token) : isNumber token = false := by
  rw [isNumber, afterNumeral?_of_isTimingCall h]
  rfl

/-! ## The slots of a value -/

/-- All words that stand for something else than keyframes. -/
def keywords : List String :=
  timingKeywords ++ directionKeywords ++ fillModeKeywords ++ playStateKeywords ++ ["infinite"]

/-- What fits a value that is no word of the lists. -/
theorem candidates_of_not_mem {token : String} (h : token ∉ keywords) :
    candidates token =
      if isTime token then [.duration, .delay]
      else if isTimingCall token then [.timingFunction]
      else if isNumber token then [.iterationCount]
      else [.name] := by
  have hreserved : token ∉ reservedKeywords := fun hm => h ((by decide : reservedKeywords ⊆ keywords) hm)
  simp only [keywords, List.mem_append, List.mem_singleton, not_or] at h
  obtain ⟨⟨⟨⟨ht, hd⟩, hf⟩, hp⟩, hi⟩ := h
  have hinf : (token == "infinite") = false := beq_eq_false_iff_ne.2 hi
  simp only [candidates, Slot.all, List.filter_cons, List.filter_nil, Slot.accepts, isKeyframesName, List.contains_eq_mem,
    ht, hd, hf, hp, hinf, hreserved, decide_false, Bool.or_false, Bool.false_or, Bool.not_false, Bool.true_and]
  cases htime : isTime token with
  | true =>
    have hcall : isTimingCall token = false := Bool.eq_false_iff.2 fun hc => by
      rw [isTime_of_isTimingCall hc] at htime
      cases htime
    rw [isNumber_of_isTime htime, hcall]
    rfl
  | false =>
    cases hcall : isTimingCall token with
    | true =>
      rw [isNumber_of_isTimingCall hcall]
      rfl
    | false => cases isNumber token <;> rfl

/-- The sets of slots that a value may fit. -/
def candidateSets : List (List Slot) :=
  [[.duration, .delay],
   [.timingFunction], [.timingFunction, .name],
   [.iterationCount], [.iterationCount, .name],
   [.direction, .name],
   [.fillMode], [.fillMode, .name],
   [.playState, .name],
   [.name]]

theorem candidates_mem (token : String) : candidates token ∈ candidateSets := by
  by_cases h : token ∈ keywords
  · have hall : ∀ word ∈ keywords, candidates word ∈ candidateSets := by decide +kernel
    exact hall token h
  · rw [candidates_of_not_mem h]
    split
    · decide
    · split
      · decide
      · split <;> decide

theorem exists_candidates_iff {slots : List Slot} : (∃ token, candidates token = slots) ↔ slots ∈ candidateSets := by
  constructor
  · rintro ⟨token, rfl⟩
    exact candidates_mem token
  · intro h
    have hall : ∀ slots ∈ candidateSets,
        slots ∈ ["1s", "inherit", "ease", "2", "infinite", "normal", "none", "both", "paused", "fade"].map candidates := by
      decide +kernel
    obtain ⟨token, -, ht⟩ := List.mem_map.1 (hall slots h)
    exact ⟨token, ht⟩

/-- **Every value is of one lexical class**, which with the name decides the slots that it fits. They are one of ten sets,
and none is empty; the times are the values that fit the duration and the delay and nothing else; and of the slots but
the name, one for each class, no value fits two. -/
theorem candidates_classified :
    (∀ slots, (∃ token, candidates token = slots) ↔ slots ∈ candidateSets) ∧
      (∀ token, ∃ slot, Slot.accepts slot token) ∧
      (∀ token, isTime token ↔ candidates token = [.duration, .delay]) ∧
      [Slot.duration, .timingFunction, .iterationCount, .direction, .fillMode, .playState].Pairwise fun slot slot' =>
        ∀ token, ¬ (slot.accepts token ∧ slot'.accepts token) := by
  refine ⟨fun _ => exists_candidates_iff, fun token => ?_, fun token => ?_, ?_⟩
  · have hne : [] ∉ candidateSets := by decide
    obtain ⟨slot, hs⟩ := List.exists_mem_of_ne_nil (candidates token) fun he => hne (he ▸ candidates_mem token)
    exact ⟨slot, mem_candidates.1 hs⟩
  · have hall : ∀ slots ∈ candidateSets, .duration ∈ slots → slots = [.duration, .delay] := by decide
    constructor
    · intro h
      exact hall _ (candidates_mem token) (mem_candidates.2 h)
    · intro h
      exact mem_candidates.1 (h ▸ List.mem_cons_self : Slot.duration ∈ candidates token)
  · have hall : ∀ slots ∈ candidateSets,
        [Slot.duration, .timingFunction, .iterationCount, .direction, .fillMode, .playState].Pairwise
          fun slot slot' => ¬ (slot ∈ slots ∧ slot' ∈ slots) := by decide
    refine List.pairwise_iff_forall_sublist.2 fun hsub token h => ?_
    have hslots := List.pairwise_iff_forall_sublist.1 (hall _ (candidates_mem token)) hsub
    exact hslots ⟨mem_candidates.2 h.1, mem_candidates.2 h.2⟩

end StyleScope.Animation
