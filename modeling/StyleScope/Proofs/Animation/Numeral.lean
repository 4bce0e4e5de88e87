/-
The numerals, and the identifiers that look like them. A numeral is a sign, a mantissa and an exponent (`Numeral`), and
the reader of numerals leaves over a text exactly when a numeral stands before it (`afterNumeral?_eq_some_iff`). As
digits may be of any script and as a character beyond ASCII may begin an identifier, an identifier can be a numeral with
or without a unit. Such an identifier is a number or a time and names nothing; every other names keyframes, unless it is
one of the reserved words (`candidates_identifier`).
-/
import Mathlib.Data.List.TakeWhile
import StyleScope.Proofs.Animation.Class
import StyleScope.Proofs.Text.Ascii
import StyleScope.Proofs.Text.Identifier

namespace StyleScope.Animation

open Text

/-! ## The grammar -/

/-- One digit or more. -/
def Digits (cs : List Char) : Prop := cs ≠ [] ∧ ∀ c ∈ cs, isDecimalDigit c

/-- A sign, or none. -/
def signs : List (List Char) := [[], ['+'], ['-']]

/-- Digits with a point before them, among them or after them, or with none. -/
inductive Mantissa : List Char → Prop
  | whole {ds : List Char} : Digits ds → Mantissa ds
  | point {ds es : List Char} : Digits ds → (∀ c ∈ es, isDecimalDigit c) → Mantissa (ds ++ '.' :: es)
  | fraction {ds : List Char} : Digits ds → Mantissa ('.' :: ds)

/-- An exponent, or none. -/
inductive OptionalExponent : List Char → Prop
  | none : OptionalExponent []
  | some {e : Char} {sign ds : List Char} :
    e = 'e' ∨ e = 'E' → sign ∈ signs → Digits ds → OptionalExponent (e :: (sign ++ ds))

/-- A number as it is written. -/
inductive Numeral : List Char → Prop
  | mk {sign mantissa exponent : List Char} :
    sign ∈ signs → Mantissa mantissa → OptionalExponent exponent → Numeral (sign ++ (mantissa ++ exponent))

/-- The text is a numeral with a unit of time or without one. -/
def Numeric (token : String) : Prop :=
  ∃ numeral, ∃ unit ∈ ["", "s", "ms"], Numeral numeral ∧ token.toList = numeral ++ unit.toList

/-! ## Reading numerals -/

variable {cs rest : List Char}

/-- Digits are skipped up to what begins with none. -/
theorem dropDigits_append {ds : List Char} (hd : ∀ c ∈ ds, isDecimalDigit c)
    (hr : ∀ c ∈ rest.head?, isDecimalDigit c = false) : (ds ++ rest).dropWhile isDecimalDigit = rest := by
  rw [List.dropWhile_append_of_pos hd]
  cases rest with
  | nil => rfl
  | cons c rest => exact List.dropWhile_cons_of_neg (by simp [hr c rfl])

theorem afterDigits?_append {ds : List Char} (hd : Digits ds) (hr : ∀ c ∈ rest.head?, isDecimalDigit c = false) :
    afterDigits? (ds ++ rest) = some rest := by
  obtain ⟨hne, hd⟩ := hd
  obtain ⟨c, ds, rfl⟩ := List.exists_cons_of_ne_nil hne
  rw [List.cons_append, afterDigits?, if_pos (hd c List.mem_cons_self),
    dropDigits_append (fun e he => hd e (List.mem_cons_of_mem c he)) hr]

theorem exists_digits (h : afterDigits? cs = some rest) : ∃ ds, Digits ds ∧ cs = ds ++ rest := by
  cases cs with
  | nil => cases h
  | cons c cs =>
    rw [afterDigits?] at h
    split at h
    · next hc =>
      cases h
      refine ⟨c :: cs.takeWhile isDecimalDigit, ⟨List.cons_ne_nil _ _, fun d hd => ?_⟩, ?_⟩
      · rcases List.mem_cons.1 hd with rfl | hd
        · exact hc
        · exact List.mem_takeWhile_imp hd
      · rw [List.cons_append, List.takeWhile_append_dropWhile]
    · cases h

theorem afterMantissa?_append {mantissa : List Char} (hm : Mantissa mantissa)
    (hr : ∀ c ∈ rest.head?, isDecimalDigit c = false ∧ c ≠ '.') : afterMantissa? (mantissa ++ rest) = some rest := by
  have hdigit : ∀ c ∈ rest.head?, isDecimalDigit c = false := fun c hc => (hr c hc).1
  have hpoint : isDecimalDigit '.' = false := by decide +kernel
  cases hm with
  | whole hd =>
    rw [afterMantissa?_of_some (afterDigits?_append hd hdigit), if_neg fun hc : rest.head? = some '.' => (hr '.' hc).2 rfl]
  | @point ds es hd he =>
    have hafter : afterDigits? (ds ++ '.' :: (es ++ rest)) = some ('.' :: (es ++ rest)) :=
      afterDigits?_append hd (by simpa using hpoint)
    rw [List.append_assoc, List.cons_append, afterMantissa?_of_some hafter, List.head?_cons, if_pos rfl, List.tail_cons,
      dropDigits_append he hdigit]
  | @fraction ds hd =>
    have hnone : afterDigits? ('.' :: (ds ++ rest)) = none := by rw [afterDigits?, hpoint]; rfl
    rw [List.cons_append, afterMantissa?_of_none hnone, List.head?_cons, if_pos rfl, List.tail_cons,
      afterDigits?_append hd hdigit]

theorem exists_mantissa (h : afterMantissa? cs = some rest) : ∃ mantissa, Mantissa mantissa ∧ cs = mantissa ++ rest := by
  cases hd : afterDigits? cs with
  | some after =>
    obtain ⟨ds, hds, rfl⟩ := exists_digits hd
    rw [afterMantissa?_of_some hd, Option.some.injEq] at h
    split at h
    · next hpoint =>
      obtain ⟨es, rfl⟩ := List.head?_eq_some_iff.1 hpoint
      refine ⟨ds ++ '.' :: es.takeWhile isDecimalDigit, .point hds fun c hc => List.mem_takeWhile_imp hc, ?_⟩
      rw [← h, List.append_assoc, List.cons_append, List.tail_cons, List.takeWhile_append_dropWhile]
    · exact ⟨ds, .whole hds, by rw [h]⟩
  | none =>
    rw [afterMantissa?_of_none hd] at h
    split at h
    · next hpoint =>
      obtain ⟨es, rfl⟩ := List.head?_eq_some_iff.1 hpoint
      obtain ⟨ds, hds, he⟩ := exists_digits h
      exact ⟨'.' :: ds, .fraction hds, by rw [List.cons_append, ← he, List.tail_cons]⟩
    · cases h

theorem afterSign_append {sign : List Char} (hs : sign ∈ signs) (hr : ∀ c ∈ rest.head?, ¬ (c = '+' ∨ c = '-')) :
    afterSign (sign ++ rest) = rest := by
  simp only [signs, List.mem_cons, List.not_mem_nil, or_false] at hs
  rcases hs with rfl | rfl | rfl
  · cases rest with
    | nil => rfl
    | cons c rest => rw [List.nil_append, afterSign_cons, if_neg (hr c rfl)]
  · rfl
  · rfl

theorem exists_sign (cs : List Char) : ∃ sign ∈ signs, cs = sign ++ afterSign cs := by
  cases cs with
  | nil => exact ⟨[], by decide, rfl⟩
  | cons c cs =>
    rw [afterSign_cons]
    split
    · next hc =>
      rcases hc with rfl | rfl
      · exact ⟨['+'], by decide, rfl⟩
      · exact ⟨['-'], by decide, rfl⟩
    · exact ⟨[], by decide, rfl⟩

theorem Digits.head? {ds : List Char} (hd : Digits ds) (rest : List Char) :
    ∀ c ∈ (ds ++ rest).head?, isDecimalDigit c := by
  obtain ⟨hne, hd⟩ := hd
  obtain ⟨c, ds, rfl⟩ := List.exists_cons_of_ne_nil hne
  rintro _ ⟨⟩
  exact hd c List.mem_cons_self

theorem not_sign_of_digit {c : Char} (h : isDecimalDigit c) : ¬ (c = '+' ∨ c = '-') := by
  rintro (rfl | rfl) <;> exact absurd h (by decide +kernel)

theorem afterExponent_append {exponent : List Char} (hx : OptionalExponent exponent)
    (hr : ∀ c ∈ rest.head?, isDecimalDigit c = false ∧ ¬ (c = 'e' ∨ c = 'E')) :
    afterExponent (exponent ++ rest) = rest := by
  cases hx with
  | none =>
    cases rest with
    | nil => rfl
    | cons c rest => rw [List.nil_append, afterExponent, if_neg (hr c rfl).2]
  | @some e sign ds he hs hd =>
    rw [List.cons_append, List.append_assoc, afterExponent, if_pos he,
      afterSign_append hs fun c hc => not_sign_of_digit (hd.head? rest c hc),
      afterDigits?_append hd fun c hc => (hr c hc).1]
    rfl

theorem exists_exponent (cs : List Char) : ∃ exponent, OptionalExponent exponent ∧ cs = exponent ++ afterExponent cs := by
  cases cs with
  | nil => exact ⟨[], .none, rfl⟩
  | cons e cs =>
    rw [afterExponent]
    split
    · next he =>
      cases hd : afterDigits? (afterSign cs) with
      | none => exact ⟨[], .none, rfl⟩
      | some rest =>
        obtain ⟨sign, hs, hsign⟩ := exists_sign cs
        obtain ⟨ds, hds, hdigits⟩ := exists_digits hd
        refine ⟨e :: (sign ++ ds), .some he hs hds, ?_⟩
        rw [Option.getD_some, List.cons_append, List.append_assoc, ← hdigits, ← hsign]
    · exact ⟨[], .none, rfl⟩

/-- A numeral may go on with the character. -/
def continuesNumeral (c : Char) : Bool := isDecimalDigit c || c == '.' || c == 'e' || c == 'E'

theorem continuesNumeral_eq_false {c : Char} (h : continuesNumeral c = false) :
    isDecimalDigit c = false ∧ c ≠ '.' ∧ ¬ (c = 'e' ∨ c = 'E') := by
  simp only [continuesNumeral, Bool.or_eq_false_iff, beq_eq_false_iff_ne] at h
  obtain ⟨⟨⟨hd, hp⟩, he⟩, hE⟩ := h
  exact ⟨hd, hp, not_or.2 ⟨he, hE⟩⟩

theorem Mantissa.exists_first {mantissa : List Char} (h : Mantissa mantissa) :
    ∃ c rest, mantissa = c :: rest ∧ (isDecimalDigit c ∨ c = '.') := by
  cases h with
  | whole hd =>
    obtain ⟨c, rest, rfl⟩ := List.exists_cons_of_ne_nil hd.1
    exact ⟨c, rest, rfl, .inl (hd.2 c List.mem_cons_self)⟩
  | point hd _ =>
    obtain ⟨c, rest, rfl⟩ := List.exists_cons_of_ne_nil hd.1
    exact ⟨c, _, rfl, .inl (hd.2 c List.mem_cons_self)⟩
  | fraction => exact ⟨'.', _, rfl, .inr rfl⟩

theorem afterNumeral?_append {numeral : List Char} (h : Numeral numeral)
    (hr : ∀ c ∈ rest.head?, continuesNumeral c = false) : afterNumeral? (numeral ++ rest) = some rest := by
  obtain ⟨hs, hm, hx⟩ := h
  rename_i sign mantissa exponent
  have hend : ∀ c ∈ (exponent ++ rest).head?, isDecimalDigit c = false ∧ c ≠ '.' := by
    cases hx with
    | none => exact fun c hc => ⟨(continuesNumeral_eq_false (hr c hc)).1, (continuesNumeral_eq_false (hr c hc)).2.1⟩
    | some he =>
      rintro _ ⟨⟩
      rcases he with rfl | rfl <;> decide +kernel
  have hfirst : ∀ c ∈ (mantissa ++ (exponent ++ rest)).head?, ¬ (c = '+' ∨ c = '-') := by
    obtain ⟨c, tail, hfirst, hc⟩ := hm.exists_first
    rw [hfirst, List.cons_append]
    rintro _ ⟨⟩
    rcases hc with hd | rfl
    · exact not_sign_of_digit hd
    · decide
  rw [List.append_assoc, List.append_assoc, afterNumeral?, afterSign_append hs hfirst, afterMantissa?_append hm hend,
    Option.map_some, afterExponent_append hx fun c hc => ⟨(continuesNumeral_eq_false (hr c hc)).1,
      (continuesNumeral_eq_false (hr c hc)).2.2⟩]

theorem exists_numeral (h : afterNumeral? cs = some rest) : ∃ numeral, Numeral numeral ∧ cs = numeral ++ rest := by
  obtain ⟨sign, hs, hsign⟩ := exists_sign cs
  obtain ⟨after, hafter, rfl⟩ := Option.map_eq_some_iff.1 h
  obtain ⟨mantissa, hm, hmantissa⟩ := exists_mantissa hafter
  obtain ⟨exponent, hx, hexponent⟩ := exists_exponent after
  refine ⟨sign ++ (mantissa ++ exponent), .mk hs hm hx, ?_⟩
  rw [List.append_assoc, List.append_assoc, ← hexponent, ← hmantissa, ← hsign]

/-- **The reader of numerals leaves over a text that cannot continue one exactly when a numeral stands before it.** -/
theorem afterNumeral?_eq_some_iff (hr : ∀ c ∈ rest.head?, continuesNumeral c = false) :
    afterNumeral? cs = some rest ↔ ∃ numeral, Numeral numeral ∧ cs = numeral ++ rest := by
  constructor
  · exact exists_numeral
  · rintro ⟨numeral, hn, rfl⟩
    exact afterNumeral?_append hn hr

/-- A letter `e` that no digits follow is not part of the numeral. -/
example : afterNumeral? "1.5e+3ms".toList = some "ms".toList ∧ afterNumeral? "1em".toList = some "em".toList := by
  decide +kernel

variable {token : String}

/-- A number or a time is a numeral, or a calculation. -/
theorem isNumber_or_isTime_iff : isNumber token ∨ isTime token ↔ Numeric token ∨ isCall "calc" token := by
  have hunit {unit : List Char} (hu : ∀ c ∈ unit.head?, continuesNumeral c = false) :
      afterNumeral? token.toList == some unit ↔ ∃ numeral, Numeral numeral ∧ token.toList = numeral ++ unit := by
    rw [beq_iff_eq, afterNumeral?_eq_some_iff hu]
  rw [isNumber, isTime, Bool.or_eq_true, Bool.or_eq_true, hunit (by decide), hunit (by decide +kernel),
    hunit (by decide +kernel), Numeric]
  constructor
  · rintro (⟨n, hn, ht⟩ | (hc | ⟨n, hn, ht⟩) | ⟨n, hn, ht⟩)
    · exact .inl ⟨n, "", by decide, hn, ht⟩
    · exact .inr hc
    · exact .inl ⟨n, "s", by decide, hn, ht⟩
    · exact .inl ⟨n, "ms", by decide, hn, ht⟩
  · rintro (⟨n, unit, hu, hn, ht⟩ | hc)
    · simp only [List.mem_cons, List.not_mem_nil, or_false] at hu
      rcases hu with rfl | rfl | rfl
      · exact .inl ⟨n, hn, ht⟩
      · exact .inr (.inl (.inr ⟨n, hn, ht⟩))
      · exact .inr (.inr ⟨n, hn, ht⟩)
    · exact .inr (.inl (.inl hc))

/-! ## Identifiers -/

/-- A digit begins an identifier only if it is none of the ten of ASCII. -/
theorem le_toNat_of_isNameStart {c : Char} (h : isNameStart c) (hd : isDecimalDigit c) : 0x80 ≤ c.toNat := by
  have hzeros : ∀ z ∈ decimalZeros, z = 0x30 ∨ 0x80 ≤ z := by decide
  obtain ⟨z, hz, hc⟩ := List.any_eq_true.1 hd
  rw [Bool.and_eq_true, decide_eq_true_eq, decide_eq_true_eq] at hc
  rcases hzeros z hz with rfl | hz
  · have hascii : ∀ n < 0x3A, 0x30 ≤ n → isNameStart (Char.ofNat n) = false := by decide
    have hno := hascii c.toNat hc.2 hc.1
    rw [Char.ofNat_toNat, h] at hno
    cases hno
  · omega

theorem isNameStart_of_beginsName {c : Char} (h : beginsName (c :: cs)) (hc : c ≠ '-') : isNameStart c := by
  unfold beginsName at h
  split at h
  · next he => cases he
  · next he => exact absurd (List.cons.inj he).1 hc
  · next he =>
    obtain ⟨rfl, -⟩ := List.cons.inj he
    exact h

/-- An identifier that is numeric begins, behind its hyphen, with a digit beyond ASCII. -/
theorem exists_digit_of_numeric (h : Identifier token) (hn : Numeric token) :
    ∃ c ∈ (afterSign token.toList).head?, isDecimalDigit c ∧ 0x80 ≤ c.toNat := by
  obtain ⟨_, unit, -, ⟨hs, hm, -⟩, ht⟩ := hn
  rename_i sign mantissa exponent
  have hinside {c : Char} (hc : c ∈ token.toList) (hno : isNameChar c = false) : False := by
    rw [h.inside c hc] at hno
    cases hno
  -- no point stands in an identifier, so the mantissa begins with a digit
  obtain ⟨c, rest, hfirst, hd⟩ := hm.exists_first
  rw [hfirst, List.append_assoc, List.append_assoc, List.cons_append] at ht
  have hc : c ∈ token.toList := by simp [ht]
  have hd : isDecimalDigit c := hd.resolve_right fun hp => hinside hc (by rw [hp]; decide)
  have hafter : afterSign token.toList = c :: (rest ++ (exponent ++ unit.toList)) := by
    rw [ht, afterSign_append hs]
    rintro _ ⟨⟩
    exact not_sign_of_digit hd
  refine ⟨c, by rw [hafter]; rfl, hd, le_toNat_of_isNameStart ?_ hd⟩
  have hstart := h.start
  rw [ht] at hstart
  simp only [signs, List.mem_cons, List.not_mem_nil, or_false] at hs
  have hhyphen : c ≠ '-' := fun hc => not_sign_of_digit hd (.inr hc)
  rcases hs with rfl | rfl | rfl
  · exact isNameStart_of_beginsName hstart hhyphen
  · exact (hinside (by simp [ht]) (by decide : isNameChar '+' = false)).elim
  · change (c == '-' || isNameStart c) = true at hstart
    rwa [beq_eq_false_iff_ne.2 hhyphen, Bool.false_or] at hstart

theorem isCall_of_identifier (h : Identifier token) (function : String) : isCall function token = false := by
  refine Bool.eq_false_iff.2 fun hc => ?_
  have hmem : '(' ∈ token.toList := (startsWith_of_isCall hc).mem (by simp)
  exact absurd (h.inside _ hmem) (by decide)

/-- **An identifier names keyframes unless it is a reserved word or a numeral.** A numeral with or without a unit of time
is taken for a number or a time, and it can be an identifier: its first digit is then one beyond ASCII. So any other
identifier is a name, in particular any that holds ASCII characters alone. -/
theorem candidates_identifier (h : Identifier token) (hreserved : token ∉ reservedKeywords) :
    (.name ∈ candidates token ↔ ¬ Numeric token) ∧
      (isNumber token ∨ isTime token ↔ Numeric token) ∧
      (Numeric token → ∃ c ∈ (afterSign token.toList).head?, isDecimalDigit c ∧ 0x80 ≤ c.toNat) := by
  have hnumeric : isNumber token ∨ isTime token ↔ Numeric token := by
    rw [isNumber_or_isTime_iff, isCall_of_identifier h]
    simp
  refine ⟨?_, hnumeric, exists_digit_of_numeric h⟩
  rw [mem_candidates, Slot.accepts, isKeyframesName, isTimingCall, isCall_of_identifier h, isCall_of_identifier h,
    ← hnumeric]
  simp [hreserved]

/-- A digit of another script begins an identifier, which an `s` behind it makes a time; a letter begins no numeral. -/
theorem candidates_identifier_seconds :
    Identifier "٣s" ∧ "٣s" ∉ reservedKeywords ∧ Numeric "٣s" ∧ isTime "٣s" ∧ .name ∉ candidates "٣s" ∧
      .name ∈ candidates "e3s" := by
  have h : Identifier "٣s" := by decide +kernel
  have hreserved : "٣s" ∉ reservedKeywords := by decide
  obtain ⟨hname, hnumeric, -⟩ := candidates_identifier h hreserved
  have htime : isTime "٣s" := by decide +kernel
  have hn := hnumeric.1 (.inr htime)
  exact ⟨h, hreserved, hn, htime, fun hm => hname.1 hm hn, by decide +kernel⟩

end StyleScope.Animation
