/-
JSON, written and read. Values are written compactly: fields keep the order in which they are given, and only
what must be escaped is, the quote, the backslash and the control characters below the space. A text is read
as tokens, and a value of any shape and depth can be passed over unread.
-/
import StyleScope.Text

namespace StyleScope

/-- The JSON values that sheets and options are written as. -/
inductive Json where
  | str (text : String)
  | arr (items : List Json)
  | obj (fields : List (String × Json))
deriving Repr

namespace Json

/-! ## Writing -/

/-- A character as it stands in a JSON string. -/
def escape (c : Char) : List Char :=
  if c = '"' then ['\\', '"']
  else if c = '\\' then ['\\', '\\']
  else if c = '\x08' then ['\\', 'b']
  else if c = '\t' then ['\\', 't']
  else if c = '\n' then ['\\', 'n']
  else if c = '\x0c' then ['\\', 'f']
  else if c = '\r' then ['\\', 'r']
  else if c.toNat < 0x20 then
    ['\\', 'u', '0', '0', Nat.digitChar (c.toNat / 16), Nat.digitChar (c.toNat % 16)]
  else [c]

/-- A text as a JSON string. -/
def quote (text : String) : String := "\"" ++ String.ofList (text.toList.flatMap escape) ++ "\""

mutual

/-- The compact text of a value. -/
def render : Json → String
  | .str text => quote text
  | .arr items => "[" ++ ",".intercalate (renderItems items) ++ "]"
  | .obj fields => "\x7b" ++ ",".intercalate (renderFields fields) ++ "\x7d"

/-- The texts of the items of an array. -/
def renderItems : List Json → List String
  | [] => []
  | item :: items => item.render :: renderItems items

/-- The texts of the fields of an object. -/
def renderFields : List (String × Json) → List String
  | [] => []
  | (key, value) :: fields => (quote key ++ ":" ++ value.render) :: renderFields fields

end

theorem renderItems_eq_map (items : List Json) : renderItems items = items.map render := by
  induction items with
  | nil => rfl
  | cons item items ih => simp [renderItems, ih]

/-! ## Reading strings

A string is kept as its units: characters, and the code units that escapes give by number. Whether those are
a text is asked only where the text is needed (`text?`), since half of a surrogate pair is harmless in a
string that nobody reads. -/

/-- A unit of a JSON string. -/
inductive StringUnit where
  /-- A character that stands for itself, or a letter escape. -/
  | char (c : Char)
  /-- A code unit given by four hexadecimal digits. -/
  | code (n : Nat)
deriving Repr, DecidableEq

/-- The value of a hexadecimal digit, in either case. -/
def hexDigit? (c : Char) : Option Nat :=
  if c.isDigit then some (c.toNat - '0'.toNat)
  else if 'a' ≤ c ∧ c ≤ 'f' then some (c.toNat - 'a'.toNat + 10)
  else if 'A' ≤ c ∧ c ≤ 'F' then some (c.toNat - 'A'.toNat + 10)
  else none

/-- The number that four hexadecimal digits write. -/
def hexNumber? (a b c d : Char) : Option Nat := do
  return (((← hexDigit? a) * 16 + (← hexDigit? b)) * 16 + (← hexDigit? c)) * 16 + (← hexDigit? d)

/-- The character that a letter stands for after a backslash. -/
def letterEscape? : Char → Option Char
  | '"' => some '"'
  | '\\' => some '\\'
  | '/' => some '/'
  | 'b' => some '\x08'
  | 'f' => some '\x0c'
  | 'n' => some '\n'
  | 'r' => some '\r'
  | 't' => some '\t'
  | _ => none

/-- The unit that an escape gives, from what follows its backslash. -/
def escaped? : List Char → Option (StringUnit × List Char)
  | 'u' :: a :: b :: c :: d :: rest => (hexNumber? a b c d).map fun n => (.code n, rest)
  | c :: rest => (letterEscape? c).map fun c => (.char c, rest)
  | [] => none

theorem escaped?_length_lt {cs rest : List Char} {u : StringUnit} (h : escaped? cs = some (u, rest)) :
    rest.length < cs.length := by
  unfold escaped? at h
  split at h
  · obtain ⟨n, _, he⟩ := Option.map_eq_some_iff.1 h
    cases he
    simp only [List.length_cons]
    omega
  · obtain ⟨c, _, he⟩ := Option.map_eq_some_iff.1 h
    cases he
    exact Nat.lt_succ_self _
  · cases h

/-- The units of a string whose opening quote has been read, and what remains after its closing quote. A
control character must be escaped. -/
def stringUnits? : List Char → Option (List StringUnit × List Char)
  | [] => none
  | c :: cs =>
    if c = '"' then some ([], cs)
    else if c = '\\' then
      match _h : escaped? cs with
      | none => none
      | some (first, rest) => (stringUnits? rest).map fun (units, rest) => (first :: units, rest)
    else if c.toNat < 0x20 then none
    else (stringUnits? cs).map fun (units, rest) => (.char c :: units, rest)
termination_by cs => cs.length
decreasing_by
  · exact Nat.lt_succ_of_lt (escaped?_length_lt _h)
  · exact Nat.lt_succ_self _

/-- The first code unit of a surrogate pair. -/
def isHighSurrogate (n : Nat) : Bool := 0xD800 ≤ n && n < 0xDC00

/-- The second code unit of a surrogate pair. -/
def isLowSurrogate (n : Nat) : Bool := 0xDC00 ≤ n && n < 0xE000

/-- The characters that units write; there are none if a surrogate stands alone. -/
def text? : List StringUnit → Option (List Char)
  | [] => some []
  | .char c :: units => (text? units).map (c :: ·)
  | .code n :: units =>
    if isHighSurrogate n then
      match units with
      | .code m :: units =>
        if isLowSurrogate m then
          (text? units).map (Char.ofNat (0x10000 + (n - 0xD800) * 0x400 + (m - 0xDC00)) :: ·)
        else none
      | _ => none
    else if isLowSurrogate n then none
    else (text? units).map (Char.ofNat n :: ·)

/-! ## Reading numbers -/

/-- What remains after a run of digits, of which there must be one. -/
def afterDigits? : List Char → Option (List Char)
  | [] => none
  | c :: cs => if c.isDigit then some (cs.dropWhile Char.isDigit) else none

/-- What remains after the digits before the point: a zero stands alone. -/
def afterWhole? : List Char → Option (List Char)
  | '0' :: c :: cs => if c.isDigit then none else some (c :: cs)
  | '0' :: [] => some []
  | cs => afterDigits? cs

/-- What remains after a point with digits, if there is a point. -/
def afterFraction? : List Char → Option (List Char)
  | '.' :: cs => afterDigits? cs
  | cs => some cs

/-- What remains after an exponent, if there is one. -/
def afterExponent? : List Char → Option (List Char)
  | [] => some []
  | c :: cs =>
    if c = 'e' ∨ c = 'E' then
      match cs with
      | '+' :: cs => afterDigits? cs
      | '-' :: cs => afterDigits? cs
      | cs => afterDigits? cs
    else some (c :: cs)

/-- What remains after a number without its sign. -/
def afterUnsigned? (cs : List Char) : Option (List Char) := do
  afterExponent? (← afterFraction? (← afterWhole? cs))

/-- What remains after a number. -/
def afterNumber? : List Char → Option (List Char)
  | '-' :: cs => afterUnsigned? cs
  | cs => afterUnsigned? cs

/-! ## Tokens -/

/-- The two kinds of brackets. -/
inductive Bracket where
  | array
  | object
deriving Repr, DecidableEq

/-- A token of a JSON text. -/
inductive Token where
  | opening (bracket : Bracket)
  | closing (bracket : Bracket)
  | comma
  | colon
  | string (units : List StringUnit)
  /-- A number, a truth value or null. -/
  | scalar
deriving Repr, DecidableEq

/-- A character that may stand between tokens. -/
def isBlank (c : Char) : Bool := c == ' ' || c == '\n' || c == '\t' || c == '\r'

/-- What remains after one of the three words. -/
def afterWord? (cs : List Char) : Option (List Char) :=
  ["true", "false", "null"].findSome? (Text.afterLiteral? · cs)

/-- The token that begins with a character, and what remains after it. -/
def token? (c : Char) (cs : List Char) : Option (Token × List Char) :=
  match c with
  | '[' => some (.opening .array, cs)
  | ']' => some (.closing .array, cs)
  | '\x7b' => some (.opening .object, cs)
  | '\x7d' => some (.closing .object, cs)
  | ',' => some (.comma, cs)
  | ':' => some (.colon, cs)
  | '"' => (stringUnits? cs).map fun (units, rest) => (.string units, rest)
  | _ => ((afterWord? (c :: cs)).or (afterNumber? (c :: cs))).map fun rest => (.scalar, rest)

/-! ## Every token takes a character -/

theorem stringUnits?_length_lt {cs rest : List Char} {units : List StringUnit}
    (h : stringUnits? cs = some (units, rest)) : rest.length < cs.length := by
  fun_induction stringUnits? cs generalizing units with
  | case1 => cases h
  | case2 => cases h; exact Nat.lt_succ_self _
  | case3 => cases h
  | case4 cs first after he _ ih =>
    obtain ⟨⟨more, r⟩, hm, hr⟩ := Option.map_eq_some_iff.1 h
    cases hr
    have := ih hm
    have := escaped?_length_lt he
    simp only [List.length_cons]
    omega
  | case5 => cases h
  | case6 c cs _ _ _ ih =>
    obtain ⟨⟨more, r⟩, hm, hr⟩ := Option.map_eq_some_iff.1 h
    cases hr
    exact Nat.lt_succ_of_lt (ih hm)

theorem afterDigits?_length_lt {cs rest : List Char} (h : afterDigits? cs = some rest) :
    rest.length < cs.length := by
  unfold afterDigits? at h
  split at h
  · cases h
  · split at h
    · cases h
      exact Nat.lt_succ_of_le (List.dropWhile_suffix _).length_le
    · cases h

theorem afterWhole?_length_lt {cs rest : List Char} (h : afterWhole? cs = some rest) :
    rest.length < cs.length := by
  unfold afterWhole? at h
  split at h
  · split at h
    · cases h
    · cases h; exact Nat.lt_succ_self _
  · cases h; exact Nat.lt_succ_self _
  · exact afterDigits?_length_lt h

theorem afterFraction?_length_le {cs rest : List Char} (h : afterFraction? cs = some rest) :
    rest.length ≤ cs.length := by
  unfold afterFraction? at h
  split at h
  · exact Nat.le_succ_of_le (Nat.le_of_lt (afterDigits?_length_lt h))
  · cases h; exact Nat.le_refl _

theorem afterExponent?_length_le {cs rest : List Char} (h : afterExponent? cs = some rest) :
    rest.length ≤ cs.length := by
  unfold afterExponent? at h
  split at h
  · cases h; exact Nat.le_refl _
  · split at h
    · split at h <;> have := afterDigits?_length_lt h <;> simp only [List.length_cons] at * <;> omega
    · cases h; exact Nat.le_refl _

theorem afterUnsigned?_length_lt {cs rest : List Char} (h : afterUnsigned? cs = some rest) :
    rest.length < cs.length := by
  simp only [afterUnsigned?, bind, Option.bind_eq_some_iff] at h
  obtain ⟨a, ha, b, hb, hr⟩ := h
  have := afterWhole?_length_lt ha
  have := afterFraction?_length_le hb
  have := afterExponent?_length_le hr
  omega

theorem afterNumber?_length_lt {cs rest : List Char} (h : afterNumber? cs = some rest) :
    rest.length < cs.length := by
  unfold afterNumber? at h
  split at h
  · exact Nat.lt_succ_of_lt (afterUnsigned?_length_lt h)
  · exact afterUnsigned?_length_lt h

theorem afterWord?_length_lt {cs rest : List Char} (h : afterWord? cs = some rest) :
    rest.length < cs.length := by
  obtain ⟨word, hw, hr⟩ := List.exists_of_findSome?_eq_some h
  have hpos : 0 < word.toList.length := by
    simp only [List.mem_cons, List.not_mem_nil, or_false] at hw
    rcases hw with rfl | rfl | rfl <;> decide
  rw [Text.afterLiteral?_eq_some_iff.1 hr, List.length_append]
  omega

theorem token?_length_le {c : Char} {cs rest : List Char} {t : Token}
    (h : token? c cs = some (t, rest)) : rest.length ≤ cs.length := by
  unfold token? at h
  split at h
  all_goals try (cases h; exact Nat.le_refl _)
  · obtain ⟨⟨units, r⟩, hu, hr⟩ := Option.map_eq_some_iff.1 h
    cases hr
    exact Nat.le_of_lt (stringUnits?_length_lt hu)
  · obtain ⟨r, ho, hr⟩ := Option.map_eq_some_iff.1 h
    cases hr
    rcases Option.or_eq_some_iff.1 ho with hw | ⟨_, hn⟩
    · exact Nat.le_of_lt_succ (afterWord?_length_lt hw)
    · exact Nat.le_of_lt_succ (afterNumber?_length_lt hn)

/-- The tokens of a text. -/
def tokens? : List Char → Option (List Token)
  | [] => some []
  | c :: cs =>
    if isBlank c then tokens? cs
    else
      match _h : token? c cs with
      | none => none
      | some (first, rest) => (tokens? rest).map (first :: ·)
termination_by cs => cs.length
decreasing_by
  · exact Nat.lt_succ_self _
  · exact Nat.lt_succ_of_le (token?_length_le _h)

/-! ## Passing over a value

The brackets that are open wait on a stack, so the tokens are read in one pass from left to right. -/

mutual

/-- What remains after a value that is due now, inside the open brackets, and after their ends. -/
def afterValue? : List Bracket → List Token → Option (List Token)
  | outer, .scalar :: ts => afterItem? outer ts
  | outer, .string _ :: ts => afterItem? outer ts
  | outer, .opening .array :: .closing .array :: ts => afterItem? outer ts
  | outer, .opening .array :: ts => afterValue? (.array :: outer) ts
  | outer, .opening .object :: .closing .object :: ts => afterItem? outer ts
  | outer, .opening .object :: .string _ :: .colon :: ts => afterValue? (.object :: outer) ts
  | _, _ => none

/-- What remains after the ends of the open brackets, once a value inside them has been read. -/
def afterItem? : List Bracket → List Token → Option (List Token)
  | [], ts => some ts
  | .array :: outer, .closing .array :: ts => afterItem? outer ts
  | .array :: outer, .comma :: ts => afterValue? (.array :: outer) ts
  | .object :: outer, .closing .object :: ts => afterItem? outer ts
  | .object :: outer, .comma :: .string _ :: .colon :: ts => afterValue? (.object :: outer) ts
  | _, _ => none

end

theorem length_after :
    (∀ (outer : List Bracket) (ts rest : List Token),
      afterValue? outer ts = some rest → rest.length < ts.length) ∧
    (∀ (outer : List Bracket) (ts rest : List Token),
      afterItem? outer ts = some rest → rest.length ≤ ts.length) := by
  apply afterValue?.mutual_induct
  all_goals
    intros
    simp_all only [afterValue?, afterItem?, List.length_cons]
    grind

/-- A value is at least one token. -/
theorem afterValue?_length_lt {outer : List Bracket} {ts rest : List Token}
    (h : afterValue? outer ts = some rest) : rest.length < ts.length :=
  length_after.1 outer ts rest h

end Json

end StyleScope
