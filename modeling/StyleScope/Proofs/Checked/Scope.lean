/-
Scoping, with its checks. Only renaming takes slices: of a name in quotes, what stands between them, and of a list of
names, its items. Scoping a text, reading an animation value, renaming a name and finding a block therefore never
panic, whatever they are given (`never_panics`).
-/
import StyleScope.Proofs.Checked.Sheet
import StyleScope.Proofs.Scope.Name
import StyleScope.Scope.Basic

namespace StyleScope.Checked

open Byte Text

/-! ## Names -/

/-- A name of keyframes under a scope. -/
def rename (scope name : String) : Run String :=
  match (encode name).head?, (encode name).getLast? with
  | some first, some last =>
    if 2 ≤ (encode name).length ∧ isQuote first ∧ first = last then do
      let stop ← oneLess (encode name).length
      let content ← slice (encode name) 1 stop
      return (toChar first).toString ++ content ++ " " ++ scope ++ (toChar first).toString
    else return name ++ "-" ++ scope
  | _, _ => return name ++ "-" ++ scope

/-- The items of a list from the cursor on, split at its top-level commas and trimmed. -/
def itemsOf (whole : Bytes) (n : Nat) : Run (List String) := do
  let stop ← topLevel whole [comma] 0 n
  let text ← slice whole n stop
  if whole[stop]? = some comma then do
    let next ← expect whole comma stop
    let ⟨m, _⟩ ← onward whole n next
    let more ← itemsOf whole m
    return trim text :: more
  else return [trim text]
termination_by whole.length - n

/-- A refusal is no answer; a failed check is still one. -/
def attempt {α : Type} : Run α → Run (Option α)
  | .ok a => return some a
  | .error (.refused _) => return none
  | .error (.panic check) => .error (.panic check)

/-- A list of names under a scope. -/
def renameEach (scope value : String) : Run String := do
  match ← attempt (itemsOf (encode value) 0) with
  | some (first :: second :: more) => return ",".intercalate (← (first :: second :: more).mapM (rename scope))
  | _ => rename scope value

/-- What stands between the quotes of a name is a slice. -/
theorem slice_eq_content {name content : String} {b : UInt8} (hb : isQuote b)
    (he : encode name = b :: (encode content ++ [b])) :
    slice (encode name) 1 (1 + (encode content).length) = .ok content := by
  have hlt := Scan.lt_of_isQuote hb
  have hname : At (encode name) 0 (b :: (encode content ++ [b])) := he ▸ at_zero (encode name)
  have hfirst : CutAt (encode name) 1 (encode content ++ [b]) := (hname.cutAt hlt).succ hlt
  have hlast : At (encode name) (1 + (encode content).length) [b] := hfirst.toAt.append
  obtain ⟨t, ht, htext⟩ := hfirst.slice (hlast.cutAt hlt) (List.suffix_append _ _)
  rw [Scan.textBefore_encode] at htext
  rw [ht, Except.ok.inj htext]

theorem rename_eq (scope name : String) : rename scope name = .ok (StyleScope.rename scope name) := by
  rw [rename, StyleScope.rename]
  cases hcontent : quotedContent? name with
  | some p =>
    obtain ⟨q, content⟩ := p
    obtain ⟨b, hb, rfl, he⟩ := encode_of_quotedContent? hcontent
    have hhead : (encode name).head? = some b := by rw [he]; rfl
    have hlast : (encode name).getLast? = some b := by rw [he, ← List.cons_append, List.getLast?_concat]
    have hlen : (encode name).length = 1 + (encode content).length + 1 := by
      rw [he, List.length_cons, List.length_append, List.length_singleton]
      omega
    rw [hhead, hlast]
    show (if 2 ≤ (encode name).length ∧ isQuote b ∧ b = b then _ else _) = _
    rw [if_pos ⟨by omega, hb, rfl⟩, hlen]
    show (slice (encode name) 1 (1 + (encode content).length) >>= _) = _
    rw [slice_eq_content hb he]
    rfl
  | none =>
    split
    · next first last hfirst hlast =>
      rw [if_neg]
      · rfl
      rintro ⟨hlen, hquote, rfl⟩
      obtain ⟨ys, he⟩ := List.getLast?_eq_some_iff.1 hlast
      rw [he] at hfirst hlen
      cases ys with
      | nil => exact absurd hlen (Nat.not_succ_le_self 1)
      | cons c y =>
        obtain rfl := Option.some.inj hfirst
        exact quotedContent?_ne_none hquote he hcontent
    · rfl

theorem agrees_itemsOf {s : String} {n : Nat} {xs : Bytes} (h : CutAt (encode s) n xs) :
    Agrees (Fault.locate (encode s)) Eq (itemsOf (encode s) n) (StyleScope.itemsOf xs) := by
  fun_induction StyleScope.itemsOf xs generalizing n with
  | case1 xs fault ht =>
    rw [itemsOf]
    exact .bind_error (ht ▸ cut_topLevel h.toAt (by decide))
  | case2 xs rest ht hc =>
    rw [itemsOf]
    refine .bind_ok (ht ▸ cut_topLevel h.toAt (by decide)) fun stop hstop => ?_
    refine .bind (agrees_slice h hstop (Scan.topLevel_suffix ht)) fun text _ _ htext => ?_
    rw [hstop.getElem?, if_neg (after?_eq_none_iff.1 hc), htext]
    exact rfl
  | case3 xs rest ht after hc ih =>
    obtain rfl := Scan.after?_eq_some_iff.1 hc
    have hsuffix := Scan.topLevel_suffix ht
    rw [itemsOf]
    refine .bind_ok (ht ▸ cut_topLevel h.toAt (by decide)) fun stop hstop => ?_
    refine .bind (agrees_slice h hstop hsuffix) fun text _ _ htext => ?_
    rw [hstop.getElem?, List.head?_cons, if_pos rfl, htext]
    refine .bind_ok (agrees_expect_cons hstop.toAt (by decide)) fun next hnext => ?_
    refine .onward h.toAt hnext.toAt hsuffix.length_le fun _ => ?_
    refine .bind (ih hnext) fun more _ _ hmore => ?_
    rw [hmore]
    exact rfl

theorem Agrees.attempt {ε α : Type} {locate : ε → Error} {m : Run α} {r : Except ε α} (h : Agrees locate Eq m r) :
    attempt m = .ok r.toOption := by
  match m, r, h with
  | .ok _, .ok _, rfl => rfl
  | .error (.refused _), .error _, _ => rfl

theorem mapM_eq {α β : Type} {f : α → Run β} {g : α → β} (h : ∀ a, f a = .ok (g a)) (as : List α) :
    as.mapM f = .ok (as.map g) := by
  obtain rfl : f = fun a => pure (g a) := funext h
  exact List.mapM_pure

theorem renameEach_eq (scope value : String) : renameEach scope value = .ok (StyleScope.renameEach scope value) := by
  rw [renameEach, StyleScope.renameEach, items?, (agrees_itemsOf (cutAt_zero value)).attempt]
  match (StyleScope.itemsOf (encode value)).toOption with
  | some (first :: second :: more) =>
    show (do return ",".intercalate (← (first :: second :: more).mapM (rename scope))) = _
    rw [mapM_eq (rename_eq scope)]
    rfl
  | some [] | some [_] | none => exact rename_eq scope value

/-! ## Rules -/

/-- An animation that runs the keyframes of the scope. -/
def scopeAnimation (scope : Scope) (a : Animation) : Run Animation :=
  return a.withName (← rename scope.name a.name)

/-- A declaration inside the scope. -/
def scopeDeclaration (scope : Scope) : Declaration → Run Declaration
  | .other property value => return .other property value
  | .animationName value => return .animationName (← renameEach scope.name value)
  | .animation animations => return .animation (← animations.mapM (scopeAnimation scope))

mutual

/-- A rule inside the scope. -/
def scopeRule (scope : Scope) : Rule → Run Rule
  | .style selectors declarations =>
    return .style (selectors.map scope.selector) (← declarations.mapM (scopeDeclaration scope))
  | .keyframes name body => return .keyframes (← rename scope.name name) body
  | .conditional kind condition rules => return .conditional kind condition (← scopeSheet scope rules)

/-- A sheet inside the scope. -/
def scopeSheet (scope : Scope) : List Rule → Run (List Rule)
  | [] => return []
  | rule :: rules => return (← scopeRule scope rule) :: (← scopeSheet scope rules)

end

theorem scopeAnimation_eq (scope : Scope) (a : Animation) : scopeAnimation scope a = .ok (scope.animation a) := by
  rw [scopeAnimation, rename_eq]
  rfl

theorem scopeDeclaration_eq (scope : Scope) (d : Declaration) :
    scopeDeclaration scope d = .ok (scope.declaration d) := by
  cases d with
  | other property value => rfl
  | animationName value =>
    rw [scopeDeclaration, renameEach_eq]
    rfl
  | animation animations =>
    rw [scopeDeclaration, mapM_eq (scopeAnimation_eq scope)]
    rfl

mutual

theorem scopeRule_eq (scope : Scope) : (rule : Rule) → scopeRule scope rule = .ok (scope.rule rule)
  | .style selectors declarations => by
    rw [scopeRule, mapM_eq (scopeDeclaration_eq scope)]
    rfl
  | .keyframes name body => by
    rw [scopeRule, rename_eq]
    rfl
  | .conditional kind condition rules => by
    rw [scopeRule, scopeSheet_eq scope rules]
    rfl

theorem scopeSheet_eq (scope : Scope) : (rules : List Rule) → scopeSheet scope rules = .ok (scope.sheet rules)
  | [] => rfl
  | rule :: rules => by
    rw [scopeSheet, scopeRule_eq scope rule, scopeSheet_eq scope rules]
    rfl

end

/-! ## Texts -/

/-- The text of a sheet, scoped. -/
def scopeText (name text : String) (options : Options) : Run String := do
  let sheet ← parse text
  let inside ← scopeSheet ⟨name, options⟩ sheet
  return Sheet.print inside

/-- The first block of a text from an offset on, or from its end if that comes first. -/
def capture (text : String) (offset : Nat) : Run Scan.Block :=
  block (encode text) (min offset (encode text).length)

theorem agrees_scopeText (name text : String) (options : Options) :
    Agrees id Eq (scopeText name text options) (StyleScope.scopeText name text options) := by
  rw [scopeText, StyleScope.scopeText]
  refine .bind (agrees_parse text) fun sheet _ _ hsheet => ?_
  rw [hsheet, scopeSheet_eq]
  exact rfl

/-- An offset may stand inside a character: a block begins with its brace. -/
theorem agrees_capture (text : String) (offset : Nat) :
    Agrees id Eq (capture text offset) (Scan.Block.capture text offset) := by
  have hat : At (encode text) (min offset (encode text).length) ((encode text).drop offset) := by
    refine ⟨Nat.min_le_right _ _, ?_⟩
    rcases Nat.le_total offset (encode text).length with h | h
    · rw [Nat.min_eq_left h]
    · rw [Nat.min_eq_right h, List.drop_length, List.drop_eq_nil_of_le h]
  have hblock : Agrees (Fault.locate (encode text)) Eq (block (encode text) (min offset (encode text).length)) (do
      let span ← Scan.block ((encode text).drop offset)
      let body ← Scan.textBefore span.start span.rest
      return ⟨body, offsetOf (encode text) span.start, offsetOf (encode text) span.rest⟩) := by
    rw [block]
    refine .bind (agrees_span hat) fun ends span _ hspan => ?_
    obtain ⟨hstart, hstop, hsuffix⟩ := hspan
    refine .bind (agrees_slice hstart hstop hsuffix) fun body _ _ hbody => ?_
    rw [hbody, hstart.offsetOf_eq, hstop.offsetOf_eq]
    exact rfl
  exact hblock.mapError fun _ => rfl

/-- **No input makes a program panic.** Whatever they are given, scoping a text, reading an animation value, renaming a
name and finding a block make only checks that succeed, and come to what the readers of what remains come to. -/
theorem never_panics :
    (∀ name text options, Answers (scopeText name text options) (StyleScope.scopeText name text options)) ∧
      (∀ value, Answers (ofValue value) (Animation.ofValue value)) ∧
      (∀ scope name, Answers (rename scope name) (.ok (StyleScope.rename scope name))) ∧
      ∀ text offset, Answers (capture text offset) (Scan.Block.capture text offset) := by
  refine ⟨fun name text options => (agrees_scopeText name text options).answers,
    fun value => (agrees_ofValue value).answers, fun scope name => ?_,
    fun text offset => (agrees_capture text offset).answers⟩
  rw [rename_eq]
  exact ⟨rfl, nofun, nofun⟩

end StyleScope.Checked
