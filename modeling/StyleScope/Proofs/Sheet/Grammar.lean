/-
The grammar of sheets: which bytes stand for which rules, told by what each piece is made of and without a
reader. Pieces that are trimmed stand as any text with that trimmed text; a gap may stand wherever the reader
skips one. `Sheet.read` accepts exactly the sheets of this grammar (see the modules on completeness and on
soundness), so what is proved of the grammar is proved of the reader.
-/
import StyleScope.Sheet.Reader
import StyleScope.Proofs.Scan.Block
import StyleScope.Proofs.Scan.Gap
import StyleScope.Proofs.Scan.Value

namespace StyleScope.Sheet

open Byte Scan Text

/-! ## Style rules -/

/-- A text, of which `kept` is kept, read up to a stop; `d` groups are open at its end. -/
inductive PieceText (stops : Bytes) (kept : String) : Bytes → Nat → Prop
  | mk {raw : String} {d : Nat} : trim raw = kept → Flush (encode raw) → Passes stops 0 (encode raw) d →
    PieceText stops kept (encode raw) d

/-- Selectors set apart by commas. Groups may be left open in the last. -/
inductive SelectorsText : List String → Bytes → Prop
  | last {s : String} {x : Bytes} {d : Nat} :
    PieceText [comma, openBrace, closeBrace] s x d → SelectorsText [s] x
  | cons {s : String} {ss : List String} {x g y : Bytes} :
    PieceText [comma, openBrace, closeBrace] s x 0 → Gap g → SelectorsText ss y →
      SelectorsText (s :: ss) (x ++ comma :: (g ++ y))

/-- A property, a colon and a value, in which `d` groups are left open. -/
inductive DeclarationText : Declaration → Bytes → Nat → Prop
  | mk {declaration : Declaration} {property value : String} {g v : Bytes} {d : Nat} :
    Flush (encode property) → (∀ b ∈ encode property, endsProperty b = false) → Gap g →
      PieceText [semicolon, closeBrace] value v d →
      Declaration.ofProperty (trim property) value = .ok declaration →
      DeclarationText declaration (encode property ++ colon :: (g ++ v)) d

/-- The declarations of a block through its closing brace. The last may lack its semicolon, and then it may
leave groups open. -/
inductive DeclarationsText : List Declaration → Bytes → Prop
  | nil {g : Bytes} : Gap g → DeclarationsText [] (g ++ [closeBrace])
  | semicolon {ds : List Declaration} {g x : Bytes} :
    Gap g → DeclarationsText ds x → DeclarationsText ds (g ++ semicolon :: x)
  | cons {d : Declaration} {ds : List Declaration} {g x y : Bytes} :
    Gap g → DeclarationText d x 0 → DeclarationsText ds y →
      DeclarationsText (d :: ds) (g ++ (x ++ semicolon :: y))
  | last {d : Declaration} {g x : Bytes} {depth : Nat} :
    Gap g → DeclarationText d x depth → DeclarationsText [d] (g ++ (x ++ [closeBrace]))

/-! ## Rules -/

/-- The keyword of an at-rule ends before these bytes. -/
def EndsKeyword (xs : Bytes) : Prop := ∃ b ∈ xs.head?, endsKeyword b

/-- A rule that holds no rules. -/
inductive ItemText : Rule → Bytes → Prop
  | style {ss : List String} {ds : List Declaration} {x y : Bytes} :
    SelectorsText ss x → x.head? ≠ some atSign → DeclarationsText ds y →
      ItemText (.style ss ds) (x ++ openBrace :: y)
  | keyframes {name body : String} {g j k : Bytes} :
    Gap g → EndsKeyword (g ++ encode name) → Flush (encode name) → ValueText [openBrace] (encode name) →
      Gap j → Flush k → Unbraced k → BlockText (encode body) →
      (BeginsQuoted (encode name) ∨ EndsValue [openBrace] (j ++ (k ++ encode body))) →
      ItemText (.keyframes name body)
        (encode "@keyframes" ++ (g ++ (encode name ++ (j ++ (k ++ encode body)))))

/-- The start of a conditional rule, through its opening brace. -/
inductive ConditionText (kind : ConditionalKind) (condition : String) : Bytes → Prop
  | mk {g : Bytes} : Gap g → EndsKeyword (g ++ (encode condition ++ [openBrace])) → Flush (encode condition) →
    openBrace ∉ encode condition →
    ConditionText kind condition (encode kind.keyword ++ (g ++ (encode condition ++ [openBrace])))

/-- Rules, each after a gap, and a gap at their end. -/
inductive RulesText : List Rule → Bytes → Prop
  | nil {g : Bytes} : Gap g → RulesText [] g
  | item {rule : Rule} {rules : List Rule} {g x y : Bytes} :
    Gap g → ItemText rule x → RulesText rules y → RulesText (rule :: rules) (g ++ (x ++ y))
  | conditional {kind : ConditionalKind} {condition : String} {inner rules : List Rule} {g x y z : Bytes} :
    Gap g → ConditionText kind condition x → RulesText inner y → RulesText rules z →
      RulesText (.conditional kind condition inner :: rules) (g ++ (x ++ (y ++ closeBrace :: z)))

/-- A sheet: rules, and after them perhaps a comment that is never closed. -/
def SheetText (rules : Sheet) (xs : Bytes) : Prop :=
  ∃ x c, xs = x ++ c ∧ RulesText rules x ∧ (c = [] ∨ OpenComment c)

/-! ## What pieces begin with -/

theorem EndsKeyword.append {xs : Bytes} (h : EndsKeyword xs) (rest : Bytes) : EndsKeyword (xs ++ rest) := by
  obtain ⟨b, hb, hk⟩ := h
  cases xs with
  | nil => cases hb
  | cons c xs => exact ⟨b, hb, hk⟩

theorem EndsKeyword.of_append {xs rest : Bytes} (h : EndsKeyword (xs ++ rest)) (hx : xs ≠ []) :
    EndsKeyword xs := by
  obtain ⟨b, hb, hk⟩ := h
  cases xs with
  | nil => exact absurd rfl hx
  | cons c xs => exact ⟨b, hb, hk⟩

theorem SelectorsText.flush {ss : List String} {x : Bytes} (h : SelectorsText ss x) (rest : Bytes) :
    Flush (x ++ openBrace :: rest) := by
  cases h with
  | last hp =>
    obtain ⟨-, hf, -⟩ := hp
    exact hf.append_cons (by decide) (by decide) (by decide)
  | cons hp _ _ =>
    obtain ⟨-, hf, -⟩ := hp
    rw [List.append_assoc]
    exact hf.append_cons (by decide) (by decide) (by decide)

theorem SelectorsText.head?_ne {ss : List String} {x : Bytes} (h : SelectorsText ss x) :
    x.head? ≠ some closeBrace := by
  cases h with
  | last hp =>
    obtain ⟨-, -, hx⟩ := hp
    exact hx.head?_ne (by decide) (by decide)
  | @cons s ss x g y hp _ _ =>
    have hne : x.head? ≠ some closeBrace := by
      obtain ⟨-, -, hx⟩ := hp
      exact hx.head?_ne (by decide) (by decide)
    cases x with
    | nil => exact head?_cons_ne (by decide) _
    | cons b x => exact hne

theorem DeclarationText.flush {declaration : Declaration} {x : Bytes} {d : Nat}
    (h : DeclarationText declaration x d) (rest : Bytes) : Flush (x ++ rest) := by
  obtain ⟨hf, -, -, -, -⟩ := h
  rw [List.append_assoc]
  exact hf.append_cons (by decide) (by decide) (by decide)

theorem ItemText.flush {rule : Rule} {x : Bytes} (h : ItemText rule x) (rest : Bytes) : Flush (x ++ rest) := by
  cases h with
  | style hs _ _ => rw [List.append_assoc]; exact hs.flush _
  | keyframes => exact .cons (by decide) (by decide)

theorem ConditionText.flush {kind : ConditionalKind} {condition : String} {x : Bytes}
    (h : ConditionText kind condition x) (rest : Bytes) : Flush (x ++ rest) := by
  obtain ⟨-, -, -, -⟩ := h
  rw [List.append_assoc]
  cases kind <;> exact .cons (by decide) (by decide)

/-! ## Rules one after the other -/

theorem RulesText.gap {rules : List Rule} {g x : Bytes} (hg : Gap g) (h : RulesText rules x) :
    RulesText rules (g ++ x) := by
  cases h with
  | nil hg' => exact .nil (hg.append hg')
  | item hg' hi hr => rw [← List.append_assoc]; exact .item (hg.append hg') hi hr
  | conditional hg' hc hi hr => rw [← List.append_assoc]; exact .conditional (hg.append hg') hc hi hr

theorem RulesText.append {rules more : List Rule} {x y : Bytes} (h : RulesText rules x) (h' : RulesText more y) :
    RulesText (rules ++ more) (x ++ y) := by
  induction h with
  | nil hg => exact h'.gap hg
  | item hg hi _ ih => rw [List.append_assoc, List.append_assoc]; exact .item hg hi ih
  | conditional hg hc hi _ _ ih =>
    simp only [List.append_assoc, List.cons_append]
    exact .conditional hg hc hi ih

end StyleScope.Sheet
