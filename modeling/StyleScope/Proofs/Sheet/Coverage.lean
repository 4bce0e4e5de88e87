/-
Every byte of a sheet is accounted for. The text of a sheet without keyframes is a row of pieces: gaps, keywords,
delimiters, and spans that the tree keeps, one span for each text of the tree and in the same order. So reading
neither drops a part of the text nor keeps one twice. Keyframes are left out because what stands between their
name and their block is not kept.
-/
import Mathlib.Data.List.Forall2
import StyleScope.Proofs.Sheet.Soundness

namespace StyleScope

open Byte Scan Text

/-! ## Pieces of a text -/

/-- A piece of the text of a sheet. -/
inductive Piece where
  /-- Spaces and comments. -/
  | gap (bytes : Bytes)
  /-- The keyword of a conditional rule. -/
  | keyword (kind : ConditionalKind)
  /-- A byte that sets other pieces apart. -/
  | delimiter (b : UInt8)
  /-- A text that the tree keeps. -/
  | span (text : String)
deriving Repr, DecidableEq

namespace Piece

/-- The bytes that set selectors, properties, values and rules apart. -/
def delimiters : Bytes := [openBrace, closeBrace, comma, colon, semicolon]

/-- The bytes of a piece. -/
def bytes : Piece → Bytes
  | .gap bytes => bytes
  | .keyword kind => encode kind.keyword
  | .delimiter b => [b]
  | .span text => encode text

/-- The piece is what it is called: each comment in a gap is closed, and a delimiter is one of the five. -/
def WellFormed : Piece → Prop
  | .gap bytes => Gap bytes
  | .delimiter b => b ∈ delimiters
  | .keyword _ | .span _ => True

/-- The text of a span. -/
def text? : Piece → Option String
  | .span text => some text
  | .gap _ | .keyword _ | .delimiter _ => none

end Piece

/-! ## Texts of a tree -/

/-- A text that a tree keeps, with how it is kept. -/
inductive Leaf where
  /-- Without the blanks around it: a selector, a property or a value. -/
  | trimmed (text : String)
  /-- As it is written: a condition. -/
  | verbatim (text : String)
  /-- Split into animations. -/
  | split (animations : List Animation)
deriving Repr, DecidableEq

/-- The leaf is what is kept of a span. -/
def Leaf.KeptFrom (span : String) : Leaf → Prop
  | .trimmed text => trim span = text
  | .verbatim text => span = text
  | .split animations => Animation.ofValue (trim span) = .ok animations

/-- The property and the value of a declaration. -/
def Declaration.leaves : Declaration → List Leaf
  | .other property value => [.trimmed property, .trimmed value]
  | .animationName value => [.trimmed "animation-name", .trimmed value]
  | .animation animations => [.trimmed "animation", .split animations]

mutual

/-- The texts of a rule, in order. Those of keyframes are not among them. -/
def Rule.leaves : Rule → List Leaf
  | .style selectors declarations => selectors.map .trimmed ++ declarations.flatMap Declaration.leaves
  | .keyframes .. => []
  | .conditional _ condition rules => .verbatim condition :: Sheet.leaves rules

/-- The texts of all rules, in order. -/
def Sheet.leaves : List Rule → List Leaf
  | [] => []
  | rule :: rules => rule.leaves ++ Sheet.leaves rules

end

mutual

/-- The rule is one of keyframes, or holds one at any depth. -/
def Rule.hasKeyframes : Rule → Bool
  | .style .. => false
  | .keyframes .. => true
  | .conditional _ _ rules => Sheet.hasKeyframes rules

/-- Some rule is one of keyframes, at any depth. -/
def Sheet.hasKeyframes : List Rule → Bool
  | [] => false
  | rule :: rules => rule.hasKeyframes || Sheet.hasKeyframes rules

end

namespace Sheet

/-! ## Rows of pieces -/

/-- The bytes are those of a row of pieces, whose spans are kept as the leaves. -/
def Covers (leaves : List Leaf) (xs : Bytes) : Prop :=
  ∃ pieces : List Piece, xs = pieces.flatMap Piece.bytes ∧ (∀ p ∈ pieces, p.WellFormed) ∧
    List.Forall₂ Leaf.KeptFrom (pieces.filterMap Piece.text?) leaves

theorem covers_nil : Covers [] [] := ⟨[], rfl, nofun, .nil⟩

theorem Covers.append {as bs : List Leaf} {xs ys : Bytes} (h : Covers as xs) (h' : Covers bs ys) :
    Covers (as ++ bs) (xs ++ ys) := by
  obtain ⟨ps, rfl, hp, ha⟩ := h
  obtain ⟨qs, rfl, hq, hb⟩ := h'
  refine ⟨ps ++ qs, List.flatMap_append.symm, ?_, ?_⟩
  · intro p hmem
    rcases List.mem_append.1 hmem with hmem | hmem
    · exact hp p hmem
    · exact hq p hmem
  · rw [List.filterMap_append]
    exact List.rel_append ha hb

/-- A piece that is no span adds bytes and no leaf. -/
theorem Covers.cons {as : List Leaf} {xs : Bytes} {p : Piece} (hp : p.WellFormed) (ht : p.text? = none)
    (h : Covers as xs) : Covers as (p.bytes ++ xs) := by
  obtain ⟨ps, rfl, hps, ha⟩ := h
  refine ⟨p :: ps, rfl, List.forall_mem_cons.2 ⟨hp, hps⟩, ?_⟩
  rwa [List.filterMap_cons_none ht]

theorem Covers.gap {as : List Leaf} {g xs : Bytes} (hg : Gap g) (h : Covers as xs) : Covers as (g ++ xs) :=
  h.cons (p := .gap g) hg rfl

theorem Covers.keyword {as : List Leaf} {xs : Bytes} (kind : ConditionalKind) (h : Covers as xs) :
    Covers as (encode kind.keyword ++ xs) :=
  h.cons (p := .keyword kind) trivial rfl

theorem Covers.delimiter {as : List Leaf} {xs : Bytes} {b : UInt8} (hb : b ∈ Piece.delimiters)
    (h : Covers as xs) : Covers as (b :: xs) :=
  h.cons (p := .delimiter b) hb rfl

theorem Covers.span {l : Leaf} {as : List Leaf} {text : String} {xs : Bytes} (hl : l.KeptFrom text)
    (h : Covers as xs) : Covers (l :: as) (encode text ++ xs) := by
  obtain ⟨ps, rfl, hps, ha⟩ := h
  exact ⟨.span text :: ps, rfl, List.forall_mem_cons.2 ⟨trivial, hps⟩, .cons hl ha⟩

/-! ## Rules -/

theorem SelectorsText.covers {ss : List String} {x : Bytes} (h : SelectorsText ss x) {as : List Leaf} {y : Bytes}
    (hy : Covers as y) : Covers (ss.map .trimmed ++ as) (x ++ y) := by
  induction h with
  | last hp =>
    obtain ⟨ht, -, -⟩ := hp
    exact hy.span (l := .trimmed _) ht
  | @cons s ss x g z hp hg _ ih =>
    obtain ⟨ht, -, -⟩ := hp
    rw [List.append_assoc, List.cons_append, List.append_assoc]
    exact ((ih.gap hg).delimiter (by decide)).span (l := .trimmed _) ht

/-- The property and the value of a declaration are kept, whatever kind of declaration they make. -/
theorem covers_ofProperty {property value : String} {d : Declaration} {g : Bytes} (hg : Gap g)
    (h : Declaration.ofProperty (trim property) (trim value) = .ok d) {as : List Leaf} {y : Bytes}
    (hy : Covers as y) : Covers (d.leaves ++ as) (encode property ++ colon :: (g ++ (encode value ++ y))) := by
  have hspans {p v : Leaf} (hp : p.KeptFrom property) (hv : v.KeptFrom value) :
      Covers ([p, v] ++ as) (encode property ++ colon :: (g ++ (encode value ++ y))) :=
    (((hy.span hv).gap hg).delimiter (by decide)).span hp
  unfold Declaration.ofProperty at h
  split at h
  · next hname =>
    cases ha : Animation.ofValue (trim value) with
    | error e => rw [ha] at h; cases h
    | ok animations => rw [ha] at h; cases h; exact hspans (p := .trimmed _) hname ha
  · split at h
    · next hname => cases h; exact hspans (p := .trimmed _) (v := .trimmed _) hname rfl
    · cases h; exact hspans (p := .trimmed _) (v := .trimmed _) rfl rfl

theorem DeclarationText.covers {d : Declaration} {x : Bytes} {depth : Nat} (h : DeclarationText d x depth)
    {as : List Leaf} {y : Bytes} (hy : Covers as y) : Covers (d.leaves ++ as) (x ++ y) := by
  obtain ⟨-, -, hg, hp, hd⟩ := h
  obtain ⟨rfl, -, -⟩ := hp
  rw [List.append_assoc, List.cons_append, List.append_assoc]
  exact covers_ofProperty hg hd hy

theorem DeclarationsText.covers {ds : List Declaration} {x : Bytes} (h : DeclarationsText ds x) :
    Covers (ds.flatMap Declaration.leaves) x := by
  have hend : Covers [] [closeBrace] := covers_nil.delimiter (by decide)
  induction h with
  | nil hg => exact hend.gap hg
  | semicolon hg _ ih => exact (ih.delimiter (by decide)).gap hg
  | cons hg hd _ ih => exact (hd.covers (ih.delimiter (by decide))).gap hg
  | last hg hd => exact (hd.covers hend).gap hg

theorem ConditionText.covers {kind : ConditionalKind} {condition : String} {x : Bytes}
    (h : ConditionText kind condition x) {as : List Leaf} {y : Bytes} (hy : Covers as y) :
    Covers (.verbatim condition :: as) (x ++ y) := by
  obtain ⟨hg, -, -, -⟩ := h
  simp only [List.append_assoc, List.singleton_append]
  exact (((hy.delimiter (by decide)).span (l := .verbatim condition) rfl).gap hg).keyword kind

/-- **The text of rules without keyframes is a row of pieces**, whose spans are the texts of the rules. -/
theorem RulesText.covers {rules : List Rule} {x : Bytes} (h : RulesText rules x)
    (hk : hasKeyframes rules = false) : Covers (leaves rules) x := by
  induction h with
  | @nil g hg =>
    have hend := covers_nil.gap hg
    rwa [List.append_nil] at hend
  | @item rule rules g x y hg hi _ ih =>
    simp only [hasKeyframes, Bool.or_eq_false_iff] at hk
    cases hi with
    | style hs _ hd =>
      have hrest := hd.covers.append (ih hk.2)
      rw [List.append_assoc, List.cons_append, leaves, Rule.leaves, List.append_assoc]
      exact (hs.covers (hrest.delimiter (by decide))).gap hg
    | keyframes => exact absurd hk.1 (Bool.noConfusion)
  | @conditional kind condition inner rules g x y z hg hc _ _ ihi ih =>
    simp only [hasKeyframes, Rule.hasKeyframes, Bool.or_eq_false_iff] at hk
    have hrest := (ihi hk.1).append ((ih hk.2).delimiter (b := closeBrace) (by decide))
    exact (hc.covers hrest).gap hg

/-- **Reading loses nothing and keeps nothing twice.** A text that is read as a sheet without keyframes is a row of
closed gaps, keywords, delimiters and spans, and after them perhaps a comment that is never closed. The spans, in
order, are what the selectors, properties, values and conditions of the sheet are kept from, in its order. -/
theorem exists_pieces_of_parse {text : String} {rules : Sheet} (h : parse text = .ok rules)
    (hk : hasKeyframes rules = false) :
    ∃ pieces : List Piece, ∃ tail : Bytes, encode text = pieces.flatMap Piece.bytes ++ tail ∧
      (tail = [] ∨ OpenComment tail) ∧ (∀ p ∈ pieces, p.WellFormed) ∧
      List.Forall₂ Leaf.KeptFrom (pieces.filterMap Piece.text?) (leaves rules) := by
  obtain ⟨x, tail, he, hx, htail⟩ := parse_eq_ok_iff.1 h
  obtain ⟨pieces, rfl, hp, hl⟩ := hx.covers hk
  exact ⟨pieces, tail, he, htail, hp, hl⟩

/-- Stray semicolons, blanks around names and a comment that is left open are pieces as well. -/
theorem exists_pieces_of_parse_stray :
    parse "@media x\x7ba , b\x7b;animation : 1s f;c:d\x7d\x7d/*" =
        .ok [.conditional .media "x" [.style ["a", "b"] [.animation [.two "1s" "f"], .other "c" "d"]]] ∧
      ∃ pieces : List Piece, ∃ tail : Bytes,
        encode "@media x\x7ba , b\x7b;animation : 1s f;c:d\x7d\x7d/*" = pieces.flatMap Piece.bytes ++ tail ∧
          (tail = [] ∨ OpenComment tail) ∧ (∀ p ∈ pieces, p.WellFormed) ∧
          List.Forall₂ Leaf.KeptFrom (pieces.filterMap Piece.text?)
            [.verbatim "x", .trimmed "a", .trimmed "b", .trimmed "animation", .split [.two "1s" "f"],
              .trimmed "c", .trimmed "d"] := by
  have h : parse "@media x\x7ba , b\x7b;animation : 1s f;c:d\x7d\x7d/*" =
      .ok [.conditional .media "x" [.style ["a", "b"] [.animation [.two "1s" "f"], .other "c" "d"]]] := by
    decide +kernel
  exact ⟨h, exists_pieces_of_parse h rfl⟩

end Sheet

end StyleScope
