/-
Reading what was printed. A printed text that is read back as its own tree cannot lose anything: it weighs no more
than what is printed of that tree, which is itself. So each piece stands just where it was printed, with nothing
but spaces between, and the tree is faithful. That decides when printing is a normal form of reading.
-/
import StyleScope.Proofs.Sheet.Faithful

namespace StyleScope.Sheet

open Byte Scan Text

/-! ## Single texts -/

theorem PieceText.clean {stops : Bytes} {delimiter : UInt8} {s : String} {x : Bytes} {d : Nat}
    (h : PieceText stops s x d) (he : x = encode s) (hs : stopsAt stops d delimiter) (hp : isPlain delimiter)
    (hstar : delimiter ≠ star) : Clean stops delimiter s := by
  obtain ⟨ht, hf, hx⟩ := h
  obtain rfl := encode_inj he
  exact .of_passes ht (not_beginsWithComment_of_flush hf) hx hs hp hstar

/-- What the selectors were read from begins with no space, and neither does what is printed of them. -/
theorem SelectorsText.unspaced {ss : List String} {x : Bytes} (h : SelectorsText ss x) :
    Unspaced x ∧ Unspaced (encode (",".intercalate ss)) := by
  cases h with
  | last hp => exact ⟨hp.unspaced, unspaced_of_trimmed hp.lighter.1⟩
  | @cons s ss x g y hp hg hy =>
    refine ⟨hp.unspaced.append_cons (by decide), ?_⟩
    cases ss with
    | nil => cases hy
    | cons t ss =>
      rw [encode_intercalate_cons]
      exact (unspaced_of_trimmed hp.lighter.1).append_cons (by decide)

theorem SelectorsText.faithful {ss : List String} {x : Bytes} (h : SelectorsText ss x)
    (he : x = encode (",".intercalate ss)) :
    (∀ s ∈ ss.dropLast, Clean [comma, openBrace, closeBrace] comma s) ∧
      ∀ s ∈ ss.getLast?, Clean [comma, openBrace, closeBrace] openBrace s := by
  induction h with
  | @last s x d hp =>
    constructor
    · intro r hr
      cases hr
    · intro r hr
      obtain rfl : s = r := by simpa using hr
      exact hp.clean he (by simp [stopsAt, isBrace]) (by decide) (by decide)
  | @cons s ss x g y hp hg hy ih =>
    cases ss with
    | nil => cases hy
    | cons t ss =>
      rw [encode_intercalate_cons] at he
      -- each part is at least as heavy as what is printed of it, and together they are as heavy
      have hw := congrArg weight he
      have hxw := hp.lighter.2.1
      have hyw := hy.lighter.1
      simp only [weight_append, weight_cons] at hw
      have hgs := hg.isSpace_of_weight (by omega)
      obtain ⟨hx, -, hrest⟩ := eq_of_lighter (k := []) hp.lighter.2 .nil (by rw [weight_nil]; omega)
        (by simp) hp.unspaced (unspaced_of_trimmed hp.lighter.1) (by decide) (by decide) he
      have hrest := eq_of_isSpace (k := []) hgs (by simp) hy.unspaced.1 hy.unspaced.2 hrest
      obtain ⟨hi, hl⟩ := ih hrest
      refine ⟨fun r hr => ?_, fun r hr => hl r (by simpa using hr)⟩
      rcases List.mem_cons.1 (List.dropLast_cons_cons ▸ hr) with rfl | hr
      · exact hp.clean hx (by decide) (by decide) (by decide)
      · exact hi r hr

/-- A byte stands first at one place only. -/
theorem eq_of_first {b : UInt8} {p q v w : Bytes} (hp : b ∉ p) (hq : b ∉ q) (h : p ++ b :: v = q ++ b :: w) :
    p = q ∧ v = w := by
  rcases List.append_eq_append_iff.1 h with ⟨z, rfl, hz⟩ | ⟨z, rfl, hz⟩
  · cases z with
    | nil => exact ⟨(List.append_nil p).symm, (List.cons.inj hz).2⟩
    | cons c z =>
      obtain ⟨rfl, -⟩ := List.cons.inj hz
      exact absurd (by simp) hq
  · cases z with
    | nil => exact ⟨List.append_nil q, (List.cons.inj hz).2.symm⟩
    | cons c z =>
      obtain ⟨rfl, -⟩ := List.cons.inj hz
      exact absurd (by simp) hp

theorem colon_not_mem {p : Bytes} (h : ∀ b ∈ p, endsProperty b = false) : colon ∉ p := fun hm =>
  absurd (h colon hm) (by decide)

/-- **A declaration that is read from what is printed of it is faithful.** -/
theorem DeclarationText.faithful {d : Declaration} {x : Bytes} (h : DeclarationText d x 0)
    (he : x = d.bytes) : d.Faithful := by
  have hk := h.kept
  have hl := h.lighter
  obtain ⟨hf, hends, hg, hp, ho⟩ := h
  obtain ⟨hprop, hvw, -⟩ := of_ofProperty ho hp.lighter.1
  obtain ⟨hpe, hve⟩ := eq_of_first (colon_not_mem hends) (colon_not_mem hk.inside) he
  have hw := congrArg weight hve
  have hvw := (hvw.trans hp.lighter.2).1
  rw [weight_append] at hw
  have hgs := hg.isSpace_of_weight (by omega)
  have hv := eq_of_isSpace (k := []) hgs nofun hp.unspaced hk.unspaced hve
  obtain ⟨rfl, hvf, hpass⟩ := hp
  obtain rfl := encode_inj hv
  refine ⟨?_, not_beginsWithComment_of_flush hvf, hpass.topLevelFrom_stop (by decide) (by decide) (by decide), ?_⟩
  · rw [hpe] at hf
    exact not_beginsWithComment_of_flush hf
  · rw [hprop]
    exact ho

/-! ## Blocks and rules -/

/-- What is printed of a block begins with neither a space nor a semicolon. -/
theorem head_join {ds : List Declaration} (hk : ∀ d ∈ ds, Kept d) (rest : Bytes) :
    ∀ b ∈ (encode (String.join (ds.map Declaration.print)) ++ closeBrace :: rest).head?,
      isSpace b = false ∧ b ≠ semicolon := by
  cases ds with
  | nil =>
    intro b hb
    cases hb
    decide
  | cons d ds =>
    have hd := hk d List.mem_cons_self
    rw [encode_join_cons, Declaration.bytes]
    cases he : encode d.property with
    | nil =>
      intro b hb
      cases hb
      decide
    | cons c cs =>
      intro b hb
      cases hb
      refine ⟨unspaced_of_trimmed hd.trimmed _ (by rw [he]; rfl), ?_⟩
      rintro rfl
      exact absurd (hd.inside semicolon (by simp [he])) (by decide)

/-- A declaration that is as light as what is printed of it stands where that was printed. -/
theorem DeclarationText.eq_bytes {d : Declaration} {g x rest rest' : Bytes} {depth : Nat} {b : UInt8}
    (h : DeclarationText d x depth) (hg : Gap g) (hw : weight g + weight x ≤ weight d.bytes)
    (hb : isSpace b = false) (he : g ++ (x ++ b :: rest) = d.bytes ++ semicolon :: rest') :
    x = d.bytes ∧ b = semicolon ∧ rest = rest' :=
  eq_of_lighter (k := []) h.lighter hg hw nofun h.unspaced h.kept.unspaced_bytes hb (by decide) he

/-- **A block that is read from what is printed of it ends where it was printed to end**, and each of its
declarations is faithful. -/
theorem DeclarationsText.faithful {ds : List Declaration} {x rest rest' : Bytes} (h : DeclarationsText ds x)
    (hw : weight x ≤ weight (encode (String.join (ds.map Declaration.print)) ++ [closeBrace]))
    (he : x ++ rest = encode (String.join (ds.map Declaration.print)) ++ closeBrace :: rest') :
    (∀ d ∈ ds, d.Faithful) ∧ rest = rest' := by
  induction h generalizing rest rest' with
  | @nil g hg =>
    have hg0 : weight g + weight [] ≤ weight [] := by
      simp only [List.map_nil, String.join_nil, encode_empty, List.nil_append, weight_append] at hw
      simp only [weight_nil]
      omega
    rw [List.append_assoc] at he
    obtain ⟨-, -, hr⟩ := eq_of_lighter (k := []) (lighter_refl []) hg hg0 nofun nofun nofun (by decide) (by decide) he
    exact ⟨nofun, hr⟩
  | @semicolon ds g x hg hx _ =>
    -- a semicolon that stands by itself was not printed
    have hle := hx.weight_le
    simp only [weight_append, weight_cons, weight_nil, byteWeight_semicolon] at hw hle
    have hgs := hg.isSpace_of_weight (by omega)
    have hhead := head_join hx.kept rest'
    rw [List.append_assoc] at he
    have he := eq_of_isSpace (k := []) hgs nofun (unspaced_cons (by decide)) (fun b hb => (hhead b hb).1) he
    rw [← he] at hhead
    exact absurd rfl (hhead Byte.semicolon rfl).2
  | @cons d ds g x y hg hd hy ih =>
    have hxw := hd.lighter.1
    have hyw := hy.weight_le
    rw [encode_join_cons] at hw he
    simp only [weight_append, weight_cons, weight_nil, byteWeight_semicolon] at hw hyw ih
    simp only [List.append_assoc, List.cons_append] at he
    obtain ⟨hxe, -, hr⟩ := hd.eq_bytes hg (by omega) (by decide) he
    obtain ⟨hds, hr⟩ := ih (by omega) hr
    refine ⟨fun e hm => ?_, hr⟩
    rcases List.mem_cons.1 hm with rfl | hm
    · exact hd.faithful hxe
    · exact hds e hm
  | @last d g x depth hg hd =>
    -- what is printed has a semicolon after the last declaration as well
    rw [encode_join_cons] at hw he
    simp only [weight_append, weight_cons, weight_nil, byteWeight_semicolon, List.map_nil, String.join_nil,
      encode_empty] at hw
    simp only [List.append_assoc, List.cons_append] at he
    obtain ⟨-, hb, -⟩ := hd.eq_bytes hg (by omega) (by decide) he
    cases hb

theorem eq_of_block {j k body z z' : Bytes} (hj : Gap j) (hk : Unbraced k) (hb : BlockText body)
    (h : j ++ (k ++ (body ++ z)) = body ++ z') : z = z' := by
  obtain ⟨inside, rfl, -⟩ := hb
  obtain rfl : j = [] := by
    cases hj with
    | nil => rfl
    | space hs _ =>
      obtain ⟨rfl, -⟩ := List.cons.inj h
      exact absurd hs (by decide)
    | comment _ _ => exact absurd (List.cons.inj h).1 (by decide)
  obtain rfl : k = [] := by
    cases hk with
    | nil => rfl
    | escape b _ => exact absurd (List.cons.inj h).1 (by decide)
    | byte hne _ _ => exact absurd (List.cons.inj h).1 hne
  exact List.append_cancel_left h

/-- **Rules that are read from what is printed of them end where they were printed to end**, and are faithful. -/
theorem RulesText.faithful {rules : List Rule} {x k rest rest' : Bytes} (h : RulesText rules x)
    (hw : weight x ≤ weight (encode (print rules))) (hk : ∀ b ∈ k, isSpace b)
    (he : x ++ closeBrace :: rest = k ++ (encode (print rules) ++ closeBrace :: rest')) :
    Faithful rules ∧ rest = rest' := by
  have hline : ∀ b ∈ [(0x0A : UInt8)], isSpace b := by decide
  have hspace : ∀ b ∈ [(0x20 : UInt8)], isSpace b := by decide
  induction h generalizing k rest rest' with
  | @nil g hg =>
    obtain ⟨-, -, hr⟩ := eq_of_lighter (lighter_refl []) hg hw hk nofun nofun (by decide) (by decide) he
    exact ⟨trivial, hr⟩
  | @item rule rules g x y hg hi hy ih =>
    have hyw := hy.weight_le
    cases hi with
    | @style ss ds x z hs hat hd =>
      have hsw := hs.lighter.1
      have hdw := hd.weight_le
      rw [encode_print_style] at hw he
      simp only [weight_append, weight_cons, weight_nil, byteWeight_lineFeed] at hw hdw
      simp only [List.append_assoc, List.cons_append] at he
      obtain ⟨hx, -, hr⟩ := eq_of_lighter hs.lighter hg (by omega) hk hs.unspaced.1 hs.unspaced.2 (by decide)
        (by decide) he
      obtain ⟨hds, hr⟩ := hd.faithful (by simp only [weight_append, weight_cons, weight_nil]; omega) hr
      obtain ⟨hrules, hr⟩ := ih (by omega) hline hr
      obtain ⟨hinner, hlast⟩ := hs.faithful hx
      refine ⟨⟨⟨⟨?_, hinner, hlast⟩, hds⟩, hrules⟩, hr⟩
      intro s hs' hhead
      cases ss with
      | nil => cases hs'
      | cons t ss =>
        cases hs'
        exact hat (hx ▸ (head?_intercalate (by decide) ss).2 hhead)
    | @keyframes name body m j l hm _ hn hv hj _ hl hb _ =>
      rw [encode_print_keyframes] at hw he
      simp only [weight_append, weight_cons, weight_nil, byteWeight_space, byteWeight_lineFeed] at hw
      have hgs := hg.isSpace_of_weight (by omega)
      have hms := hm.isSpace_of_weight (by omega)
      simp only [List.append_assoc] at he
      have he := List.append_cancel_left
        (eq_of_isSpace hgs hk (unspaced_cons (by decide)) (unspaced_cons (by decide)) he)
      have hname (r : Bytes) : Unspaced (encode name ++ r) := by
        obtain ⟨b, xs, hxs⟩ := List.exists_cons_of_ne_nil hv.ne_nil
        rw [hxs]
        exact unspaced_cons (hn.unspaced b (by rw [hxs]; rfl))
      have he := List.append_cancel_left (eq_of_isSpace hms hspace (hname _) (hname _) he)
      obtain ⟨hrules, hr⟩ := ih (by omega) hline (eq_of_block hj hl hb he)
      exact ⟨⟨trivial, hrules⟩, hr⟩
  | @conditional kind condition inner rules g x y z hg hc hy hz ihi ih =>
    have hyw := hy.weight_le
    have hzw := hz.weight_le
    obtain ⟨hm, -, hfl, -⟩ := hc
    rename_i m
    rw [encode_print_conditional] at hw he
    simp only [weight_append, weight_cons, weight_nil, byteWeight_space, byteWeight_lineFeed] at hw
    have hgs := hg.isSpace_of_weight (by omega)
    have hms := hm.isSpace_of_weight (by omega)
    simp only [List.append_assoc] at he
    have hkeyword (r : Bytes) : Unspaced (encode kind.keyword ++ r) := by
      cases kind <;> exact unspaced_cons (by decide)
    have hcondition (r : Bytes) : Unspaced (encode condition ++ ([openBrace] ++ r)) :=
      hfl.unspaced.append_cons (by decide)
    have he := List.append_cancel_left (eq_of_isSpace hgs hk (hkeyword _) (hkeyword _) he)
    have he := List.append_cancel_left (eq_of_isSpace hms hspace (hcondition _) (hcondition _) he)
    have he := List.append_cancel_left he
    obtain ⟨hinner, hr⟩ := ihi (by omega) hline he
    obtain ⟨hrules, hr⟩ := ih (by omega) hline hr
    exact ⟨⟨hinner, hrules⟩, hr⟩

/-! ## Reading what was printed -/

/-- **What is printed of a tree that was read is read as the same tree exactly when the tree is faithful**: when
each of its texts, one by one, is read back before the delimiter that is printed after it. -/
theorem parse_print_iff {text : String} {rules : Sheet} (h : parse text = .ok rules) :
    parse (print rules) = .ok rules ↔ Faithful rules := by
  constructor
  · intro hp
    obtain ⟨x, c, he, hx, hc⟩ := parse_eq_ok_iff.1 hp
    have hw := congrArg weight he
    have hle := hx.weight_le
    rw [weight_append] at hw
    obtain rfl : c = [] := by
      rcases hc with hc | hc
      · exact hc
      · have := (lighter_openComment hc).2
        omega
    rw [List.append_nil] at he
    have hxe : x ++ [closeBrace] = [] ++ (encode (print rules) ++ [closeBrace]) := by rw [he, List.nil_append]
    exact (hx.faithful (Nat.le_of_eq (congrArg weight he.symm)) (k := []) nofun hxe).1
  · intro hf
    obtain ⟨x, c, -, hx, -⟩ := parse_eq_ok_iff.1 h
    exact parse_of_rulesText (hx.reprint hf)

/-- Blanks around a text are left out for good. But trimming cuts an escaped blank in two: what is printed of
the selector then escapes the brace after it. -/
theorem parse_print_escape :
    (parse "a , b\\c \x7b d : e \x7d" = .ok [.style ["a", "b\\c"] [.other "d" "e"]] ∧
      parse (print [.style ["a", "b\\c"] [.other "d" "e"]]) = .ok [.style ["a", "b\\c"] [.other "d" "e"]]) ∧
    (parse "a\\ \x7b\x7d" = .ok [.style ["a\\"] []] ∧
      parse (print [.style ["a\\"] []]) ≠ .ok [.style ["a\\"] []]) := by
  have hplain : parse "a , b\\c \x7b d : e \x7d" = .ok [.style ["a", "b\\c"] [.other "d" "e"]] := by decide +kernel
  have hescape : parse "a\\ \x7b\x7d" = .ok [.style ["a\\"] []] := by decide +kernel
  have hfaithful : Faithful [.style ["a", "b\\c"] [.other "d" "e"]] := by decide +kernel
  have hnot : ¬ Faithful [.style ["a\\"] []] := by decide +kernel
  exact ⟨⟨hplain, (parse_print_iff hplain).2 hfaithful⟩, hescape, fun hp => hnot ((parse_print_iff hescape).1 hp)⟩

end StyleScope.Sheet
