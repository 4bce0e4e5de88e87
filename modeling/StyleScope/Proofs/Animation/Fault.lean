/-
Why an animation value is refused. Splitting fails only within a string that nothing closes, and a definition only by
the number or the kind of its values; no delimiter is ever missing from an animation value. The offset of a string
counts from the start of the value.
-/
import StyleScope.Proofs.Animation.Weight
import StyleScope.Proofs.Scan.Fault

namespace StyleScope.Animation

open Byte Scan Text

variable {xs rest : Bytes} {fault : Fault} {ts : List String}

/-! ## Splitting -/

/-- A string that nothing closes after the values of a definition. -/
theorem unclosed_of_tokens (ht : tokens xs = .ok (ts, rest)) (h : Unclosed rest fault) : Unclosed xs fault := by
  fun_induction tokens xs generalizing ts with
  | case1 =>
    cases ht
    exact absurd h not_unclosed_nil
  | case2 xs ys hs =>
    cases ht
    exact Unclosed.of_skipGap (hs ▸ h)
  | case3 => cases ht
  | case4 xs b ys hs _ after hv ih =>
    simp only [bind_eq_ok_iff] at ht
    obtain ⟨_, -, ⟨more, r⟩, hm, hr⟩ := ht
    cases hr
    exact Unclosed.of_skipGap (hs ▸ (ih hm).of_afterValue hv)

theorem of_tokens_eq_error (h : tokens xs = .error fault) : Unclosed xs fault ∨ fault = .invalidSlice := by
  fun_induction tokens xs with
  | case1 => cases h
  | case2 => cases h
  | case3 xs b ys hs _ f hv =>
    cases h
    exact .inl (Unclosed.of_skipGap (hs ▸ unclosed_of_afterValue hv))
  | case4 xs b ys hs _ after hv ih =>
    simp only [bind_eq_error_iff] at h
    rcases h with h | ⟨_, -, h | ⟨_, -, h⟩⟩
    · exact .inr (of_textBefore_eq_error h)
    · exact (ih h).imp_left fun hu => Unclosed.of_skipGap (hs ▸ hu.of_afterValue hv)
    · cases h

theorem of_definitionsFrom_eq_error (h : definitionsFrom xs = .error fault) :
    Unclosed xs fault ∨ fault = .invalidSlice := by
  fun_induction definitionsFrom xs with
  | case1 xs f ht => cases h; exact of_tokens_eq_error ht
  | case2 =>
    simp only [bind_eq_error_iff] at h
    rcases h with h | ⟨_, -, h⟩
    · exact .inr (of_textBefore_eq_error h)
    · cases h
  | case3 xs ts b rest ht ih =>
    simp only [bind_eq_error_iff] at h
    rcases h with h | ⟨_, -, h | ⟨_, -, h⟩⟩
    · exact .inr (of_textBefore_eq_error h)
    · obtain rfl : b = comma := (lighter_of_tokens ht).2.2 b rfl
      refine (ih h).imp_left fun hu => unclosed_of_tokens ht ?_
      exact hu.of_skipGap.append (not_endsInEscape_singleton (by decide))
    · cases h

theorem of_definitions_eq_error (h : definitions xs = .error fault) :
    Unclosed xs fault ∨ fault = .invalidSlice :=
  (of_definitionsFrom_eq_error h).imp_left Unclosed.of_skipGap

/-- **Splitting fails at a quote of the value**, which nothing closes. -/
theorem of_locating_definitions_eq_error {e : Error} (h : locating definitions xs = .error e) :
    (∃ front inside quote, xs = front ++ quote :: inside ∧ ¬ EndsInEscape front ∧ isQuote quote ∧
      afterQuoted? quote inside = none ∧ e = .unterminatedQuote quote front.length) ∨ e = .invalidSlice := by
  obtain ⟨fault, hf, rfl⟩ := locating_eq_error_iff.1 h
  rcases of_definitions_eq_error hf with ⟨hfront, hq, hn⟩ | rfl
  · rename_i front inside quote
    refine .inl ⟨front, inside, quote, rfl, hfront, hq, hn, ?_⟩
    rw [Fault.locate, offsetOf_append_left]
  · exact .inr rfl

/-! ## Assigning -/

theorem kind_of_assign {d : Definition} {e : Error} (h : d.assign = .error e) : e.kind = .malformedAnimation := by
  unfold Definition.assign at h
  split at h
  · cases h; rfl
  · split at h
    · cases h; rfl
    · split at h
      · cases h
      · cases h; rfl

theorem of_mapM_assign_eq_error {ds : List Definition} {e : Error} (h : ds.mapM Definition.assign = .error e) :
    ∃ front d rest, ds = front ++ d :: rest ∧ (∀ c ∈ front, ∃ a, c.assign = .ok a) ∧ d.assign = .error e := by
  induction ds with
  | nil => cases h
  | cons d ds ih =>
    rw [List.mapM_cons] at h
    simp only [bind_eq_error_iff] at h
    rcases h with h | ⟨a, ha, h | ⟨_, -, h⟩⟩
    · exact ⟨[], d, ds, rfl, nofun, h⟩
    · obtain ⟨front, d', rest, rfl, hfront, hd⟩ := ih h
      refine ⟨d :: front, d', rest, rfl, fun c hc => ?_, hd⟩
      rcases List.mem_cons.1 hc with rfl | hc
      · exact ⟨a, ha⟩
      · exact hfront c hc
    · cases h

/-- **A value is refused at a quote that it never closes, or for a definition.** -/
theorem of_ofValue_eq_error {value : String} {e : Error} (h : ofValue value = .error e) :
    (∃ front inside quote, encode value = front ++ quote :: inside ∧ ¬ EndsInEscape front ∧ isQuote quote ∧
      afterQuoted? quote inside = none ∧ e = .unterminatedQuote quote front.length) ∨ e = .invalidSlice ∨
      e.kind = .malformedAnimation := by
  simp only [ofValue, bind_eq_error_iff] at h
  rcases h with h | ⟨ds, -, h⟩
  · rcases of_locating_definitions_eq_error h with h | h
    · exact .inl h
    · exact .inr (.inl h)
  · obtain ⟨_, d, _, -, -, hd⟩ := of_mapM_assign_eq_error h
    exact .inr (.inr (kind_of_assign hd))

end StyleScope.Animation
