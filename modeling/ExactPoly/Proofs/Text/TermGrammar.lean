import ExactPoly.Proofs.Text.Accepted

/-!
# What is no term, and why

A text without `x` fails as a scalar does. A text with `x` is judged from left to right: the coefficient before the first `x`,
then whether a caret follows it, then the exponent.

* `exists_parseCoeff_error` : a bad coefficient fails with the error of the scalar;
* `parsePower_of_no_caret`, `parsePower_of_bad_exponent` : the two ways a power fails;
* `ofString_term_grammar` : the result for every text.
-/

namespace ExactPoly.Term

open Text

theorem exists_parseCoeff_error {cs : List Char} (h : ¬ ∃ a, CoeffText cs a) :
    ∃ ds e, Unstarred cs ds ∧ Scalar.parse ds = .error e ∧ parseCoeff cs = .error (.coefficient e) := by
  have hnil : cs ≠ [] := by
    rintro rfl
    exact h ⟨1, .one⟩
  have hminus : cs ≠ ['-'] := by
    rintro rfl
    exact h ⟨-1, .minusOne⟩
  obtain ⟨ds, hds, heq⟩ := exists_unstarred hnil hminus
  cases hparse : Scalar.parse ds with
  | ok a => exact absurd ⟨a, .scalar hds hparse⟩ h
  | error e =>
    rw [hparse] at heq
    exact ⟨ds, e, hds, hparse, heq⟩

theorem parsePower_of_no_caret (whole : List Char) {cs : List Char} (hne : cs ≠ []) (h : cs.head? ≠ some '^') :
    parsePower whole cs = .error (.malformed (.ofList whole)) := by
  unfold parsePower
  split
  · exact absurd rfl hne
  · exact absurd rfl h
  · rfl

theorem parsePower_of_bad_exponent (whole : List Char) {ds : List Char} (h : ¬ ∃ e, Numeral ds e ∧ e ≤ maxExpt) :
    parsePower whole ('^' :: ds) = .error (.exponent (.ofList ds)) := by
  show parseExpt ds = _
  unfold parseExpt
  split
  · next e he =>
    rw [if_neg fun hle => h ⟨e, readNat?_eq_some_iff.mp he, hle⟩]
  · rfl

/-- In a text with `x`, an error is decided by the first part that is bad. -/
theorem parse_append_cons_eq_error {cs rest : List Char} (hx : 'x' ∉ cs) {e : ParseError}
    (h : parseCoeff cs = .error e ∨ ∃ c, CoeffText cs c ∧ parsePower (cs ++ 'x' :: rest) rest = .error e) :
    parse (cs ++ 'x' :: rest) = .error e := by
  rw [parse_append_cons rest hx]
  rcases h with h | ⟨c, hc, h⟩
  · rw [h]
    rfl
  · rw [parseCoeff_eq_ok_iff.mpr hc, h]
    rfl

theorem ofString_term_grammar (s : String) :
    ('x' ∉ s.toList →
      (∀ t, ofString s = .ok t ↔ ∃ a, Scalar.ofString s = .ok a ∧ t = const a) ∧
      (s = "" → ofString s = .error .empty) ∧
      (s ≠ "" → ∀ e, Scalar.ofString s = .error e → ofString s = .error (.coefficient e))) ∧
    ∀ cs rest : List Char, s.toList = cs ++ 'x' :: rest → 'x' ∉ cs →
      (∀ t, ofString s = .ok t ↔ ∃ c e, CoeffText cs c ∧ PowerText rest e ∧ t = monomial c e) ∧
      ((¬ ∃ c, CoeffText cs c) →
        ∃ ds e, Unstarred cs ds ∧ Scalar.parse ds = .error e ∧ ofString s = .error (.coefficient e)) ∧
      ((∃ c, CoeffText cs c) →
        (rest ≠ [] → rest.head? ≠ some '^' → ofString s = .error (.malformed s)) ∧
        ∀ ds, rest = '^' :: ds → (¬ ∃ e, Numeral ds e ∧ e ≤ maxExpt) → ofString s = .error (.exponent (.ofList ds))) := by
  constructor
  · intro hx
    refine ⟨fun t => parse_eq_ok_iff_of_not_mem hx, ?_, fun hne e he => ?_⟩
    · rintro rfl
      rfl
    · have hnil : s.toList ≠ [] := fun h => hne (String.toList_eq_nil_iff.mp h)
      rw [Scalar.ofString] at he
      rw [ofString, parse_of_not_mem hnil hx, he]
      rfl
  · intro cs rest hs hx
    obtain rfl : s = .ofList (cs ++ 'x' :: rest) := by rw [← hs, String.ofList_toList]
    rw [ofString, hs]
    refine ⟨fun t => parse_append_cons_eq_ok_iff hx, fun hbad => ?_, ?_⟩
    · obtain ⟨ds, e, hds, hparse, he⟩ := exists_parseCoeff_error hbad
      exact ⟨ds, e, hds, hparse, parse_append_cons_eq_error hx (.inl he)⟩
    · rintro ⟨c, hc⟩
      refine ⟨fun hne hcaret => ?_, ?_⟩
      · exact parse_append_cons_eq_error hx (.inr ⟨c, hc, parsePower_of_no_caret _ hne hcaret⟩)
      · rintro ds rfl hbad
        exact parse_append_cons_eq_error hx (.inr ⟨c, hc, parsePower_of_bad_exponent _ hbad⟩)

/-- Leading zeros before and after the `x`, two stars, a second `x`, and the least exponent that is out of range. -/
theorem ofString_term_grammar_each_error :
    ofString "-03/6*x^007" = .ok (.monomial (.fraction (-1) 2) 7) ∧
    ofString "1/2/3" = .error (.coefficient (.denominator "2/3")) ∧
    (∃ e, ofString "3**x" = .error (.coefficient e)) ∧
    ofString "-xx" = .error (.malformed "-xx") ∧
    ofString "x^4294967296" = .error (.exponent "4294967296") := by
  have hcut := fun s => (ofString_term_grammar s).2
  have hbad : ¬ ∃ c, CoeffText ['3', '*', '*'] c := by
    rintro ⟨c, hc⟩
    cases parseCoeff_eq_ok_iff.mpr hc
  have hlarge : ¬ ∃ e, Numeral "4294967296".toList e ∧ e ≤ maxExpt := by
    rintro ⟨e, he, hle⟩
    have hread : readNat? "4294967296".toList = some 4294967296 := by decide +kernel
    obtain rfl := Option.some.inj (hread.symm.trans (readNat?_eq_some_iff.mpr he))
    exact absurd hle (by decide)
  refine ⟨?_, (ofString_term_grammar "1/2/3").1 (by decide) |>.2.2 (by decide) _ rfl, ?_, ?_, ?_⟩
  · refine (hcut "-03/6*x^007" "-03/6*".toList "^007".toList rfl (by decide)).1 _ |>.mpr ⟨.fraction (-1) 2, 7, ?_, ?_, rfl⟩
    · have hds : Unstarred "-03/6*".toList "-03/6".toList := .inl rfl
      exact .scalar hds (by decide +kernel)
    · exact .caret (readNat?_eq_some_iff.mp (by decide +kernel)) (by decide)
  · obtain ⟨-, e, -, -, h⟩ := (hcut "3**x" ['3', '*', '*'] [] rfl (by decide)).2.1 hbad
    exact ⟨e, h⟩
  · exact ((hcut "-xx" ['-'] ['x'] rfl (by decide)).2.2 ⟨-1, .minusOne⟩).1 (by decide) (by decide)
  · exact ((hcut "x^4294967296" [] "^4294967296".toList rfl (by decide)).2.2 ⟨1, .one⟩).2 "4294967296".toList rfl hlarge

end ExactPoly.Term
