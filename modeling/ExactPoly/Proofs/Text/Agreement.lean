import ExactPoly.Proofs.Poly.OneTerm
import ExactPoly.Proofs.Text.Accepted
import ExactPoly.Proofs.Text.RoundTrip

/-!
# The texts of scalars, terms and polynomials agree

The text of a scalar is the text of a constant term, and the text of a term that of a polynomial with at most one term.
A minus sign in front is part of a scalar or a term, while a polynomial takes it off, reads the body after it and takes the
negative.

* `Signed` : a text with no sign, or with one minus sign in front that reads as the negative of the rest;
* `Scalar.signed_of_parse`, `Term.signed_of_parse` : every text that is read as a scalar or a term is of this form;
* `Poly.parse_one_body` : a text with one body is read as the polynomial of its signed term;
* `Scalar.render_eq`, `Poly.render_ofTerm` : the texts that are written;
* `Poly.text_layers_agree` : all of it for strings.
-/

namespace ExactPoly

open Text
open ExactPoly.Poly (isSign isSign_eq_false)

/-! ## A sign in front -/

/-- The text has no sign, or it has one, a minus in front, and reads as the negative of the rest. -/
def Signed {ε α : Type} [Neg α] (parse : List Char → Except ε α) (cs : List Char) (a : α) : Prop :=
  (∀ c ∈ cs, isSign c = false) ∨ ∃ ds b, cs = '-' :: ds ∧ (∀ c ∈ ds, isSign c = false) ∧ parse ds = .ok b ∧ a = -b

theorem isSign_of_isDigit {c : Char} (h : c.isDigit = true) : isSign c = false := by
  refine isSign_eq_false ?_ ?_
  · rintro rfl
    exact absurd h (by decide)
  · rintro rfl
    exact absurd h (by decide)

theorem isSign_of_mem_append_cons {a b : List Char} {c : Char} (ha : ∀ d ∈ a, isSign d = false) (hc : isSign c = false)
    (hb : ∀ d ∈ b, isSign d = false) : ∀ d ∈ a ++ c :: b, isSign d = false :=
  List.forall_mem_append.mpr ⟨ha, List.forall_mem_cons.mpr ⟨hc, hb⟩⟩

namespace Scalar

theorem Magnitude.isSign {cs : List Char} {a : Scalar} (h : Magnitude cs a) : ∀ c ∈ cs, isSign c = false := by
  intro c hc
  rcases h.isDigit_or_slash hc with hc | rfl
  · exact isSign_of_isDigit hc
  · rfl

theorem signed_of_parse {cs : List Char} {a : Scalar} (h : parse cs = .ok a) : Signed parse cs a := by
  rcases parse_eq_ok_iff.mp h with ⟨rfl, -⟩ | hm | ⟨ds, b, rfl, hm, rfl⟩
  · exact .inl (by simp [isSign])
  · exact .inl hm.isSign
  · exact .inr ⟨ds, b, rfl, hm.isSign, parse_eq_ok_iff.mpr (.inr (.inl hm)), rfl⟩

end Scalar

namespace Term

theorem neg_const (a : Scalar) : -const a = const (-a) := monomial_zero_expt (-a)

theorem signed_of_coeffText {cs : List Char} {c : Scalar} (h : CoeffText cs c) : Signed parseCoeff cs c := by
  have hstar : ∀ {ds : List Char}, (∀ d ∈ ds, isSign d = false) → ∀ d ∈ ds ++ ['*'], isSign d = false := fun h =>
    isSign_of_mem_append_cons h rfl (by simp)
  cases h with
  | one => exact .inl (by simp)
  | minusOne => exact .inr ⟨[], 1, rfl, by simp, rfl, rfl⟩
  | scalar hds h =>
    rcases Scalar.signed_of_parse h with hsign | ⟨es, b, rfl, hsign, hb, rfl⟩
    · rcases hds with rfl | ⟨rfl, -⟩
      · exact .inl (hstar hsign)
      · exact .inl hsign
    · rcases hds with rfl | ⟨rfl, -⟩
      · exact .inr ⟨es ++ ['*'], b, rfl, hstar hsign, parseCoeff_concat_star hb, rfl⟩
      · exact .inr ⟨es, b, rfl, hsign, parseCoeff_of_parse hb, rfl⟩

theorem isSign_of_powerText {cs : List Char} {e : Nat} (h : PowerText cs e) : (∀ c ∈ cs, isSign c = false) ∧ e ≤ maxExpt := by
  cases h with
  | one => exact ⟨by simp, by decide⟩
  | caret h he =>
    have hdigits := (readNat?_eq_some (readNat?_eq_some_iff.mpr h)).2
    exact ⟨List.forall_mem_cons.mpr ⟨rfl, fun c hc => isSign_of_isDigit (hdigits c hc)⟩, he⟩

theorem ne_nil_of_parse {cs : List Char} {t : Term} (h : parse cs = .ok t) : cs ≠ [] := by
  rintro rfl
  cases h

theorem signed_of_parse {cs : List Char} {t : Term} (h : parse cs = .ok t) : Signed parse cs t := by
  rcases parse_eq_ok_iff.mp h with ⟨a, ha, rfl⟩ | ⟨coeff, power, c, e, rfl, hx, hc, hpower, rfl⟩
  · rcases Scalar.signed_of_parse ha with hsign | ⟨ds, b, rfl, hsign, hb, rfl⟩
    · exact .inl hsign
    · exact .inr ⟨ds, const b, rfl, hsign, parse_of_scalar hb, (neg_const b).symm⟩
  · obtain ⟨hsigns, he⟩ := isSign_of_powerText hpower
    rcases signed_of_coeffText hc with hsign | ⟨ds, b, rfl, hsign, hb, rfl⟩
    · exact .inl (isSign_of_mem_append_cons hsign rfl hsigns)
    · have hxds : 'x' ∉ ds := fun hmem => hx (List.mem_cons_of_mem _ hmem)
      exact .inr ⟨ds ++ 'x' :: power, monomial b e, rfl, isSign_of_mem_append_cons hsign rfl hsigns,
        parse_cut hxds hb (parsePower_eq_ok_iff.mpr hpower), (neg_monomial b he).symm⟩

end Term

/-! ## Texts with one body -/

namespace Poly

theorem ofList_insert_nil (t : Term) : ofList (TermList.insert t []) = ofTerm t := by
  by_cases h0 : t.coeff = 0
  · rw [Term.eq_zero h0]
    rfl
  have hinsert : TermList.insert t [] = [t] := if_neg (by simpa using h0)
  by_cases hn : t.coeff = .nan
  · rw [hinsert, ofTerm_of_nan hn, ofList_of_isNaN (by simpa using hn)]
  · rw [hinsert, ofTerm_of_ne_zero h0, ofList_of_not_isNaN (by simpa using hn)]

theorem bodiesFrom_eq_singleton {cs : List Char} (hne : cs ≠ []) (h : ∀ c ∈ cs, isSign c = false) (before : List Char) :
    bodiesFrom before [] cs = [⟨before, cs⟩] := by
  have happend := bodiesFrom_append h before [] []
  rw [List.append_nil, List.nil_append] at happend
  rw [happend, bodiesFrom, if_neg hne]

theorem parse_one_body {before cs : List Char} (hbodies : bodies (before ++ cs) = [⟨before, cs⟩]) (hne : cs ≠ [])
    (h : ∀ c ∈ cs, isSign c = false) : parse (before ++ cs) = (Body.toTerm ⟨before, cs⟩).map ofTerm := by
  have hlast : (before ++ cs).getLast?.any isSign = false := by
    rw [List.getLast?_append_of_ne_nil _ hne, List.getLast?_eq_some_getLast hne]
    exact h _ (List.getLast_mem hne)
  rw [parse_eq (List.append_ne_nil_of_right_ne_nil _ hne), hbodies, mapM_toTerm_cons]
  cases Body.toTerm ⟨before, cs⟩ with
  | error e => rfl
  | ok t =>
    show close (before ++ cs) [t] = .ok (ofTerm t)
    rw [close_of_not_sign hlast, ← ofList_insert_nil]
    rfl

theorem parse_unsigned {cs : List Char} (hne : cs ≠ []) (h : ∀ c ∈ cs, isSign c = false) :
    parse cs = (Body.toTerm ⟨[], cs⟩).map ofTerm := by
  have hbodies : bodies ([] ++ cs) = [⟨[], cs⟩] := bodiesFrom_eq_singleton hne h []
  exact parse_one_body hbodies hne h

theorem parse_minus {cs : List Char} (hne : cs ≠ []) (h : ∀ c ∈ cs, isSign c = false) :
    parse ('-' :: cs) = (Body.toTerm ⟨['-'], cs⟩).map ofTerm := by
  have hbodies : bodies (['-'] ++ cs) = [⟨['-'], cs⟩] := bodiesFrom_eq_singleton hne h ['-']
  exact parse_one_body hbodies hne h

theorem parse_of_term {cs : List Char} {t : Term} (h : Term.parse cs = .ok t) : parse cs = .ok (ofTerm t) := by
  rcases Term.signed_of_parse h with hsign | ⟨ds, u, rfl, hsign, hu, rfl⟩
  · rw [parse_unsigned (Term.ne_nil_of_parse h) hsign, Body.toTerm, h]
    rfl
  · rw [parse_minus (Term.ne_nil_of_parse hu) hsign, Body.toTerm, hu]
    rfl

theorem parse_of_term_error {cs : List Char} (hne : cs ≠ []) (hplus : '+' ∉ cs) (hminus : '-' ∉ cs) {e : Term.ParseError}
    (h : Term.parse cs = .error e) : parse cs = .error (.term 0 e) := by
  have hsign : ∀ c ∈ cs, isSign c = false := fun c hc =>
    isSign_eq_false (ne_of_mem_of_not_mem hc hplus) (ne_of_mem_of_not_mem hc hminus)
  rw [parse_unsigned hne hsign, Body.toTerm, h]
  rfl

end Poly

/-! ## Written texts -/

theorem Scalar.render_neg {q : ℚ} (h : q < 0) : (ofRat q).render = '-' :: (-ofRat q).render := by
  rw [neg_ofRat, render_ofRat, render_ofRat, Rat.neg_den, Rat.neg_num, renderInt_of_neg (Rat.num_neg.mpr h)]
  split <;> rfl

/-- The sign and the absolute value are written one after the other, as in a term. -/
theorem Scalar.render_eq (a : Scalar) : a.render = (if a.isNegative then ['-'] else []) ++ a.abs.render := by
  split
  · next h =>
    rw [abs_of_isNegative h]
    cases a with
    | nan => cases h
    | ofRat q => exact render_neg (of_decide_eq_true h)
  · next h => rw [abs_of_not_isNegative h, List.nil_append]

theorem Term.render_const (a : Scalar) : (const a).render = a.render := (Scalar.render_eq a).symm

namespace Poly

theorem render_ofTerm (t : Term) : (ofTerm t).render = t.render := by
  by_cases h0 : t.coeff = 0
  · rw [Term.eq_zero h0]
    rfl
  by_cases hn : t.coeff = .nan
  · rw [Term.eq_nan hn]
    rfl
  · have hnot : (⟨[t]⟩ : Poly).isNaN = false := by simpa [isNaN] using hn
    rw [ofTerm_of_ne_zero h0, render_cons hnot, List.flatMap_nil, List.append_nil]
    rfl

/-! ## Strings -/

theorem text_layers_agree :
    (∀ (s : String) (a : Scalar), Scalar.ofString s = .ok a → Term.ofString s = .ok (.const a)) ∧
    (∀ (s : String) (t : Term), Term.ofString s = .ok t → ∃ p, ofString s = .ok p ∧ (p == ofTerm t) = true) ∧
    (∀ s : String, s ≠ "" → '+' ∉ s.toList → '-' ∉ s.toList → ∀ e : Term.ParseError,
      Term.ofString s = .error e → ofString s = .error (.term 0 e)) ∧
    (∀ a : Scalar, toString (Term.const a) = toString a) ∧
    (∀ t : Term, toString (ofTerm t) = toString t) := by
  refine ⟨fun s a h => Term.parse_of_scalar h, fun s t h => ⟨ofTerm t, parse_of_term h, BEq.rfl⟩,
    fun s hne hplus hminus e h => ?_, fun a => congrArg String.ofList (Term.render_const a),
    fun t => congrArg String.ofList (render_ofTerm t)⟩
  have hnil : s.toList ≠ [] := fun hs => hne (String.toList_eq_nil_iff.mp hs)
  exact parse_of_term_error hnil hplus hminus h

/-- A minus sign before a fraction without a value, before `x`, before a zero coefficient, and no sign before an error. -/
theorem text_layers_agree_minus_sign :
    Term.ofString "-3/0" = .ok (.const .nan) ∧
    (∃ p, ofString "-3/0" = .ok p ∧ (p == nan) = true) ∧
    (∃ p, ofString "-x" = .ok p ∧ (p == ofInt (-1) 1) = true) ∧
    (∃ p, ofString "-0*x^5" = .ok p ∧ (p == 0) = true) ∧
    ofString "2*y" = .error (.term 0 (.coefficient (.numerator "2*y"))) ∧
    toString (ofTerm (.const (.fraction (-6) 4))) = toString (Term.const (.fraction (-6) 4)) := by
  obtain ⟨hscalar, hterm, herror, -, hrender⟩ := text_layers_agree
  have hnan : Term.ofString "-3/0" = .ok (.const .nan) := hscalar "-3/0" .nan rfl
  have hx : Term.ofString "-x" = .ok (.monomial (.ofInt (-1)) 1) := rfl
  have hzero : Term.ofString "-0*x^5" = .ok 0 := rfl
  exact ⟨hnan, hterm _ _ hnan, hterm _ _ hx, hterm _ _ hzero,
    herror "2*y" (by decide) (by decide) (by decide) _ rfl, hrender _⟩

end Poly

end ExactPoly
