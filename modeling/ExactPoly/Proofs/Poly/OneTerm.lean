import ExactPoly.Proofs.Poly.Antiderivative

/-!
# Polynomials of one term

`ofTerm` carries the operations on terms over to polynomials, with NaN, zero and exponents past the largest one.

* `ofTerm_neg`, `ofTerm_derivative`, `ofTerm_antiderivative`, `ofTerm_scale` : one law for each operation;
* `ofTerm_of_add?`, `length_ofTerm_add` : the sum of two polynomials of one term has one term when the terms have a sum,
  and two terms when they have none;
* `ofTerm_operations` : all of it.
-/

open Polynomial

namespace ExactPoly.Poly

theorem ofTerm_of_nan {t : Term} (h : t.coeff = .nan) : ofTerm t = nan := by
  rw [Term.eq_nan h]
  rfl

theorem ofTerm_of_ne_zero {t : Term} (h : t.coeff ≠ 0) : ofTerm t = ⟨[t]⟩ := if_neg (by simpa using h)

theorem isNaN_ofTerm (t : Term) : (ofTerm t).isNaN = t.isNaN := by
  cases h : t.isNaN with
  | true =>
    rw [ofTerm_of_nan (by simpa using h)]
    rfl
  | false => exact (represents_ofTerm (by simpa using h)).not_nan

theorem length_ofTerm_le (t : Term) : (ofTerm t).terms.length ≤ 1 := by
  unfold ofTerm
  split
  · exact Nat.zero_le _
  · exact le_rfl

/-! ## One operand -/

theorem ofTerm_neg (t : Term) : ofTerm (-t) = -ofTerm t := by
  by_cases hn : t.coeff = .nan
  · rw [Term.eq_nan hn]
    rfl
  · have hneg : (-t).coeff ≠ .nan := by
      rw [Term.coeff_neg, ← Scalar.ofRat_toRat hn]
      simp
    exact (represents_ofTerm hneg).congr (represents_ofTerm hn).neg (Term.toPolynomial_neg hn)

theorem ofTerm_derivative (t : Term) : ofTerm t.derivative = (ofTerm t).derivative := by
  by_cases hn : t.coeff = .nan
  · rw [Term.eq_nan hn]
    rfl
  · have hder : t.derivative.coeff ≠ .nan := by
      rw [Term.coeff_derivative, Ne, Scalar.mul_eq_nan_iff, not_or]
      exact ⟨hn, by simp [Scalar.ofInt]⟩
    exact (represents_ofTerm hder).congr (represents_ofTerm hn).derivative (Term.toPolynomial_derivative hn)

/-- Below the largest exponent the two sides have the derivative and the constant coefficient in common. -/
theorem ofTerm_antiderivative (t : Term) : ofTerm t.antiderivative = (ofTerm t).antiderivative 0 := by
  by_cases hn : t.coeff = .nan
  · rw [Term.eq_nan hn]
    rfl
  have ht := represents_ofTerm hn
  by_cases he : t.expt < maxExpt
  · have hanti : t.antiderivative.coeff ≠ .nan := by
      rw [Term.coeff_antiderivative hn he, Term.coeff_div_succ hn]
      simp
    have hlt : t.toPolynomial = 0 ∨ t.toPolynomial.natDegree < maxExpt :=
      .inr ((natDegree_monomial_le _).trans_lt he)
    obtain ⟨A, hA, hder, hconst⟩ := ht.antiderivative (c := 0) Scalar.nan_ne_zero.symm hlt
    refine (represents_ofTerm hanti).congr hA (eq_of_derivative_eq ?_ ?_)
    · rw [Term.derivative_antiderivative hn he, hder]
    · rw [hconst, Term.toPolynomial_antiderivative hn he, coeff_monomial, if_neg (Nat.succ_ne_zero _)]
      rfl
  · have he : t.expt = maxExpt := le_antisymm t.expt_le (not_lt.mp he)
    have h0 : t.coeff ≠ 0 := by
      intro h0
      rw [t.expt_eq_zero (.inl h0)] at he
      exact absurd he (by decide)
    have hdeg : t.toPolynomial.natDegree = maxExpt := (Term.natDegree_toPolynomial h0 hn).trans he
    rw [ht.antiderivative_eq_nan 0 (Term.toPolynomial_ne_zero h0 hn) hdeg, Term.antiderivative_of_expt_eq he]
    rfl

theorem ofTerm_scale (a : Scalar) (t : Term) : ofTerm (t.scale a) = ofTerm t * ofTerm (.const a) := by
  by_cases h : t.coeff = .nan ∨ a = .nan
  · have hscale : (t.scale a).coeff = .nan := by rwa [Term.coeff_scale, Scalar.mul_eq_nan_iff]
    have hn : (ofTerm t).isNaN = true ∨ (ofTerm (.const a)).isNaN = true := by
      rw [isNaN_ofTerm, isNaN_ofTerm, Term.isNaN_iff, Term.isNaN_iff]
      exact h
    rw [ofTerm_of_nan hscale, mul_of_isNaN hn]
  · obtain ⟨ht, ha⟩ := not_or.mp h
    have hscale : (t.scale a).coeff ≠ .nan := by rwa [Term.coeff_scale, Ne, Scalar.mul_eq_nan_iff]
    have hpoly := Term.toPolynomial_scale ha ht
    have hconst : (Term.const a).coeff ≠ .nan := ha
    have hle : (t.toPolynomial * (Term.const a).toPolynomial).natDegree ≤ maxExpt := by
      rw [Term.toPolynomial_const, ← hpoly]
      exact (natDegree_monomial_le _).trans (t.scale a).expt_le
    exact (represents_ofTerm hscale).congr ((represents_ofTerm ht).mul (represents_ofTerm hconst) hle) hpoly

/-! ## Sums -/

theorem ofTerm_of_add? {s t u : Term} (h : s.add? t = some u) : ofTerm s + ofTerm t = ofTerm u := by
  by_cases hn : s.coeff = .nan ∨ t.coeff = .nan
  · rw [Term.add?_of_nan hn] at h
    obtain rfl := Option.some.inj h
    have hsum : (ofTerm s).isNaN = true ∨ (ofTerm t).isNaN = true := by
      rwa [isNaN_ofTerm, isNaN_ofTerm, Term.isNaN_iff, Term.isNaN_iff]
    rw [add_of_isNaN hsum]
    rfl
  · obtain ⟨hs, ht⟩ := not_or.mp hn
    obtain ⟨hu, hpoly⟩ := Term.toPolynomial_of_add? hs ht h
    exact ((represents_ofTerm hs).add (represents_ofTerm ht)).congr (represents_ofTerm hu) hpoly.symm

theorem length_ofTerm_add {s t : Term} (h : s.add? t = none) :
    (ofTerm s + ofTerm t).isNaN = false ∧ (ofTerm s + ofTerm t).terms.length = 2 := by
  obtain ⟨hs, ht, hs0, ht0, he⟩ := Term.add?_eq_none_iff.mp h
  have hsn := represents_ofTerm hs
  have htn := represents_ofTerm ht
  have hinsert : ofTerm s + ofTerm t = ⟨TermList.merge t [s]⟩ := by
    rw [add_def hsn.not_nan htn.not_nan, ofTerm_of_ne_zero hs0, ofTerm_of_ne_zero ht0]
    exact congrArg Poly.mk (if_neg (by simpa using ht0))
  refine ⟨(hsn.add htn).not_nan, ?_⟩
  rw [hinsert]
  rcases Nat.lt_or_gt_of_ne he with hlt | hlt
  · rw [TermList.merge_cons_of_gt [] hlt]
    rfl
  · rw [TermList.merge_cons_of_lt [] hlt]
    rfl

theorem add?_eq_none_iff_length {s t : Term} :
    s.add? t = none ↔ (ofTerm s + ofTerm t).isNaN = false ∧ (ofTerm s + ofTerm t).terms.length = 2 := by
  refine ⟨length_ofTerm_add, fun ⟨_, hlength⟩ => ?_⟩
  cases h : s.add? t with
  | none => rfl
  | some u =>
    have := length_ofTerm_le u
    rw [ofTerm_of_add? h] at hlength
    omega

theorem ofTerm_operations (s t : Term) (c : Scalar) :
    (ofTerm (-t) == -ofTerm t) = true ∧
    (ofTerm t.derivative == (ofTerm t).derivative) = true ∧
    (ofTerm t.antiderivative == (ofTerm t).antiderivative 0) = true ∧
    (ofTerm (t.scale c) == ofTerm t * ofTerm (.const c)) = true ∧
    (∀ u, s.add? t = some u → (ofTerm s + ofTerm t == ofTerm u) = true) ∧
    (s.add? t = none ↔ (ofTerm s + ofTerm t).isNaN = false ∧ (ofTerm s + ofTerm t).terms.length = 2) := by
  refine ⟨beq_of_eq (ofTerm_neg t), beq_of_eq (ofTerm_derivative t), beq_of_eq (ofTerm_antiderivative t),
    beq_of_eq (ofTerm_scale c t), fun u hu => ?_, add?_eq_none_iff_length⟩
  exact beq_of_eq (ofTerm_of_add? hu)

/-- Terms of the largest exponent that cancel, and one of them with a constant. -/
theorem ofTerm_operations_largest_exponent :
    let s := Term.monomial (.ofInt 2) 4294967295
    let t := Term.monomial (.ofInt (-2)) 4294967295
    s.add? t = some 0 ∧ (ofTerm s + ofTerm t == ofTerm 0) = true ∧ t.antiderivative = .nan ∧
    (ofTerm .nan == (ofTerm t).antiderivative 0) = true ∧ s.add? (.const 1) = none ∧
    (ofTerm s + ofTerm (.const 1)).terms.length = 2 := by
  intro s t
  have hadd : s.add? t = some 0 := by decide +kernel
  have hnone : s.add? (.const 1) = none := by decide +kernel
  have hnan : t.antiderivative = .nan := by decide +kernel
  obtain ⟨-, -, hanti, -, hsum, -⟩ := ofTerm_operations s t 0
  rw [hnan] at hanti
  exact ⟨hadd, hsum 0 hadd, hnan, hanti, hnone, ((ofTerm_operations s (.const 1) 0).2.2.2.2.2.mp hnone).2⟩

end ExactPoly.Poly
