import ExactPoly.Proofs.Poly.Equality

/-!
# Derivatives and antiderivatives undo each other

A polynomial over the rationals is determined by its derivative and its constant coefficient, so it is enough to compare
these two on either side.

* `eq_of_derivative_eq` : this fact;
* `Represents.derivative_antiderivative` : below the largest degree, the derivative of an antiderivative is the polynomial;
* `derivative_eq_zero_or_natDegree_lt`, `Represents.antiderivative_derivative` : a derivative never has the largest degree,
  so its antiderivative with the constant term of the polynomial is the polynomial, whatever its degree;
* `antiderivative_derivative_inverse` : both for reachable polynomials.
-/

open Polynomial

namespace ExactPoly

theorem eq_of_derivative_eq {A B : ℚ[X]} (h : derivative A = derivative B) (h0 : A.coeff 0 = B.coeff 0) : A = B := by
  have hsub : derivative (A - B) = 0 := by rw [derivative_sub, h, sub_self]
  have hconst := eq_C_of_derivative_eq_zero hsub
  rwa [coeff_sub, h0, sub_self, C_0, sub_eq_zero] at hconst

theorem derivative_eq_zero_or_natDegree_lt (P : ℚ[X]) : derivative P = 0 ∨ (derivative P).natDegree < P.natDegree := by
  by_cases h : P.natDegree = 0
  · exact .inl (derivative_eq_zero.mpr h)
  · exact .inr (natDegree_derivative_lt h)

namespace Poly

section Inverse
variable {p : Poly} {P : ℚ[X]} (hp : p.Represents P)
include hp

theorem Represents.derivative_antiderivative {c : Scalar} (hc : c ≠ .nan) (h : P = 0 ∨ P.natDegree < maxExpt) :
    (p.antiderivative c).derivative = p ∧ ((p.antiderivative c).termAt 0).coeff = c := by
  obtain ⟨A, hA, hder, hconst⟩ := hp.antiderivative hc h
  refine ⟨hA.derivative.congr hp hder, ?_⟩
  rw [hA.coeff_termAt, hconst, Scalar.ofRat_toRat hc]

theorem Represents.antiderivative_derivative : p.derivative.antiderivative (p.termAt 0).coeff = p := by
  have hlt : Polynomial.derivative P = 0 ∨ (Polynomial.derivative P).natDegree < maxExpt :=
    (derivative_eq_zero_or_natDegree_lt P).imp_right fun h => h.trans_le hp.natDegree_le
  have hc : (p.termAt 0).coeff ≠ .nan := by simp [hp.coeff_termAt]
  obtain ⟨A, hA, hder, hconst⟩ := hp.derivative.antiderivative hc hlt
  rw [hp.coeff_termAt, Scalar.toRat_ofRat] at hconst
  exact hA.congr hp (eq_of_derivative_eq hder hconst)

end Inverse

theorem antiderivative_derivative_inverse {p : Poly} (hp : Reachable p) (hn : p.isNaN = false) :
    (∀ c : Scalar, c.isNaN = false → (p.isZero = true ∨ p.degree < maxExpt) →
      ((p.antiderivative c).derivative == p) = true ∧ ((p.antiderivative c).termAt 0).coeff = c) ∧
    (p.derivative.antiderivative (p.termAt 0).coeff == p) = true := by
  obtain ⟨P, hP⟩ := hp.represents hn
  refine ⟨fun c hc h => ?_, beq_of_eq hP.antiderivative_derivative⟩
  rw [hP.isZero_iff, hP.degree_eq] at h
  obtain ⟨hder, hconst⟩ := hP.derivative_antiderivative (Scalar.isNaN_eq_false_iff.mp hc) h
  exact ⟨beq_of_eq hder, hconst⟩

/-- The largest degree is out of reach for the first part and within reach for the second. -/
theorem antiderivative_derivative_inverse_top_power :
    let p := ofInt 3 4294967294 + ofInt 1 2 - ofInt 7 0
    let q := ofInt 3 4294967295 + ofInt 1 2 - ofInt 7 0
    ((p.antiderivative (.fraction 1 2)).derivative == p) = true ∧
    ((p.antiderivative (.fraction 1 2)).termAt 0).coeff = .fraction 1 2 ∧ q.degree = maxExpt ∧
    (q.derivative.antiderivative (.ofInt (-7)) == q) = true := by
  intro p q
  have h0 : Reachable (ofInt 7 0) := .ofInt 7 (by decide)
  have h2 : Reachable (ofInt 1 2) := .ofInt 1 (by decide)
  have hp : Reachable p := ((Reachable.ofInt 3 (by decide)).add h2).sub h0
  have hq : Reachable q := ((Reachable.ofInt 3 (by decide)).add h2).sub h0
  have hpn : p.isNaN = false := by decide +kernel
  have hqn : q.isNaN = false := by decide +kernel
  have hlt : p.degree < maxExpt := by decide +kernel
  have hconst : (q.termAt 0).coeff = .ofInt (-7) := by decide +kernel
  obtain ⟨hder, hcoeff⟩ := (antiderivative_derivative_inverse hp hpn).1 (.fraction 1 2) (by decide +kernel) (.inr hlt)
  have hanti := (antiderivative_derivative_inverse hq hqn).2
  rw [hconst] at hanti
  exact ⟨hder, hcoeff, by decide +kernel, hanti⟩

end Poly

end ExactPoly
