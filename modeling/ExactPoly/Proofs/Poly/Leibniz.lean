import ExactPoly.Proofs.Poly.Antiderivative

/-!
# Rules of calculus

* `Represents.derivative_add` : the derivative of a sum;
* `Represents.derivative_mul` : the derivative of a product, whose two parts overflow no sooner than the product does;
* `Represents.natDegree_lt_of_antiderivative`, `Represents.antiderivative_add` : the antiderivative of a sum, where both
  sides have the same derivative and the same constant term;
* `calculus_rules` : the three rules for reachable polynomials.
-/

open Polynomial

namespace ExactPoly.Poly

section Rules
variable {a b : Poly} {A B : ℚ[X]} (ha : a.Represents A) (hb : b.Represents B)
include ha hb

theorem Represents.derivative_add : (a + b).derivative = a.derivative + b.derivative :=
  (ha.add hb).derivative.congr (ha.derivative.add hb.derivative) Polynomial.derivative_add

theorem Represents.derivative_mul (h : (A * B).natDegree ≤ maxExpt) :
    (a * b).derivative = a.derivative * b + a * b.derivative := by
  have hleft : (Polynomial.derivative A * B).natDegree ≤ maxExpt :=
    (natDegree_mul_le_of_degree_le degree_derivative_le le_rfl).trans h
  have hright : (A * Polynomial.derivative B).natDegree ≤ maxExpt :=
    (natDegree_mul_le_of_degree_le le_rfl degree_derivative_le).trans h
  have hsum := (ha.derivative.mul hb hleft).add (ha.mul hb.derivative hright)
  exact (ha.mul hb h).derivative.congr hsum Polynomial.derivative_mul

omit hb in
/-- A number as antiderivative means that the largest exponent is out of use. -/
theorem Represents.natDegree_lt_of_antiderivative {c : Scalar} (h : (a.antiderivative c).isNaN = false) :
    A.natDegree < maxExpt := by
  by_contra hlt
  have hmax : A.natDegree = maxExpt := le_antisymm ha.natDegree_le (not_lt.mp hlt)
  have hA : A ≠ 0 := by
    rintro rfl
    rw [natDegree_zero] at hlt
    exact hlt (by decide)
  rw [ha.antiderivative_eq_nan c hA hmax, isNaN_nan] at h
  exact Bool.false_ne_true h.symm

theorem Represents.antiderivative_add {c d : Scalar} (hc : c ≠ .nan) (hd : d ≠ .nan)
    (hac : (a.antiderivative c).isNaN = false) (hbd : (b.antiderivative d).isNaN = false) :
    (a + b).antiderivative (c + d) = a.antiderivative c + b.antiderivative d := by
  have hA := ha.natDegree_lt_of_antiderivative hac
  have hB := hb.natDegree_lt_of_antiderivative hbd
  have hsum : (A + B).natDegree < maxExpt := (natDegree_add_le A B).trans_lt (max_lt hA hB)
  have hcd : c + d ≠ .nan := by
    rw [Ne, Scalar.add_eq_nan_iff, not_or]
    exact ⟨hc, hd⟩
  obtain ⟨F, hF, hderF, hF0⟩ := ha.antiderivative hc (.inr hA)
  obtain ⟨G, hG, hderG, hG0⟩ := hb.antiderivative hd (.inr hB)
  obtain ⟨S, hS, hderS, hS0⟩ := (ha.add hb).antiderivative hcd (.inr hsum)
  refine hS.congr (hF.add hG) (eq_of_derivative_eq ?_ ?_)
  · rw [hderS, Polynomial.derivative_add, hderF, hderG]
  · rw [hS0, coeff_add, hF0, hG0, Scalar.toRat_add hc hd]

end Rules

/-- Besides the rules, no side of them is NaN. -/
theorem calculus_rules {a b : Poly} (ha : Reachable a) (hb : Reachable b) (han : a.isNaN = false)
    (hbn : b.isNaN = false) :
    ((a + b).derivative.isNaN = false ∧ ((a + b).derivative == a.derivative + b.derivative) = true) ∧
    ((a * b).isNaN = false →
      (a * b).derivative.isNaN = false ∧ ((a * b).derivative == a.derivative * b + a * b.derivative) = true) ∧
    ∀ c d : Scalar, c.isNaN = false → d.isNaN = false → (a.antiderivative c).isNaN = false →
      (b.antiderivative d).isNaN = false →
      ((a + b).antiderivative (c + d)).isNaN = false ∧
      ((a + b).antiderivative (c + d) == a.antiderivative c + b.antiderivative d) = true := by
  obtain ⟨A, hA⟩ := ha.represents han
  obtain ⟨B, hB⟩ := hb.represents hbn
  refine ⟨⟨(hA.add hB).derivative.not_nan, beq_of_eq (hA.derivative_add hB)⟩, fun hn => ?_, fun c d hc hd hac hbd => ?_⟩
  · have h := hA.natDegree_mul_le hB hn
    exact ⟨(hA.mul hB h).derivative.not_nan, beq_of_eq (hA.derivative_mul hB h)⟩
  · have hadd := hA.antiderivative_add hB (Scalar.isNaN_eq_false_iff.mp hc) (Scalar.isNaN_eq_false_iff.mp hd) hac hbd
    refine ⟨?_, beq_of_eq hadd⟩
    rw [hadd, isNaN_add, hac, hbd, Bool.or_false]

/-- The product has the largest degree, and the constants cancel. -/
theorem calculus_rules_largest_degree :
    let a := ofInt 3 4294967294 - ofInt 1 0
    let b := ofInt 2 1 + ofInt 1 0
    (a * b).degree = maxExpt ∧
    ((a + b).derivative == a.derivative + b.derivative) = true ∧
    ((a * b).derivative == a.derivative * b + a * b.derivative) = true ∧
    ((a + b).antiderivative (.ofInt 5 + .ofInt (-5)) == a.antiderivative (.ofInt 5) + b.antiderivative (.ofInt (-5))) =
      true := by
  intro a b
  have ha : Reachable a := .sub (.ofInt 3 (by decide)) (.ofInt 1 (by decide))
  have hb : Reachable b := .add (.ofInt 2 (by decide)) (.ofInt 1 (by decide))
  obtain ⟨⟨-, hadd⟩, hmul, hanti⟩ := calculus_rules ha hb (by decide +kernel) (by decide +kernel)
  refine ⟨by decide +kernel, hadd, (hmul (by decide +kernel)).2, ?_⟩
  exact (hanti (.ofInt 5) (.ofInt (-5)) rfl rfl (by decide +kernel) (by decide +kernel)).2

end ExactPoly.Poly
