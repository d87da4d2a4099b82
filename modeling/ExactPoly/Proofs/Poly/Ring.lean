import ExactPoly.Proofs.Poly.Euclidean
import ExactPoly.Proofs.Poly.Overflow

/-!
# The laws of a ring, up to overflow

* `Represents.mul_congr` : products of equal value are equal, also when they overflow;
* `Canonical.add_comm`, ..., `Canonical.mul_add` : the laws as equations of canonical polynomials; associativity and
  distributivity need the inner products to be numbers, the outer ones may overflow;
* `ring_laws_of_reachable` : the laws up to `==`, for reachable polynomials.
-/

open Polynomial

namespace ExactPoly.Poly

theorem represents_one : (ofInt 1 0).Represents 1 := by
  have h1 : (Scalar.ofInt 1) = .ofRat 1 := rfl
  have h := represents_ofTerm (t := .monomial (.ofInt 1) 0) (by decide)
  rwa [h1, Term.toPolynomial_monomial 1 (Nat.zero_le _), monomial_zero_one] at h

theorem Represents.mul_congr {p q p' q' : Poly} {P Q P' Q' : ℚ[X]} (hp : p.Represents P) (hq : q.Represents Q)
    (hp' : p'.Represents P') (hq' : q'.Represents Q') (h : P * Q = P' * Q') : p * q = p' * q' := by
  rcases le_or_gt (P * Q).natDegree maxExpt with hle | hlt
  · exact (hp.mul hq hle).congr (hp'.mul hq' (h ▸ hle)) h
  · rw [hp.mul_eq_nan hq hlt, hp'.mul_eq_nan hq' (h ▸ hlt)]

theorem not_nan_of_mul {p q : Poly} (h : (p * q).isNaN = false) : p.isNaN = false ∧ q.isNaN = false := by
  have hn : ¬ (p.isNaN = true ∨ q.isNaN = true) := by
    intro hn
    rw [mul_of_isNaN hn] at h
    exact absurd h (by decide)
  simpa using hn

section Laws
variable {a b c : Poly}

/-! ## Sums and negatives -/

theorem Canonical.add_comm (ha : a.Canonical) (hb : b.Canonical) : a + b = b + a := by
  rcases canonical_iff.mp ha with rfl | ⟨A, hA⟩
  · rw [nan_add, add_nan]
  rcases canonical_iff.mp hb with rfl | ⟨B, hB⟩
  · rw [nan_add, add_nan]
  exact (hA.add hB).congr (hB.add hA) (by ring)

theorem Canonical.add_assoc (ha : a.Canonical) (hb : b.Canonical) (hc : c.Canonical) : a + b + c = a + (b + c) := by
  rcases canonical_iff.mp ha with rfl | ⟨A, hA⟩
  · rw [nan_add, nan_add, nan_add]
  rcases canonical_iff.mp hb with rfl | ⟨B, hB⟩
  · rw [nan_add, add_nan, nan_add]
  rcases canonical_iff.mp hc with rfl | ⟨C, hC⟩
  · rw [add_nan, add_nan, add_nan]
  exact ((hA.add hB).add hC).congr (hA.add (hB.add hC)) (by ring)

theorem Canonical.add_zero (ha : a.Canonical) : a + 0 = a := by
  rcases canonical_iff.mp ha with rfl | ⟨A, hA⟩
  · rw [nan_add]
  exact (hA.add represents_zero).congr hA (by ring)

theorem Canonical.neg_neg (ha : a.Canonical) : - -a = a := by
  rcases canonical_iff.mp ha with rfl | ⟨A, hA⟩
  · rw [neg_nan, neg_nan]
  exact hA.neg.neg.congr hA (by ring)

theorem Canonical.add_sub_cancel (ha : a.Canonical) (hb : b.Canonical) (hn : b.isNaN = false) : a + b - b = a := by
  obtain ⟨B, hB⟩ := hb.represents hn
  rcases canonical_iff.mp ha with rfl | ⟨A, hA⟩
  · rw [sub_def, nan_add, nan_add]
  exact ((hA.add hB).sub hB).congr hA (by ring)

/-! ## Products -/

theorem Canonical.mul_comm (ha : a.Canonical) (hb : b.Canonical) : a * b = b * a := by
  rcases canonical_iff.mp ha with rfl | ⟨A, hA⟩
  · rw [nan_mul, mul_nan]
  rcases canonical_iff.mp hb with rfl | ⟨B, hB⟩
  · rw [nan_mul, mul_nan]
  exact hA.mul_congr hB hB hA (by ring)

theorem Canonical.mul_one (ha : a.Canonical) : a * ofInt 1 0 = a := by
  rcases canonical_iff.mp ha with rfl | ⟨A, hA⟩
  · rw [nan_mul]
  have h : A * 1 = A := by ring
  have hle : (A * 1).natDegree ≤ maxExpt := by
    rw [h]
    exact hA.natDegree_le
  exact (hA.mul represents_one hle).congr hA h

theorem Canonical.mul_assoc (ha : a.Canonical) (hb : b.Canonical) (hc : c.Canonical) (hab : (a * b).isNaN = false)
    (hbc : (b * c).isNaN = false) : a * b * c = a * (b * c) := by
  obtain ⟨A, hA⟩ := ha.represents (not_nan_of_mul hab).1
  obtain ⟨B, hB⟩ := hb.represents (not_nan_of_mul hab).2
  obtain ⟨C, hC⟩ := hc.represents (not_nan_of_mul hbc).2
  have hAB := hA.mul hB (hA.natDegree_mul_le hB hab)
  have hBC := hB.mul hC (hB.natDegree_mul_le hC hbc)
  exact hAB.mul_congr hC hA hBC (by ring)

theorem Canonical.mul_add (ha : a.Canonical) (hb : b.Canonical) (hc : c.Canonical) (hab : (a * b).isNaN = false)
    (hac : (a * c).isNaN = false) : a * (b + c) = a * b + a * c := by
  obtain ⟨A, hA⟩ := ha.represents (not_nan_of_mul hab).1
  obtain ⟨B, hB⟩ := hb.represents (not_nan_of_mul hab).2
  obtain ⟨C, hC⟩ := hc.represents (not_nan_of_mul hac).2
  have hAB := hA.natDegree_mul_le hB hab
  have hAC := hA.natDegree_mul_le hC hac
  have h : A * (B + C) = A * B + A * C := by ring
  have hle : (A * (B + C)).natDegree ≤ maxExpt := by
    rw [h]
    exact (natDegree_add_le _ _).trans (max_le hAB hAC)
  exact (hA.mul (hB.add hC) hle).congr ((hA.mul hB hAB).add (hA.mul hC hAC)) h

end Laws

theorem ring_laws_of_reachable {a b c : Poly} (ha : Reachable a) (hb : Reachable b) (hc : Reachable c) :
    (a + b == b + a) = true ∧
    (a + b + c == a + (b + c)) = true ∧
    (a + 0 == a) = true ∧
    (a * b == b * a) = true ∧
    (a * ofInt 1 0 == a) = true ∧
    (- -a == a) = true ∧
    (a.isNaN = false → b.isNaN = false → (a + b - b == a) = true) ∧
    ((a * b).isNaN = false → (b * c).isNaN = false → (a * b * c == a * (b * c)) = true) ∧
    ((a * b).isNaN = false → (a * c).isNaN = false → (a * (b + c) == a * b + a * c) = true) := by
  have ha := ha.canonical
  have hb := hb.canonical
  have hc := hc.canonical
  refine ⟨beq_of_eq (ha.add_comm hb), beq_of_eq (ha.add_assoc hb hc), beq_of_eq ha.add_zero, beq_of_eq (ha.mul_comm hb),
    beq_of_eq ha.mul_one, beq_of_eq ha.neg_neg, fun _ hbn => ?_, fun hab hbc => ?_, fun hab hac => ?_⟩
  · exact beq_of_eq (ha.add_sub_cancel hb hbn)
  · exact beq_of_eq (ha.mul_assoc hb hc hab hbc)
  · exact beq_of_eq (ha.mul_add hb hc hab hac)

/-- Both products of three overflow, though the products of two do not. -/
theorem ring_laws_of_reachable_overflow :
    let a := ofInt 1 2147483647
    let b := ofInt 1 2147483648
    let c := ofInt 1 1 - ofInt 1 0
    (a * b * c).isNaN = true ∧ (a * b * c == a * (b * c)) = true ∧ (a * (b + c) == a * b + a * c) = true ∧
    (a + b - b == a) = true := by
  intro a b c
  have ha : Reachable a := .ofInt 1 (by decide)
  have hb : Reachable b := .ofInt 1 (by decide)
  have hc : Reachable c := .sub (.ofInt 1 (by decide)) (.ofInt 1 (by decide))
  have hab : (a * b).isNaN = false := by decide +kernel
  obtain ⟨-, -, -, -, -, -, hsub, hassoc, hdistrib⟩ := ring_laws_of_reachable ha hb hc
  exact ⟨by decide +kernel, hassoc hab (by decide +kernel), hdistrib hab (by decide +kernel),
    hsub (by decide +kernel) (by decide +kernel)⟩

end ExactPoly.Poly
