import ExactPoly.Proofs.Poly.Equality

/-!
# Division with remainder is Euclidean division

* `Represents.divMod_mul_add` : quotient and remainder give back the dividend;
* `Represents.divMod_eq` : they are the only pair of polynomials that does, with a remainder that is small enough;
* `divMod_euclidean` : both for reachable polynomials.
-/

open Polynomial

namespace ExactPoly.Poly

section Division
variable {u v : Poly} {U V : ℚ[X]} (hu : u.Represents U) (hv : v.Represents V) (hV : V ≠ 0)
include hu hv hV

theorem Represents.divMod_mul_add : (Poly.divMod u v).1 * v + (Poly.divMod u v).2 = u := by
  obtain ⟨hq, hr⟩ := hu.divMod hv hV
  have hdiv : U / V * V + U % V = U := by
    rw [mul_comm]
    exact EuclideanDomain.div_add_mod U V
  exact hq.mul_add_eq hv hr hu hdiv

theorem Represents.divMod_eq {q r : Poly} {Q R : ℚ[X]} (hq : q.Represents Q) (hr : r.Represents R) (h : Q * V + R = U)
    (hd : R.degree < V.degree) : Poly.divMod u v = (q, r) := by
  obtain ⟨hQ, hR⟩ := div_mod_unique h hd
  obtain ⟨hq', hr'⟩ := hu.divMod hv hV
  exact Prod.ext (hq'.unique (hQ ▸ hq)) (hr'.unique (hR ▸ hr))

end Division

theorem divMod_euclidean {u v : Poly} (hu : Reachable u) (hv : Reachable v) (hun : u.isNaN = false)
    (hvn : v.isNaN = false) (h0 : v.isZero = false) :
    (divMod u v).1.isNaN = false ∧ (divMod u v).2.isNaN = false ∧
    (divMod u v).1 * v + (divMod u v).2 = u ∧
    ((divMod u v).2.isZero = true ∨ (divMod u v).2.degree < v.degree) ∧
    u / v = (divMod u v).1 ∧
    ∀ q r : Poly, Reachable q → Reachable r → q.isNaN = false → r.isNaN = false →
      (q * v + r == u) = true → (r.isZero = true ∨ r.degree < v.degree) →
      q = (divMod u v).1 ∧ r = (divMod u v).2 ∧ divMod (q * v + r) v = (q, r) := by
  obtain ⟨U, hU⟩ := hu.represents hun
  obtain ⟨V, hV⟩ := hv.represents hvn
  have hV0 := hV.ne_zero h0
  obtain ⟨hq, hr⟩ := hU.divMod hV hV0
  refine ⟨hq.not_nan, hr.not_nan, hU.divMod_mul_add hV hV0, (hr.degree_lt_iff hV hV0).mp (degree_mod_lt U hV0), rfl, ?_⟩
  intro q r hqr hrr hqn hrn heq hdeg
  obtain ⟨Q, hQ⟩ := hqr.represents hqn
  obtain ⟨R, hR⟩ := hrr.represents hrn
  obtain rfl := (Canonical.beq_iff ((hqr.mul hv).add hrr).canonical hu.canonical).mp heq
  have hmul : (q * v).isNaN = false := by
    rw [Bool.eq_false_iff]
    intro h
    rw [add_of_isNaN (.inl h)] at hun
    exact absurd hun (by decide)
  have hsum := (hQ.mul hV (hQ.natDegree_mul_le hV hmul)).add hR
  have hdiv := hU.divMod_eq hV hV0 hQ hR (hsum.terms_eq.symm.trans hU.terms_eq) ((hR.degree_lt_iff hV hV0).mpr hdeg)
  rw [hdiv]
  exact ⟨rfl, rfl, rfl⟩

theorem divMod_euclidean_square_sub_one :
    let u := ofInt 1 2 - ofInt 1 0
    let v := ofInt 1 1 + ofInt 1 0
    let q := ofInt 1 1 - ofInt 1 0
    u / v = (divMod u v).1 ∧ q = (divMod u v).1 ∧ 0 = (divMod u v).2 := by
  intro u v q
  have he : ∀ e ≤ 2, e ≤ maxExpt := fun e he => he.trans (by decide)
  have h0 : Reachable (ofInt 1 0) := .ofInt 1 (he 0 (by decide))
  have h1 : Reachable (ofInt 1 1) := .ofInt 1 (he 1 (by decide))
  have h2 : Reachable (ofInt 1 2) := .ofInt 1 (he 2 (by decide))
  obtain ⟨-, -, -, -, hdiv, hunique⟩ :=
    divMod_euclidean (h2.sub h0) (h1.add h0) (by decide +kernel) (by decide +kernel) (by decide +kernel)
  obtain ⟨hq, hr, -⟩ :=
    hunique q 0 (h1.sub h0) .zero (by decide +kernel) rfl (by decide +kernel) (.inl rfl)
  exact ⟨hdiv, hq, hr⟩

end ExactPoly.Poly
