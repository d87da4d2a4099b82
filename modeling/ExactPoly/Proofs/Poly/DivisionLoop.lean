import ExactPoly.Proofs.Poly.Euclidean

/-!
# The steps of a division are safe

* `lead?_mulTerm_step`, `termAt_sub_step`, `degree_sub_step` : a step cancels the leading term, and nothing above it
  appears;
* `DivState.eq_of_degree_lt` : a dividend of smaller degree is left as it is;
* `longDivision_safe` : what holds at every entry of the loop, what every step does and that the loop ends.
-/

open Polynomial

namespace ExactPoly.Poly

section Step
variable {v r : Poly} {V R : ℚ[X]} (hv : v.Represents V) (hr : r.Represents R) (hV : V ≠ 0) {t : Term}
  (ht : nextStep? v r = some t)
include hv hr hV ht

theorem lead?_mulTerm_step : (v.mulTerm t).lead? = r.lead? := by
  obtain ⟨-, hR, -⟩ := nextStep?_eq_some hv hr hV ht
  obtain ⟨hdeg, hlead⟩ := lead_mul_step hv hr hV ht
  have hne : V * t.toPolynomial ≠ 0 := by
    rw [← leadingCoeff_ne_zero, hlead]
    exact leadingCoeff_ne_zero.mpr hR
  obtain ⟨a, -, ha, hac, hae⟩ := (represents_step hv hr hV ht).1.lead hne
  obtain ⟨b, -, hb, hbc, hbe⟩ := hr.lead hR
  have hab : a = b := Term.ext (by rw [hac, hbc, hlead]) (by rw [hae, hbe, hdeg])
  rw [ha, hb, hab]

theorem termAt_sub_step {e : Nat} (he : r.degree ≤ e) : (r - v.mulTerm t).termAt e = 0 := by
  obtain ⟨-, hsub, hlt⟩ := represents_step hv hr hV ht
  have hcoeff : (R - V * t.toPolynomial).coeff e = 0 := by
    rw [hr.degree_eq] at he
    exact coeff_eq_zero_of_degree_lt (hlt.trans_le (natDegree_le_iff_degree_le.mp he))
  refine Term.eq_zero ?_
  rw [hsub.coeff_termAt, hcoeff]
  rfl

theorem degree_sub_step : (r - v.mulTerm t).isZero = true ∨ (r - v.mulTerm t).degree < r.degree := by
  obtain ⟨-, hR, -⟩ := nextStep?_eq_some hv hr hV ht
  obtain ⟨-, hsub, hlt⟩ := represents_step hv hr hV ht
  exact (hsub.degree_lt_iff hr hR).mp hlt

end Step

theorem DivState.eq_of_degree_lt {u v r : Poly} {U V : ℚ[X]} (hu : u.Represents U) (hv : v.Represents V) (hV : V ≠ 0)
    (hlt : U.degree < V.degree) {ts : List Term} (h : DivState u v ts r) : ts = [] ∧ r = u := by
  induction h with
  | start => exact ⟨rfl, rfl⟩
  | step _ ht ih =>
    obtain ⟨-, rfl⟩ := ih
    rw [(nextStep?_eq_none_iff hv hu hV).mpr hlt] at ht
    exact absurd ht (Option.some_ne_none _).symm

/-- A state is an entry of the loop, and the length of its list the number of steps made before. -/
theorem longDivision_safe {u v : Poly} (hu : Reachable u) (hv : Reachable v) (hun : u.isNaN = false)
    (hvn : v.isNaN = false) (h0 : v.isZero = false) :
    (∀ ts r, DivState u v ts r →
      r.Canonical ∧ r.isNaN = false ∧
      ts.Pairwise (fun s t => t.expt < s.expt) ∧ (∀ t ∈ ts, t.isZero = false ∧ t.isNaN = false) ∧
      ((⟨ts⟩ : Poly) * v + r == u) = true ∧
      (v.degree ≤ u.degree → ts.length ≤ u.degree - v.degree + 1) ∧
      (u.isZero = true ∨ u.degree < v.degree → ts = []) ∧
      ∀ t, nextStep? v r = some t →
        (∃ a ∈ r.lead?, ∃ b ∈ v.lead?, b.expt ≤ a.expt ∧ t = .monomial (a.coeff / b.coeff) (a.expt - b.expt)) ∧
        (∀ s ∈ v.terms, s.expt + t.expt ≤ maxExpt) ∧ (v.mulTerm t).isNaN = false ∧
        (v.mulTerm t).lead? = r.lead? ∧ (r - v.mulTerm t).termAt r.degree = 0 ∧
        ((r - v.mulTerm t).isZero = true ∨ (r - v.mulTerm t).degree < r.degree)) ∧
    ∃ ts r, DivState u v ts r ∧ nextStep? v r = none ∧ divMod u v = (⟨ts⟩, r) := by
  obtain ⟨U, hU⟩ := hu.represents hun
  obtain ⟨V, hV⟩ := hv.represents hvn
  have hV0 := hV.ne_zero h0
  refine ⟨fun ts r h => ?_, DivState.exists_final hU hV hV0⟩
  obtain ⟨Q, R, hinv⟩ := h.loopInvariant hU hV hV0
  have hq := hinv.quotient
  have hr := hinv.remainder
  refine ⟨hr.isCanonical, hr.not_nan, hq.canonical.descending, fun t ht => ⟨?_, ?_⟩, ?_, fun _ => ?_, fun hdeg => ?_,
    fun t ht => ?_⟩
  · exact Term.isZero_eq_false_iff.mpr (hq.canonical.ne_zero t ht)
  · exact Term.isNaN_eq_false_iff.mpr (hq.coeff_ne_nan ht)
  · exact beq_of_eq (hq.mul_add_eq hV hr hU hinv.sum_eq)
  · have := hinv.length_le
    rw [hU.degree_eq, hV.degree_eq]
    omega
  · exact (DivState.eq_of_degree_lt hU hV hV0 ((hU.degree_lt_iff hV hV0).mpr hdeg) h).1
  · obtain ⟨-, hexpt, hmul, -⟩ := h.not_nan_of_step hu hv hun hvn h0 ht
    refine ⟨nextStep?_eq_some_iff.mp ht, hexpt, hmul, lead?_mulTerm_step hV hr hV0 ht, ?_, degree_sub_step hV hr hV0 ht⟩
    exact termAt_sub_step hV hr hV0 ht le_rfl

/-- The product of the only step has the largest exponent, and a remainder of degree one is left. -/
theorem longDivision_safe_largest_degree :
    let u := ofInt 3 4294967295 + ofInt 1 0
    let v := ofInt 2 4294967294 - ofInt 1 0
    let t : Term := .monomial (.ofRat (3 / 2)) 1
    let r := u - v.mulTerm t
    ((⟨[t]⟩ : Poly) * v + r == u) = true ∧ [t].length ≤ u.degree - v.degree + 1 ∧ (v.mulTerm t).lead? = u.lead? ∧
    r.termAt 4294967295 = 0 ∧ (r.isZero = true ∨ r.degree < 4294967295) ∧ r.degree = 1 := by
  intro u v t r
  have hu : Reachable u := .add (.ofInt 3 (by decide)) (.ofInt 1 (by decide))
  have hv : Reachable v := .sub (.ofInt 2 (by decide)) (.ofInt 1 (by decide))
  have ht : nextStep? v u = some t := by decide +kernel
  have hdeg : u.degree = 4294967295 := by decide +kernel
  obtain ⟨hstate, -⟩ := longDivision_safe hu hv (by decide +kernel) (by decide +kernel) (by decide +kernel)
  obtain ⟨-, -, -, -, -, -, -, hstep⟩ := hstate [] u .start
  obtain ⟨-, -, -, hlead, hterm, hlt⟩ := hstep t ht
  obtain ⟨-, -, -, -, hsum, hlen, -, -⟩ := hstate [t] r (.step .start ht)
  rw [hdeg] at hterm hlt
  exact ⟨hsum, hlen (by decide +kernel), hlead, hterm, hlt, by decide +kernel⟩

end ExactPoly.Poly
