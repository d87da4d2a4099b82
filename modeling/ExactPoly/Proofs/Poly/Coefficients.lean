import ExactPoly.Proofs.Poly.Overflow
import ExactPoly.Proofs.TermList.Insertion

/-!
# Coefficients

* `TermList.find?_takeWhile` : in a descending list, a search that stops at the first smaller exponent misses nothing;
* `Canonical.termAt_eq_iff` : `termAt` gives the stored term, or zero when there is none;
* `Represents.coeff_termAt` : its coefficient is that of the polynomial;
* `coeff_termAt_add_sub_neg` : sums, differences and negatives go coefficient by coefficient;
* `mul_convolution` : the coefficients of a product, up to the largest exponent.
-/

open Polynomial
open Finset.HasAntidiagonal (antidiagonal)

namespace ExactPoly

/-! ## Search in a descending list -/

theorem TermList.find?_takeWhile {l : List Term} (hl : l.Pairwise fun s t => t.expt < s.expt) (e : Nat) :
    (l.takeWhile (e ≤ ·.expt)).find? (·.expt = e) = stored? l e := by
  induction l with
  | nil => rfl
  | cons s l ih =>
    obtain ⟨hlt, hl⟩ := List.pairwise_cons.mp hl
    by_cases h : e ≤ s.expt
    · rw [List.takeWhile_cons_of_pos (by simpa using h), List.find?_cons, ih hl, stored?, stored?, List.find?_cons]
    · rw [List.takeWhile_cons_of_neg (by simpa using h), List.find?_nil, eq_comm, stored?_eq_none_iff]
      intro t ht
      have hle : t.expt ≤ s.expt := by
        rcases List.mem_cons.mp ht with rfl | ht
        · exact le_rfl
        · exact (hlt t ht).le
      omega

namespace Poly

/-! ## Stored terms -/

theorem Canonical.descending {p : Poly} (hp : p.Canonical) : p.terms.Pairwise fun s t => t.expt < s.expt := by
  rcases hp with h | h
  · rw [h]
    exact List.pairwise_singleton _ _
  · exact h.2

section Stored
variable {p : Poly} (hp : p.Canonical)
include hp

theorem Canonical.termAt_eq_stored? (e : Nat) : p.termAt e = (TermList.stored? p.terms e).getD 0 := by
  rw [termAt, TermList.find?_takeWhile hp.descending]

theorem Canonical.termAt_expt {t : Term} (ht : t ∈ p.terms) : p.termAt t.expt = t := by
  rw [hp.termAt_eq_stored?, (TermList.stored?_eq_some_iff hp.descending).mpr ⟨ht, rfl⟩, Option.getD_some]

theorem Canonical.termAt_eq_zero {e : Nat} (h : ∀ s ∈ p.terms, s.expt ≠ e) : p.termAt e = 0 := by
  rw [hp.termAt_eq_stored?, TermList.stored?_eq_none_iff.mpr h]
  rfl

theorem Canonical.termAt_eq_iff {e : Nat} {t : Term} :
    p.termAt e = t ↔ (t ∈ p.terms ∧ t.expt = e) ∨ ((∀ s ∈ p.terms, s.expt ≠ e) ∧ t = 0) := by
  constructor
  · rintro rfl
    by_cases h : ∃ s ∈ p.terms, s.expt = e
    · obtain ⟨s, hs, rfl⟩ := h
      rw [hp.termAt_expt hs]
      exact .inl ⟨hs, rfl⟩
    · have hne : ∀ s ∈ p.terms, s.expt ≠ e := fun s hs he => h ⟨s, hs, he⟩
      exact .inr ⟨hne, hp.termAt_eq_zero hne⟩
  · rintro (⟨ht, rfl⟩ | ⟨hne, rfl⟩)
    · exact hp.termAt_expt ht
    · exact hp.termAt_eq_zero hne

end Stored

theorem Represents.coeff_termAt {p : Poly} {P : ℚ[X]} (hp : p.Represents P) (e : Nat) :
    (p.termAt e).coeff = .ofRat (P.coeff e) := by
  rcases hp.isCanonical.termAt_eq_iff.mp rfl with ⟨ht, he⟩ | ⟨hne, h0⟩
  · have hc := ((hp.canonical.mem_iff hp.not_nan).mp ht).1
    rwa [hp.terms_eq, he] at hc
  · rw [h0, ← hp.terms_eq, TermList.coeff_toPolynomial_of_ne hne]
    rfl

/-! ## Sums, differences and negatives -/

/-- The last part says what `termAt` looks up: the stored term of the exponent, or zero when none is stored. -/
theorem coeff_termAt_add_sub_neg {a b : Poly} (ha : Reachable a) (hb : Reachable b) (han : a.isNaN = false)
    (hbn : b.isNaN = false) (e : Nat) :
    ((a + b).termAt e).coeff = (a.termAt e).coeff + (b.termAt e).coeff ∧
    ((a - b).termAt e).coeff = (a.termAt e).coeff - (b.termAt e).coeff ∧
    ((-a).termAt e).coeff = -(a.termAt e).coeff ∧
    ∀ p, Reachable p → ∀ t, p.termAt e = t ↔ (t ∈ p.terms ∧ t.expt = e) ∨ ((∀ s ∈ p.terms, s.expt ≠ e) ∧ t = 0) := by
  obtain ⟨A, hA⟩ := ha.represents han
  obtain ⟨B, hB⟩ := hb.represents hbn
  rw [hA.coeff_termAt, hB.coeff_termAt]
  refine ⟨?_, ?_, ?_, fun p hp t => hp.canonical.termAt_eq_iff⟩
  · rw [(hA.add hB).coeff_termAt, coeff_add, Scalar.ofRat_add]
  · rw [(hA.sub hB).coeff_termAt, coeff_sub, Scalar.ofRat_sub]
  · rw [hA.neg.coeff_termAt, coeff_neg, Scalar.neg_ofRat]

/-- At exponent two the terms cancel, and none is stored. -/
theorem coeff_termAt_add_sub_neg_cancelled :
    let a := ofInt 1 2 + ofInt 1 0
    let b := ofInt 1 1 - ofInt 1 2
    ((a + b).termAt 2).coeff = 1 + -1 ∧ ((a - b).termAt 2).coeff = 1 - -1 ∧ ((-a).termAt 2).coeff = -1 ∧
    (a + b).termAt 2 = 0 := by
  intro a b
  have ha : Reachable a := .add (.ofInt 1 (by decide)) (.ofInt 1 (by decide))
  have hb : Reachable b := .sub (.ofInt 1 (by decide)) (.ofInt 1 (by decide))
  obtain ⟨hadd, hsub, hneg, hterm⟩ := coeff_termAt_add_sub_neg ha hb (by decide +kernel) (by decide +kernel) 2
  have ha2 : (a.termAt 2).coeff = 1 := by decide +kernel
  have hb2 : (b.termAt 2).coeff = -1 := by decide +kernel
  rw [ha2, hb2] at hadd hsub
  rw [ha2] at hneg
  exact ⟨hadd, hsub, hneg, (hterm _ (ha.add hb) 0).mpr (.inr ⟨by decide +kernel, rfl⟩)⟩

/-! ## Products -/

theorem Represents.coeff_termAt_mul {a b : Poly} {A B : ℚ[X]} (ha : a.Represents A) (hb : b.Represents B)
    (h : (A * B).natDegree ≤ maxExpt) (e : Nat) :
    ((a * b).termAt e).coeff = ∑ ij ∈ antidiagonal e, (a.termAt ij.1).coeff * (b.termAt ij.2).coeff := by
  rw [(ha.mul hb h).coeff_termAt, coeff_mul, Scalar.ofRat_sum]
  refine Finset.sum_congr rfl fun ij _ => ?_
  rw [ha.coeff_termAt, hb.coeff_termAt, Scalar.ofRat_mul]

theorem Represents.lead?_mul {a b : Poly} {A B : ℚ[X]} (ha : a.Represents A) (hb : b.Represents B)
    (h : (A * B).natDegree ≤ maxExpt) (hA : A ≠ 0) (hB : B ≠ 0) :
    ∃ s ∈ a.lead?, ∃ t ∈ b.lead?, ∃ u ∈ (a * b).lead?, u.coeff = s.coeff * t.coeff := by
  obtain ⟨s, -, hs, hsc, -⟩ := ha.lead hA
  obtain ⟨t, -, ht, htc, -⟩ := hb.lead hB
  obtain ⟨u, -, hu, huc, -⟩ := (ha.mul hb h).lead (mul_ne_zero hA hB)
  refine ⟨s, hs, t, ht, u, hu, ?_⟩
  rw [hsc, htc, huc, leadingCoeff_mul, Scalar.ofRat_mul]

theorem mul_convolution {a b : Poly} (ha : Reachable a) (hb : Reachable b) (han : a.isNaN = false)
    (hbn : b.isNaN = false) (h : a.isZero = true ∨ b.isZero = true ∨ a.degree + b.degree ≤ maxExpt) :
    (a * b).isNaN = false ∧
    (∀ e, ((a * b).termAt e).coeff = ∑ ij ∈ antidiagonal e, (a.termAt ij.1).coeff * (b.termAt ij.2).coeff) ∧
    ((a * b).isZero = true → a.isZero = true ∨ b.isZero = true) ∧
    (a.isZero = false → b.isZero = false →
      (a * b).degree = a.degree + b.degree ∧
      ∃ s ∈ a.lead?, ∃ t ∈ b.lead?, ∃ u ∈ (a * b).lead?, u.coeff = s.coeff * t.coeff) := by
  obtain ⟨A, hA⟩ := ha.represents han
  obtain ⟨B, hB⟩ := hb.represents hbn
  have hle := (hA.natDegree_mul_le_iff hB).mpr h
  have hmul := hA.mul hB hle
  refine ⟨hmul.not_nan, hA.coeff_termAt_mul hB hle, fun h0 => ?_, fun ha0 hb0 => ⟨?_, ?_⟩⟩
  · rw [hA.isZero_iff, hB.isZero_iff]
    exact mul_eq_zero.mp (hmul.isZero_iff.mp h0)
  · rw [hmul.degree_eq, hA.degree_eq, hB.degree_eq, natDegree_mul (hA.ne_zero ha0) (hB.ne_zero hb0)]
  · exact hA.lead?_mul hB hle (hA.ne_zero ha0) (hB.ne_zero hb0)

/-- The degrees add up to the largest exponent. -/
theorem mul_convolution_largest_degree :
    let a := ofInt 2 4294967294 + ofInt 1 0
    let b := ofInt 3 1 - ofInt 1 0
    (a * b).isNaN = false ∧ (a * b).degree = 4294967295 ∧ ((a * b).termAt 1).coeff = .ofInt 3 ∧
    ∃ u ∈ (a * b).lead?, u.coeff = .ofInt 6 := by
  intro a b
  have ha : Reachable a := .add (.ofInt 2 (by decide)) (.ofInt 1 (by decide))
  have hb : Reachable b := .sub (.ofInt 3 (by decide)) (.ofInt 1 (by decide))
  obtain ⟨hn, hc, -, hlead⟩ :=
    mul_convolution ha hb (by decide +kernel) (by decide +kernel) (.inr (.inr (by decide +kernel)))
  obtain ⟨hdeg, s, hs, t, ht, u, hu, hst⟩ := hlead (by decide +kernel) (by decide +kernel)
  refine ⟨hn, hdeg.trans (by decide +kernel), (hc 1).trans (by decide +kernel), u, hu, ?_⟩
  obtain rfl := Option.some.inj (hs.symm.trans (show a.lead? = some (.monomial (.ofInt 2) 4294967294) by decide +kernel))
  obtain rfl := Option.some.inj (ht.symm.trans (show b.lead? = some (.monomial (.ofInt 3) 1) by decide +kernel))
  exact hst.trans (by decide +kernel)

end Poly

end ExactPoly
