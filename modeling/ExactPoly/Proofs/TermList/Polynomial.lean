import Mathlib.Algebra.Polynomial.Coeff
import Mathlib.Tactic.LinearCombination
import ExactPoly.Proofs.TermList.Canonical

/-!
# Lists of terms as polynomials

A list of terms stands for a polynomial over the rationals, the sum of its terms.

* `toPolynomial_merge`, `toPolynomial_insertAll`, `toPolynomial_scale`, `toPolynomial_shift` : the operations through this
  view, for lists without a NaN term;
* `coeff_toPolynomial` : a term of a canonical list is the coefficient at its exponent;
* `Canonical.eq_of_toPolynomial_eq` : the canonical list of a polynomial is unique.
-/

open Polynomial

namespace ExactPoly.TermList

/-- The sum of the terms. -/
noncomputable def toPolynomial (l : List Term) : ℚ[X] := (l.map Term.toPolynomial).sum

@[simp] theorem toPolynomial_nil : toPolynomial [] = 0 := rfl

@[simp] theorem toPolynomial_cons (t : Term) (l : List Term) :
    toPolynomial (t :: l) = t.toPolynomial + toPolynomial l := rfl

@[simp] theorem toPolynomial_append (l l' : List Term) :
    toPolynomial (l ++ l') = toPolynomial l + toPolynomial l' := by
  rw [toPolynomial, List.map_append, List.sum_append]
  rfl

/-- A map of terms that is linear on their polynomials is that linear map on the whole list. -/
theorem toPolynomial_map {f : Term → Term} (D : ℚ[X] →ₗ[ℚ] ℚ[X]) {l : List Term}
    (h : ∀ t ∈ l, (f t).toPolynomial = D t.toPolynomial) : toPolynomial (l.map f) = D (toPolynomial l) := by
  induction l with
  | nil => simp
  | cons t l ih =>
    rw [List.map_cons, toPolynomial_cons, toPolynomial_cons, h t (by simp), ih fun u hu => h u (by simp [hu]), map_add]

/-! ## The operations -/

theorem toPolynomial_merge {t : Term} {l : List Term} (hl : l.any Term.isNaN = false) (ht : t.coeff ≠ .nan) :
    toPolynomial (merge t l) = toPolynomial l + t.toPolynomial := by
  induction l with
  | nil => simp [merge]
  | cons s l ih =>
    have hs : s.coeff ≠ .nan := coeff_ne_nan hl (by simp)
    have hl' : l.any Term.isNaN = false := by
      rw [List.any_cons, Bool.or_eq_false_iff] at hl
      exact hl.2
    rcases lt_trichotomy t.expt s.expt with h | h | h
    · rw [merge_cons_of_lt l h, toPolynomial_cons, ih hl', toPolynomial_cons]
      ring
    · have hadd := Term.toPolynomial_add h.symm hs ht
      rw [merge_cons_of_eq l h.symm, toPolynomial_cons]
      split
      · next h0 =>
        rw [Term.toPolynomial_of_zero (by rwa [Term.coeff_monomial])] at hadd
        linear_combination hadd
      · rw [toPolynomial_cons, hadd]
        ring
    · rw [merge_cons_of_gt l h, toPolynomial_cons]
      ring

theorem toPolynomial_insert {t : Term} {l : List Term} (hl : l.any Term.isNaN = false) (ht : t.coeff ≠ .nan) :
    toPolynomial (insert t l) = toPolynomial l + t.toPolynomial := by
  unfold insert
  split
  · next h => rw [Term.toPolynomial_of_zero (by simpa using h), add_zero]
  · exact toPolynomial_merge hl ht

theorem toPolynomial_insertAll {l ts : List Term} (hl : l.any Term.isNaN = false) (hts : ts.any Term.isNaN = false) :
    toPolynomial (insertAll l ts) = toPolynomial l + toPolynomial ts := by
  induction ts generalizing l with
  | nil => simp [insertAll]
  | cons t ts ih =>
    have ht : t.coeff ≠ .nan := coeff_ne_nan hts (by simp)
    rw [List.any_cons, Bool.or_eq_false_iff] at hts
    have hins : (insert t l).any Term.isNaN = false := by rw [any_isNaN_insert, hts.1, hl, Bool.or_false]
    have h : insertAll l (t :: ts) = insertAll (insert t l) ts := rfl
    rw [h, ih hins hts.2, toPolynomial_insert hl ht, toPolynomial_cons, add_assoc]

theorem toPolynomial_scale {a : Scalar} (ha : a ≠ .nan) {l : List Term} (hn : l.any Term.isNaN = false) :
    toPolynomial (scale a l) = toPolynomial l * C a.toRat := by
  by_cases h0 : a = 0
  · rw [h0, scale_zero, toPolynomial_nil, Scalar.zero_def, Scalar.toRat_ofRat, C_0, mul_zero]
  · rw [scale_of_ne_zero h0]
    exact toPolynomial_map (LinearMap.mulRight ℚ (C a.toRat)) fun t ht => Term.toPolynomial_scale ha (coeff_ne_nan hn ht)

theorem toPolynomial_shift {d : Nat} {l : List Term} (hn : l.any Term.isNaN = false)
    (h : ∀ t ∈ l, t.expt + d ≤ maxExpt) : toPolynomial (shift d l) = toPolynomial l * X ^ d := by
  rw [shift_natCast h]
  exact toPolynomial_map (LinearMap.mulRight ℚ (X ^ d)) fun t ht =>
    Term.toPolynomial_withExpt (coeff_ne_nan hn ht) (h t ht)

/-! ## Coefficients of a canonical list -/

theorem coeff_toPolynomial_of_ne {l : List Term} {e : Nat} (h : ∀ t ∈ l, t.expt ≠ e) :
    (toPolynomial l).coeff e = 0 := by
  induction l with
  | nil => simp
  | cons t l ih =>
    rw [toPolynomial_cons, coeff_add, ih fun u hu => h u (by simp [hu]), Term.toPolynomial, coeff_monomial,
      if_neg (h t (by simp)), add_zero]

theorem Canonical.coeff_toPolynomial {l : List Term} (hl : Canonical l) {t : Term} (ht : t ∈ l) :
    (toPolynomial l).coeff t.expt = t.coeff.toRat := by
  induction l with
  | nil => simp at ht
  | cons s l ih =>
    obtain ⟨-, hlt, hl'⟩ := canonical_cons.mp hl
    rw [toPolynomial_cons, coeff_add, Term.toPolynomial, coeff_monomial]
    rcases List.mem_cons.mp ht with rfl | ht
    · rw [if_pos rfl, coeff_toPolynomial_of_ne fun u hu => (hlt u hu).ne, add_zero]
    · rw [if_neg (hlt t ht).ne', ih hl' ht, zero_add]

/-- A canonical list holds the term at an exponent exactly when that is the non-zero coefficient there. -/
theorem Canonical.mem_iff {l : List Term} (hl : Canonical l) (hn : l.any Term.isNaN = false) {t : Term} :
    t ∈ l ↔ t.coeff = .ofRat ((toPolynomial l).coeff t.expt) ∧ (toPolynomial l).coeff t.expt ≠ 0 := by
  constructor
  · intro ht
    have h := hl.coeff_toPolynomial ht
    have hc := Scalar.ofRat_toRat (coeff_ne_nan hn ht)
    rw [h, hc]
    refine ⟨rfl, fun h0 => hl.ne_zero t ht ?_⟩
    rw [← hc, h0]
    rfl
  · rintro ⟨hc, h0⟩
    obtain ⟨s, hs, he⟩ : ∃ s ∈ l, s.expt = t.expt := by
      by_contra hno
      exact h0 (coeff_toPolynomial_of_ne fun s hs he => hno ⟨s, hs, he⟩)
    have hst : s = t := by
      refine Term.ext ?_ he
      rw [hc, ← he, hl.coeff_toPolynomial hs, Scalar.ofRat_toRat (coeff_ne_nan hn hs)]
    exact hst ▸ hs

theorem Canonical.eq_of_toPolynomial_eq {l l' : List Term} (hl : Canonical l) (hn : l.any Term.isNaN = false)
    (hl' : Canonical l') (hn' : l'.any Term.isNaN = false) (h : toPolynomial l = toPolynomial l') : l = l' := by
  apply hl.eq_of_mem_iff hl'
  intro t
  rw [hl.mem_iff hn, hl'.mem_iff hn', h]

end ExactPoly.TermList
