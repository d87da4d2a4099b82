import Mathlib.Algebra.Polynomial.Derivative
import ExactPoly.Poly.Calculus
import ExactPoly.Proofs.Poly.Represents

/-!
# Derivatives and antiderivatives

* `Represents.derivative` : `derivative` is the derivative of polynomials;
* `Represents.antiderivative` : below the largest degree, `antiderivative` has the given derivative and constant term;
* `antiderivative_eq_nan` : at the largest degree it is NaN.
-/

namespace ExactPoly

/-! ## Terms -/

namespace Term

theorem derivative_of_nan {t : Term} (h : t.coeff = .nan) : t.derivative = nan := if_pos (isNaN_iff.mpr h)

/-- A constant has the derivative zero. -/
theorem derivative_of_expt_eq_zero {t : Term} (hn : t.coeff ≠ .nan) (h : t.expt = 0) : t.derivative = 0 := by
  rw [derivative, if_neg (by simpa using hn), if_pos h]

theorem derivative_of_expt_ne_zero {t : Term} (h : t.expt ≠ 0) :
    t.derivative = monomial (t.coeff * .ofInt t.expt) (t.expt - 1) := by
  have hn : t.coeff ≠ .nan := coeff_ne_nan_of_pos (Nat.pos_of_ne_zero h)
  rw [derivative, if_neg (by simpa using hn), if_neg h]

theorem toPolynomial_derivative {t : Term} (h : t.coeff ≠ .nan) :
    t.derivative.toPolynomial = Polynomial.derivative t.toPolynomial := by
  by_cases h0 : t.expt = 0
  · rw [derivative_of_expt_eq_zero h h0, toPolynomial_of_zero rfl, toPolynomial, h0, Polynomial.derivative_monomial,
      Nat.cast_zero, mul_zero, Polynomial.monomial_zero_right]
  · have he : t.expt - 1 ≤ maxExpt := (Nat.sub_le _ _).trans t.expt_le
    rw [derivative_of_expt_ne_zero h0, ← Scalar.ofRat_toRat h, Scalar.ofInt, Scalar.ofRat_mul, toPolynomial_monomial _ he,
      toPolynomial, Polynomial.derivative_monomial, Int.cast_natCast]

/-- The guards give nothing else than the product with the exponent. -/
theorem coeff_derivative (t : Term) : t.derivative.coeff = t.coeff * .ofInt t.expt := by
  by_cases hn : t.coeff = .nan
  · rw [derivative_of_nan hn, hn, Scalar.nan_mul]
    rfl
  by_cases h0 : t.expt = 0
  · rw [derivative_of_expt_eq_zero hn h0, h0, ← Scalar.ofRat_toRat hn, Scalar.ofInt, Scalar.ofRat_mul, Nat.cast_zero,
      Int.cast_zero, mul_zero]
    rfl
  · rw [derivative_of_expt_ne_zero h0, coeff_monomial]

theorem expt_derivative {t : Term} (hn : t.coeff ≠ .nan) (h0 : t.derivative.coeff ≠ 0) :
    t.derivative.expt + 1 = t.expt := by
  have hpos : t.expt ≠ 0 := by
    intro h
    rw [derivative_of_expt_eq_zero hn h] at h0
    exact h0 rfl
  rw [coeff_derivative] at h0
  have he : t.expt - 1 ≤ maxExpt := (Nat.sub_le _ _).trans t.expt_le
  have hmul : t.coeff * .ofInt t.expt ≠ .nan := by
    rw [Ne, Scalar.mul_eq_nan_iff, not_or]
    exact ⟨hn, by simp [Scalar.ofInt]⟩
  rw [derivative_of_expt_ne_zero hpos, expt_monomial h0 hmul he]
  omega

/-- The coefficient of the antiderivative. -/
theorem coeff_div_succ {t : Term} (h : t.coeff ≠ .nan) :
    t.coeff / .ofInt (t.expt + 1) = .ofRat (t.coeff.toRat / (t.expt + 1)) := by
  have hne : (((t.expt : ℤ) + 1 : ℤ) : ℚ) ≠ 0 := by exact_mod_cast Nat.succ_ne_zero t.expt
  rw [Scalar.ofInt, ← Scalar.ofRat_toRat h, Scalar.ofRat_div hne, Scalar.toRat_ofRat]
  push_cast
  rfl

theorem coeff_div_succ_ne_zero {t : Term} (h0 : t.coeff ≠ 0) (hn : t.coeff ≠ .nan) :
    t.coeff / .ofInt (t.expt + 1) ≠ 0 := by
  have hne : ((t.expt : ℚ) + 1) ≠ 0 := by exact_mod_cast Nat.succ_ne_zero t.expt
  rw [coeff_div_succ hn, Ne, Scalar.ofRat_eq_zero, div_eq_zero_iff, not_or]
  refine ⟨fun h => h0 ?_, hne⟩
  rw [← Scalar.ofRat_toRat hn, h]
  rfl

/-- There is no exponent for the antiderivative. -/
theorem antiderivative_of_expt_eq {t : Term} (h : t.expt = maxExpt) : t.antiderivative = nan := by
  rw [antiderivative, if_pos h, ite_self]

section Antiderivative
variable {t : Term} (hn : t.coeff ≠ .nan) (he : t.expt < maxExpt)
include hn he

theorem antiderivative_of_expt_lt : t.antiderivative = monomial (t.coeff / .ofInt (t.expt + 1)) (t.expt + 1) := by
  rw [antiderivative, if_neg (by simpa using hn), if_neg he.ne]

theorem toPolynomial_antiderivative :
    t.antiderivative.toPolynomial = Polynomial.monomial (t.expt + 1) (t.coeff.toRat / (t.expt + 1)) := by
  rw [antiderivative_of_expt_lt hn he, coeff_div_succ hn, toPolynomial_monomial _ he]

theorem derivative_antiderivative : Polynomial.derivative t.antiderivative.toPolynomial = t.toPolynomial := by
  have hne : ((t.expt : ℚ) + 1) ≠ 0 := by exact_mod_cast Nat.succ_ne_zero t.expt
  rw [toPolynomial_antiderivative hn he, Polynomial.derivative_monomial, toPolynomial, Nat.succ_sub_one, Nat.cast_succ,
    div_mul_cancel₀ _ hne]

theorem coeff_antiderivative : t.antiderivative.coeff = t.coeff / .ofInt (t.expt + 1) := by
  rw [antiderivative_of_expt_lt hn he, coeff_monomial]

theorem expt_antiderivative (h0 : t.coeff ≠ 0) : t.antiderivative.expt = t.expt + 1 := by
  rw [antiderivative_of_expt_lt hn he]
  exact expt_monomial (coeff_div_succ_ne_zero h0 hn) (by simp [coeff_div_succ hn]) he

end Antiderivative

end Term

open Polynomial

/-! ## Derivatives -/

theorem TermList.toPolynomial_filter (l : List Term) : toPolynomial (l.filter (!·.isZero)) = toPolynomial l := by
  induction l with
  | nil => rfl
  | cons t l ih =>
    by_cases h : t.coeff = 0
    · rw [List.filter_cons_of_neg (by simpa using h), ih, toPolynomial_cons, Term.toPolynomial_of_zero h, zero_add]
    · rw [List.filter_cons_of_pos (by simpa using h), toPolynomial_cons, toPolynomial_cons, ih]

namespace Poly

theorem derivative_of_isNaN {p : Poly} (h : p.isNaN = true) : p.derivative = nan := by
  rw [Poly.derivative, derivativeM, h]
  rfl

theorem derivative_def {p : Poly} (h : p.isNaN = false) :
    p.derivative = ⟨(p.terms.map Term.derivative).filter (!·.isZero)⟩ := by
  rw [Poly.derivative, derivativeM, h]
  rfl

theorem isNaN_derivative (p : Poly) : p.derivative.isNaN = p.isNaN := by
  cases hp : p.isNaN with
  | true => rw [derivative_of_isNaN hp, isNaN_nan]
  | false =>
    rw [derivative_def hp, isNaN, List.any_eq_false]
    intro u hu
    obtain ⟨t, ht, rfl⟩ := List.mem_map.mp (List.mem_filter.mp hu).1
    rw [Term.isNaN_iff, Term.coeff_derivative, Scalar.mul_eq_nan_iff, not_or]
    exact ⟨TermList.coeff_ne_nan hp ht, by simp [Scalar.ofInt]⟩

theorem Represents.derivative {p : Poly} {P : ℚ[X]} (hp : p.Represents P) :
    p.derivative.Represents (Polynomial.derivative P) := by
  have hn := isNaN_derivative p
  rw [hp.not_nan, derivative_def hp.not_nan] at hn
  rw [derivative_def hp.not_nan]
  refine represents_mk hn ⟨fun u hu => ?_, ?_⟩ ?_
  · have := (List.mem_filter.mp hu).2
    simpa using this
  · rw [List.pairwise_filter, List.pairwise_map]
    refine hp.canonical.descending.imp_of_mem fun {s t} hs ht hlt hs0 ht0 => ?_
    have h1 := Term.expt_derivative (hp.coeff_ne_nan hs) (by simpa using hs0)
    have h2 := Term.expt_derivative (hp.coeff_ne_nan ht) (by simpa using ht0)
    omega
  · rw [TermList.toPolynomial_filter, ← hp.terms_eq]
    exact TermList.toPolynomial_map Polynomial.derivative fun t ht => Term.toPolynomial_derivative (hp.coeff_ne_nan ht)

/-! ## Antiderivatives -/

theorem derivative_toPolynomial_antiderivative {l : List Term}
    (h : ∀ t ∈ l, t.coeff ≠ .nan ∧ t.expt < maxExpt) :
    Polynomial.derivative (TermList.toPolynomial (l.map Term.antiderivative)) = TermList.toPolynomial l := by
  induction l with
  | nil => simp
  | cons t l ih =>
    obtain ⟨hn, he⟩ := h t (by simp)
    rw [List.map_cons, TermList.toPolynomial_cons, map_add, Term.derivative_antiderivative hn he,
      ih fun u hu => h u (by simp [hu]), TermList.toPolynomial_cons]

/-- The antiderivatives of the terms, before the constant is appended. -/
theorem Represents.antiderivative_terms {p : Poly} {P : ℚ[X]} (hp : p.Represents P) (h : ∀ t ∈ p.terms, t.expt < maxExpt) :
    (⟨p.terms.map Term.antiderivative⟩ : Poly).Represents (TermList.toPolynomial (p.terms.map Term.antiderivative)) := by
  have hexpt : ∀ t ∈ p.terms, t.antiderivative.expt = t.expt + 1 := fun t ht =>
    Term.expt_antiderivative (hp.coeff_ne_nan ht) (h t ht) (hp.canonical.ne_zero t ht)
  refine represents_mk ?_ (hp.canonical.map (fun t ht => ?_) (fun s hs t ht hlt => ?_)) rfl
  · rw [List.any_map, List.any_eq_false]
    intro t ht
    have hn := hp.coeff_ne_nan ht
    rw [Function.comp_apply, Term.isNaN_iff, Term.coeff_antiderivative hn (h t ht), Term.coeff_div_succ hn]
    simp
  · rw [Term.coeff_antiderivative (hp.coeff_ne_nan ht) (h t ht)]
    exact Term.coeff_div_succ_ne_zero (hp.canonical.ne_zero t ht) (hp.coeff_ne_nan ht)
  · rw [hexpt s hs, hexpt t ht]
    omega

/-- The antiderivatives of the terms with the constant after them. -/
def antiderivativeSum (p : Poly) (c : Scalar) : Poly :=
  ⟨p.terms.map Term.antiderivative ++ if c.isZero then [] else [.const c]⟩

theorem antiderivative_def {p : Poly} {c : Scalar} (hp : p.isNaN = false) (hc : c.isNaN = false)
    (h : (p.terms.map Term.antiderivative).any Term.isNaN = false) : p.antiderivative c = antiderivativeSum p c := by
  rw [Poly.antiderivative, antiderivativeM, hp, hc]
  dsimp only
  rw [h]
  rfl

theorem antiderivative_of_isNaN {p : Poly} {c : Scalar} (h : p.isNaN = true ∨ c.isNaN = true) :
    p.antiderivative c = nan := by
  rw [Poly.antiderivative, antiderivativeM, if_pos (by simpa using h)]
  rfl

/-- A term without an antiderivative makes the whole polynomial NaN. -/
theorem antiderivative_of_any_isNaN {p : Poly} (c : Scalar)
    (h : (p.terms.map Term.antiderivative).any Term.isNaN = true) : p.antiderivative c = nan := by
  rw [Poly.antiderivative, antiderivativeM]
  split
  · rfl
  · dsimp only
    rw [if_pos h]
    rfl

theorem Represents.antiderivative {p : Poly} {P : ℚ[X]} (hp : p.Represents P) {c : Scalar} (hc : c ≠ .nan)
    (h : P = 0 ∨ P.natDegree < maxExpt) :
    ∃ A : ℚ[X], (p.antiderivative c).Represents A ∧ Polynomial.derivative A = P ∧ A.coeff 0 = c.toRat := by
  have hlt : ∀ t ∈ p.terms, t.expt < maxExpt := fun t ht =>
    (hp.expt_le ht).trans_lt (h.resolve_left (hp.ne_zero_of_mem ht))
  have hpos : ∀ s ∈ p.terms.map Term.antiderivative, 0 < s.expt := by
    intro s hs
    obtain ⟨t, ht, rfl⟩ := List.mem_map.mp hs
    rw [Term.expt_antiderivative (hp.coeff_ne_nan ht) (hlt t ht) (hp.canonical.ne_zero t ht)]
    exact Nat.succ_pos _
  have hterms := hp.antiderivative_terms hlt
  have hdef := antiderivative_def hp.not_nan (Scalar.isNaN_eq_false_iff.mpr hc) hterms.not_nan
  have hder : Polynomial.derivative (TermList.toPolynomial (p.terms.map Term.antiderivative)) = P := by
    rw [derivative_toPolynomial_antiderivative fun t ht => ⟨hp.coeff_ne_nan ht, hlt t ht⟩, hp.terms_eq]
  have hcoeff : (TermList.toPolynomial (p.terms.map Term.antiderivative)).coeff 0 = 0 :=
    TermList.coeff_toPolynomial_of_ne fun s hs => (hpos s hs).ne'
  by_cases h0 : c = 0
  · have hrep : (antiderivativeSum p c).Represents
        (TermList.toPolynomial (p.terms.map Term.antiderivative)) := by
      rw [antiderivativeSum, if_pos (by simpa using h0), List.append_nil]
      exact hterms
    refine ⟨_, hdef ▸ hrep, hder, ?_⟩
    rw [hcoeff, h0]
    rfl
  · have hrep : (antiderivativeSum p c).Represents
        (TermList.toPolynomial (p.terms.map Term.antiderivative) + C c.toRat) := by
      rw [antiderivativeSum, if_neg (by simpa using h0)]
      exact represents_concat h0 hc hterms hpos
    refine ⟨_, hdef ▸ hrep, ?_, ?_⟩
    · rw [derivative_add, derivative_C, hder, add_zero]
    · rw [coeff_add, hcoeff, coeff_C_zero, zero_add]

theorem Represents.antiderivative_eq_nan {p : Poly} {P : ℚ[X]} (hp : p.Represents P) (c : Scalar) (h0 : P ≠ 0)
    (h : P.natDegree = maxExpt) : p.antiderivative c = nan := by
  obtain ⟨a, ha, -, -, he⟩ := hp.lead h0
  have hnan : a.antiderivative = .nan := Term.antiderivative_of_expt_eq (he.trans h)
  have hmem : Term.nan ∈ p.terms.map Term.antiderivative := hnan ▸ List.mem_map_of_mem ha
  exact antiderivative_of_any_isNaN c (List.any_eq_true.mpr ⟨.nan, hmem, rfl⟩)

end Poly

end ExactPoly
