import Mathlib.Algebra.Polynomial.Degree.Operations
import ExactPoly.Proofs.Scalar
import ExactPoly.Term.Basic

/-!
# Terms

* `Term.monomial_eta`, `Term.coeff_monomial`, `Term.expt_monomial` : what `monomial` builds;
* `Term.add?_eq_monomial`, `Term.add?_eq_none_iff` : when two terms have a sum;
* `Term.toInt_expt_add` : how far an exponent moves as a signed 64-bit number;
* `Term.toPolynomial` : a term as a polynomial over the rationals.
-/

namespace ExactPoly

/-! ## What `monomial` builds -/

namespace Term

@[simp] theorem isZero_iff {t : Term} : t.isZero = true ↔ t.coeff = 0 := Scalar.isZero_iff

@[simp] theorem isNaN_iff {t : Term} : t.isNaN = true ↔ t.coeff = .nan := Scalar.isNaN_iff

@[simp] theorem isZero_eq_false_iff {t : Term} : t.isZero = false ↔ t.coeff ≠ 0 := by
  rw [Bool.eq_false_iff, ne_eq, isZero_iff]

@[simp] theorem isNaN_eq_false_iff {t : Term} : t.isNaN = false ↔ t.coeff ≠ .nan := by
  rw [Bool.eq_false_iff, ne_eq, isNaN_iff]

theorem eq_nan {t : Term} (h : t.coeff = .nan) : t = nan :=
  Term.ext h (t.expt_eq_zero (.inr h))

theorem eq_zero {t : Term} (h : t.coeff = 0) : t = 0 :=
  Term.ext h (t.expt_eq_zero (.inl h))

/-- Only a number has a power of `x`. -/
theorem coeff_ne_nan_of_pos {t : Term} (h : 0 < t.expt) : t.coeff ≠ .nan := fun hn => h.ne' (t.expt_eq_zero (.inr hn))

theorem coeff_monomial (c : Scalar) (e : Nat) : (monomial c e).coeff = c := by
  unfold monomial
  split <;> rfl

theorem expt_monomial {c : Scalar} {e : Nat} (hc : c ≠ 0) (hn : c ≠ .nan) (he : e ≤ maxExpt) :
    (monomial c e).expt = e := by
  rw [monomial, dif_neg (by simp [hc, hn])]
  exact Nat.mod_eq_of_lt (Nat.lt_succ_of_le he)

theorem expt_monomial_le (c : Scalar) (e : Nat) : (monomial c e).expt ≤ e := by
  unfold monomial
  split
  · exact Nat.zero_le _
  · exact Nat.mod_le _ _

theorem monomial_eta (t : Term) : monomial t.coeff t.expt = t := by
  refine Term.ext (coeff_monomial _ _) ?_
  by_cases h : t.coeff = 0 ∨ t.coeff = .nan
  · rw [monomial, dif_pos h, t.expt_eq_zero h]
  · rw [not_or] at h
    exact expt_monomial h.1 h.2 t.expt_le

theorem monomial_zero_expt (c : Scalar) : monomial c 0 = const c :=
  Term.ext (coeff_monomial c 0) (Nat.le_zero.mp (expt_monomial_le c 0))

/-! ## Sums of terms of one exponent -/

theorem add?_eq_monomial {s t : Term} (h : s.expt = t.expt) :
    s.add? t = some (monomial (s.coeff + t.coeff) s.expt) := by
  unfold add?
  by_cases hn : s.coeff = .nan ∨ t.coeff = .nan
  · have hsum : s.coeff + t.coeff = .nan := Scalar.add_eq_nan_iff.mpr hn
    rw [if_pos (by simpa using hn), hsum]
    exact congrArg some (eq_nan (by simp [monomial])).symm
  · rw [if_neg (by simpa using hn)]
    by_cases hs : s.coeff = 0
    · rw [if_pos (by simpa using hs), hs, zero_add, h, monomial_eta]
    · rw [if_neg (by simpa using hs)]
      by_cases ht : t.coeff = 0
      · rw [if_pos (by simpa using ht), ht, add_zero, monomial_eta]
      · rw [if_neg (by simpa using ht), if_pos h]

/-- A sum of terms of one exponent keeps the exponent, unless it is zero. -/
theorem expt_monomial_add {s t : Term} (h : s.expt = t.expt) (h0 : s.coeff + t.coeff ≠ 0) :
    (monomial (s.coeff + t.coeff) s.expt).expt = s.expt := by
  by_cases hn : s.coeff + t.coeff = .nan
  · have hz : s.expt = 0 := by
      rcases Scalar.add_eq_nan_iff.mp hn with hs | ht
      · exact s.expt_eq_zero (.inr hs)
      · exact h.trans (t.expt_eq_zero (.inr ht))
    have := expt_monomial_le (s.coeff + t.coeff) s.expt
    omega
  · exact expt_monomial h0 hn s.expt_le

theorem add?_of_nan {s t : Term} (h : s.coeff = .nan ∨ t.coeff = .nan) : s.add? t = some nan :=
  if_pos (by simpa using h)

theorem add?_of_ne_nan {s t : Term} (hs : s.coeff ≠ .nan) (ht : t.coeff ≠ .nan) :
    s.add? t =
      if s.coeff = 0 then some t
      else if t.coeff = 0 then some s
      else if s.expt = t.expt then some (monomial (s.coeff + t.coeff) s.expt)
      else none := by
  rw [add?, if_neg (by simp [hs, ht])]
  simp only [isZero_iff]

/-- Only two terms of different exponents, neither NaN nor zero, have no sum. -/
theorem add?_eq_none_iff {s t : Term} :
    s.add? t = none ↔ s.coeff ≠ .nan ∧ t.coeff ≠ .nan ∧ s.coeff ≠ 0 ∧ t.coeff ≠ 0 ∧ s.expt ≠ t.expt := by
  by_cases hs : s.coeff = .nan
  · simp [add?_of_nan (.inl hs), hs]
  by_cases ht : t.coeff = .nan
  · simp [add?_of_nan (.inr ht), ht]
  rw [add?_of_ne_nan hs ht]
  split_ifs <;> simp_all

/-! ## Negated, scaled and moved terms -/

theorem coeff_neg (t : Term) : (-t).coeff = -t.coeff := coeff_monomial _ _

theorem neg_monomial (c : Scalar) {e : Nat} (he : e ≤ maxExpt) : -monomial c e = monomial (-c) e := by
  have hneg : -monomial c e = monomial (-(monomial c e).coeff) (monomial c e).expt := rfl
  rw [hneg, coeff_monomial]
  by_cases hc : c = 0 ∨ c = .nan
  · have hc' : -c = 0 ∨ -c = .nan := by
      rcases hc with rfl | rfl
      · exact .inl rfl
      · exact .inr rfl
    rw [monomial, dif_pos hc', monomial, dif_pos hc']
  · rw [not_or] at hc
    rw [expt_monomial hc.1 hc.2 he]

theorem coeff_scale (a : Scalar) (t : Term) : (t.scale a).coeff = t.coeff * a := coeff_monomial _ _

theorem expt_scale {a : Scalar} {t : Term} (ht : t.coeff ≠ 0) (htn : t.coeff ≠ .nan) (ha : a ≠ 0) (han : a ≠ .nan) :
    (t.scale a).expt = t.expt :=
  expt_monomial (Scalar.mul_ne_zero ht ha) (by simp [Scalar.mul_eq_nan_iff, htn, han]) t.expt_le

theorem coeff_withExpt (t : Term) (e : Nat) : (t.withExpt e).coeff = t.coeff := coeff_monomial _ _

theorem withExpt_nan (e : Nat) : nan.withExpt e = nan := by
  rw [withExpt, monomial, dif_pos (.inr rfl)]
  rfl

theorem expt_withExpt {t : Term} (ht : t.coeff ≠ 0) (htn : t.coeff ≠ .nan) {e : Nat} (he : e ≤ maxExpt) :
    (t.withExpt e).expt = e := expt_monomial ht htn he

/-- Up to `2 ^ 62` in either direction, an exponent is moved by the sum of two signed 64-bit numbers. -/
theorem toInt_expt_add {d : Int} (hd : |d| ≤ 2 ^ 62) (t : Term) :
    (Int64.ofInt t.expt + Int64.ofInt d).toInt = t.expt + d := by
  have he : (t.expt : Int) ≤ 4294967295 := by exact_mod_cast t.expt_le
  obtain ⟨hlo, hhi⟩ := abs_le.mp hd
  rw [Int64.toInt_add, Int64.toInt_ofInt_of_le (by omega) (by omega), Int64.toInt_ofInt_of_le (by omega) (by omega)]
  exact Int.bmod_eq_of_le (by omega) (by omega)

/-! ## Terms as polynomials -/

/-- The term as a polynomial over the rationals. -/
noncomputable def toPolynomial (t : Term) : Polynomial ℚ := Polynomial.monomial t.expt t.coeff.toRat

theorem toPolynomial_of_zero {t : Term} (h : t.coeff = 0) : t.toPolynomial = 0 := by
  rw [toPolynomial, h]
  exact Polynomial.monomial_zero_right _

theorem toPolynomial_ne_zero {t : Term} (h0 : t.coeff ≠ 0) (hn : t.coeff ≠ .nan) : t.toPolynomial ≠ 0 := by
  rw [toPolynomial, Ne, Polynomial.monomial_eq_zero_iff]
  intro h
  rw [← Scalar.ofRat_toRat hn, h] at h0
  exact h0 rfl

theorem natDegree_toPolynomial {t : Term} (h0 : t.coeff ≠ 0) (hn : t.coeff ≠ .nan) :
    t.toPolynomial.natDegree = t.expt := by
  have h := toPolynomial_ne_zero h0 hn
  rw [toPolynomial, Ne, Polynomial.monomial_eq_zero_iff] at h
  exact Polynomial.natDegree_monomial_eq _ h

theorem toPolynomial_monomial (q : ℚ) {e : Nat} (he : e ≤ maxExpt) :
    (monomial (.ofRat q) e).toPolynomial = Polynomial.monomial e q := by
  by_cases hq : q = 0
  · have h : (monomial (.ofRat q) e).coeff = 0 := by rw [coeff_monomial, hq]; rfl
    rw [toPolynomial_of_zero h, hq, Polynomial.monomial_zero_right]
  · rw [toPolynomial, coeff_monomial, expt_monomial (by simpa using hq) (by simp) he, Scalar.toRat_ofRat]

theorem toPolynomial_add {s t : Term} (h : s.expt = t.expt) (hs : s.coeff ≠ .nan) (ht : t.coeff ≠ .nan) :
    (monomial (s.coeff + t.coeff) s.expt).toPolynomial = s.toPolynomial + t.toPolynomial := by
  rw [← Scalar.ofRat_toRat hs, ← Scalar.ofRat_toRat ht, Scalar.ofRat_add, toPolynomial_monomial _ s.expt_le, map_add,
    toPolynomial, toPolynomial, h]

/-- The sum of two terms, where there is one, is their sum as polynomials. -/
theorem toPolynomial_of_add? {s t u : Term} (hs : s.coeff ≠ .nan) (ht : t.coeff ≠ .nan) (h : s.add? t = some u) :
    u.coeff ≠ .nan ∧ u.toPolynomial = s.toPolynomial + t.toPolynomial := by
  rw [add?_of_ne_nan hs ht] at h
  split_ifs at h with hs0 ht0 he
  · obtain rfl := Option.some.inj h
    exact ⟨ht, by rw [toPolynomial_of_zero hs0, zero_add]⟩
  · obtain rfl := Option.some.inj h
    exact ⟨hs, by rw [toPolynomial_of_zero ht0, add_zero]⟩
  · obtain rfl := Option.some.inj h
    refine ⟨?_, toPolynomial_add he hs ht⟩
    rw [coeff_monomial, Ne, Scalar.add_eq_nan_iff, not_or]
    exact ⟨hs, ht⟩

theorem toPolynomial_neg {t : Term} (ht : t.coeff ≠ .nan) : (-t).toPolynomial = -t.toPolynomial := by
  have hneg : -t = monomial (-t.coeff) t.expt := rfl
  rw [hneg, ← Scalar.ofRat_toRat ht, Scalar.neg_ofRat, toPolynomial_monomial _ t.expt_le, toPolynomial, map_neg]

theorem toPolynomial_const (c : Scalar) : (const c).toPolynomial = Polynomial.C c.toRat := rfl

theorem toPolynomial_scale {a : Scalar} (ha : a ≠ .nan) {t : Term} (ht : t.coeff ≠ .nan) :
    (t.scale a).toPolynomial = t.toPolynomial * Polynomial.C a.toRat := by
  rw [scale, ← Scalar.ofRat_toRat ha, ← Scalar.ofRat_toRat ht, Scalar.ofRat_mul, toPolynomial_monomial _ t.expt_le,
    Scalar.toRat_ofRat, toPolynomial, Polynomial.monomial_mul_C]

theorem toPolynomial_withExpt {t : Term} (ht : t.coeff ≠ .nan) {d : Nat} (he : t.expt + d ≤ maxExpt) :
    (t.withExpt (t.expt + d)).toPolynomial = t.toPolynomial * Polynomial.X ^ d := by
  rw [withExpt, ← Scalar.ofRat_toRat ht, toPolynomial_monomial _ he, toPolynomial, Polynomial.monomial_mul_X_pow]

end Term

end ExactPoly
