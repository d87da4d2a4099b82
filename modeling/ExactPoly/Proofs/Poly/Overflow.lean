import ExactPoly.Proofs.Poly.Reachable

/-!
# Where NaN comes from

NaN enters a result from an operand, from a division by zero, or from an exponent past the largest one.

* `isNaN_neg`, `isNaN_add`, `isNaN_sub`, `isNaN_derivative` : these operations only hand NaN on, also for lists that are
  not canonical;
* `Represents.isNaN_antiderivative_iff`, `Canonical.isNaN_mul_iff`, `Canonical.isNaN_antiderivative_iff`,
  `Canonical.isNaN_divMod_iff` : the other operations;
* `DivState.not_nan_of_step` : no step of a division overflows;
* `isNaN_iff_of_reachable` : all of it for reachable polynomials.
-/

open Polynomial

namespace ExactPoly.Poly

/-! ## Operations that hand NaN on -/

theorem neg_of_isNaN {p : Poly} (h : p.isNaN = true) : -p = nan := by
  show (negM p).value = _
  rw [negM, h]
  rfl

theorem isNaN_neg (p : Poly) : (-p).isNaN = p.isNaN := by
  cases hp : p.isNaN with
  | true => rw [neg_of_isNaN hp, isNaN_nan]
  | false =>
    rw [neg_def hp]
    have h1 : (-1 : Scalar) ≠ .nan := by decide
    exact TermList.any_isNaN_scale h1 hp

theorem isNaN_add (p q : Poly) : (p + q).isNaN = (p.isNaN || q.isNaN) := by
  cases hp : p.isNaN with
  | true => rw [add_of_isNaN (.inl hp), isNaN_nan, Bool.true_or]
  | false =>
    cases hq : q.isNaN with
    | true => rw [add_of_isNaN (.inr hq), isNaN_nan, Bool.or_true]
    | false =>
      have hp' : p.terms.any Term.isNaN = false := hp
      have hq' : q.terms.any Term.isNaN = false := hq
      rw [add_def hp hq, isNaN, TermList.any_isNaN_insertAll, hp', hq']

theorem isNaN_sub (p q : Poly) : (p - q).isNaN = (p.isNaN || q.isNaN) := by
  rw [sub_def, isNaN_add, isNaN_neg]

/-! ## Products -/

theorem Canonical.isNaN_mul_iff {p q : Poly} (hp : p.Canonical) (hq : q.Canonical) :
    (p * q).isNaN = true ↔
      p.isNaN = true ∨ q.isNaN = true ∨ (p.isZero = false ∧ q.isZero = false ∧ maxExpt < p.degree + q.degree) := by
  rcases canonical_iff.mp hp with rfl | ⟨P, hP⟩
  · simp [isNaN_nan]
  rcases canonical_iff.mp hq with rfl | ⟨Q, hQ⟩
  · simp [isNaN_nan]
  · rw [hP.isNaN_mul_iff hQ, ← not_le, hP.natDegree_mul_le_iff hQ, hP.not_nan, hQ.not_nan]
    simp

/-! ## Antiderivatives -/

theorem Represents.isNaN_antiderivative_iff {p : Poly} {P : ℚ[X]} (hp : p.Represents P) {c : Scalar} (hc : c ≠ .nan) :
    (p.antiderivative c).isNaN = true ↔ p.isZero = false ∧ p.degree = maxExpt := by
  rw [← Bool.not_eq_true p.isZero, hp.isZero_iff, hp.degree_eq]
  by_cases h : P = 0 ∨ P.natDegree < maxExpt
  · obtain ⟨A, hA, -, -⟩ := hp.antiderivative hc h
    rw [hA.not_nan]
    refine iff_of_false Bool.false_ne_true ?_
    rintro ⟨h0, he⟩
    exact absurd (h.resolve_left h0) he.not_lt
  · rw [not_or] at h
    have he : P.natDegree = maxExpt := by
      have := hp.natDegree_le
      omega
    rw [hp.antiderivative_eq_nan c h.1 he, isNaN_nan]
    exact iff_of_true rfl ⟨h.1, he⟩

theorem Canonical.isNaN_antiderivative_iff {p : Poly} (hp : p.Canonical) (c : Scalar) :
    (p.antiderivative c).isNaN = true ↔
      p.isNaN = true ∨ c.isNaN = true ∨ (p.isZero = false ∧ p.degree = maxExpt) := by
  by_cases hn : p.isNaN = true
  · rw [antiderivative_of_isNaN (.inl hn)]
    exact iff_of_true rfl (.inl hn)
  by_cases hc : c.isNaN = true
  · rw [antiderivative_of_isNaN (.inr hc)]
    exact iff_of_true rfl (.inr (.inl hc))
  obtain ⟨P, hP⟩ := hp.represents (by simpa using hn)
  rw [hP.isNaN_antiderivative_iff (by simpa using hc)]
  simp [hn, hc]

/-! ## Division -/

theorem Canonical.isNaN_divMod_iff {u v : Poly} (hu : u.Canonical) (hv : v.Canonical) :
    ((Poly.divMod u v).1.isNaN = true ↔ u.isNaN = true ∨ v.isNaN = true ∨ v.isZero = true) ∧
    ((Poly.divMod u v).2.isNaN = true ↔ u.isNaN = true ∨ v.isNaN = true ∨ v.isZero = true) := by
  by_cases h : u.isNaN = true ∨ v.isNaN = true ∨ v.isZero = true
  · rw [divMod_of_isNaN h]
    exact ⟨iff_of_true rfl h, iff_of_true rfl h⟩
  · have hn := h
    rw [not_or, not_or, Bool.not_eq_true, Bool.not_eq_true, Bool.not_eq_true] at hn
    obtain ⟨hun, hvn, h0⟩ := hn
    obtain ⟨U, hU⟩ := hu.represents hun
    obtain ⟨V, hV⟩ := hv.represents hvn
    obtain ⟨hq, hr⟩ := hU.divMod hV (hV.ne_zero h0)
    rw [hq.not_nan, hr.not_nan]
    exact ⟨iff_of_false Bool.false_ne_true h, iff_of_false Bool.false_ne_true h⟩

/-- What a step of a division starts from. -/
theorem DivState.represents_of_reachable {u v r : Poly} (hu : Reachable u) (hv : Reachable v) (hun : u.isNaN = false)
    (hvn : v.isNaN = false) (h0 : v.isZero = false) {ts : List Term} (h : DivState u v ts r) :
    ∃ V R : ℚ[X], v.Represents V ∧ r.Represents R ∧ V ≠ 0 := by
  obtain ⟨U, hu⟩ := hu.represents hun
  obtain ⟨V, hv⟩ := hv.represents hvn
  obtain ⟨Q, R, hinv⟩ := h.loopInvariant hu hv (hv.ne_zero h0)
  exact ⟨V, R, hv, hinv.remainder, hv.ne_zero h0⟩

/-- The exponents of the product that a step subtracts are at most the degree of the remainder. -/
theorem DivState.not_nan_of_step {u v r : Poly} (hu : Reachable u) (hv : Reachable v) (hun : u.isNaN = false)
    (hvn : v.isNaN = false) (h0 : v.isZero = false) {ts : List Term} (h : DivState u v ts r) {t : Term}
    (ht : nextStep? v r = some t) :
    t.isNaN = false ∧ (∀ s ∈ v.terms, s.expt + t.expt ≤ maxExpt) ∧ (v.mulTerm t).isNaN = false ∧
      (r - v.mulTerm t).isNaN = false := by
  obtain ⟨V, R, hV, hR, hV0⟩ := h.represents_of_reachable hu hv hun hvn h0
  obtain ⟨hc, -, he⟩ := nextStep?_eq_some hV hR hV0 ht
  obtain ⟨hmul, hsub, -⟩ := represents_step hV hR hV0 ht
  refine ⟨Term.isNaN_eq_false_iff.mpr (by simp [hc]), fun s hs => ?_, hmul.not_nan, hsub.not_nan⟩
  have h1 := hV.expt_le hs
  have h2 := hR.natDegree_le
  omega

/-- The last part is about every step of the long division of `a` by `b`: its term, its product and its remainder. -/
theorem isNaN_iff_of_reachable {a b : Poly} (ha : Reachable a) (hb : Reachable b) (c : Scalar) :
    ((a + b).isNaN = true ↔ a.isNaN = true ∨ b.isNaN = true) ∧
    ((a - b).isNaN = true ↔ a.isNaN = true ∨ b.isNaN = true) ∧
    ((-a).isNaN = true ↔ a.isNaN = true) ∧
    (a.derivative.isNaN = true ↔ a.isNaN = true) ∧
    ((a * b).isNaN = true ↔
      a.isNaN = true ∨ b.isNaN = true ∨ (a.isZero = false ∧ b.isZero = false ∧ maxExpt < a.degree + b.degree)) ∧
    ((a.antiderivative c).isNaN = true ↔
      a.isNaN = true ∨ c.isNaN = true ∨ (a.isZero = false ∧ a.degree = maxExpt)) ∧
    ((divMod a b).1.isNaN = true ↔ a.isNaN = true ∨ b.isNaN = true ∨ b.isZero = true) ∧
    ((divMod a b).2.isNaN = true ↔ a.isNaN = true ∨ b.isNaN = true ∨ b.isZero = true) ∧
    (a.isNaN = false → b.isNaN = false → b.isZero = false →
      ∀ ts r t, DivState a b ts r → nextStep? b r = some t →
        t.isNaN = false ∧ (∀ s ∈ b.terms, s.expt + t.expt ≤ maxExpt) ∧ (b.mulTerm t).isNaN = false ∧
          (r - b.mulTerm t).isNaN = false) := by
  obtain ⟨hq, hr⟩ := ha.canonical.isNaN_divMod_iff hb.canonical
  refine ⟨?_, ?_, ?_, ?_, ha.canonical.isNaN_mul_iff hb.canonical, ha.canonical.isNaN_antiderivative_iff c, hq, hr, ?_⟩
  · rw [isNaN_add, Bool.or_eq_true]
  · rw [isNaN_sub, Bool.or_eq_true]
  · rw [isNaN_neg]
  · rw [isNaN_derivative]
  · intro han hbn h0 ts r t h ht
    exact h.not_nan_of_step ha hb han hbn h0 ht

theorem isNaN_iff_of_reachable_top_power :
    let a := ofInt 1 4294967295
    let b := ofInt 1 1 - ofInt 1 0
    (a + b).isNaN = false ∧ (a * b).isNaN = true ∧ (a.antiderivative 0).isNaN = true ∧ (divMod a b).1.isNaN = false ∧
    (b.mulTerm (.monomial 1 4294967294)).isNaN = false := by
  intro a b
  have ha : Reachable a := .ofInt 1 (by decide)
  have hb : Reachable b := .sub (.ofInt 1 (by decide)) (.ofInt 1 (by decide))
  have han : a.isNaN = false := by decide +kernel
  have hbn : b.isNaN = false := by decide +kernel
  have ha0 : a.isZero = false := by decide +kernel
  have hb0 : b.isZero = false := by decide +kernel
  obtain ⟨hadd, -, -, -, hmul, hanti, hdiv, -, hstep⟩ := isNaN_iff_of_reachable ha hb 0
  refine ⟨?_, hmul.mpr (.inr (.inr ⟨ha0, hb0, by decide +kernel⟩)), hanti.mpr (.inr (.inr ⟨ha0, by decide +kernel⟩)), ?_, ?_⟩
  · rw [Bool.eq_false_iff, Ne, hadd, han, hbn]
    decide
  · rw [Bool.eq_false_iff, Ne, hdiv, han, hbn, hb0]
    decide
  · exact (hstep han hbn hb0 [] a _ .start (by decide +kernel)).2.2.1

end ExactPoly.Poly
