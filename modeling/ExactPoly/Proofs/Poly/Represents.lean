import Mathlib.Algebra.Polynomial.Degree.Lemmas
import Mathlib.Algebra.Polynomial.Degree.Domain
import ExactPoly.Poly.Arithmetic
import ExactPoly.Proofs.TermList.Polynomial

/-!
# Polynomials over the rationals and their canonical form

`p.Represents P` : `p` has no NaN term, its list is canonical, and the sum of its terms is the polynomial `P`.

* `Represents.unique`, `Represents.congr` : a polynomial has at most one representation;
* `Represents.lead`, `Represents.degree_eq`, `Represents.isZero_iff` : the questions about `p` read off `P`;
* `Represents.neg`, `Represents.add`, `Represents.sub` : the operations that never overflow;
* `Represents.mulTerm`, `Represents.mul` : products whose degree is an exponent; `mul_eq_nan` : all other products;
* `Represents.isNaN_mul_iff`, `Represents.natDegree_mul_le`, `Represents.natDegree_mul_le_iff` : which products these are.
-/

open Polynomial

namespace ExactPoly.Poly

structure Represents (p : Poly) (P : ℚ[X]) : Prop where
  not_nan : p.isNaN = false
  canonical : TermList.Canonical p.terms
  terms_eq : TermList.toPolynomial p.terms = P

theorem Represents.unique {p q : Poly} {P : ℚ[X]} (hp : p.Represents P) (hq : q.Represents P) : p = q :=
  Poly.ext (hp.canonical.eq_of_toPolynomial_eq hp.not_nan hq.canonical hq.not_nan (hp.terms_eq.trans hq.terms_eq.symm))

theorem Represents.congr {p q : Poly} {P Q : ℚ[X]} (hp : p.Represents P) (hq : q.Represents Q) (h : P = Q) : p = q := by
  subst h
  exact hp.unique hq

theorem represents_mk {l : List Term} {P : ℚ[X]} (hn : l.any Term.isNaN = false) (hl : TermList.Canonical l)
    (h : TermList.toPolynomial l = P) : (⟨l⟩ : Poly).Represents P := ⟨hn, hl, h⟩

theorem represents_zero : (0 : Poly).Represents 0 := ⟨rfl, .nil, rfl⟩

theorem Represents.coeff_ne_nan {p : Poly} {P : ℚ[X]} (hp : p.Represents P) {t : Term} (ht : t ∈ p.terms) :
    t.coeff ≠ .nan := TermList.coeff_ne_nan hp.not_nan ht

theorem Represents.ne_zero_of_mem {p : Poly} {P : ℚ[X]} (hp : p.Represents P) {t : Term} (ht : t ∈ p.terms) : P ≠ 0 := by
  rintro rfl
  rw [hp.unique represents_zero] at ht
  exact absurd ht List.not_mem_nil

theorem represents_cons {t : Term} {l : List Term} {L : ℚ[X]} (h0 : t.coeff ≠ 0) (hn : t.coeff ≠ .nan)
    (hl : (⟨l⟩ : Poly).Represents L) (hlt : ∀ s ∈ l, s.expt < t.expt) :
    (⟨t :: l⟩ : Poly).Represents (t.toPolynomial + L) := by
  refine represents_mk ?_ (TermList.canonical_cons.mpr ⟨h0, hlt, hl.canonical⟩) ?_
  · rw [List.any_cons, Term.isNaN_eq_false_iff.mpr hn, Bool.false_or]
    exact hl.not_nan
  · rw [TermList.toPolynomial_cons, hl.terms_eq]

theorem represents_concat {t : Term} {l : List Term} {L : ℚ[X]} (h0 : t.coeff ≠ 0) (hn : t.coeff ≠ .nan)
    (hl : (⟨l⟩ : Poly).Represents L) (hlt : ∀ s ∈ l, t.expt < s.expt) :
    (⟨l ++ [t]⟩ : Poly).Represents (L + t.toPolynomial) := by
  refine represents_mk (TermList.any_isNaN_eq_false_iff.mpr fun s hs => ?_) ⟨fun s hs => ?_, ?_⟩ ?_
  · rcases List.mem_append.mp hs with hs | hs
    · exact hl.coeff_ne_nan hs
    · rwa [List.mem_singleton.mp hs]
  · rcases List.mem_append.mp hs with hs | hs
    · exact hl.canonical.ne_zero s hs
    · rwa [List.mem_singleton.mp hs]
  · refine List.pairwise_append.mpr ⟨hl.canonical.descending, List.pairwise_singleton _ _, fun s hs u hu => ?_⟩
    rw [List.mem_singleton.mp hu]
    exact hlt s hs
  · rw [TermList.toPolynomial_append, hl.terms_eq, TermList.toPolynomial_cons, TermList.toPolynomial_nil, add_zero]

theorem represents_ofTerm {t : Term} (hn : t.coeff ≠ .nan) : (ofTerm t).Represents t.toPolynomial := by
  unfold ofTerm
  split
  · next h => exact Term.toPolynomial_of_zero (by simpa using h) ▸ represents_zero
  · next h =>
    have := represents_cons (l := []) (by simpa using h) hn represents_zero (by simp)
    rwa [add_zero] at this

/-! ## The leading term -/

theorem Represents.lead {p : Poly} {P : ℚ[X]} (hp : p.Represents P) (h : P ≠ 0) :
    ∃ a ∈ p.terms, p.lead? = some a ∧ a.coeff = .ofRat P.leadingCoeff ∧ a.expt = P.natDegree := by
  obtain ⟨l⟩ := p
  cases l with
  | nil => exact absurd hp.terms_eq.symm h
  | cons a l =>
    have ha : a ∈ a :: l := by simp
    have hcoeff := hp.canonical.coeff_toPolynomial ha
    rw [hp.terms_eq] at hcoeff
    obtain ⟨hc, h0⟩ := (hp.canonical.mem_iff hp.not_nan).mp ha
    rw [hp.terms_eq] at hc h0
    have hdeg : P.natDegree = a.expt := by
      refine natDegree_eq_of_le_of_coeff_ne_zero (natDegree_le_iff_coeff_eq_zero.mpr fun e he => ?_) h0
      rw [← hp.terms_eq]
      refine TermList.coeff_toPolynomial_of_ne fun t ht => ?_
      rcases List.mem_cons.mp ht with rfl | ht
      · exact he.ne
      · exact ((TermList.canonical_cons.mp hp.canonical).2.1 t ht |>.trans he).ne
    refine ⟨a, ha, rfl, ?_, hdeg.symm⟩
    rw [hc, leadingCoeff, hdeg]

theorem Represents.isZero_iff {p : Poly} {P : ℚ[X]} (hp : p.Represents P) : p.isZero = true ↔ P = 0 := by
  rw [isZero, List.isEmpty_iff]
  constructor
  · intro h
    rw [← hp.terms_eq, h, TermList.toPolynomial_nil]
  · intro h
    subst h
    rw [hp.unique represents_zero]
    rfl

theorem Represents.ne_zero {p : Poly} {P : ℚ[X]} (hp : p.Represents P) (h : p.isZero = false) : P ≠ 0 := by
  rw [Ne, ← hp.isZero_iff, h]
  exact Bool.false_ne_true

theorem Represents.degree_eq {p : Poly} {P : ℚ[X]} (hp : p.Represents P) : p.degree = P.natDegree := by
  by_cases h : P = 0
  · subst h
    rw [hp.unique represents_zero]
    rfl
  · obtain ⟨a, -, hlead, -, he⟩ := hp.lead h
    rw [degree, hlead]
    exact he

theorem Represents.coeff_expt_ne_zero {p : Poly} {P : ℚ[X]} (hp : p.Represents P) {t : Term} (ht : t ∈ p.terms) :
    P.coeff t.expt ≠ 0 := by
  rw [← hp.terms_eq]
  exact ((hp.canonical.mem_iff hp.not_nan).mp ht).2

theorem Represents.expt_le {p : Poly} {P : ℚ[X]} (hp : p.Represents P) {t : Term} (ht : t ∈ p.terms) :
    t.expt ≤ P.natDegree := le_natDegree_of_ne_zero (hp.coeff_expt_ne_zero ht)

theorem Represents.degree_term_le {p : Poly} {P : ℚ[X]} (hp : p.Represents P) {t : Term} (ht : t ∈ p.terms) :
    t.toPolynomial.degree ≤ P.degree :=
  (degree_monomial_le _ _).trans (le_degree_of_ne_zero (hp.coeff_expt_ne_zero ht))

theorem Represents.natDegree_le {p : Poly} {P : ℚ[X]} (hp : p.Represents P) : P.natDegree ≤ maxExpt := by
  by_cases h : P = 0
  · rw [h, natDegree_zero]
    exact Nat.zero_le _
  · obtain ⟨a, -, -, -, he⟩ := hp.lead h
    exact he ▸ a.expt_le

/-- The remainder of smaller degree than the divisor, as the program tells it. -/
theorem Represents.degree_lt_iff {p q : Poly} {P Q : ℚ[X]} (hp : p.Represents P) (hq : q.Represents Q) (h : Q ≠ 0) :
    P.degree < Q.degree ↔ p.isZero = true ∨ p.degree < q.degree := by
  rw [hp.isZero_iff, hp.degree_eq, hq.degree_eq]
  by_cases hP : P = 0
  · simp [hP, bot_lt_iff_ne_bot, h]
  · simp [hP, degree_eq_natDegree hP, degree_eq_natDegree h]

/-! ## Sums and differences -/

theorem neg_def {p : Poly} (h : p.isNaN = false) : -p = ⟨TermList.scale (-1) p.terms⟩ := by
  show (negM p).value = _
  rw [negM, h]
  rfl

theorem add_def {p q : Poly} (hp : p.isNaN = false) (hq : q.isNaN = false) :
    p + q = ⟨TermList.insertAll p.terms q.terms⟩ := by
  show (addM p q).value = _
  rw [addM, hp, hq]
  rfl

theorem sub_def (p q : Poly) : p - q = p + -q := rfl

theorem Represents.neg {p : Poly} {P : ℚ[X]} (hp : p.Represents P) : (-p).Represents (-P) := by
  have h1 : (-1 : Scalar) = .ofRat (-1) := rfl
  rw [neg_def hp.not_nan, h1]
  refine represents_mk (TermList.any_isNaN_scale (by simp) hp.not_nan) (hp.canonical.scale (by simp)) ?_
  rw [TermList.toPolynomial_scale (by simp) hp.not_nan, hp.terms_eq, Scalar.toRat_ofRat, C_neg, C_1, mul_neg, mul_one]

theorem Represents.add {p q : Poly} {P Q : ℚ[X]} (hp : p.Represents P) (hq : q.Represents Q) :
    (p + q).Represents (P + Q) := by
  rw [add_def hp.not_nan hq.not_nan]
  refine represents_mk ?_ (hp.canonical.insertAll _) ?_
  · rw [TermList.any_isNaN_insertAll, Bool.or_eq_false_iff]
    exact ⟨hp.not_nan, hq.not_nan⟩
  · rw [TermList.toPolynomial_insertAll hp.not_nan hq.not_nan, hp.terms_eq, hq.terms_eq]

theorem Represents.sub {p q : Poly} {P Q : ℚ[X]} (hp : p.Represents P) (hq : q.Represents Q) :
    (p - q).Represents (P - Q) := by
  rw [sub_def, sub_eq_add_neg]
  exact hp.add hq.neg

/-! ## Operations with a NaN operand -/

theorem isNaN_nan : nan.isNaN = true := rfl

theorem add_of_isNaN {p q : Poly} (h : p.isNaN = true ∨ q.isNaN = true) : p + q = nan := by
  show (addM p q).value = _
  rw [addM, if_pos (by simpa using h)]
  rfl

theorem mul_of_isNaN {p q : Poly} (h : p.isNaN = true ∨ q.isNaN = true) : p * q = nan := by
  show (mulM p q).value = _
  rw [mulM, if_pos (by simpa using h)]
  rfl

@[simp] theorem neg_nan : -nan = nan := rfl

@[simp] theorem nan_add (p : Poly) : nan + p = nan := add_of_isNaN (.inl rfl)

@[simp] theorem add_nan (p : Poly) : p + nan = nan := add_of_isNaN (.inr rfl)

@[simp] theorem nan_mul (p : Poly) : nan * p = nan := mul_of_isNaN (.inl rfl)

@[simp] theorem mul_nan (p : Poly) : p * nan = nan := mul_of_isNaN (.inr rfl)

/-! ## Products -/

/-- The degrees of two factors bound that of their product, also where a factor is zero. -/
theorem natDegree_mul_le_of_degree_le {P Q P' Q' : ℚ[X]} (hP : P'.degree ≤ P.degree) (hQ : Q'.degree ≤ Q.degree) :
    (P' * Q').natDegree ≤ (P * Q).natDegree := by
  refine natDegree_le_natDegree ?_
  rw [degree_mul, degree_mul]
  exact add_le_add hP hQ

theorem natDegree_mul_term {Q : ℚ[X]} (hQ : Q ≠ 0) {t : Term} (h0 : t.coeff ≠ 0) (hn : t.coeff ≠ .nan) :
    (Q * t.toPolynomial).natDegree = Q.natDegree + t.expt := by
  rw [natDegree_mul hQ (Term.toPolynomial_ne_zero h0 hn), Term.natDegree_toPolynomial h0 hn]

theorem mulTerm_def (q : Poly) (t : Term) : q.mulTerm t = ⟨TermList.shift t.expt (TermList.scale t.coeff q.terms)⟩ := rfl

theorem mulTerm_zero {t : Term} (h : t.coeff = 0) (q : Poly) : q.mulTerm t = 0 := by
  rw [mulTerm_def, Term.eq_zero h]
  rfl

/-- What `mulTerm` does to the exponents of a list without a zero. -/
theorem expt_mem_scale {q : Poly} {Q : ℚ[X]} (hq : q.Represents Q) {a : Scalar} (ha : a ≠ .nan) {u : Term}
    (hu : u ∈ TermList.scale a q.terms) : a ≠ 0 ∧ ∃ s ∈ q.terms, u.expt = s.expt := by
  by_cases h0 : a = 0
  · rw [h0, TermList.scale_zero] at hu
    exact absurd hu List.not_mem_nil
  · rw [TermList.scale_of_ne_zero h0, List.mem_map] at hu
    obtain ⟨s, hs, rfl⟩ := hu
    exact ⟨h0, s, hs, Term.expt_scale (hq.canonical.ne_zero s hs) (hq.coeff_ne_nan hs) h0 ha⟩

theorem Represents.mulTerm {q : Poly} {Q : ℚ[X]} (hq : q.Represents Q) {t : Term} (ht : t.coeff ≠ .nan)
    (h : (Q * t.toPolynomial).natDegree ≤ maxExpt) : (q.mulTerm t).Represents (Q * t.toPolynomial) := by
  by_cases h0 : t.coeff = 0
  · rw [mulTerm_zero h0, Term.toPolynomial_of_zero h0, mul_zero]
    exact represents_zero
  · have hn := TermList.any_isNaN_scale ht hq.not_nan
    have hle : ∀ u ∈ TermList.scale t.coeff q.terms, u.expt + t.expt ≤ maxExpt := by
      intro u hu
      obtain ⟨-, s, hs, he⟩ := expt_mem_scale hq ht hu
      rw [natDegree_mul_term (hq.ne_zero_of_mem hs) h0 ht] at h
      have := hq.expt_le hs
      omega
    have hshift : (TermList.shift t.expt (TermList.scale t.coeff q.terms)).any Term.isNaN = false := by
      rw [TermList.any_isNaN_shift (mod_cast hle), hn]
    refine represents_mk hshift ((hq.canonical.scale ht).shift _) ?_
    rw [TermList.toPolynomial_shift hn hle, TermList.toPolynomial_scale ht hq.not_nan, hq.terms_eq, mul_assoc,
      C_mul_X_pow_eq_monomial, Term.toPolynomial]

/-- A product with a term past the largest exponent is NaN. -/
theorem Represents.mulTerm_eq_nan {q : Poly} {Q : ℚ[X]} (hq : q.Represents Q) {t : Term} (ht : t.coeff ≠ .nan)
    (h : maxExpt < (Q * t.toPolynomial).natDegree) : q.mulTerm t = nan := by
  have hne : Q * t.toPolynomial ≠ 0 := by
    intro h0
    rw [h0, natDegree_zero] at h
    omega
  obtain ⟨hQ, hT⟩ := mul_ne_zero_iff.mp hne
  have h0 : t.coeff ≠ 0 := fun h0 => hT (Term.toPolynomial_of_zero h0)
  rw [natDegree_mul_term hQ h0 ht] at h
  obtain ⟨a, ha, -, -, he⟩ := hq.lead hQ
  have hexpt := Term.expt_scale (hq.canonical.ne_zero a ha) (hq.coeff_ne_nan ha) h0 ht
  refine Poly.ext (TermList.shift_of_overflow ⟨a.scale t.coeff, ?_, by omega⟩)
  rw [TermList.scale_of_ne_zero h0]
  exact List.mem_map_of_mem ha

theorem mul_def {p q : Poly} (hp : p.isNaN = false) (hq : q.isNaN = false) :
    p * q = p.terms.foldl (fun sum t => sum + q.mulTerm t) 0 := by
  show (mulM p q).value = _
  rw [mulM, hp, hq]
  exact Traced.value_foldlM _ _ _

/-- Partial sums of a product, as long as no partial product overflows. -/
theorem Represents.foldl_mulTerm {q s : Poly} {Q S : ℚ[X]} (hs : s.Represents S) {l : List Term}
    (h : ∀ t ∈ l, (q.mulTerm t).Represents (Q * t.toPolynomial)) :
    (l.foldl (fun sum t => sum + q.mulTerm t) s).Represents (S + TermList.toPolynomial l * Q) := by
  induction l generalizing s S with
  | nil => simpa using hs
  | cons t l ih =>
    have := ih (hs.add (h t (by simp))) fun u hu => h u (by simp [hu])
    rw [List.foldl_cons, TermList.toPolynomial_cons, add_mul, mul_comm t.toPolynomial, ← add_assoc]
    exact this

theorem Represents.mul {p q : Poly} {P Q : ℚ[X]} (hp : p.Represents P) (hq : q.Represents Q)
    (h : (P * Q).natDegree ≤ maxExpt) : (p * q).Represents (P * Q) := by
  have hmul : ∀ t ∈ p.terms, (q.mulTerm t).Represents (Q * t.toPolynomial) := by
    intro t ht
    refine hq.mulTerm (hp.coeff_ne_nan ht) ?_
    rw [mul_comm]
    exact (natDegree_mul_le_of_degree_le (hp.degree_term_le ht) le_rfl).trans h
  have := represents_zero.foldl_mulTerm hmul
  rw [hp.terms_eq, zero_add] at this
  rw [mul_def hp.not_nan hq.not_nan]
  exact this

/-- A product that misses a polynomial of the program by another one does not overflow. -/
theorem Represents.mul_add_eq {q v r u : Poly} {Q V R U : ℚ[X]} (hq : q.Represents Q) (hv : v.Represents V)
    (hr : r.Represents R) (hu : u.Represents U) (h : Q * V + R = U) : q * v + r = u := by
  have hmul : Q * V = U - R := eq_sub_of_add_eq h
  have hle : (Q * V).natDegree ≤ maxExpt := by
    rw [hmul]
    exact (natDegree_sub_le U R).trans (max_le hu.natDegree_le hr.natDegree_le)
  exact ((hq.mul hv hle).add hr).congr hu h

theorem foldl_mulTerm_nan (q : Poly) (l : List Term) : l.foldl (fun sum t => sum + q.mulTerm t) nan = nan := by
  induction l with
  | nil => rfl
  | cons t l ih => rwa [List.foldl_cons, nan_add]

/-- One product that overflows makes the whole sum NaN. -/
theorem foldl_mulTerm_of_mem (q : Poly) {l : List Term} {t : Term} (ht : t ∈ l) (h : q.mulTerm t = nan) (s : Poly) :
    l.foldl (fun sum t => sum + q.mulTerm t) s = nan := by
  obtain ⟨a, b, rfl⟩ := List.append_of_mem ht
  rw [List.foldl_append, List.foldl_cons, h, add_nan, foldl_mulTerm_nan]

theorem Represents.mul_eq_nan {p q : Poly} {P Q : ℚ[X]} (hp : p.Represents P) (hq : q.Represents Q)
    (h : maxExpt < (P * Q).natDegree) : p * q = nan := by
  have hP : P ≠ 0 := by
    rintro rfl
    rw [zero_mul, natDegree_zero] at h
    omega
  have hQ : Q ≠ 0 := by
    rintro rfl
    rw [mul_zero, natDegree_zero] at h
    omega
  obtain ⟨a, ha, -, -, he⟩ := hp.lead hP
  have hn := hp.coeff_ne_nan ha
  rw [mul_def hp.not_nan hq.not_nan]
  refine foldl_mulTerm_of_mem q ha (hq.mulTerm_eq_nan hn ?_) 0
  rw [natDegree_mul hP hQ] at h
  rw [natDegree_mul_term hQ (hp.canonical.ne_zero a ha) hn]
  omega

theorem Represents.isNaN_mul_iff {p q : Poly} {P Q : ℚ[X]} (hp : p.Represents P) (hq : q.Represents Q) :
    (p * q).isNaN = true ↔ maxExpt < (P * Q).natDegree := by
  constructor
  · intro hn
    by_contra h
    rw [(hp.mul hq (not_lt.mp h)).not_nan] at hn
    exact Bool.false_ne_true hn
  · intro h
    rw [hp.mul_eq_nan hq h, isNaN_nan]

theorem Represents.natDegree_mul_le {p q : Poly} {P Q : ℚ[X]} (hp : p.Represents P) (hq : q.Represents Q)
    (hn : (p * q).isNaN = false) : (P * Q).natDegree ≤ maxExpt := by
  rw [← not_lt, ← hp.isNaN_mul_iff hq, hn]
  exact Bool.false_ne_true

/-- The products that do not overflow, as the program tells them. -/
theorem Represents.natDegree_mul_le_iff {p q : Poly} {P Q : ℚ[X]} (hp : p.Represents P) (hq : q.Represents Q) :
    (P * Q).natDegree ≤ maxExpt ↔ p.isZero = true ∨ q.isZero = true ∨ p.degree + q.degree ≤ maxExpt := by
  rw [hp.isZero_iff, hq.isZero_iff, hp.degree_eq, hq.degree_eq]
  by_cases hP : P = 0
  · simp [hP]
  by_cases hQ : Q = 0
  · simp [hQ]
  · simp [hP, hQ, natDegree_mul hP hQ]

end ExactPoly.Poly
