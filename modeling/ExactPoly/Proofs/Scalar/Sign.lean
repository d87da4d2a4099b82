import Mathlib.Data.Sign.Basic
import ExactPoly.Proofs.Scalar.Exact

/-!
# The sign of a scalar

Away from zero `sign` is the sign function of the rational numbers. Zero counts as positive, so its sign is `1` and some laws
of a sign function fail there.

* `isPositive_or_isNegative`, `sign_cases` : every number is one of the two, so the last case of `sign` is left to NaN;
* `sign_of_zero`, `sign_of_ne_zero` : the sign of zero, and of any other scalar;
* `sign_eq_neg_one_iff`, `sign_eq_zero_iff` : the scalars of sign `-1` and of sign `0`;
* `ofInt_sign_mul_abs`, `sign_neg_eq_iff`, `sign_mul_eq_iff` : absolute values, negatives and products;
* `sign_laws` : where each law holds;
* `sign_zero_positive` : the laws that fail at zero.
-/

namespace ExactPoly.Scalar

instance : CommMagma Scalar where
  mul_comm a b := by cases a <;> cases b <;> simp [mul_comm]

theorem toRat_neg (a : Scalar) : (-a).toRat = -a.toRat := by
  cases a with
  | nan => exact neg_zero.symm
  | ofRat q => rfl

theorem toRat_mul (a b : Scalar) : (a * b).toRat = a.toRat * b.toRat := by
  cases a with
  | nan =>
    rw [nan_mul]
    exact (zero_mul _).symm
  | ofRat p =>
    cases b with
    | nan =>
      rw [mul_nan]
      exact (mul_zero _).symm
    | ofRat q => rfl

/-! ## The two questions that the sign asks -/

theorem isPositive_ofRat {q : ℚ} : (ofRat q).isPositive = true ↔ 0 ≤ q := decide_eq_true_iff

theorem isNegative_ofRat {q : ℚ} : (ofRat q).isNegative = true ↔ q < 0 := decide_eq_true_iff

theorem isPositive_zero : (0 : Scalar).isPositive = true := isPositive_ofRat.mpr le_rfl

/-- The questions leave no number between them. -/
theorem isPositive_or_isNegative (q : ℚ) : (ofRat q).isPositive = true ∨ (ofRat q).isNegative = true := by
  rw [isPositive_ofRat, isNegative_ofRat]
  exact le_or_gt 0 q

theorem sign_of_isPositive {a : Scalar} (h : a.isPositive = true) : a.sign = 1 := if_pos h

theorem sign_of_isNegative {a : Scalar} (h : a.isNegative = true) : a.sign = -1 := by
  have hpos : ¬ a.isPositive = true := by
    cases a with
    | nan => decide
    | ofRat q =>
      rw [isPositive_ofRat]
      exact (isNegative_ofRat.mp h).not_ge
  rw [sign, if_neg hpos, if_pos h]

/-- Zero is positive, so its sign is found before the case that is left for it. -/
theorem sign_of_zero : (0 : Scalar).sign = 1 := sign_of_isPositive isPositive_zero

theorem sign_of_ne_zero {a : Scalar} (h : a ≠ 0) : a.sign = SignType.sign a.toRat := by
  cases a with
  | nan =>
    show 0 = ((SignType.sign (0 : ℚ) : SignType) : ℤ)
    rw [sign_zero]
    rfl
  | ofRat q =>
    have hq : q ≠ 0 := by simpa using h
    rcases lt_or_gt_of_ne hq with hlt | hgt
    · rw [sign_of_isNegative (isNegative_ofRat.mpr hlt), toRat_ofRat, sign_neg hlt]
      rfl
    · rw [sign_of_isPositive (isPositive_ofRat.mpr hgt.le), toRat_ofRat, sign_pos hgt]
      rfl

/-- One case for each way through `sign`; the last one is left to NaN. -/
theorem sign_cases (a : Scalar) :
    (a.isPositive = true ∧ a.sign = 1) ∨ (a.isNegative = true ∧ a.sign = -1) ∨ (a = nan ∧ a.sign = 0) := by
  cases a with
  | nan => exact .inr (.inr ⟨rfl, rfl⟩)
  | ofRat q =>
    rcases isPositive_or_isNegative q with hpos | hneg
    · exact .inl ⟨hpos, sign_of_isPositive hpos⟩
    · exact .inr (.inl ⟨hneg, sign_of_isNegative hneg⟩)

theorem sign_eq_neg_one_iff {a : Scalar} : a.sign = -1 ↔ a.isNegative = true := by
  refine ⟨fun h => ?_, sign_of_isNegative⟩
  rcases sign_cases a with ⟨-, hs⟩ | ⟨hneg, -⟩ | ⟨-, hs⟩
  · omega
  · exact hneg
  · omega

theorem sign_eq_zero_iff {a : Scalar} : a.sign = 0 ↔ a = nan := by
  constructor
  · intro h
    rcases sign_cases a with ⟨-, hs⟩ | ⟨-, hs⟩ | ⟨hnan, -⟩
    · omega
    · omega
    · exact hnan
  · rintro rfl
    rfl

/-! ## Absolute values, negatives and products -/

/-- For zero the sign makes no difference. -/
theorem ofInt_sign_mul_abs (a : Scalar) : ofInt a.sign * a.abs = a := by
  cases a with
  | nan => rfl
  | ofRat q =>
    by_cases hq : q = 0
    · subst hq
      show ofInt (0 : Scalar).sign * ofRat 0 = ofRat 0
      rw [sign_of_zero]
      exact congrArg ofRat (mul_zero _)
    · rw [sign_of_ne_zero (by simpa using hq)]
      show ofRat (((SignType.sign q : ℤ) : ℚ) * q.abs) = ofRat q
      rw [rat_abs_eq, SignType.intCast_cast, sign_mul_abs]

theorem sign_neg_eq_iff {a : Scalar} : (-a).sign = -a.sign ↔ a ≠ 0 := by
  by_cases h : a = 0
  · subst h
    exact iff_of_false (by decide) fun h => h rfl
  · have hneg : -a ≠ 0 := by
      cases a <;> simp_all
    rw [sign_of_ne_zero hneg, sign_of_ne_zero h, toRat_neg, Left.sign_neg, SignType.coe_neg]
    exact iff_of_true rfl h

/-- The product with zero has sign `1`, or it is NaN. -/
theorem sign_zero_mul_iff {a : Scalar} : (0 * a).sign = (0 : Scalar).sign * a.sign ↔ a.isNegative = false := by
  cases a with
  | nan => decide
  | ofRat q =>
    have hzero : (0 : Scalar) * ofRat q = 0 := congrArg ofRat (zero_mul q)
    rw [hzero, sign_of_zero, one_mul, Bool.eq_false_iff, Ne]
    constructor
    · intro h hneg
      have := sign_of_isNegative hneg
      omega
    · intro hneg
      exact (sign_of_isPositive ((isPositive_or_isNegative q).resolve_right hneg)).symm

theorem sign_mul_eq_iff {a b : Scalar} :
    (a * b).sign = a.sign * b.sign ↔ (a = 0 → b.isNegative = false) ∧ (b = 0 → a.isNegative = false) := by
  by_cases ha : a = 0
  · subst ha
    rw [sign_zero_mul_iff]
    exact ⟨fun h => ⟨fun _ => h, fun _ => rfl⟩, fun h => h.1 rfl⟩
  by_cases hb : b = 0
  · subst hb
    rw [mul_comm, mul_comm a.sign, sign_zero_mul_iff]
    exact ⟨fun h => ⟨fun _ => rfl, fun _ => h⟩, fun h => h.2 rfl⟩
  refine iff_of_true ?_ ⟨fun h => absurd h ha, fun h => absurd h hb⟩
  rw [sign_of_ne_zero (mul_ne_zero ha hb), sign_of_ne_zero ha, sign_of_ne_zero hb, toRat_mul, sign_mul, SignType.coe_mul]

/--
Zero is the one number whose sign is not that of the rational numbers. Its negative is itself, and its product with a number
below zero is itself, so there the signs disagree.
-/
theorem sign_laws (a b : Scalar) :
    (a.sign = if a.isZero = true then 1 else (SignType.sign a.toRat : ℤ)) ∧
    (a.sign = 0 ↔ a.isNaN = true) ∧
    (a.sign = -1 ↔ a.isNegative = true) ∧
    ofInt a.sign * a.abs = a ∧
    ((-a).sign = -a.sign ↔ a.isZero = false) ∧
    ((a * b).sign = a.sign * b.sign ↔
      ¬ (a.isZero = true ∧ b.isNegative = true) ∧ ¬ (b.isZero = true ∧ a.isNegative = true)) := by
  refine ⟨?_, ?_, sign_eq_neg_one_iff, ofInt_sign_mul_abs a, ?_, ?_⟩
  · split
    · next h => rw [isZero_iff.mp h, sign_of_zero]
    · next h => exact sign_of_ne_zero fun h0 => h (isZero_iff.mpr h0)
  · rw [isNaN_iff, sign_eq_zero_iff]
  · rw [sign_neg_eq_iff, Bool.eq_false_iff, ne_eq, ne_eq, isZero_iff]
  · rw [sign_mul_eq_iff]
    simp

theorem sign_zero_positive :
    (0 : Scalar).isZero = true ∧ (0 : Scalar).sign ≠ 0 ∧ (-0 : Scalar).sign ≠ -(0 : Scalar).sign ∧
    (0 * ofInt (-1)).sign ≠ (0 : Scalar).sign * (ofInt (-1)).sign := by decide +kernel

end ExactPoly.Scalar
