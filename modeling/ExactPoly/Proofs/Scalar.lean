import Mathlib.Algebra.BigOperators.Group.Finset.Basic
import Mathlib.Algebra.Ring.Rat
import ExactPoly.Scalar.Basic

/-!
# Scalars as an extension of the rational numbers

* `ofRat_add`, ... : arithmetic on scalars that are numbers;
* `add_eq_nan_iff`, `sub_eq_nan_iff`, `mul_eq_nan_iff`, `mul_ne_zero` : when a result is NaN or zero;
* the commutative monoid of scalars under addition, `ofRatHom` and `ofRat_sum` : finite sums of scalars;
* `toRat` : the number a scalar stands for, `0` for `nan`.
-/

namespace ExactPoly.Scalar

theorem zero_def : (0 : Scalar) = .ofRat 0 := rfl

@[simp] theorem ofRat_add (a b : ℚ) : ofRat a + ofRat b = ofRat (a + b) := rfl

@[simp] theorem ofRat_sub (a b : ℚ) : ofRat a - ofRat b = ofRat (a - b) := rfl

@[simp] theorem ofRat_mul (a b : ℚ) : ofRat a * ofRat b = ofRat (a * b) := rfl

@[simp] theorem neg_ofRat (a : ℚ) : -ofRat a = ofRat (-a) := rfl

@[simp] theorem nan_add (a : Scalar) : nan + a = nan := by cases a <;> rfl

@[simp] theorem add_nan (a : Scalar) : a + nan = nan := by cases a <;> rfl

@[simp] theorem nan_sub (a : Scalar) : nan - a = nan := by cases a <;> rfl

@[simp] theorem sub_nan (a : Scalar) : a - nan = nan := by cases a <;> rfl

@[simp] theorem nan_mul (a : Scalar) : nan * a = nan := by cases a <;> rfl

@[simp] theorem mul_nan (a : Scalar) : a * nan = nan := by cases a <;> rfl

@[simp] theorem neg_nan : -nan = nan := rfl

theorem neg_ofInt (n : Int) : -ofInt n = ofInt (-n) := by
  rw [ofInt, ofInt, neg_ofRat, Rat.intCast_neg]

theorem neg_fraction (n d : Int) : -fraction n d = fraction (-n) d := by
  unfold fraction
  split
  · rfl
  · rw [neg_ofRat, Rat.neg_mkRat, apply_ite Neg.neg]

/-- A denominator that is a natural number has no sign to hand over. -/
theorem fraction_natCast (n : Int) {d : Nat} (hd : d ≠ 0) : fraction n d = ofRat (mkRat n d) := by
  rw [fraction, if_neg (by exact_mod_cast hd), if_neg (by omega), Int.natAbs_natCast]

instance : InvolutiveNeg Scalar where
  neg_neg a := by cases a <;> simp

theorem abs_of_isNegative {a : Scalar} (h : a.isNegative = true) : a.abs = -a := by
  cases a with
  | nan => rfl
  | ofRat q =>
    have hq : q < 0 := of_decide_eq_true h
    exact congrArg ofRat (Rat.abs_of_nonpos (Rat.le_of_lt hq))

theorem abs_of_not_isNegative {a : Scalar} (h : ¬ a.isNegative = true) : a.abs = a := by
  cases a with
  | nan => rfl
  | ofRat q =>
    have hq : ¬ q < 0 := fun hq => h (decide_eq_true hq)
    exact congrArg ofRat (Rat.abs_of_nonneg (Rat.not_lt.mp hq))

@[simp] theorem ofRat_eq_zero {a : ℚ} : ofRat a = 0 ↔ a = 0 := by simp [zero_def]

@[simp] theorem nan_ne_zero : nan ≠ 0 := by simp [zero_def]

theorem ofRat_div {a b : ℚ} (hb : b ≠ 0) : ofRat a / ofRat b = ofRat (a / b) :=
  if_neg (by simpa using hb)

@[simp] theorem isZero_iff {a : Scalar} : a.isZero = true ↔ a = 0 := by simp [isZero]

@[simp] theorem isNaN_iff {a : Scalar} : a.isNaN = true ↔ a = nan := by
  cases a <;> simp [isNaN, toRat?]

theorem isNaN_eq_false_iff {a : Scalar} : a.isNaN = false ↔ a ≠ nan := by
  rw [Bool.eq_false_iff, ne_eq, isNaN_iff]

theorem add_eq_nan_iff {a b : Scalar} : a + b = nan ↔ a = nan ∨ b = nan := by
  cases a <;> cases b <;> simp

theorem sub_eq_nan_iff {a b : Scalar} : a - b = nan ↔ a = nan ∨ b = nan := by
  cases a <;> cases b <;> simp

theorem mul_eq_nan_iff {a b : Scalar} : a * b = nan ↔ a = nan ∨ b = nan := by
  cases a <;> cases b <;> simp

theorem mul_ne_zero {a b : Scalar} (ha : a ≠ 0) (hb : b ≠ 0) : a * b ≠ 0 := by
  cases a <;> cases b <;> simp_all

/-! ## Finite sums -/

instance : AddCommMonoid Scalar where
  add_assoc a b c := by cases a <;> cases b <;> cases c <;> simp [add_assoc]
  zero_add a := by cases a <;> simp [zero_def]
  add_zero a := by cases a <;> simp [zero_def]
  add_comm a b := by cases a <;> cases b <;> simp [add_comm]
  nsmul := nsmulRec

def ofRatHom : ℚ →+ Scalar := ⟨⟨ofRat, rfl⟩, fun _ _ => rfl⟩

theorem ofRat_sum {ι : Type*} (s : Finset ι) (f : ι → ℚ) : ofRat (∑ i ∈ s, f i) = ∑ i ∈ s, ofRat (f i) :=
  map_sum ofRatHom f s

/-! ## The number of a scalar -/

/-- The number a scalar stands for. -/
def toRat (a : Scalar) : ℚ := a.toRat?.getD 0

@[simp] theorem toRat_ofRat (a : ℚ) : (ofRat a).toRat = a := rfl

theorem ofRat_toRat {a : Scalar} (h : a ≠ nan) : ofRat a.toRat = a := by
  cases a with
  | nan => exact absurd rfl h
  | ofRat a => rfl

theorem toRat_add {a b : Scalar} (ha : a ≠ nan) (hb : b ≠ nan) : (a + b).toRat = a.toRat + b.toRat := by
  rw [← ofRat_toRat ha, ← ofRat_toRat hb, ofRat_add, toRat_ofRat, toRat_ofRat, toRat_ofRat]

end ExactPoly.Scalar
