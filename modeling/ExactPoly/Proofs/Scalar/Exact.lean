import Mathlib.Algebra.Field.Rat
import Mathlib.Algebra.Order.Field.Basic
import Mathlib.Algebra.Order.Ring.Int
import Mathlib.Algebra.Order.Ring.Rat
import ExactPoly.Proofs.Scalar

/-!
# Scalars are exact

A scalar denotes `n / d` when its own numerator and denominator are in the proportion of `n` and `d`. Only integers are
compared, so nothing is said in terms of the rational numbers that a scalar is made of.

* `Denotes`, `denotes_iff` : the fractions, in lowest terms or not, that stand for a scalar;
* `denotes_fraction` : a fraction stands for the scalar that is built from it, also with a negative denominator;
* `Denotes.add`, ..., `Denotes.inv` : the operations as arithmetic on such fractions;
* `div_eq_nan_iff`, `inv_eq_nan_iff` : the operations that may have no result although their operands are numbers;
* `exact_arithmetic` : every operation denotes the exact result, and is NaN where there is none.
-/

namespace ExactPoly.Scalar

/-- The scalar is the number `n / d`. -/
def Denotes (a : Scalar) (n d : Int) : Prop :=
  d ≠ 0 ∧ ∃ p q, a.num? = some p ∧ a.den? = some q ∧ p * d = n * q

theorem denotes_iff {a : Scalar} {n d : Int} : a.Denotes n d ↔ d ≠ 0 ∧ a = ofRat (Rat.divInt n d) := by
  apply and_congr_right
  intro hd
  cases a with
  | nan => exact iff_of_false (fun ⟨p, q, hp, _⟩ => by cases hp) (fun h => by cases h)
  | ofRat r =>
    have hden : (r.den : Int) ≠ 0 := by exact_mod_cast r.den_nz
    have hproportion : (∃ p q, (ofRat r).num? = some p ∧ (ofRat r).den? = some q ∧ p * d = n * q) ↔
        r.num * d = n * r.den := by
      constructor
      · rintro ⟨p, q, ⟨⟩, ⟨⟩, h⟩
        exact h
      · intro h
        exact ⟨r.num, r.den, rfl, rfl, h⟩
    -- a scalar's own numerator and denominator are one fraction that stands for it
    rw [hproportion, ← Rat.divInt_eq_divInt_iff hden hd, Rat.num_divInt_den, ofRat.injEq]

/-- The numerator and the denominator of a number are in lowest terms. -/
theorem exists_lowest_terms {a : Scalar} (h : a ≠ nan) :
    ∃ n d, a.num? = some n ∧ a.den? = some d ∧ 1 ≤ d ∧ n.natAbs.Coprime d ∧ a.Denotes n d := by
  cases a with
  | nan => exact absurd rfl h
  | ofRat q =>
    have hden : (q.den : Int) ≠ 0 := by exact_mod_cast q.den_nz
    exact ⟨q.num, q.den, rfl, rfl, q.den_pos, q.reduced, hden, q.num, q.den, rfl, rfl, rfl⟩

theorem denotes_zero_iff {a : Scalar} : a.Denotes 0 1 ↔ a = 0 := by
  rw [denotes_iff, Rat.zero_divInt, zero_def]
  exact and_iff_right one_ne_zero

theorem eq_iff_denotes {a b : Scalar} :
    a = b ↔ a = nan ∧ b = nan ∨ ∃ n d, a.Denotes n d ∧ b.Denotes n d := by
  constructor
  · rintro rfl
    by_cases h : a = nan
    · exact .inl ⟨h, h⟩
    · obtain ⟨n, d, -, -, -, -, hd⟩ := exists_lowest_terms h
      exact .inr ⟨n, d, hd, hd⟩
  · rintro (⟨ha, hb⟩ | ⟨n, d, ha, hb⟩)
    · rw [ha, hb]
    · rw [(denotes_iff.mp ha).2, (denotes_iff.mp hb).2]

/-! ## Fractions and integers -/

theorem fraction_eq_nan_iff {n d : Int} : fraction n d = nan ↔ d = 0 := by
  unfold fraction
  split <;> simp_all

theorem denotes_mkRat (n : Int) {d : Nat} (hd : d ≠ 0) : (ofRat (mkRat n d)).Denotes n d := by
  have h : n * (mkRat n d).den = (mkRat n d).num * d :=
    (Rat.mkRat_eq_iff hd (mkRat n d).den_nz).mp (Rat.mkRat_self _).symm
  exact ⟨by exact_mod_cast hd, _, _, rfl, rfl, h.symm⟩

theorem Denotes.of_neg {a : Scalar} {n d : Int} (h : a.Denotes (-n) (-d)) : a.Denotes n d := by
  obtain ⟨hd, p, q, hp, hq, h⟩ := h
  rw [mul_neg, neg_mul, neg_inj] at h
  exact ⟨neg_ne_zero.mp hd, p, q, hp, hq, h⟩

/-- A negative denominator is its absolute value with the sign changed, and so is the numerator that is built with it. -/
theorem denotes_fraction (n : Int) {d : Int} (hd : d ≠ 0) : (fraction n d).Denotes n d := by
  have habs : d.natAbs ≠ 0 := Int.natAbs_ne_zero.mpr hd
  rw [fraction, if_neg hd]
  by_cases hneg : d < 0
  · have h := denotes_mkRat (-n) habs
    rw [Int.ofNat_natAbs_of_nonpos hneg.le] at h
    rw [if_pos hneg]
    exact h.of_neg
  · have h := denotes_mkRat n habs
    rw [Int.natAbs_of_nonneg (not_lt.mp hneg)] at h
    rw [if_neg hneg]
    exact h

theorem denotes_ofInt (n : Int) : (ofInt n).Denotes n 1 :=
  denotes_iff.mpr ⟨one_ne_zero, congrArg ofRat (Rat.intCast_eq_divInt n)⟩

/-! ## NaN -/

theorem neg_eq_nan_iff {a : Scalar} : -a = nan ↔ a = nan := by
  cases a <;> simp

theorem abs_eq_nan_iff {a : Scalar} : a.abs = nan ↔ a = nan := by
  cases a <;> simp [abs, map]

theorem div_def (a b : Scalar) : a / b = if b = 0 then nan else map₂ (· / ·) a b := rfl

theorem inv_def (a : Scalar) : a⁻¹ = if a = 0 then nan else map (·⁻¹) a := rfl

theorem div_eq_nan_iff {a b : Scalar} : a / b = nan ↔ a = nan ∨ b = nan ∨ b = 0 := by
  rw [div_def]
  split
  · next h => exact iff_of_true rfl (.inr (.inr h))
  · next h => cases a <;> cases b <;> simp_all [map₂]

theorem inv_eq_nan_iff {a : Scalar} : a⁻¹ = nan ↔ a = nan ∨ a = 0 := by
  rw [inv_def]
  split
  · next h => exact iff_of_true rfl (.inr h)
  · next h => cases a <;> simp_all [map]

theorem div_eq_mul_inv (a b : Scalar) : a / b = a * b⁻¹ := by
  rw [div_def, inv_def]
  split
  · exact (mul_nan a).symm
  · cases a <;> cases b <;> simp [map₂, map, Rat.div_def]

/-! ## Arithmetic -/

theorem rat_abs_eq (q : ℚ) : q.abs = |q| := by
  rcases le_total 0 q with h | h
  · rw [Rat.abs_of_nonneg h, abs_of_nonneg h]
  · rw [Rat.abs_of_nonpos h, abs_of_nonpos h]

section Arithmetic
variable {a b : Scalar} {n d m e : Int}

theorem Denotes.neg (ha : a.Denotes n d) : (-a).Denotes (-n) d := by
  obtain ⟨hd, rfl⟩ := denotes_iff.mp ha
  exact denotes_iff.mpr ⟨hd, congrArg ofRat (Rat.neg_divInt n d)⟩

theorem Denotes.abs (ha : a.Denotes n d) : a.abs.Denotes |n| |d| := by
  obtain ⟨hd, rfl⟩ := denotes_iff.mp ha
  have habs : (Rat.divInt n d).abs = Rat.divInt |n| |d| := by
    rw [rat_abs_eq, Rat.divInt_eq_div, Rat.divInt_eq_div, abs_div, Int.cast_abs, Int.cast_abs]
  exact denotes_iff.mpr ⟨abs_ne_zero.mpr hd, congrArg ofRat habs⟩

theorem Denotes.inv (ha : a.Denotes n d) (hn : n ≠ 0) : a⁻¹.Denotes d n := by
  obtain ⟨hd, rfl⟩ := denotes_iff.mp ha
  have h0 : ofRat (Rat.divInt n d) ≠ 0 := by simp [Rat.divInt_eq_zero hd, hn]
  rw [inv_def, if_neg h0]
  exact denotes_iff.mpr ⟨hn, congrArg ofRat (Rat.inv_divInt n d)⟩

variable (ha : a.Denotes n d) (hb : b.Denotes m e)
include ha hb

theorem Denotes.add : (a + b).Denotes (n * e + m * d) (d * e) := by
  obtain ⟨hd, rfl⟩ := denotes_iff.mp ha
  obtain ⟨he, rfl⟩ := denotes_iff.mp hb
  exact denotes_iff.mpr ⟨Int.mul_ne_zero hd he, congrArg ofRat (Rat.divInt_add_divInt n m hd he)⟩

theorem Denotes.sub : (a - b).Denotes (n * e - m * d) (d * e) := by
  obtain ⟨hd, rfl⟩ := denotes_iff.mp ha
  obtain ⟨he, rfl⟩ := denotes_iff.mp hb
  exact denotes_iff.mpr ⟨Int.mul_ne_zero hd he, congrArg ofRat (Rat.divInt_sub_divInt n m hd he)⟩

theorem Denotes.mul : (a * b).Denotes (n * m) (d * e) := by
  obtain ⟨hd, rfl⟩ := denotes_iff.mp ha
  obtain ⟨he, rfl⟩ := denotes_iff.mp hb
  exact denotes_iff.mpr ⟨Int.mul_ne_zero hd he, congrArg ofRat (Rat.divInt_mul_divInt n m)⟩

theorem Denotes.div (hm : m ≠ 0) : (a / b).Denotes (n * e) (d * m) := by
  rw [div_eq_mul_inv]
  exact ha.mul (hb.inv hm)

end Arithmetic

/--
The value of every scalar and every operation, as a fraction `n / d` that need not be in lowest terms. A quotient by zero
and the inverse of zero are NaN, and so is every result with a NaN operand.
-/
theorem exact_arithmetic :
    (∀ a : Scalar, a.isNaN = true ∨
      ∃ n d, a.num? = some n ∧ a.den? = some d ∧ 1 ≤ d ∧ n.natAbs.Coprime d ∧ a.Denotes n d) ∧
    (∀ a b : Scalar, (a == b) = true ↔ a.isNaN = true ∧ b.isNaN = true ∨ ∃ n d, a.Denotes n d ∧ b.Denotes n d) ∧
    (∀ n d : Int, ((fraction n d).isNaN = true ↔ d = 0) ∧ (d ≠ 0 → (fraction n d).Denotes n d)) ∧
    (∀ n : Int, (ofInt n).Denotes n 1) ∧
    (∀ a : Scalar,
      ((-a).isNaN = true ↔ a.isNaN = true) ∧
      (a.abs.isNaN = true ↔ a.isNaN = true) ∧
      (a⁻¹.isNaN = true ↔ a.isNaN = true ∨ a.Denotes 0 1) ∧
      ∀ n d, a.Denotes n d →
        (-a).Denotes (-n) d ∧ a.abs.Denotes |n| |d| ∧ (n ≠ 0 → a⁻¹.Denotes d n)) ∧
    (∀ a b : Scalar,
      ((a + b).isNaN = true ↔ a.isNaN = true ∨ b.isNaN = true) ∧
      ((a - b).isNaN = true ↔ a.isNaN = true ∨ b.isNaN = true) ∧
      ((a * b).isNaN = true ↔ a.isNaN = true ∨ b.isNaN = true) ∧
      ((a / b).isNaN = true ↔ a.isNaN = true ∨ b.isNaN = true ∨ b.Denotes 0 1) ∧
      ∀ n d m e, a.Denotes n d → b.Denotes m e →
        (a + b).Denotes (n * e + m * d) (d * e) ∧
        (a - b).Denotes (n * e - m * d) (d * e) ∧
        (a * b).Denotes (n * m) (d * e) ∧
        (m ≠ 0 → (a / b).Denotes (n * e) (d * m))) ∧
    ∀ a b : Scalar, (a / b == a * b⁻¹) = true := by
  simp only [isNaN_iff, beq_iff_eq, denotes_zero_iff]
  refine ⟨fun a => ?_, fun a b => eq_iff_denotes, fun n d => ⟨fraction_eq_nan_iff, denotes_fraction n⟩, denotes_ofInt,
    fun a => ⟨neg_eq_nan_iff, abs_eq_nan_iff, inv_eq_nan_iff, fun n d ha => ⟨ha.neg, ha.abs, ha.inv⟩⟩,
    fun a b => ⟨add_eq_nan_iff, sub_eq_nan_iff, mul_eq_nan_iff, div_eq_nan_iff, fun n d m e ha hb => ?_⟩,
    div_eq_mul_inv⟩
  · by_cases h : a = nan
    · exact .inl h
    · exact .inr (exists_lowest_terms h)
  · exact ⟨ha.add hb, ha.sub hb, ha.mul hb, ha.div hb⟩

/-- The fractions `6 / -4` and `0 / -5`: a negative denominator, a quotient, and a zero divisor. -/
theorem exact_arithmetic_negative_denominator :
    let a := fraction 6 (-4)
    let b := fraction 0 (-5)
    a.num? = some (-3) ∧ a.den? = some 2 ∧ a.Denotes 6 (-4) ∧ b.Denotes 0 (-5) ∧
    (a - b).Denotes (6 * -5 - 0 * -4) (-4 * -5) ∧ (b / a).Denotes (0 * -4) (-5 * 6) ∧ a⁻¹.Denotes (-4) 6 ∧
    a.abs.Denotes 6 4 ∧ (a / b).isNaN = true := by
  intro a b
  obtain ⟨-, -, hfraction, -, hunary, hbinary, -⟩ := exact_arithmetic
  have ha : a.Denotes 6 (-4) := (hfraction 6 (-4)).2 (by decide)
  have hb : b.Denotes 0 (-5) := (hfraction 0 (-5)).2 (by decide)
  have hzero : b.Denotes 0 1 := ⟨by decide, 0, 1, by decide +kernel, by decide +kernel, by decide⟩
  have habs : a.abs.Denotes |6| |-4| := ((hunary a).2.2.2 6 (-4) ha).2.1
  obtain ⟨-, -, -, hdiv, hab⟩ := hbinary a b
  exact ⟨by decide +kernel, by decide +kernel, ha, hb, (hab _ _ _ _ ha hb).2.1,
    ((hbinary b a).2.2.2.2 _ _ _ _ hb ha).2.2.2 (by decide), ((hunary a).2.2.2 6 (-4) ha).2.2 (by decide), habs,
    hdiv.mpr (.inr (.inr hzero))⟩

end ExactPoly.Scalar
