import ExactPoly.Proofs.Poly.Euclidean

/-!
# Division of sums and products, and by products

Each law names a quotient and a remainder that meet the two conditions of `Represents.divMod_eq`; the products in it do not
overflow because their degrees are bounded by that of a product that does not.

* `Represents.divMod_add` : quotient and remainder of a sum are the sums of those of the two dividends;
* `Represents.mod_mul`, `Represents.divMod_mul_mod` : the remainder of a product is that of the product of the remainders;
* `Represents.divMod_mul` : to divide by a product, divide by one factor and then the quotient by the other;
* `divMod_add_mul`, `div_div_mul` : the laws for reachable polynomials.
-/

open Polynomial

namespace ExactPoly.Poly

/-! ## The dividend is a sum or a product -/

section Dividend
variable {a b v : Poly} {A B V : ℚ[X]} (ha : a.Represents A) (hb : b.Represents B) (hv : v.Represents V) (hV : V ≠ 0)
include ha hb hv hV

theorem Represents.divMod_add :
    Poly.divMod (a + b) v =
      ((Poly.divMod a v).1 + (Poly.divMod b v).1, (Poly.divMod a v).2 + (Poly.divMod b v).2) := by
  obtain ⟨hqa, hra⟩ := ha.divMod hv hV
  obtain ⟨hqb, hrb⟩ := hb.divMod hv hV
  have hA : V * (A / V) + A % V = A := EuclideanDomain.div_add_mod A V
  have hB : V * (B / V) + B % V = B := EuclideanDomain.div_add_mod B V
  refine (ha.add hb).divMod_eq hv hV (hqa.add hqb) (hra.add hrb) ?_ ?_
  · linear_combination hA + hB
  · exact (degree_add_le _ _).trans_lt (max_lt (degree_mod_lt A hV) (degree_mod_lt B hV))

/-- The product of the remainders overflows no sooner than that of the dividends. -/
theorem Represents.mod_mul (h : (A * B).natDegree ≤ maxExpt) :
    ((Poly.divMod a v).2 * (Poly.divMod b v).2).Represents (A % V * (B % V)) := by
  have hle : (A % V * (B % V)).natDegree ≤ (A * B).natDegree :=
    natDegree_mul_le_of_degree_le degree_modByMonic_le_left degree_modByMonic_le_left
  exact (ha.divMod hv hV).2.mul (hb.divMod hv hV).2 (hle.trans h)

theorem Represents.divMod_mul_mod (h : (A * B).natDegree ≤ maxExpt) :
    (Poly.divMod (a * b) v).2 = (Poly.divMod ((Poly.divMod a v).2 * (Poly.divMod b v).2) v).2 :=
  ((ha.mul hb h).divMod hv hV).2.congr ((ha.mod_mul hb hv hV h).divMod hv hV).2 (mul_mod A B V)

end Dividend

/-! ## The divisor is a product -/

theorem Represents.divMod_mul {u v w : Poly} {U V W : ℚ[X]} (hu : u.Represents U) (hv : v.Represents V)
    (hw : w.Represents W) (hV : V ≠ 0) (hW : W ≠ 0) (h : (V * W).natDegree ≤ maxExpt) :
    Poly.divMod u (v * w) =
      ((Poly.divMod (u / v) w).1, v * (Poly.divMod (u / v) w).2 + (Poly.divMod u v).2) := by
  obtain ⟨hq, hr⟩ := hu.divMod hv hV
  obtain ⟨hs, ht⟩ := hq.divMod hw hW
  have hU : V * (U / V) + U % V = U := EuclideanDomain.div_add_mod U V
  have hQ : W * (U / V / W) + U / V % W = U / V := EuclideanDomain.div_add_mod (U / V) W
  have hT : (U / V % W).degree < W.degree := degree_mod_lt _ hW
  have hle : (V * (U / V % W)).natDegree ≤ maxExpt := (natDegree_mul_le_of_degree_le le_rfl hT.le).trans h
  -- both parts of the remainder are below the divisor: the first because `V` is not zero, the second because `W` is not
  have hfirst : (V * (U / V % W)).degree < (V * W).degree := by
    rw [degree_mul, degree_mul]
    exact WithBot.add_lt_add_left (degree_ne_bot.mpr hV) hT
  have hsecond : (U % V).degree < (V * W).degree := (degree_mod_lt U hV).trans_le (degree_le_mul_left V hW)
  refine hu.divMod_eq (hv.mul hw h) (mul_ne_zero hV hW) hs ((hv.mul ht hle).add hr) ?_ ?_
  · linear_combination hU + V * hQ
  · exact (degree_add_le _ _).trans_lt (max_lt hfirst hsecond)

/-! ## Reachable polynomials -/

theorem divMod_add_mul {a b v : Poly} (ha : Reachable a) (hb : Reachable b) (hv : Reachable v)
    (han : a.isNaN = false) (hbn : b.isNaN = false) (hvn : v.isNaN = false) (h0 : v.isZero = false) :
    ((divMod (a + b) v).1.isNaN = false ∧ (divMod (a + b) v).2.isNaN = false ∧
      divMod (a + b) v = ((divMod a v).1 + (divMod b v).1, (divMod a v).2 + (divMod b v).2)) ∧
    ((a * b).isNaN = false →
      (divMod (a * b) v).2.isNaN = false ∧ ((divMod a v).2 * (divMod b v).2).isNaN = false ∧
      (divMod (a * b) v).2 = (divMod ((divMod a v).2 * (divMod b v).2) v).2) := by
  obtain ⟨A, hA⟩ := ha.represents han
  obtain ⟨B, hB⟩ := hb.represents hbn
  obtain ⟨V, hV⟩ := hv.represents hvn
  have hV0 := hV.ne_zero h0
  obtain ⟨hq, hr⟩ := (hA.add hB).divMod hV hV0
  refine ⟨⟨hq.not_nan, hr.not_nan, hA.divMod_add hB hV hV0⟩, fun hn => ?_⟩
  have h := hA.natDegree_mul_le hB hn
  have hrem := ((hA.mul hB h).divMod hV hV0).2
  exact ⟨hrem.not_nan, (hA.mod_mul hB hV hV0 h).not_nan, hA.divMod_mul_mod hB hV hV0 h⟩

/-- The leading terms cancel in the sum, and the product has almost the largest degree. -/
theorem divMod_add_mul_cancelled :
    let a := ofInt 1 2147483647 + ofInt 1 0
    let b := ofInt 1 1 - ofInt 1 2147483647
    let v := ofInt 1 2147483647 - ofInt 2 0
    (a + b).degree = 1 ∧ (divMod a v).1 + (divMod b v).1 = (divMod (a + b) v).1 ∧
    (a * b).degree = 4294967294 ∧ (divMod (a * b) v).2 = ofInt 3 1 - ofInt 6 0 := by
  intro a b v
  have ha : Reachable a := .add (.ofInt 1 (by decide)) (.ofInt 1 (by decide))
  have hb : Reachable b := .sub (.ofInt 1 (by decide)) (.ofInt 1 (by decide))
  have hv : Reachable v := .sub (.ofInt 1 (by decide)) (.ofInt 2 (by decide))
  obtain ⟨⟨-, -, hadd⟩, hmul⟩ :=
    divMod_add_mul ha hb hv (by decide +kernel) (by decide +kernel) (by decide +kernel) (by decide +kernel)
  obtain ⟨-, -, hrem⟩ := hmul (by decide +kernel)
  exact ⟨by decide +kernel, (congrArg Prod.fst hadd).symm, by decide +kernel, hrem.trans (Poly.ext (by decide +kernel))⟩

theorem div_div_mul {u v w : Poly} (hu : Reachable u) (hv : Reachable v) (hw : Reachable w) (hun : u.isNaN = false)
    (hvn : v.isNaN = false) (hwn : w.isNaN = false) (hv0 : v.isZero = false) (hw0 : w.isZero = false)
    (hdeg : v.degree + w.degree ≤ maxExpt) :
    (u / v / w).isNaN = false ∧ u / v / w = u / (v * w) ∧
    (divMod u (v * w)).2.isNaN = false ∧
    (divMod u (v * w)).2 = v * (divMod (u / v) w).2 + (divMod u v).2 := by
  obtain ⟨U, hU⟩ := hu.represents hun
  obtain ⟨V, hV⟩ := hv.represents hvn
  obtain ⟨W, hW⟩ := hw.represents hwn
  have hV0 := hV.ne_zero hv0
  have hW0 := hW.ne_zero hw0
  have h := (hV.natDegree_mul_le_iff hW).mpr (.inr (.inr hdeg))
  have hdiv := hU.divMod_mul hV hW hV0 hW0 h
  obtain ⟨-, hr⟩ := hU.divMod (hV.mul hW h) (mul_ne_zero hV0 hW0)
  obtain ⟨hq, -⟩ := (hU.divMod hV hV0).1.divMod hW hW0
  exact ⟨hq.not_nan, (congrArg Prod.fst hdiv).symm, hr.not_nan, congrArg Prod.snd hdiv⟩

/-- The product has the largest degree, and both remainders on the way are `x`. -/
theorem div_div_mul_largest_degree :
    let u := ofInt 2 4294967295 + ofInt 1 2147483648
    let v := ofInt 1 2147483647 + ofInt 1 0
    let w := ofInt 1 2147483648 - ofInt 1 1
    (v * w).degree = maxExpt ∧ u / (v * w) = ofInt 2 0 ∧
    (divMod u v).2 = ofInt 1 1 ∧ (divMod (u / v) w).2 = ofInt 1 1 ∧
    (divMod u (v * w)).2 = v * ofInt 1 1 + ofInt 1 1 := by
  intro u v w
  have hu : Reachable u := .add (.ofInt 2 (by decide)) (.ofInt 1 (by decide))
  have hv : Reachable v := .add (.ofInt 1 (by decide)) (.ofInt 1 (by decide))
  have hw : Reachable w := .sub (.ofInt 1 (by decide)) (.ofInt 1 (by decide))
  obtain ⟨-, hdiv, -, hrem⟩ :=
    div_div_mul hu hv hw (by decide +kernel) (by decide +kernel) (by decide +kernel) (by decide +kernel) (by decide +kernel)
      (by decide +kernel)
  have hquot : u / v / w = ofInt 2 0 := Poly.ext (by decide +kernel)
  have hr : (divMod u v).2 = ofInt 1 1 := Poly.ext (by decide +kernel)
  have ht : (divMod (u / v) w).2 = ofInt 1 1 := Poly.ext (by decide +kernel)
  rw [hr, ht] at hrem
  exact ⟨by decide +kernel, hdiv.symm.trans hquot, hr, ht, hrem⟩

end ExactPoly.Poly
