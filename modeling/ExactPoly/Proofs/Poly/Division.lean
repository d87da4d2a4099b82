import Mathlib.Algebra.Polynomial.FieldDivision
import ExactPoly.Proofs.Poly.Represents

/-!
# Long division

* `div_mod_unique` : `U / V` and `U % V` are the only pair with `Q * V + R = U` and `R` of smaller degree;
* `nextStep?_eq_some_iff`, `nextStep?_eq_none_iff`, `represents_step` : the loop ends when the remainder has the smaller
  degree, and every step before that cancels the leading term of the remainder;
* `DivState` : the states at the entry of the loop;
* `LoopInvariant`, `LoopInvariant.step`, `DivState.loopInvariant` : in a state, the terms found so far and the remainder
  make up the dividend, and the exponents of the terms descend down to the degree of the remainder;
* `LoopInvariant.length_le`, `DivState.exists_final` : so the number of steps is bounded, and `divMod` makes all of them;
* `Represents.divMod` : quotient and remainder represent `U / V` and `U % V`.
-/

open Polynomial

namespace ExactPoly.Poly

theorem div_mod_unique {U V Q R : ℚ[X]} (h : Q * V + R = U) (hd : R.degree < V.degree) : Q = U / V ∧ R = U % V := by
  have hV : V ≠ 0 := by
    rintro rfl
    exact absurd hd not_lt_bot
  have hmod : U % V = R := by
    rw [← h, add_mod, EuclideanDomain.mod_eq_zero.mpr (dvd_mul_left V Q), zero_add, (mod_eq_self_iff hV).mpr hd]
  have hdiv : V * (U / V) + U % V = U := EuclideanDomain.div_add_mod U V
  refine ⟨mul_left_cancel₀ hV ?_, hmod.symm⟩
  rw [hmod] at hdiv
  linear_combination h - hdiv

/-! ## One step -/

theorem nextStep?_eq_some_iff {v r : Poly} {t : Term} :
    nextStep? v r = some t ↔
      ∃ a ∈ r.lead?, ∃ b ∈ v.lead?, b.expt ≤ a.expt ∧ t = .monomial (a.coeff / b.coeff) (a.expt - b.expt) := by
  unfold nextStep?
  cases r.lead? with
  | none => simp
  | some a =>
    cases v.lead? with
    | none => simp
    | some b =>
      by_cases h : a.expt < b.expt
      · simp [h, not_le.mpr h]
      · simp [h, not_lt.mp h, eq_comm]

section Step
variable {v r : Poly} {V R : ℚ[X]} (hv : v.Represents V) (hr : r.Represents R) (hV : V ≠ 0)
include hv hr hV

theorem nextStep?_eq_none_iff : nextStep? v r = none ↔ R.degree < V.degree := by
  obtain ⟨b, -, hb, -, hbe⟩ := hv.lead hV
  rw [nextStep?, hb]
  by_cases hR : R = 0
  · subst hR
    rw [hr.unique represents_zero, degree_zero]
    exact iff_of_true rfl (bot_lt_iff_ne_bot.mpr (by simpa using hV))
  · obtain ⟨a, -, ha, -, hae⟩ := hr.lead hR
    rw [ha, degree_eq_natDegree hR, degree_eq_natDegree hV, Nat.cast_lt, ← hae, ← hbe]
    show (if a.expt < b.expt then none else some _) = none ↔ _
    split
    · next h => exact iff_of_true rfl h
    · next h => exact iff_of_false (by simp) h

theorem nextStep?_eq_some {t : Term} (ht : nextStep? v r = some t) :
    t.coeff = .ofRat (R.leadingCoeff / V.leadingCoeff) ∧ R ≠ 0 ∧ t.expt + V.natDegree = R.natDegree := by
  obtain ⟨a, ha, b, hb, hle, rfl⟩ := nextStep?_eq_some_iff.mp ht
  have hR : R ≠ 0 := hr.ne_zero_of_mem (List.mem_of_mem_head? ha)
  obtain ⟨a', -, ha', hac, hae⟩ := hr.lead hR
  obtain ⟨b', -, hb', hbc, hbe⟩ := hv.lead hV
  obtain rfl : a = a' := Option.some.inj (ha.symm.trans ha')
  obtain rfl : b = b' := Option.some.inj (hb.symm.trans hb')
  have hbc0 : V.leadingCoeff ≠ 0 := leadingCoeff_ne_zero.mpr hV
  have hc0 : (Scalar.ofRat (R.leadingCoeff / V.leadingCoeff)) ≠ 0 := by
    simpa using ⟨hR, hV⟩
  have hexpt : a.expt - b.expt ≤ maxExpt := (Nat.sub_le _ _).trans a.expt_le
  rw [hac, hbc, Scalar.ofRat_div hbc0, Term.coeff_monomial, Term.expt_monomial hc0 (by simp) hexpt]
  exact ⟨rfl, hR, by omega⟩

theorem coeff_step_ne {t : Term} (ht : nextStep? v r = some t) : t.coeff ≠ 0 ∧ t.coeff ≠ .nan := by
  obtain ⟨hc, hR, -⟩ := nextStep?_eq_some hv hr hV ht
  rw [hc]
  exact ⟨by simpa using ⟨hR, hV⟩, by simp⟩

/-- The product with the term of a step has the leading term of the remainder. -/
theorem lead_mul_step {t : Term} (ht : nextStep? v r = some t) :
    (V * t.toPolynomial).natDegree = R.natDegree ∧ (V * t.toPolynomial).leadingCoeff = R.leadingCoeff := by
  obtain ⟨hc, hR, he⟩ := nextStep?_eq_some hv hr hV ht
  obtain ⟨ht0, htn⟩ := coeff_step_ne hv hr hV ht
  have hV0 : V.leadingCoeff ≠ 0 := leadingCoeff_ne_zero.mpr hV
  constructor
  · rw [natDegree_mul_term hV ht0 htn]
    omega
  · rw [leadingCoeff_mul, Term.toPolynomial, leadingCoeff_monomial, hc, Scalar.toRat_ofRat]
    exact mul_div_cancel₀ _ hV0

/-- A step never overflows, cancels the leading term and so lowers the degree. -/
theorem represents_step {t : Term} (ht : nextStep? v r = some t) :
    (v.mulTerm t).Represents (V * t.toPolynomial) ∧ (r - v.mulTerm t).Represents (R - V * t.toPolynomial) ∧
      (R - V * t.toPolynomial).degree < R.degree := by
  obtain ⟨hc, hR, -⟩ := nextStep?_eq_some hv hr hV ht
  obtain ⟨hdeg, hlead⟩ := lead_mul_step hv hr hV ht
  have hmul := hv.mulTerm (t := t) (by simp [hc]) (hdeg ▸ hr.natDegree_le)
  have hne : V * t.toPolynomial ≠ 0 := by
    rw [← leadingCoeff_ne_zero, hlead]
    exact leadingCoeff_ne_zero.mpr hR
  refine ⟨hmul, hr.sub hmul, degree_sub_lt_left ?_ hR hlead.symm⟩
  rw [degree_eq_natDegree hR, degree_eq_natDegree hne, hdeg]

end Step

/-- The states at the entry of the loop that divides `u` by `v`: the terms found so far and the remainder. -/
inductive DivState (u v : Poly) : List Term → Poly → Prop
  | start : DivState u v [] u
  | step {ts : List Term} {r : Poly} {t : Term} (h : DivState u v ts r) (ht : nextStep? v r = some t) :
      DivState u v (ts ++ [t]) (r - v.mulTerm t)

theorem longDivision_zero (v r : Poly) : longDivision v 0 r = ([], r) := rfl

theorem longDivision_of_none {v r : Poly} (h : nextStep? v r = none) (fuel : Nat) : longDivision v fuel r = ([], r) := by
  cases fuel with
  | zero => rfl
  | succ fuel =>
    rw [longDivision, longDivisionM, h]
    rfl

theorem longDivision_of_some {v r : Poly} {t : Term} (h : nextStep? v r = some t) (fuel : Nat) :
    longDivision v (fuel + 1) r =
      (t :: (longDivision v fuel (r - v.mulTerm t)).1, (longDivision v fuel (r - v.mulTerm t)).2) := by
  rw [longDivision, longDivisionM, h]
  rfl

/-- From a state, the loop goes through states only. -/
theorem DivState.run {u v r : Poly} {ts : List Term} (h : DivState u v ts r) (fuel : Nat) :
    DivState u v (ts ++ (longDivision v fuel r).1) (longDivision v fuel r).2 := by
  induction fuel generalizing ts r with
  | zero =>
    rw [longDivision_zero, List.append_nil]
    exact h
  | succ fuel ih =>
    cases ht : nextStep? v r with
    | none =>
      rw [longDivision_of_none ht, List.append_nil]
      exact h
    | some t =>
      rw [longDivision_of_some ht]
      have := ih (h.step ht)
      rwa [List.append_assoc] at this

/-! ## The invariant of the loop -/

/-- The dividend is `U` and the divisor `V`; `Q` and `R` are what has been found of quotient and remainder. -/
structure LoopInvariant (U V Q R : ℚ[X]) (ts : List Term) (r : Poly) : Prop where
  quotient : (⟨ts⟩ : Poly).Represents Q
  remainder : r.Represents R
  sum_eq : Q * V + R = U
  degree_lt : ∀ t ∈ ts, R.degree < (t.expt + V.natDegree : ℕ)
  natDegree_le : R.natDegree ≤ U.natDegree
  expt_le : ∀ t ∈ ts, t.expt + V.natDegree ≤ U.natDegree

theorem LoopInvariant.start {u : Poly} {U : ℚ[X]} (hu : u.Represents U) (V : ℚ[X]) : LoopInvariant U V 0 U [] u where
  quotient := represents_zero
  remainder := hu
  sum_eq := by rw [zero_mul, zero_add]
  degree_lt := by simp
  natDegree_le := le_rfl
  expt_le := by simp

/-- No two terms have the same exponent. -/
theorem LoopInvariant.length_le {U V Q R : ℚ[X]} {ts : List Term} {r : Poly} (h : LoopInvariant U V Q R ts r) :
    ts.length ≤ U.natDegree + 1 - V.natDegree :=
  h.quotient.canonical.length_le fun t ht => by
    have := h.expt_le t ht
    omega

section Loop
variable {u v r : Poly} {U V Q R : ℚ[X]} {ts : List Term} (hu : u.Represents U) (hv : v.Represents V) (hV : V ≠ 0)
include hv hV

theorem LoopInvariant.step (h : LoopInvariant U V Q R ts r) {t : Term} (ht : nextStep? v r = some t) :
    LoopInvariant U V (Q + t.toPolynomial) (R - V * t.toPolynomial) (ts ++ [t]) (r - v.mulTerm t) := by
  obtain ⟨ht0, htn⟩ := coeff_step_ne hv h.remainder hV ht
  obtain ⟨-, hR, he⟩ := nextStep?_eq_some hv h.remainder hV ht
  obtain ⟨-, hsub, hlt⟩ := represents_step hv h.remainder hV ht
  have hdeg : R.degree = (t.expt + V.natDegree : ℕ) := by rw [he, degree_eq_natDegree hR]
  -- the degree of the remainder is that of the product with `t`, and below those of the products before it
  have hbelow : ∀ s ∈ ts, t.expt < s.expt := fun s hs => by
    have := h.degree_lt s hs
    rw [hdeg, Nat.cast_lt] at this
    omega
  refine ⟨represents_concat ht0 htn h.quotient hbelow, hsub, ?_, fun s hs => ?_, ?_, fun s hs => ?_⟩
  · linear_combination h.sum_eq
  · rcases List.mem_append.mp hs with hs | hs
    · exact hlt.trans (h.degree_lt s hs)
    · rw [List.mem_singleton.mp hs, ← hdeg]
      exact hlt
  · exact (natDegree_le_natDegree hlt.le).trans h.natDegree_le
  · rcases List.mem_append.mp hs with hs | hs
    · exact h.expt_le s hs
    · rw [List.mem_singleton.mp hs, he]
      exact h.natDegree_le

include hu

theorem DivState.loopInvariant (h : DivState u v ts r) : ∃ Q R : ℚ[X], LoopInvariant U V Q R ts r := by
  induction h with
  | start => exact ⟨0, U, .start hu V⟩
  | step _ ht ih =>
    obtain ⟨Q, R, hinv⟩ := ih
    exact ⟨_, _, hinv.step hv hV ht⟩

end Loop

/-! ## The end of the loop -/

theorem divMod_def {u v : Poly} (hu : u.isNaN = false) (hv : v.isNaN = false) (h0 : v.isZero = false) :
    divMod u v = (⟨(longDivision v (stepBound v u) u).1⟩, (longDivision v (stepBound v u) u).2) := by
  rw [divMod, divModM, hu, hv, h0]
  rfl

theorem divMod_of_isNaN {u v : Poly} (h : u.isNaN = true ∨ v.isNaN = true ∨ v.isZero = true) :
    divMod u v = (nan, nan) := by
  rw [divMod, divModM, if_pos (by simpa [or_assoc] using h)]
  rfl

theorem longDivision_ended_or_length_eq (v : Poly) (fuel : Nat) (r : Poly) :
    nextStep? v (longDivision v fuel r).2 = none ∨ (longDivision v fuel r).1.length = fuel := by
  induction fuel generalizing r with
  | zero => exact .inr rfl
  | succ fuel ih =>
    cases ht : nextStep? v r with
    | none =>
      rw [longDivision_of_none ht]
      exact .inl ht
    | some t =>
      rw [longDivision_of_some ht]
      exact (ih (r - v.mulTerm t)).imp_right (congrArg Nat.succ)

section End
variable {u v : Poly} {U V : ℚ[X]} (hu : u.Represents U) (hv : v.Represents V) (hV : V ≠ 0)
include hu hv hV

theorem DivState.exists_final : ∃ ts r, DivState u v ts r ∧ nextStep? v r = none ∧ Poly.divMod u v = (⟨ts⟩, r) := by
  have h0 : v.isZero = false := by
    rw [Bool.eq_false_iff, ne_eq, hv.isZero_iff]
    exact hV
  have hrun : DivState u v _ _ := DivState.start.run (stepBound v u)
  refine ⟨_, _, hrun, ?_, divMod_def hu.not_nan hv.not_nan h0⟩
  rcases longDivision_ended_or_length_eq v (stepBound v u) u with hend | hlen
  · exact hend
  · -- a step that is left when the bound is used up would make the list longer than it can be
    rw [Option.eq_none_iff_forall_ne_some]
    intro t ht
    obtain ⟨Q, R, hinv⟩ := (hrun.step ht).loopInvariant hu hv hV
    have := hinv.length_le
    rw [List.length_append, List.nil_append, hlen, stepBound, hu.degree_eq, hv.degree_eq, List.length_singleton] at this
    omega

theorem Represents.divMod : (Poly.divMod u v).1.Represents (U / V) ∧ (Poly.divMod u v).2.Represents (U % V) := by
  obtain ⟨ts, r, hstate, hend, heq⟩ := DivState.exists_final hu hv hV
  obtain ⟨Q, R, hinv⟩ := hstate.loopInvariant hu hv hV
  obtain ⟨rfl, rfl⟩ := div_mod_unique hinv.sum_eq ((nextStep?_eq_none_iff hv hinv.remainder hV).mp hend)
  rw [heq]
  exact ⟨hinv.quotient, hinv.remainder⟩

end End

end ExactPoly.Poly
