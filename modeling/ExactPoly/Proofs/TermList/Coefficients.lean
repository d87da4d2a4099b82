import Mathlib.Tactic.Abel
import ExactPoly.Proofs.TermList.Canonical

/-!
# Coefficients of a list of terms

The coefficient of a list at an exponent is a scalar, the sum of the coefficients of its terms there. Scalars are a
commutative monoid under addition, so this view also holds for lists with a NaN term.

* `coeffAt_insert`, `coeffAt_insertAll` : an insertion adds the coefficient of the term;
* `Canonical.mem_iff_coeffAt`, `Canonical.eq_of_coeffAt_eq` : a canonical list is determined by its coefficients;
* `insertAll_perm` : the order of insertions does not matter.
-/

namespace ExactPoly

/-- The coefficient of the term at an exponent, zero at every other one than its own. -/
def Term.coeffAt (t : Term) (e : Nat) : Scalar := if t.expt = e then t.coeff else 0

theorem Term.coeffAt_expt (t : Term) : t.coeffAt t.expt = t.coeff := if_pos rfl

theorem Term.coeffAt_of_ne {t : Term} {e : Nat} (h : t.expt ≠ e) : t.coeffAt e = 0 := if_neg h

theorem Term.coeffAt_of_zero {t : Term} (h : t.coeff = 0) (e : Nat) : t.coeffAt e = 0 := by
  rw [coeffAt, h, ite_self]

theorem Term.coeffAt_add {s t : Term} (h : s.expt = t.expt) (e : Nat) :
    (monomial (s.coeff + t.coeff) s.expt).coeffAt e = s.coeffAt e + t.coeffAt e := by
  have hcoeff := coeff_monomial (s.coeff + t.coeff) s.expt
  by_cases h0 : s.coeff + t.coeff = 0
  · rw [coeffAt_of_zero (hcoeff.trans h0), coeffAt, coeffAt, h]
    split
    · exact h0.symm
    · exact (add_zero 0).symm
  · rw [coeffAt, expt_monomial_add h h0, hcoeff, coeffAt, coeffAt, h]
    split
    · rfl
    · exact (add_zero 0).symm

namespace TermList

/-- The sum of the coefficients of the terms with exponent `e`. -/
def coeffAt (l : List Term) (e : Nat) : Scalar := (l.map (·.coeffAt e)).sum

theorem coeffAt_cons (t : Term) (l : List Term) (e : Nat) : coeffAt (t :: l) e = t.coeffAt e + coeffAt l e :=
  List.sum_cons

theorem coeffAt_perm {l l' : List Term} (h : l.Perm l') (e : Nat) : coeffAt l e = coeffAt l' e :=
  (h.map _).sum_eq

/-! ## Insertion -/

theorem coeffAt_merge (t : Term) (l : List Term) (e : Nat) : coeffAt (merge t l) e = t.coeffAt e + coeffAt l e := by
  induction l with
  | nil => exact coeffAt_cons t [] e
  | cons s l ih =>
    rcases lt_trichotomy t.expt s.expt with h | h | h
    · rw [merge_cons_of_lt l h, coeffAt_cons, ih, coeffAt_cons, add_left_comm]
    · have hadd := Term.coeffAt_add h.symm e
      have hsum : (Term.monomial (s.coeff + t.coeff) s.expt).coeffAt e + coeffAt l e =
          t.coeffAt e + coeffAt (s :: l) e := by
        rw [hadd, coeffAt_cons]
        abel
      rw [merge_cons_of_eq l h.symm]
      split
      · next h0 => rwa [Term.coeffAt_of_zero ((Term.coeff_monomial _ _).trans h0), zero_add] at hsum
      · rwa [coeffAt_cons]
    · rw [merge_cons_of_gt l h, coeffAt_cons]

theorem coeffAt_insert (t : Term) (l : List Term) (e : Nat) : coeffAt (insert t l) e = t.coeffAt e + coeffAt l e := by
  unfold insert
  split
  · next h => rw [Term.coeffAt_of_zero (by simpa using h), zero_add]
  · exact coeffAt_merge t l e

theorem coeffAt_insertAll (l ts : List Term) (e : Nat) : coeffAt (insertAll l ts) e = coeffAt l e + coeffAt ts e := by
  induction ts generalizing l with
  | nil => exact (add_zero _).symm
  | cons t ts ih =>
    have hstep : insertAll l (t :: ts) = insertAll (insert t l) ts := rfl
    rw [hstep, ih, coeffAt_insert, coeffAt_cons]
    abel

/-! ## The coefficients of a canonical list -/

theorem coeffAt_of_ne {l : List Term} {e : Nat} (h : ∀ t ∈ l, t.expt ≠ e) : coeffAt l e = 0 := by
  induction l with
  | nil => rfl
  | cons t l ih =>
    rw [coeffAt_cons, Term.coeffAt_of_ne (h t (by simp)), zero_add]
    exact ih fun u hu => h u (by simp [hu])

theorem Canonical.coeffAt_expt {l : List Term} (hl : Canonical l) {t : Term} (ht : t ∈ l) :
    coeffAt l t.expt = t.coeff := by
  induction l with
  | nil => simp at ht
  | cons s l ih =>
    obtain ⟨-, hlt, hl'⟩ := canonical_cons.mp hl
    rw [coeffAt_cons]
    rcases List.mem_cons.mp ht with rfl | ht
    · rw [coeffAt_of_ne fun u hu => (hlt u hu).ne, add_zero, Term.coeffAt_expt]
    · rw [Term.coeffAt_of_ne (hlt t ht).ne', zero_add, ih hl' ht]

/-- The terms of a canonical list are its coefficients that are not zero. -/
theorem Canonical.mem_iff_coeffAt {l : List Term} (hl : Canonical l) {t : Term} :
    t ∈ l ↔ coeffAt l t.expt = t.coeff ∧ t.coeff ≠ 0 := by
  constructor
  · intro ht
    exact ⟨hl.coeffAt_expt ht, hl.ne_zero t ht⟩
  · rintro ⟨hc, h0⟩
    obtain ⟨s, hs, he⟩ : ∃ s ∈ l, s.expt = t.expt := by
      by_contra hno
      rw [coeffAt_of_ne fun s hs he => hno ⟨s, hs, he⟩] at hc
      exact h0 hc.symm
    have hst : s = t := by
      apply Term.ext _ he
      rw [← hl.coeffAt_expt hs, he, hc]
    exact hst ▸ hs

theorem Canonical.eq_of_coeffAt_eq {l l' : List Term} (hl : Canonical l) (hl' : Canonical l')
    (h : ∀ e, coeffAt l e = coeffAt l' e) : l = l' := by
  apply hl.eq_of_mem_iff hl'
  intro t
  rw [hl.mem_iff_coeffAt, hl'.mem_iff_coeffAt, h]

/-- Every order of the same insertions adds up the same coefficients. -/
theorem insertAll_perm {l ts ts' : List Term} (hl : Canonical l) (h : ts.Perm ts') :
    insertAll l ts = insertAll l ts' := by
  apply (hl.insertAll ts).eq_of_coeffAt_eq (hl.insertAll ts')
  intro e
  rw [coeffAt_insertAll, coeffAt_insertAll, coeffAt_perm h]

end TermList

end ExactPoly
