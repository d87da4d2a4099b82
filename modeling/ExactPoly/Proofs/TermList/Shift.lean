import Mathlib.Algebra.BigOperators.Group.Finset.Piecewise
import ExactPoly.Proofs.TermList.Insertion

/-!
# Shifts fold terms into the constant

A shift moves every term to its exponent plus `d`, or to exponent zero where that is negative, and adds up the terms that
meet there.

* `shiftExpt`, `Term.shift` : where a term goes;
* `coeffAt_shift` : the coefficients after a shift are those of the moved terms, before any two of them are added up;
* `coeffAt_map_shift`, `sum_coeff_filter` : as sums over the terms of the list, and over its coefficients;
* `shift_shift_of_le`, `shift_shift_of_nonneg` : two shifts are one, when the second is downwards or both are upwards;
* `shift_folds` : all of it for canonical lists without a NaN term.
-/

namespace ExactPoly

/-- The exponent `e` plus `d`, at least zero. -/
def shiftExpt (d : Int) (e : Nat) : Nat := (e + d).toNat

/-- A second shift goes on from the first one, unless it goes up from a negative exponent. -/
theorem shiftExpt_shiftExpt {d d' : Int} (h : d' ≤ 0 ∨ 0 ≤ d) (e : Nat) :
    shiftExpt d' (shiftExpt d e) = shiftExpt (d + d') e := by
  unfold shiftExpt
  omega

/-! ## Moved terms -/

namespace Term

/-- The term at its exponent plus `d`. -/
def shift (d : Int) (t : Term) : Term := t.withExpt (shiftExpt d t.expt)

theorem shift_zero (t : Term) : t.shift 0 = t := by
  have he : shiftExpt 0 t.expt = t.expt := by simp [shiftExpt]
  rw [shift, he]
  exact t.monomial_eta

theorem coeff_shift (d : Int) (t : Term) : (t.shift d).coeff = t.coeff := coeff_withExpt _ _

section Shift
variable {d : Int} {t : Term} (h : (t.expt : Int) + d ≤ maxExpt)
include h

theorem shiftExpt_le : shiftExpt d t.expt ≤ maxExpt := by
  unfold shiftExpt
  omega

theorem expt_shift (h0 : t.coeff ≠ 0) (hn : t.coeff ≠ .nan) : (t.shift d).expt = shiftExpt d t.expt :=
  expt_withExpt h0 hn (shiftExpt_le h)

theorem coeffAt_shift (hn : t.coeff ≠ .nan) (e : Nat) :
    (t.shift d).coeffAt e = if shiftExpt d t.expt = e then t.coeff else 0 := by
  by_cases h0 : t.coeff = 0
  · rw [coeffAt_of_zero ((coeff_shift d t).trans h0), h0, ite_self]
  · rw [coeffAt, expt_shift h h0 hn, coeff_shift]

theorem shift_shift {d' : Int} (hd : d' ≤ 0 ∨ 0 ≤ d) (h0 : t.coeff ≠ 0) (hn : t.coeff ≠ .nan) :
    (t.shift d).shift d' = t.shift (d + d') := by
  have hexpt : shiftExpt d' (t.shift d).expt = shiftExpt (d + d') t.expt := by
    rw [expt_shift h h0 hn, shiftExpt_shiftExpt hd]
  show monomial (t.shift d).coeff (shiftExpt d' (t.shift d).expt) = monomial t.coeff (shiftExpt (d + d') t.expt)
  rw [coeff_shift, hexpt]

end Shift

end Term

namespace TermList

/-! ## Coefficients of moved terms -/

theorem coeffAt_append (l l' : List Term) (e : Nat) : coeffAt (l ++ l') e = coeffAt l e + coeffAt l' e := by
  rw [coeffAt, List.map_append, List.sum_append]
  rfl

theorem coeffAt_shift {d : Int} {l : List Term} (h : ∀ t ∈ l, (t.expt : Int) + d ≤ maxExpt) (e : Nat) :
    coeffAt (shift d l) e = coeffAt (l.map (Term.shift d)) e := by
  by_cases hd : d = 0
  · rw [hd, shift_zero, List.map_congr_left fun t _ => t.shift_zero, List.map_id']
  have hlow : (l.filter fun t => (t.expt : Int) + d ≤ 0).map (·.withExpt 0) =
      (l.filter fun t => !decide (0 < (t.expt : Int) + d)).map (Term.shift d) := by
    have hfilter : (l.filter fun t => (t.expt : Int) + d ≤ 0) = l.filter fun t => !decide (0 < (t.expt : Int) + d) :=
      List.filter_congr fun t _ => by rw [← decide_not, decide_eq_decide, not_lt]
    rw [← hfilter]
    refine List.map_congr_left fun t ht => ?_
    have hle : (t.expt : Int) + d ≤ 0 := by simpa using (List.mem_filter.mp ht).2
    rw [Term.shift, shiftExpt, Int.toNat_of_nonpos hle]
  have hhigh : (fun t : Term => t.withExpt (t.expt + d).toNat) = Term.shift d := rfl
  -- the terms that stay above zero and those that fold are all the moved terms, in another order
  rw [shift_of_le hd h, coeffAt_insertAll, ← coeffAt_append, hlow, hhigh, ← List.map_append]
  exact coeffAt_perm ((List.filter_append_perm _ l).map _) e

theorem coeffAt_map_shift {d : Int} {l : List Term} (hn : ∀ t ∈ l, t.coeff ≠ .nan)
    (h : ∀ t ∈ l, (t.expt : Int) + d ≤ maxExpt) (e : Nat) :
    coeffAt (l.map (Term.shift d)) e = ((l.filter fun t => shiftExpt d t.expt = e).map Term.coeff).sum := by
  induction l with
  | nil => rfl
  | cons t l ih =>
    have ih' := ih (fun u hu => hn u (by simp [hu])) fun u hu => h u (by simp [hu])
    rw [List.map_cons, coeffAt_cons, Term.coeffAt_shift (h t (by simp)) (hn t (by simp)), ih', List.filter_cons]
    by_cases he : shiftExpt d t.expt = e
    · simp [he]
    · simp [he]

/-- The terms of some exponents add up to the coefficients at these exponents. -/
theorem sum_coeff_filter (w : Nat → Prop) [DecidablePred w] {n : Nat} {l : List Term} (hlt : ∀ t ∈ l, t.expt < n) :
    ((l.filter fun t => w t.expt).map Term.coeff).sum = ∑ e ∈ Finset.range n with w e, coeffAt l e := by
  induction l with
  | nil => exact (Finset.sum_const_zero).symm
  | cons t l ih =>
    have hterm : ∑ e ∈ Finset.range n with w e, t.coeffAt e = if w t.expt then t.coeff else 0 := by
      simp only [Term.coeffAt, Finset.sum_ite_eq, Finset.mem_filter, Finset.mem_range, hlt t (by simp), true_and]
    simp only [coeffAt_cons]
    rw [Finset.sum_add_distrib, hterm, ← ih fun u hu => hlt u (by simp [hu]), List.filter_cons]
    by_cases hw : w t.expt
    · simp [hw]
    · simp [hw]

/-- Moved terms have coefficients that only depend on those before the move. -/
theorem coeffAt_map_shift_congr {d : Int} {l l' : List Term} (hn : ∀ t ∈ l, t.coeff ≠ .nan) (hn' : ∀ t ∈ l', t.coeff ≠ .nan)
    (h : ∀ t ∈ l, (t.expt : Int) + d ≤ maxExpt) (h' : ∀ t ∈ l', (t.expt : Int) + d ≤ maxExpt)
    (heq : ∀ e, coeffAt l e = coeffAt l' e) (e : Nat) :
    coeffAt (l.map (Term.shift d)) e = coeffAt (l'.map (Term.shift d)) e := by
  have hlt : ∀ t : Term, t.expt < maxExpt + 1 := fun t => Nat.lt_succ_of_le t.expt_le
  rw [coeffAt_map_shift hn h, coeffAt_map_shift hn' h', sum_coeff_filter (shiftExpt d · = e) fun t _ => hlt t,
    sum_coeff_filter (shiftExpt d · = e) fun t _ => hlt t]
  exact Finset.sum_congr rfl fun e _ => heq e

/-! ## The exponents after a shift -/

theorem Canonical.forall_expt_add_le_iff {l : List Term} (hl : Canonical l) (d : Int) :
    (∀ t ∈ l, (t.expt : Int) + d ≤ maxExpt) ↔ ∀ s ∈ l.head?, (s.expt : Int) + d ≤ maxExpt := by
  cases l with
  | nil => simp
  | cons s l =>
    obtain ⟨-, hlt, -⟩ := canonical_cons.mp hl
    simp only [List.forall_mem_cons, List.head?_cons, Option.mem_some_iff, forall_eq']
    refine and_iff_left_of_imp fun hs t ht => ?_
    have := hlt t ht
    omega

theorem shift_nan (d : Int) : shift d [.nan] = [.nan] := by
  rcases lt_or_ge (maxExpt : Int) d with hlt | hle
  · exact shift_of_overflow ⟨.nan, by simp, by simpa [Term.nan] using hlt⟩
  rcases lt_or_ge d 0 with hneg | hpos
  · have hd : d ≤ 0 := hneg.le
    rw [shift_of_le hneg.ne (by simpa [Term.nan] using hle)]
    simp [Term.nan, hd, hd.not_gt]
    rfl
  · obtain ⟨k, rfl⟩ := Int.eq_ofNat_of_zero_le hpos
    rw [shift_natCast (by simpa [Term.nan] using hle), List.map_cons, Term.withExpt_nan, List.map_nil]

section Shift
variable {d : Int} {l : List Term} (hl : Canonical l) (hn : ∀ t ∈ l, t.coeff ≠ .nan)
  (h : ∀ t ∈ l, (t.expt : Int) + d ≤ maxExpt)
include hl hn h

theorem expt_mem_shift {u : Term} (hu : u ∈ shift d l) : ∃ t ∈ l, shiftExpt d t.expt = u.expt := by
  by_contra hno
  have hempty : (l.filter fun t => shiftExpt d t.expt = u.expt) = [] :=
    List.filter_eq_nil_iff.mpr fun t ht he => hno ⟨t, ht, by simpa using he⟩
  have hcoeff := (hl.shift d).coeffAt_expt hu
  rw [coeffAt_shift h, coeffAt_map_shift hn h, hempty] at hcoeff
  exact (hl.shift d).ne_zero u hu hcoeff.symm

theorem storedCoeff_shift (e : Nat) :
    storedCoeff (shift d l) e = ((l.filter fun t => max ((t.expt : Int) + d) 0 = e).map Term.coeff).sum := by
  rw [(hl.shift d).storedCoeff_eq, coeffAt_shift h, coeffAt_map_shift hn h]
  congr 2
  refine List.filter_congr fun t _ => decide_eq_decide.mpr ?_
  unfold shiftExpt
  omega

/-! ## Two shifts -/

/-- Both sides move the same terms; that the first shift has added some of them up makes no difference. -/
theorem shift_shift_of_le {d' : Int} (hd : d' ≤ 0 ∨ 0 ≤ d) (h' : ∀ t ∈ l, (t.expt : Int) + (d + d') ≤ maxExpt) :
    shift d' (shift d l) = shift (d + d') l := by
  have hfirst : ∀ u ∈ shift d l, (u.expt : Int) + d' ≤ maxExpt := by
    intro u hu
    obtain ⟨t, ht, he⟩ := expt_mem_shift hl hn h hu
    have hle := h' t ht
    unfold shiftExpt at he
    omega
  have hmoved : ∀ u ∈ l.map (Term.shift d), u.coeff ≠ .nan ∧ (u.expt : Int) + d' ≤ maxExpt := by
    intro u hu
    obtain ⟨t, ht, rfl⟩ := List.mem_map.mp hu
    have hle := h' t ht
    rw [Term.coeff_shift, Term.expt_shift (h t ht) (hl.ne_zero t ht) (hn t ht)]
    refine ⟨hn t ht, ?_⟩
    unfold shiftExpt
    omega
  have hnan : (shift d l).any Term.isNaN = false := by rw [any_isNaN_shift h, any_isNaN_eq_false_iff.mpr hn]
  have htwice : ∀ t ∈ l, (Term.shift d' ∘ Term.shift d) t = Term.shift (d + d') t := fun t ht =>
    Term.shift_shift (h t ht) hd (hl.ne_zero t ht) (hn t ht)
  apply ((hl.shift d).shift d').eq_of_coeffAt_eq (hl.shift _)
  intro e
  calc coeffAt (shift d' (shift d l)) e
      = coeffAt ((shift d l).map (Term.shift d')) e := coeffAt_shift hfirst e
    _ = coeffAt ((l.map (Term.shift d)).map (Term.shift d')) e :=
        coeffAt_map_shift_congr (any_isNaN_eq_false_iff.mp hnan) (fun u hu => (hmoved u hu).1) hfirst
          (fun u hu => (hmoved u hu).2) (coeffAt_shift h) e
    _ = coeffAt (l.map (Term.shift (d + d'))) e := by rw [List.map_map, List.map_congr_left htwice]
    _ = coeffAt (shift (d + d') l) e := (coeffAt_shift h' e).symm

end Shift

/-- Upwards, the sum of two shifts overflows exactly if one of them does. -/
theorem shift_shift_of_nonneg {d d' : Nat} {l : List Term} (hl : Canonical l) (hn : ∀ t ∈ l, t.coeff ≠ .nan) :
    shift d' (shift d l) = shift (d + d' : Int) l := by
  by_cases hover : ∃ t ∈ l, (maxExpt : Int) < t.expt + d
  · obtain ⟨t, ht, hlt⟩ := hover
    rw [shift_of_overflow ⟨t, ht, hlt⟩, shift_nan, shift_of_overflow ⟨t, ht, by omega⟩]
  have h : ∀ t ∈ l, (t.expt : Int) + d ≤ maxExpt := fun t ht => not_lt.mp fun hlt => hover ⟨t, ht, hlt⟩
  by_cases hover' : ∃ t ∈ l, (maxExpt : Int) < t.expt + (d + d' : Int)
  · obtain ⟨t, ht, hlt⟩ := hover'
    have hle : t.expt + d ≤ maxExpt := mod_cast h t ht
    have hmem : t.withExpt (t.expt + d) ∈ shift d l := by
      rw [shift_natCast (mod_cast h)]
      exact List.mem_map_of_mem (f := fun t => t.withExpt (t.expt + d)) ht
    have hexpt := Term.expt_withExpt (hl.ne_zero t ht) (hn t ht) hle
    rw [shift_of_overflow ⟨t, ht, hlt⟩, shift_of_overflow ⟨_, hmem, by omega⟩]
  · exact shift_shift_of_le hl hn h (.inr (by omega)) fun t ht => not_lt.mp fun hlt => hover' ⟨t, ht, hlt⟩

/--
The head of the list has its largest exponent. A shift by `d` is over all integers here. It stands for the one that adds
64-bit numbers where `|d| ≤ 2 ^ 62` (`Term.toInt_expt_add`); for two shifts this is asked of `d`, `d'` and `d + d'`.
-/
theorem shift_folds {l : List Term} (hl : Canonical l) (hn : l.any Term.isNaN = false) (d : Int) :
    ((∃ s ∈ l.head?, (maxExpt : Int) < s.expt + d) → shift d l = [.nan]) ∧
    ((∀ s ∈ l.head?, (s.expt : Int) + d ≤ maxExpt) →
      Canonical (shift d l) ∧ (shift d l).any Term.isNaN = false ∧
      ∀ e : Nat, storedCoeff (shift d l) e =
        ((l.filter fun t => max ((t.expt : Int) + d) 0 = e).map Term.coeff).sum) ∧
    (∀ d' : Int, (d' ≤ 0 ∧ ∀ s ∈ l.head?, (s.expt : Int) + d ≤ maxExpt) ∨ (0 ≤ d ∧ 0 ≤ d') →
      shift d' (shift d l) = shift (d + d') l) := by
  have hcoeff := any_isNaN_eq_false_iff.mp hn
  refine ⟨?_, fun hhead => ?_, fun d' hd => ?_⟩
  · rintro ⟨s, hs, hlt⟩
    exact shift_of_overflow ⟨s, List.mem_of_mem_head? hs, hlt⟩
  · have h := (hl.forall_expt_add_le_iff d).mpr hhead
    refine ⟨hl.shift d, ?_, storedCoeff_shift hl hcoeff h⟩
    rw [any_isNaN_shift h, hn]
  · rcases hd with ⟨hneg, hhead⟩ | ⟨hpos, hpos'⟩
    · have h := (hl.forall_expt_add_le_iff d).mpr hhead
      refine shift_shift_of_le hl hcoeff h (.inl hneg) fun t ht => ?_
      have := h t ht
      omega
    · obtain ⟨k, rfl⟩ := Int.eq_ofNat_of_zero_le hpos
      obtain ⟨k', rfl⟩ := Int.eq_ofNat_of_zero_le hpos'
      exact shift_shift_of_nonneg hl hcoeff

/-- Two terms meet at exponent zero and cancel, and the largest exponent leaves the range. -/
theorem shift_folds_cancelled :
    let l := [.monomial (.ofInt 2) 3, .monomial 1 1, .const (-1)]
    Canonical l ∧ storedCoeff (shift (-1) l) 0 = 0 ∧ storedCoeff (shift (-1) l) 2 = .ofInt 2 ∧
    shift 4294967293 l = [.nan] ∧ shift (-2) (shift (-1) l) = shift (-3) l := by
  intro l
  have hl : Canonical l := ⟨by decide +kernel, by decide +kernel⟩
  have hn : l.any Term.isNaN = false := by decide +kernel
  have hhead : ∀ s ∈ l.head?, (s.expt : Int) + -1 ≤ maxExpt := by decide +kernel
  obtain ⟨-, hdown, htwice⟩ := shift_folds hl hn (-1)
  obtain ⟨-, -, hcoeff⟩ := hdown hhead
  refine ⟨hl, (hcoeff 0).trans (by decide +kernel), (hcoeff 2).trans (by decide +kernel), ?_, ?_⟩
  · exact (shift_folds hl hn 4294967293).1 ⟨_, rfl, by decide +kernel⟩
  · exact htwice (-2) (.inl ⟨by decide, hhead⟩)

end TermList

end ExactPoly
